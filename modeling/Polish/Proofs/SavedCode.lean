import Polish.Proofs.Listing

/-!
# Code that is saved and executed later

Compiled code is saved as a listing, read back and run. This keeps the outcome as long as the
listing is read back as the code it shows. What can go wrong is in the names: one with white space
inside is not read at all, and one with white space at its end comes back as a shorter name.

* `SameOutcome`: what a later run has in common with a run now.
* `Survives`: the code can be read back, and then has the same outcome.
* `Machine.names_of_execCode`, `Machine.bound_of_execCode`: code that completes binds exactly the
  names in it, so a name that is lost shows in the table.
* `survives_of_isStorable`, `isStorable_of_survives`: what it takes to survive. If the run
  completes, no name may change.
-/

namespace Polish

/-- What a later run has in common with a run now: the prints, the size of the stack, the table of a
run that completes, and the cause of a failure. -/
structure SameOutcome (r s : MachineRun) : Prop where
  succeeds : r.failure = none ↔ s.failure = none
  prints : r.machine.prints = s.machine.prints
  depth : r.machine.stack.length = s.machine.stack.length
  store : r.failure = none → r.machine.store = s.machine.store
  fails : ∀ f g, r.failure = some f → s.failure = some g →
    f.code = g.code ∧ f.fault.message = g.fault.message ∧ f.fault.value? = g.fault.value?

theorem SameOutcome.refl (r : MachineRun) : SameOutcome r r where
  succeeds := Iff.rfl
  prints := rfl
  depth := rfl
  store _ := rfl
  fails f g hf hg := by
    rw [hf] at hg
    cases hg
    exact ⟨rfl, rfl, rfl⟩

/-- The code, saved as a listing in a file, can be read back, and the run of what is read has the
outcome of the run of the code. -/
def Survives (file : Bytes) (watch : Watch) (reports : Nat) (code : List Instr) : Prop :=
  ∃ prog, assemble file (listing code) = .ok prog ∧
    SameOutcome (Machine.run watch reports code) (Machine.run watch reports prog)

/-! ### The names in the table -/

/-- Does the instruction read or bind its name? -/
def Instr.IsNamed (i : Instr) : Prop := ∃ o, i.operation? = some o ∧ o.operand = .name

namespace Machine

variable {m m' : Machine} {i : Instr} {code : List Instr}

theorem pop_store {v : Int64} (h : m.pop i = .ok (v, m')) : m'.store = m.store := by
  unfold pop at h
  split at h
  · cases h
  · cases h
    rfl

theorem finish_eq_ok {result : Except Fault Int64} (h : m.finish result = .ok m') :
    ∃ v, result = .ok v ∧ m' = m.push v := by
  cases result with
  | error f => cases h
  | ok v =>
    cases h
    exact ⟨v, rfl, rfl⟩

/-- What one instruction does to the table: it leaves it as it is, or binds its name. A name that it
reads has a value. -/
theorem step_store_cases (h : m.step i = .ok m') :
    (m'.store = m.store ∧ (i.IsNamed → (m.store.get? i.name).isSome = true)) ∨
      ∃ v, m'.store = m.store.put i.name v := by
  have hplain : ∀ {o : Operation}, i.operation? = some o → o.operand ≠ .name → ¬ i.IsNamed := by
    rintro o ho hoperand ⟨o', ho', hname⟩
    rw [ho] at ho'
    cases ho'
    exact hoperand hname
  unfold step at h
  split at h
  · cases h
  · next ho =>
    cases h
    exact .inl ⟨rfl, fun hnamed => absurd hnamed (hplain ho (by decide))⟩
  · obtain ⟨v, hget, rfl⟩ := finish_eq_ok h
    refine .inl ⟨rfl, fun _ => ?_⟩
    unfold Store.get at hget
    split at hget
    · next hsome => rw [hsome]; rfl
    · cases hget
  · obtain ⟨⟨v, rest⟩, hpop, h⟩ := Result.bind_eq_ok.mp h
    cases h
    exact .inr ⟨v, by rw [← pop_store hpop]⟩
  · next ho =>
    obtain ⟨⟨b, rest⟩, hpop, h⟩ := Result.bind_eq_ok.mp h
    obtain ⟨⟨a, rest'⟩, hpop', h⟩ := Result.bind_eq_ok.mp h
    obtain ⟨v, -, rfl⟩ := finish_eq_ok h
    have hstore := (pop_store hpop').trans (pop_store hpop)
    exact .inl ⟨hstore, fun hnamed => absurd hnamed (hplain ho (by simp [Operation.operand]))⟩
  · next ho =>
    obtain ⟨⟨a, rest⟩, hpop, h⟩ := Result.bind_eq_ok.mp h
    obtain ⟨v, -, rfl⟩ := finish_eq_ok h
    have hstore := pop_store hpop
    exact .inl ⟨hstore, fun hnamed => absurd hnamed (hplain ho (by simp [Operation.operand]))⟩
  · next ho =>
    obtain ⟨⟨v, rest⟩, hpop, h⟩ := Result.bind_eq_ok.mp h
    cases h
    have hstore := pop_store hpop
    exact .inl ⟨hstore, fun hnamed => absurd hnamed (hplain ho (by decide))⟩

/-- An instruction unbinds no name. -/
theorem isSome_get?_step (h : m.step i = .ok m') {name : Bytes}
    (hname : (m.store.get? name).isSome = true) : (m'.store.get? name).isSome = true := by
  rcases step_store_cases h with ⟨hsame, -⟩ | ⟨v, hput⟩
  · rw [hsame]
    exact hname
  · rw [hput, NameMap.get?_put]
    split
    · rfl
    · exact hname

/-- After an instruction that uses its name, the name has a value. -/
theorem isSome_get?_of_isNamed (h : m.step i = .ok m') (hnamed : i.IsNamed) :
    (m'.store.get? i.name).isSome = true := by
  rcases step_store_cases h with ⟨hsame, hread⟩ | ⟨v, hput⟩
  · rw [hsame]
    exact hread hnamed
  · rw [hput, NameMap.get?_put_self]
    rfl

theorem isSome_get?_execCode (h : m.execCode code = .ok m') {name : Bytes}
    (hname : (m.store.get? name).isSome = true) : (m'.store.get? name).isSome = true := by
  induction code generalizing m with
  | nil =>
    cases h
    exact hname
  | cons i code ih =>
    rw [execCode_cons] at h
    obtain ⟨m₁, hstep, hrest⟩ := Result.bind_eq_ok.mp h
    exact ih hrest (isSome_get?_step hstep hname)

/-- Code that completes leaves a value for every name in it. -/
theorem bound_of_execCode (h : m.execCode code = .ok m') :
    ∀ i ∈ code, i.IsNamed → (m'.store.get? i.name).isSome = true := by
  induction code generalizing m with
  | nil =>
    intro i hi
    cases hi
  | cons j code ih =>
    rw [execCode_cons] at h
    obtain ⟨m₁, hstep, hrest⟩ := Result.bind_eq_ok.mp h
    intro i hi hnamed
    rcases List.mem_cons.mp hi with rfl | hi
    · exact isSome_get?_execCode hrest (isSome_get?_of_isNamed hstep hnamed)
    · exact ih hrest i hi hnamed

/-- Code binds no names but those in it. -/
theorem names_of_execCode (h : m.execCode code = .ok m') {name : Bytes}
    (hname : (m'.store.get? name).isSome = true) :
    (m.store.get? name).isSome = true ∨ ∃ i ∈ code, i.name = name := by
  induction code generalizing m with
  | nil =>
    cases h
    exact .inl hname
  | cons i code ih =>
    rw [execCode_cons] at h
    obtain ⟨m₁, hstep, hrest⟩ := Result.bind_eq_ok.mp h
    rcases ih hrest with hbound | ⟨j, hj, hjname⟩
    · rcases step_store_cases hstep with ⟨hsame, -⟩ | ⟨v, hput⟩
      · rw [hsame] at hbound
        exact .inl hbound
      · -- the instruction has bound its own name, or the name had a value before
        by_cases heq : name = i.name
        · exact .inr ⟨i, List.mem_cons_self, heq.symm⟩
        · rw [hput, NameMap.get?_put, if_neg heq] at hbound
          exact .inl hbound
    · exact .inr ⟨j, List.mem_cons_of_mem i hj, hjname⟩

/-- A watched run that completes has executed all the code. -/
theorem execCode_of_runFrom {watch : Watch} {pc reports : Nat}
    (h : (runFrom watch pc reports code m).failure = none) :
    m.execCode code = .ok (runFrom watch pc reports code m).machine := by
  induction code generalizing pc reports m with
  | nil => rfl
  | cons i code ih =>
    rw [runFrom] at h ⊢
    split at h
    · cases h
    · next hfree =>
      rw [if_neg hfree, execCode_cons]
      cases hstep : m.step i with
      | error stuck =>
        rw [hstep] at h
        cases h
      | ok m₁ =>
        rw [hstep] at h
        exact ih h

end Machine

/-! ### Names that survive -/

namespace Instr.IsProper

variable {i : Instr}

/-- The name of an instruction that uses none is empty. -/
theorem isNamed_or_name_eq_nil (h : i.IsProper) : i.IsNamed ∨ i.name = [] := by
  cases h with
  | plain _ | push _ => exact .inr rfl
  | @named o name ho _ => exact .inl ⟨o, Operation.ofNumber?_number o, ho⟩

theorem startsSolid_or_name_eq_nil (h : i.IsProper) : i.name.StartsSolid ∨ i.name = [] := by
  cases h with
  | plain _ | push _ => exact .inr rfl
  | named _ hname => exact .inl hname.startsSolid

theorem trim_trim_name (h : i.IsProper) : i.name.trim.trim = i.name.trim := by
  rcases h.startsSolid_or_name_eq_nil with hstart | hnil
  · exact Bytes.trim_trim hstart
  · rw [hnil]
    rfl

/-- An instruction can be stored if it can be read back and keeps its name. -/
theorem isStorable_iff (h : i.IsProper) :
    i.IsStorable ↔ i.IsReadable ∧ i.name.trim = i.name := by
  have hsolid : i.name.isSolid = true → i.name.trim = i.name := by
    intro hsolid
    rcases h.startsSolid_or_name_eq_nil with hstart | hnil
    · exact Bytes.trim_of_isSolid hstart hsolid
    · rw [hnil]
      rfl
  constructor
  · rintro ⟨hname, hline⟩
    have htrim := hsolid hname
    exact ⟨⟨by rw [htrim]; exact hname, hline⟩, htrim⟩
  · rintro ⟨⟨hname, hline⟩, htrim⟩
    rw [htrim] at hname
    exact ⟨hname, hline⟩

end Instr.IsProper

theorem Instr.trimmed_eq_self {i : Instr} : i.trimmed = i ↔ i.name.trim = i.name := by
  constructor
  · exact congrArg Instr.name
  · intro h
    rw [trimmed, h]

theorem map_trimmed_eq_self {code : List Instr} :
    code.map Instr.trimmed = code ↔ ∀ i ∈ code, i.name.trim = i.name := by
  have hpointwise := List.map_inj_left (f := Instr.trimmed) (g := id) (l := code)
  rw [List.map_id] at hpointwise
  exact hpointwise.trans (forall₂_congr fun i _ => Instr.trimmed_eq_self)

/-- If code and trimmed code both complete with the same table, then trimming changes no name: the
name would be in one table and not in the other. -/
theorem trim_name_of_sameOutcome {code : List Instr} (h : ∀ i ∈ code, i.IsProper) {watch : Watch}
    {reports : Nat} (hnone : (Machine.run watch reports code).failure = none)
    (hsame : SameOutcome (Machine.run watch reports code)
      (Machine.run watch reports (code.map Instr.trimmed))) :
    ∀ i ∈ code, i.name.trim = i.name := by
  intro i hi
  rcases (h i hi).isNamed_or_name_eq_nil with hnamed | hnil
  · -- the name is in the table now, so it is in the later table, where every name is trimmed
    have hbound := Machine.bound_of_execCode (Machine.execCode_of_runFrom hnone) i hi hnamed
    rw [← Machine.run, hsame.store hnone] at hbound
    have hlater := Machine.execCode_of_runFrom (hsame.succeeds.mp hnone)
    rcases Machine.names_of_execCode hlater hbound with hempty | ⟨j, hj, hname⟩
    · cases hempty
    · obtain ⟨k, hk, rfl⟩ := List.mem_map.mp hj
      rw [← hname]
      exact (h k hk).trim_trim_name
  · rw [hnil]
    rfl

/-! ### Code that survives -/

section Saved

variable {code : List Instr} {watch : Watch} {reports : Nat}

/-- A listing is read back as the code it shows exactly when every instruction can be stored. -/
theorem assemble_listing_eq_self (h : ∀ i ∈ code, i.IsProper) (file : Bytes) :
    assemble file (listing code) = .ok code ↔ ∀ i ∈ code, i.IsStorable := by
  rw [assemble_listing_eq_ok h, eq_comm, map_trimmed_eq_self]
  constructor
  · rintro ⟨hreadable, htrim⟩ i hi
    exact (h i hi).isStorable_iff.mpr ⟨hreadable i hi, htrim i hi⟩
  · intro hstorable
    have hboth := fun i hi => (h i hi).isStorable_iff.mp (hstorable i hi)
    exact ⟨fun i hi => (hboth i hi).1, fun i hi => (hboth i hi).2⟩

/-- Code survives exactly when it can be read back and trimming its names does not show. -/
theorem survives_iff_isReadable (h : ∀ i ∈ code, i.IsProper) (file : Bytes) :
    Survives file watch reports code ↔ (∀ i ∈ code, i.IsReadable) ∧
      SameOutcome (Machine.run watch reports code)
        (Machine.run watch reports (code.map Instr.trimmed)) := by
  constructor
  · rintro ⟨prog, hread, hsame⟩
    obtain ⟨hreadable, rfl⟩ := (assemble_listing_eq_ok h file).mp hread
    exact ⟨hreadable, hsame⟩
  · rintro ⟨hreadable, hsame⟩
    exact ⟨_, (assemble_listing_eq_ok h file).mpr ⟨hreadable, rfl⟩, hsame⟩

theorem survives_of_isStorable (h : ∀ i ∈ code, i.IsProper) (file : Bytes)
    (hstorable : ∀ i ∈ code, i.IsStorable) : Survives file watch reports code :=
  ⟨code, (assemble_listing_eq_self h file).mpr hstorable, .refl _⟩

/-- If the run completes, only code that can be stored survives. -/
theorem isStorable_of_survives (h : ∀ i ∈ code, i.IsProper) {file : Bytes}
    (hnone : (Machine.run watch reports code).failure = none)
    (hsurvives : Survives file watch reports code) : ∀ i ∈ code, i.IsStorable := by
  obtain ⟨hreadable, hsame⟩ := (survives_iff_isReadable h file).mp hsurvives
  have htrim := trim_name_of_sameOutcome h hnone hsame
  intro i hi
  exact (h i hi).isStorable_iff.mpr ⟨hreadable i hi, htrim i hi⟩

end Saved

/-- **When saved code survives.** The code of a source, saved and read back, has the outcome of the
code exactly when every name in it, trimmed, is one word, no line is too long, and trimming the
names does not show. It is read back as itself exactly when no name holds white space and no line is
too long; then it survives, and if its run completes, only then. -/
theorem survives_exactly {file source : Bytes} {p : Program}
    (hsource : Program.ofSource file source = .ok p) (saved : Bytes) (watch : Watch)
    (reports : Nat) :
    ∃ code, p.compile = .ok code ∧
      (Survives saved watch reports code ↔ (∀ i ∈ code, i.IsReadable) ∧
        SameOutcome (Machine.run watch reports code)
          (Machine.run watch reports (code.map Instr.trimmed))) ∧
      (assemble saved (listing code) = .ok code ↔ ∀ i ∈ code, i.IsStorable) ∧
      ((∀ i ∈ code, i.IsStorable) → Survives saved watch reports code) ∧
      ((Machine.run watch reports code).failure = none → Survives saved watch reports code →
        ∀ i ∈ code, i.IsStorable) := by
  obtain ⟨ts, hproper, hreads⟩ := Program.ofSource_spec hsource
  obtain ⟨code, hcode⟩ := Program.exists_compile hreads.isWritten
  have hcodeproper : ∀ i ∈ code, i.IsProper :=
    Action.isProper_of_compileAll p.actions hcode (hreads.isName hproper)
  exact ⟨code, hcode, survives_iff_isReadable hcodeproper saved,
    assemble_listing_eq_self hcodeproper saved, survives_of_isStorable hcodeproper saved,
    isStorable_of_survives hcodeproper⟩

/-- A name with a no-break space inside: the source is accepted and its code runs to the end, but
the saved code cannot be read back. -/
theorem survives_exactly_blank :
    let name : Bytes := "a\u00A0b"
    let place (first last : Int) : Span := ⟨"p", 1, first, 1, last⟩
    let p : Program := ⟨place 1 15, [.assign (place 1 9) name (.const (place 8 9) 1),
      .print (place 10 15) (.var (place 12 15) name)]⟩
    let code : List Instr := [.push 1, .store name, .load name, .print]
    Program.ofSource "p" ":= a\u00A0b 1 @ a\u00A0b" = .ok p ∧ p.compile = .ok code ∧
      (Machine.run .unwatched 0 code).failure = none ∧ ¬ Survives "f" .unwatched 0 code := by
  intro name place p code
  have hsource : Program.ofSource "p" ":= a\u00A0b 1 @ a\u00A0b" = .ok p := rfl
  have hcode : p.compile = .ok code := rfl
  obtain ⟨code', hcode', hsurvives, -⟩ := survives_exactly hsource "f" .unwatched 0
  rw [hcode] at hcode'
  cases hcode'
  refine ⟨hsource, hcode, rfl, fun h => ?_⟩
  have hreadable : (Instr.store name).IsReadable :=
    (hsurvives.mp h).1 _ (List.mem_cons_of_mem _ List.mem_cons_self)
  exact absurd hreadable.1 (by decide)

end Polish
