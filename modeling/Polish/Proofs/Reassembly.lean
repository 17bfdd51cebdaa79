import Polish.Proofs.Fields
import Polish.Proofs.Listing

/-!
# Listings that are read back unchanged

Any list of instructions can be written as a listing, but a line shows less than an instruction
holds: an opcode without operation, an operand that is not used and a name that is no word are lost.
An instruction that loses nothing is normal.

Reading is the inverse of writing on normal instructions (`assemble_listing_of_isNormal`), and what
is read is always normal and takes no more room than the line it was read from
(`isNormal_of_assemble`). So the listings that are read back unchanged are those of normal
instructions with short lines, and a listing that was read can be written and read again.
-/

namespace Polish

/-! ### Instructions in normal form -/

/-- An instruction that its line shows in full: it has an operation, no operand but the one the
operation uses, and a name that is a word. -/
structure Instr.IsNormal (i : Instr) : Prop where
  opcode : i.opcode < 10
  value : i.opcode ≠ Operation.push.number → i.value = 0
  unnamed : i.opcode ≠ Operation.load.number → i.opcode ≠ Operation.store.number → i.name = []
  named : i.opcode = Operation.load.number ∨ i.opcode = Operation.store.number →
    i.name ≠ [] ∧ i.name.isSolid = true

namespace Operation

theorem number_inj {o p : Operation} : o.number = p.number ↔ o = p := by
  constructor
  · intro h
    have hsome := ofNumber?_number o
    rw [h, ofNumber?_number] at hsome
    exact (Option.some.inj hsome).symm
  · rintro rfl
    rfl

theorem number_ne_of_operand_ne {o p : Operation} (h : o.operand ≠ p.operand) :
    o.number ≠ p.number := by
  intro heq
  rw [number_inj.mp heq] at h
  exact h rfl

theorem number_lt (o : Operation) : o.number < 10 := by
  rw [← UInt8.not_le, ← ofNumber?_eq_none_iff, ofNumber?_number]
  exact Option.some_ne_none o

theorem operand_eq_number_iff {o : Operation} : o.operand = .number ↔ o = push := by
  cases o <;> simp [operand]

theorem operand_eq_name_iff {o : Operation} : o.operand = .name ↔ o = load ∨ o = store := by
  cases o <;> simp [operand]

theorem mnemonic_ne_nil (o : Operation) : o.mnemonic ≠ [] := by
  obtain ⟨⟨b, rest, hfirst, -⟩, -⟩ := o.mnemonic_spec
  rw [hfirst]
  exact List.cons_ne_nil b rest

theorem mnemonic_of_ofMnemonic? {word : Bytes} {o : Operation} (h : ofMnemonic? word = some o) :
    o.mnemonic = word := by
  simpa using List.find?_some h

/-- The three ways to make an instruction of a line. -/
theorem assemble_cases {o : Operation} {line : Bytes} {operands : List Bytes} {i : Instr}
    (h : o.assemble line operands = .ok i) :
    (o.operand = .none ∧ operands = [] ∧ i = .plain o) ∨
      (o = push ∧ ∃ word v, operands = [word] ∧ Decimal.readInt64? word = some v ∧ i = .push v) ∨
      (o.operand = .name ∧ ∃ word, operands = [word] ∧ i = ⟨o.number, 0, word⟩) := by
  unfold assemble at h
  split at h
  · next ho =>
    cases h
    exact .inl ⟨ho, rfl, rfl⟩
  · next word ho =>
    split at h
    · next v hv =>
      cases h
      exact .inr (.inl ⟨operand_eq_number_iff.mp ho, word, v, rfl, hv, rfl⟩)
    · cases h
  · next word ho =>
    cases h
    exact .inr (.inr ⟨ho, word, rfl, rfl⟩)
  · cases h
  · cases h

end Operation

namespace Instr

variable {o : Operation} {i : Instr}

theorem isNormal_plain (ho : o.operand = .none) : (plain o).IsNormal where
  opcode := o.number_lt
  value _ := rfl
  unnamed _ _ := rfl
  named := by
    rintro (h | h)
    · exact absurd h (Operation.number_ne_of_operand_ne (by rw [ho]; decide))
    · exact absurd h (Operation.number_ne_of_operand_ne (by rw [ho]; decide))

theorem isNormal_push (v : Int64) : (push v).IsNormal where
  opcode := Operation.push.number_lt
  value h := absurd rfl h
  unnamed _ _ := rfl
  named := by
    rintro (h | h)
    · cases h
    · cases h

theorem isNormal_named (ho : o.operand = .name) {name : Bytes} (hne : name ≠ [])
    (hsolid : name.isSolid = true) : IsNormal ⟨o.number, 0, name⟩ where
  opcode := o.number_lt
  value _ := rfl
  unnamed hload hstore := by
    rcases Operation.operand_eq_name_iff.mp ho with rfl | rfl
    · exact absurd rfl hload
    · exact absurd rfl hstore
  named _ := ⟨hne, hsolid⟩

/-- There are no other normal instructions. -/
theorem IsNormal.cases (h : i.IsNormal) :
    (∃ o, o.operand = .none ∧ i = plain o) ∨ (∃ v, i = push v) ∨
      ∃ (o : Operation) (name : Bytes), o.operand = .name ∧ name ≠ [] ∧ name.isSolid = true ∧
        i = ⟨o.number, 0, name⟩ := by
  obtain ⟨opcode, value, name⟩ := i
  obtain ⟨o, ho⟩ : ∃ o, Operation.ofNumber? opcode = some o := by
    rw [← Option.ne_none_iff_exists', Ne, Operation.ofNumber?_eq_none_iff, UInt8.not_le]
    exact h.opcode
  obtain rfl : o.number = opcode := Operation.number_of_ofNumber? ho
  have hne : ∀ {p : Operation}, o.operand ≠ p.operand → o.number ≠ p.number :=
    Operation.number_ne_of_operand_ne
  cases hoperand : o.operand with
  | none =>
    obtain rfl : value = 0 := h.value (hne (by rw [hoperand]; decide))
    obtain rfl : name = [] :=
      h.unnamed (hne (by rw [hoperand]; decide)) (hne (by rw [hoperand]; decide))
    exact .inl ⟨o, hoperand, rfl⟩
  | number =>
    obtain rfl : name = [] :=
      h.unnamed (hne (by rw [hoperand]; decide)) (hne (by rw [hoperand]; decide))
    obtain rfl := Operation.operand_eq_number_iff.mp hoperand
    exact .inr (.inl ⟨value, rfl⟩)
  | name =>
    obtain rfl : value = 0 := h.value (hne (by rw [hoperand]; decide))
    obtain ⟨hname, hsolid⟩ : name ≠ [] ∧ name.isSolid = true := by
      refine h.named ?_
      rcases Operation.operand_eq_name_iff.mp hoperand with rfl | rfl
      · exact .inl rfl
      · exact .inr rfl
    exact .inr (.inr ⟨o, name, hoperand, hname, hsolid, rfl⟩)

/-! ### Writing, then reading -/

/-- The line of an instruction of a source without name is read as the instruction. -/
theorem IsProper.readsBack (h : i.IsProper) (hname : i.name = []) :
    i.text.trim = i.text ∧ isSkipped i.text = false ∧ ofLine i.text = .ok i := by
  have hsame : i.trimmed = i := by
    rw [trimmed, hname]
    exact congrArg (fun name => (⟨i.opcode, i.value, name⟩ : Instr)) hname.symm
  have hsolid : i.name.trim.isSolid = true := by
    rw [hname]
    rfl
  have htrim := h.trim_text
  have hread := h.ofLine_text.1 hsolid
  rw [hsame] at htrim hread
  exact ⟨htrim.1, htrim.2, hread⟩

/-- The line of a normal instruction is read as the instruction. -/
theorem IsNormal.readsBack (h : i.IsNormal) :
    i.text.trim = i.text ∧ isSkipped i.text = false ∧ ofLine i.text = .ok i := by
  rcases h.cases with ⟨o, ho, rfl⟩ | ⟨v, rfl⟩ | ⟨o, name, ho, hne, hsolid, rfl⟩
  · exact (IsProper.plain ho).readsBack rfl
  · exact (IsProper.push v).readsBack rfl
  · have hmnemonic := o.startsSolid_mnemonic.2
    rw [text_named ho]
    refine ⟨Bytes.trim_pair o.mnemonic_ne_nil hmnemonic hne hsolid, ?_, ?_⟩
    · rw [List.append_assoc]
      exact o.isSkipped_mnemonic _
    · rw [ofLine, Bytes.fields_pair o.mnemonic_ne_nil hmnemonic hne hsolid]
      simp only [Operation.ofMnemonic?_mnemonic, Operation.assemble, ho]

theorem IsNormal.isOneLine (h : i.IsNormal) : i.IsOneLine := by
  rcases h.cases with ⟨o, ho, rfl⟩ | ⟨v, rfl⟩ | ⟨o, name, ho, -, hsolid, rfl⟩
  · exact (IsProper.plain ho).isOneLine
  · exact (IsProper.push v).isOneLine
  · rw [IsOneLine, text_named ho]
    refine stays_of_operand fun b hb => ?_
    constructor
    · rintro rfl
      exact Bytes.notMem_of_isSolid hsolid (by decide) (by decide) hb
    · rintro rfl
      exact Bytes.notMem_of_isSolid hsolid (by decide) (by decide) hb

end Instr

theorem assembleLines_text {code : List Instr} (h : ∀ i ∈ code, i.IsNormal) (file : Bytes)
    (number : Nat) : assembleLines file number (code.map Instr.text ++ [[]]) = .ok code := by
  induction code generalizing number with
  | nil => rfl
  | cons i code ih =>
    obtain ⟨hi, hcode⟩ := List.forall_mem_cons.mp h
    obtain ⟨htrim, hskip, hread⟩ := hi.readsBack
    rw [List.map_cons, List.cons_append, assembleLines]
    simp only [htrim, hskip, hread, ih hcode]
    rfl

/-- The listing of normal instructions is read back, unless a line is too long. -/
theorem assemble_listing_of_isNormal {code : List Instr}
    (h : ∀ i ∈ code, i.IsNormal ∧ i.text.length < Line.limit) (file : Bytes) :
    assemble file (listing code) = .ok code := by
  have hlines : ∀ i ∈ code, i.IsOneLine := fun i hi => (h i hi).1.isOneLine
  rw [assemble_listing hlines fun i hi => (h i hi).2]
  exact assembleLines_text (fun i hi => (h i hi).1) file 3

/-! ### Reading, then writing -/

/-- The instruction on a line is normal, and its own line is not longer. -/
theorem Instr.isNormal_of_ofLine {line : Bytes} {i : Instr} (h : ofLine line = .ok i) :
    i.IsNormal ∧ i.text.length ≤ line.length := by
  have hroom := Bytes.length_flatMap_fields_le line 0x09
  have hwords : ∀ w ∈ line.fields, w ≠ [] ∧ w.isSolid = true := fun w hw => Bytes.mem_fields hw
  unfold ofLine at h
  split at h
  · cases h
  · next word operands hfields =>
    split at h
    · cases h
    · next o ho =>
      obtain rfl := Operation.mnemonic_of_ofMnemonic? ho
      rw [hfields] at hroom hwords
      simp only [List.flatMap_cons, List.length_append, List.length_singleton] at hroom
      obtain ⟨hnone, rfl, rfl⟩ | ⟨rfl, word, v, rfl, hv, rfl⟩ | ⟨hname, word, rfl, rfl⟩ :=
        Operation.assemble_cases h
      · rw [text_plain hnone]
        exact ⟨isNormal_plain hnone, by omega⟩
      · have hdigits := Decimal.length_ofInt64_le hv
        simp only [List.flatMap_singleton, List.length_append, List.length_singleton] at hroom
        rw [text_push, Bytes.length_pair]
        exact ⟨isNormal_push v, by omega⟩
      · obtain ⟨hne, hsolid⟩ := hwords word (by simp)
        simp only [List.flatMap_singleton, List.length_append, List.length_singleton] at hroom
        rw [text_named hname, Bytes.length_pair]
        exact ⟨isNormal_named hname hne hsolid, by omega⟩

theorem exists_of_assembleLines {file : Bytes} {number : Nat} {lines : List Bytes}
    {code : List Instr} (h : assembleLines file number lines = .ok code) :
    ∀ i ∈ code, ∃ line ∈ lines, Instr.ofLine line.trim = .ok i := by
  induction lines generalizing number code with
  | nil =>
    cases h
    simp
  | cons line lines ih =>
    rw [assembleLines] at h
    split at h
    · intro i hi
      obtain ⟨l, hl, hread⟩ := ih h i hi
      exact ⟨l, List.mem_cons_of_mem line hl, hread⟩
    · split at h
      · cases h
      · next i hread =>
        obtain ⟨rest, hrest, rfl⟩ := Result.map_eq_ok.mp h
        intro j hj
        rcases List.mem_cons.mp hj with rfl | hj
        · exact ⟨line, List.mem_cons_self, hread⟩
        · obtain ⟨l, hl, hread⟩ := ih hrest j hj
          exact ⟨l, List.mem_cons_of_mem line hl, hread⟩

/-- What is read from a listing is normal, and its lines are not too long. -/
theorem isNormal_of_assemble {file text : Bytes} {code : List Instr}
    (h : assemble file text = .ok code) :
    ∀ i ∈ code, i.IsNormal ∧ i.text.length < Line.limit := by
  intro i hi
  obtain ⟨read, hread, hcode⟩ := Result.bind_eq_ok.mp h
  split at hcode
  · cases hcode
  · cases hcode
    obtain ⟨line, hline, hi⟩ := exists_of_assembleLines hread i hi
    obtain ⟨raw, hraw, rfl⟩ := List.mem_map.mp hline
    obtain ⟨hnormal, hlength⟩ := Instr.isNormal_of_ofLine hi
    rw [Bytes.trim_chomp] at hlength
    have hfits := Line.fits_iff.mp (List.mem_takeWhile_imp hraw)
    have htrim := raw.length_trim_le
    exact ⟨hnormal, by omega⟩

/-- **Listings are read back exactly.** The listing of a program, whatever its opcodes, numbers and
names, is read as the same program exactly when every instruction is normal and no line is too
long. -/
theorem listing_is_read_back_exactly (file : Bytes) (code : List Instr) :
    assemble file (listing code) = .ok code ↔
      ∀ i ∈ code, i.IsNormal ∧ i.text.length < Line.limit := by
  constructor
  · intro h
    exact isNormal_of_assemble h
  · intro h
    exact assemble_listing_of_isNormal h file

end Polish
