import Polish.Proofs.Extents
import Polish.Proofs.StackEffect
import Polish.Proofs.TraceText

/-!
# A source bounds its run

Every number in the reports of a run is small: lines and columns grow by at most one with each byte
of the source, its code has at most one instruction for each token, and the stack grows by at most
one with each instruction. So if the length of a source fits in 64 bits, all of them do.

* `placeAfter_le`, `Program.fits_span`: the places of the statements and of the program.
* `length_scanFrom_le`, `ReadsProgram.length_compileAll_le`: how many tokens and instructions.
* `Machine.depth_le_of_mem_steps`: the stack after each instruction of a run.
* `Program.depth_le_of_source`: the stack in a run of the code of a source.
-/

namespace Polish

/-! ### Places -/

theorem placeAfter_le (front : Bytes) :
    (placeAfter front).line ≤ front.length + 1 ∧ (placeAfter front).col ≤ front.length + 1 := by
  induction front using List.reverseRecOn with
  | nil => decide
  | append_singleton front b ih =>
    rw [placeAfter_concat, Position.advance, List.length_append, List.length_singleton]
    split
    · constructor
      · show (placeAfter front).line + 1 ≤ _
        omega
      · show 1 ≤ _
        omega
    · split
      · constructor
        · show (placeAfter front).line ≤ _
          omega
        · show (placeAfter front).col + 1 ≤ _
          omega
      · omega

theorem Decimal.fitsInt64_natCast {n : Nat} (h : n ≤ maxConstant) : fitsInt64 n = true := by
  unfold maxConstant at h
  simp only [fitsInt64, Bool.and_eq_true, decide_eq_true_eq]
  omega

section Places

variable {file source : Bytes} (hsize : source.length < Decimal.maxConstant)

include hsize

theorem fits_span_of_tokenize {ts : List Token} (h : tokenize file source = .ok ts) :
    ∀ t ∈ ts, t.span.Fits := by
  obtain ⟨hformed, rfl⟩ := tokenize_eq_map h
  intro t ht
  obtain ⟨w, hw, rfl⟩ := List.mem_map.mp ht
  obtain ⟨us, zs, hwords⟩ := List.append_of_mem hw
  rw [← List.singleton_append, ← List.append_assoc] at hwords
  have hlast : [w].getLast? = some w := rfl
  obtain ⟨front, piece, back, rfl, hstart, -, hstop, -⟩ := exists_piece hformed hwords rfl hlast
  have hfront := placeAfter_le front
  have hend := placeAfter_le (front ++ piece)
  rw [← hstart] at hfront
  rw [← hstop] at hend
  simp only [List.length_append] at hsize hend
  constructor
  · exact Decimal.fitsInt64_natCast (by omega)
  · exact Decimal.fitsInt64_natCast (by omega)
  · exact Decimal.fitsInt64_natCast (by omega)
  · exact Decimal.fitsInt64_natCast (by omega)

omit hsize in
theorem fits_tokensSpan {ts : List Token} (h : ∀ t ∈ ts, t.span.Fits) : (tokensSpan ts).Fits := by
  by_cases hne : ts = []
  · subst hne
    constructor <;> rfl
  · obtain ⟨first, hfirst, last, hlast, hstart, hstop, -⟩ := exists_ends hne
    obtain ⟨hstartLine, hstartCol⟩ := Prod.mk.inj hstart
    obtain ⟨hendLine, hendCol⟩ := Prod.mk.inj hstop
    constructor
    · rw [hstartLine]
      exact (h first hfirst).startLine
    · rw [hstartCol]
      exact (h first hfirst).startCol
    · rw [hendLine]
      exact (h last hlast).endLine
    · rw [hendCol]
      exact (h last hlast).endCol

/-- The places of a program and its statements. -/
theorem Program.fits_span {p : Program} (h : ofSource file source = .ok p) :
    p.span.Fits ∧ ∀ a ∈ p.actions, a.span.Fits := by
  obtain ⟨ts, hts, hp⟩ := Result.bind_eq_ok.mp h
  obtain ⟨hspan, hreads⟩ := ofTokens_eq_ok.mp hp
  have hfits := fits_span_of_tokenize hsize hts
  constructor
  · rw [hspan]
    exact fits_tokensSpan hfits
  · intro a ha
    obtain ⟨part, hpart, hstatement⟩ := hreads.exists_infix a ha
    rw [hstatement.span_eq]
    exact fits_tokensSpan fun t ht => hfits t (hpart.subset ht)

end Places

/-! ### Tokens and instructions -/

/-- A word needs a byte; a word that was begun needs none any more. -/
theorem length_scanFrom_le (p : Position) (bs : Bytes) :
    (scanFrom .gap p bs).length ≤ bs.length ∧ (scanFrom .comment p bs).length ≤ bs.length ∧
      ∀ start read, (scanFrom (.word start read) p bs).length ≤ bs.length + 1 := by
  induction bs generalizing p with
  | nil => exact ⟨Nat.le_refl _, Nat.le_refl _, fun _ _ => Nat.le_refl _⟩
  | cons b rest ih =>
    obtain ⟨hgap, hcomment, hword⟩ := ih (p.advance b)
    have hbetween : ∀ {c : Prop} [Decidable c],
        (scanFrom (if c then .comment else .gap) (p.advance b) rest).length ≤ rest.length := by
      intro c _
      split
      · exact hcomment
      · exact hgap
    refine ⟨?_, ?_, ?_⟩
    · rw [scanFrom]
      split
      · exact hword p [b]
      · exact Nat.le_succ_of_le hbetween
    · rw [scanFrom]
      split
      · exact Nat.le_succ_of_le hgap
      · exact Nat.le_succ_of_le hcomment
    · intro start read
      rw [scanFrom]
      split
      · exact Nat.le_succ_of_le (hword start (b :: read))
      · exact Nat.succ_le_succ (Nat.le_succ_of_le hbetween)

theorem length_le_of_tokenize {file source : Bytes} {ts : List Token}
    (h : tokenize file source = .ok ts) : ts.length ≤ source.length := by
  rw [(tokenize_eq_map h).2, List.length_map]
  exact (length_scanFrom_le .start source).1

/-- An expression has an instruction for each token. -/
theorem Reads.length_compile {ts : List Token} {e : Expr} (h : Reads ts e) {code : List Instr}
    (hcode : e.compile = .ok code) : code.length = ts.length := by
  induction h generalizing code with
  | var | const =>
    cases hcode
    rfl
  | binary _ _ _ ihl ihr =>
    obtain ⟨op, left, right, -, hl, hr, rfl⟩ := Expr.compile_binary_eq_ok.mp hcode
    have hleft := ihl hl
    have hright := ihr hr
    simp only [List.length_append, List.length_cons, List.length_nil]
    omega
  | unary _ _ ih =>
    obtain ⟨op, operand, -, he, rfl⟩ := Expr.compile_unary_eq_ok.mp hcode
    have hoperand := ih he
    simp only [List.length_append, List.length_cons, List.length_nil]
    omega

theorem ReadsStatement.length_compile_le {ts : List Token} {a : Action} (h : ReadsStatement ts a)
    {code : List Instr} (hcode : a.compile = .ok code) : code.length ≤ ts.length := by
  cases h with
  | assign _ _ he =>
    obtain ⟨value, hvalue, rfl⟩ := Action.compile_assign_eq_ok.mp hcode
    have hlength := he.length_compile hvalue
    simp only [List.length_append, List.length_cons, List.length_nil]
    omega
  | print _ he =>
    obtain ⟨value, hvalue, rfl⟩ := Action.compile_print_eq_ok.mp hcode
    have hlength := he.length_compile hvalue
    simp only [List.length_append, List.length_cons, List.length_nil]
    omega

theorem ReadsProgram.length_compileAll_le {ts : List Token} {as : List Action}
    (h : ReadsProgram ts as) {code : List Instr} (hcode : Action.compileAll as = .ok code) :
    code.length ≤ ts.length := by
  induction h generalizing code with
  | nil =>
    cases hcode
    exact Nat.le_refl _
  | cons hs _ ih =>
    obtain ⟨first, rest, hfirst, hrest, rfl⟩ := Action.compileAll_cons_eq_ok.mp hcode
    have hstatement := hs.length_compile_le hfirst
    have hothers := ih hrest
    rw [List.length_append, List.length_append]
    omega

/-! ### The stack -/

namespace Machine

variable {m : Machine} {code : List Instr}

/-- A run reports instructions of its code, and depths that grow with the instructions. -/
theorem depth_le_of_mem_steps {watch : Watch} {pc reports : Nat} {e : StepEvent}
    (he : e ∈ (runFrom watch pc reports code m).steps) :
    e.instr ∈ code ∧ e.depth ≤ m.stack.length + code.length := by
  obtain ⟨k, hk⟩ := List.mem_iff_getElem?.mp he
  obtain ⟨-, hinstr, next, hnext, hdepth⟩ := getElem?_steps hk
  have hlength := length_stack_execCode hnext
  have hchange := netChange_le_length (code.take (k + 1))
  have htake := (List.take_sublist (k + 1) code).length_le
  exact ⟨List.mem_of_getElem? hinstr, by omega⟩

end Machine

/-- The instructions of a source are proper, and its runs keep the stack below its length. -/
theorem Program.depth_le_of_source {file source : Bytes} {p : Program} {code : List Instr}
    (h : ofSource file source = .ok p) (hcode : p.compile = .ok code) {watch : Watch}
    {reports : Nat} : ∀ e ∈ (Machine.run watch reports code).steps,
      e.instr.IsProper ∧ e.depth ≤ source.length := by
  obtain ⟨ts, hts, hp⟩ := Result.bind_eq_ok.mp h
  have hreads := (ofTokens_eq_ok.mp hp).2
  have hlength := hreads.length_compileAll_le hcode
  have htokens := length_le_of_tokenize hts
  intro e he
  obtain ⟨hmem, hdepth⟩ := Machine.depth_le_of_mem_steps he
  have hempty : Machine.empty.stack.length = 0 := rfl
  constructor
  · exact Action.isProper_of_compileAll _ hcode
      (hreads.isName (isProper_of_mem_tokenize hts)) _ hmem
  · omega

end Polish
