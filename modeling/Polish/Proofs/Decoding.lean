import Polish.Proofs.Source

/-!
# Code can be read back

Code is written in postfix order, programs in prefix order. Running code on words instead of numbers
turns the one into the other: an operator puts its symbol in front of its operands, and an
instruction that ends a statement puts the marker in front. So the code of a program determines its
words. In the other direction the words determine the tree apart from its places, which have no part
in the code.

* `Readback`, `wordsOfCode`: code run on words.
* `Expr.readback_compile`, `Program.wordsOfCode_compile`: the words of compiled code.
* `Expr.compile_erase`, `Program.compile_erase`: places have no part in the code.
* `Program.compile_eq_iff_words_eq`: two sources have the same code exactly when they have the same
  words, leading zeros apart.
-/

namespace Polish

/-! ### Running code on words -/

/-- Code that is being read back: the words of the operands on the stack, and of the statements that
are complete. -/
structure Readback where
  stack : List (List Bytes)
  statements : List Bytes
deriving DecidableEq, Repr

namespace Readback

/-- Reads back one instruction; one that means nothing here is passed over. -/
def step (r : Readback) (i : Instr) : Readback :=
  match i.operation?, r.stack with
  | some .push, stack => { r with stack := [Decimal.ofInt64 i.value] :: stack }
  | some .load, stack => { r with stack := [i.name] :: stack }
  | some (.binary op), right :: left :: stack =>
    { r with stack := (op.symbol :: (left ++ right)) :: stack }
  | some (.unary op), operand :: stack => { r with stack := (op.symbol :: operand) :: stack }
  | some .store, value :: stack => ⟨stack, r.statements ++ assignMarker :: i.name :: value⟩
  | some .print, value :: stack => ⟨stack, r.statements ++ printMarker :: value⟩
  | _, _ => r

/-- Reads back code. -/
def steps (r : Readback) (code : List Instr) : Readback := code.foldl step r

theorem steps_append (r : Readback) (xs ys : List Instr) :
    r.steps (xs ++ ys) = (r.steps xs).steps ys :=
  List.foldl_append

theorem step_binary (op : BinaryOp) (stack : List (List Bytes)) (left right out : List Bytes) :
    step ⟨right :: left :: stack, out⟩ (.plain (.binary op))
      = ⟨(op.symbol :: (left ++ right)) :: stack, out⟩ := by
  cases op <;> rfl

theorem step_unary (op : UnaryOp) (stack : List (List Bytes)) (operand out : List Bytes) :
    step ⟨operand :: stack, out⟩ (.plain (.unary op))
      = ⟨(op.symbol :: operand) :: stack, out⟩ := by
  cases op <;> rfl

end Readback

/-- The words of the program that has this code. -/
def wordsOfCode (code : List Instr) : List Bytes := (Readback.steps ⟨[], []⟩ code).statements

/-! ### Compiled code -/

/-- On any stack, the code of an expression is read back as the words of the expression. -/
theorem Expr.readback_compile {e : Expr} {code : List Instr} (h : e.compile = .ok code)
    (stack : List (List Bytes)) (out : List Bytes) :
    Readback.steps ⟨stack, out⟩ code = ⟨e.words :: stack, out⟩ := by
  induction e generalizing code stack with
  | missing => cases h
  | const span v =>
    cases h
    rfl
  | var span name =>
    cases h
    rfl
  | binary span symbol l r ihl ihr =>
    obtain ⟨op, left, right, hop, hl, hr, rfl⟩ := compile_binary_eq_ok.mp h
    rw [Readback.steps_append, Readback.steps_append, ihl hl, ihr hr, words,
      ← BinaryOp.symbol_of_ofSymbol? hop]
    exact Readback.step_binary op stack l.words r.words out
  | unary span symbol e ih =>
    obtain ⟨op, operand, hop, he, rfl⟩ := compile_unary_eq_ok.mp h
    rw [Readback.steps_append, ih he, words, ← UnaryOp.symbol_of_ofSymbol? hop]
    exact Readback.step_unary op stack e.words out

namespace Action

mutual

/-- The code of a statement is read back as the words of the statement: its last instruction ends
it and leaves the stack as it was. -/
theorem readback_compile : ∀ (a : Action) {code : List Instr}, a.compile = .ok code →
    ∀ (stack : List (List Bytes)) (out : List Bytes),
      Readback.steps ⟨stack, out⟩ code = ⟨stack, out ++ a.words⟩
  | missing, _, h, _, _ => by cases h
  | assign span target rhs, _, h, stack, out => by
    obtain ⟨value, hvalue, rfl⟩ := compile_assign_eq_ok.mp h
    rw [Readback.steps_append, Expr.readback_compile hvalue, words]
    rfl
  | print span e, _, h, stack, out => by
    obtain ⟨value, hvalue, rfl⟩ := compile_print_eq_ok.mp h
    rw [Readback.steps_append, Expr.readback_compile hvalue, words]
    rfl
  | seq _ as, _, h, stack, out => by
    rw [words]
    exact readback_compileAll as h stack out

/-- The code of statements is read back statement by statement. -/
theorem readback_compileAll : ∀ (as : List Action) {code : List Instr},
    compileAll as = .ok code → ∀ (stack : List (List Bytes)) (out : List Bytes),
      Readback.steps ⟨stack, out⟩ code = ⟨stack, out ++ wordsAll as⟩
  | [], _, h, stack, out => by
    cases h
    rw [wordsAll, List.append_nil]
    rfl
  | a :: as, _, h, stack, out => by
    obtain ⟨first, rest, hfirst, hrest, rfl⟩ := compileAll_cons_eq_ok.mp h
    rw [Readback.steps_append, readback_compile a hfirst, readback_compileAll as hrest, wordsAll,
      List.append_assoc]

end

end Action

/-- The code of a program is read back as its words. -/
theorem Program.wordsOfCode_compile {p : Program} {code : List Instr} (h : p.compile = .ok code) :
    wordsOfCode code = p.words := by
  rw [wordsOfCode, Action.readback_compileAll p.actions h]
  rfl

/-! ### Places have no part in the code -/

theorem Expr.compile_erase {e : Expr} {code : List Instr} (h : e.compile = .ok code) :
    e.erase.compile = .ok code := by
  induction e generalizing code with
  | missing => cases h
  | const span v => exact h
  | var span name => exact h
  | binary span symbol l r ihl ihr =>
    obtain ⟨op, left, right, hop, hl, hr, hcode⟩ := compile_binary_eq_ok.mp h
    exact compile_binary_eq_ok.mpr ⟨op, left, right, hop, ihl hl, ihr hr, hcode⟩
  | unary span symbol e ih =>
    obtain ⟨op, operand, hop, he, hcode⟩ := compile_unary_eq_ok.mp h
    exact compile_unary_eq_ok.mpr ⟨op, operand, hop, ih he, hcode⟩

namespace Action

mutual

theorem compile_erase : ∀ (a : Action) {code : List Instr}, a.compile = .ok code →
    a.erase.compile = .ok code
  | missing, _, h => h
  | assign span target rhs, _, h => by
    obtain ⟨value, hvalue, hcode⟩ := compile_assign_eq_ok.mp h
    exact compile_assign_eq_ok.mpr ⟨value, Expr.compile_erase hvalue, hcode⟩
  | print span e, _, h => by
    obtain ⟨value, hvalue, hcode⟩ := compile_print_eq_ok.mp h
    exact compile_print_eq_ok.mpr ⟨value, Expr.compile_erase hvalue, hcode⟩
  | seq _ as, _, h => compileAll_erase as h

theorem compileAll_erase : ∀ (as : List Action) {code : List Instr}, compileAll as = .ok code →
    compileAll (eraseAll as) = .ok code
  | [], _, h => h
  | a :: as, _, h => by
    obtain ⟨first, rest, hfirst, hrest, hcode⟩ := compileAll_cons_eq_ok.mp h
    exact compileAll_cons_eq_ok.mpr
      ⟨first, rest, compile_erase a hfirst, compileAll_erase as hrest, hcode⟩

end

end Action

namespace Program

theorem compile_erase {p : Program} {code : List Instr} (h : p.compile = .ok code) :
    p.erase.compile = .ok code :=
  Action.compileAll_erase p.actions h

/-- Programs that can be written have the same code exactly when they have the same words. -/
theorem compile_eq_iff {p q : Program} (hp : p.IsWritten) (hq : q.IsWritten)
    {code code' : List Instr} (hcode : p.compile = .ok code) (hcode' : q.compile = .ok code') :
    code = code' ↔ p.words = q.words := by
  constructor
  · intro h
    rw [← wordsOfCode_compile hcode, ← wordsOfCode_compile hcode', h]
  · intro h
    -- the same words are read as the same tree, apart from places
    have hread := ofTexts_words hp
    rw [h, ofTexts_words hq] at hread
    have herase : q.erase = p.erase := Except.ok.inj hread
    have hsame := compile_erase hcode'
    rw [herase, compile_erase hcode] at hsame
    exact Except.ok.inj hsame

/-- The tokens of a source that is read, and what they say of the program. -/
theorem exists_tokens {file source : Bytes} {p : Program} (h : ofSource file source = .ok p) :
    ∃ ts, tokenize file source = .ok ts ∧ p.IsWritten ∧
      p.words = (Token.texts ts).map canonicalWord := by
  obtain ⟨ts, hts, hp⟩ := Result.bind_eq_ok.mp h
  have hreads := (ofTokens_eq_ok.mp hp).2
  exact ⟨ts, hts, hreads.isWritten, hreads.words_eq⟩

/-- **Code depends on the words alone and keeps them all.** Two sources that are read, each under
its file name, have code, and it is the same code exactly when their tokens have the same texts once
leading zeros are removed from numerals. -/
theorem compile_eq_iff_words_eq {file file' source source' : Bytes} {p p' : Program}
    (h : ofSource file source = .ok p) (h' : ofSource file' source' = .ok p') :
    ∃ ts ts' code code',
      tokenize file source = .ok ts ∧ tokenize file' source' = .ok ts' ∧
      p.compile = .ok code ∧ p'.compile = .ok code' ∧
      (code = code' ↔
        (Token.texts ts).map canonicalWord = (Token.texts ts').map canonicalWord) := by
  obtain ⟨ts, hts, hwritten, hwords⟩ := exists_tokens h
  obtain ⟨ts', hts', hwritten', hwords'⟩ := exists_tokens h'
  obtain ⟨code, hcode⟩ := exists_compile hwritten
  obtain ⟨code', hcode'⟩ := exists_compile hwritten'
  refine ⟨ts, ts', code, code', hts, hts', hcode, hcode', ?_⟩
  rw [← hwords, ← hwords']
  exact compile_eq_iff hwritten hwritten' hcode hcode'

/-- A program on one line, and the same one with a comment, line breaks and a leading zero. -/
theorem compile_eq_iff_words_eq_layout :
    let source : Bytes := ":= a 7 @ - a 1"
    let source' : Bytes := ":= a 07 ; seven\n\n@ - a\n1"
    ∃ p p' code, ofSource "f" source = .ok p ∧ ofSource "g" source' = .ok p' ∧
      p.compile = .ok code ∧ p'.compile = .ok code := by
  intro source source'
  have hread : ∃ p, ofSource "f" source = .ok p := ⟨_, rfl⟩
  have hread' : ∃ p, ofSource "g" source' = .ok p := ⟨_, rfl⟩
  obtain ⟨p, hp⟩ := hread
  obtain ⟨p', hp'⟩ := hread'
  obtain ⟨ts, ts', code, code', hts, hts', hcode, hcode', hiff⟩ := compile_eq_iff_words_eq hp hp'
  have hsame : (Token.texts ts).map canonicalWord = (Token.texts ts').map canonicalWord := by
    cases hts
    cases hts'
    rfl
  rw [← hiff.mpr hsame] at hcode'
  exact ⟨p, p', code, hp, hp', hcode, hcode'⟩

end Program

end Polish
