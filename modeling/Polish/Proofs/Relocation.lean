import Polish.Proofs.Balance
import Polish.Proofs.Filler
import Polish.Proofs.Infix
import Polish.Proofs.Joining

/-!
# One source after another

A source is followed by a line feed and a second source. The line feed ends the last line of the
first source, whatever stands there: a word, a comment or nothing. So the scanner finds the words of
the first source where they were, and those of the second one as many lines further down as the
first one has. The second source is read as a program, so its first token starts a statement and
ends the last one of the first source. Both trees are read as before, and so is their code.

* `Expr.relocate`, `Action.relocate`: a tree with its places moved.
* `sourceWords_append`, `tokenize_append`: the words and tokens of the two sources.
* `ReadsProgram.relocate`: tokens that are moved spell the tree that is moved.
* `Program.concatenation_is_modular`: the statements and the code of the two sources.
-/

namespace Polish

/-! ### Moved places -/

/-- The token with its place moved. -/
def Token.relocate (move : Span → Span) (t : Token) : Token := { t with span := move t.span }

/-- The expression with its places moved. -/
def Expr.relocate (move : Span → Span) : Expr → Expr
  | missing => missing
  | const s v => const (move s) v
  | var s name => var (move s) name
  | binary s op l r => binary (move s) op (l.relocate move) (r.relocate move)
  | unary s op e => unary (move s) op (e.relocate move)

theorem Expr.erase_relocate (move : Span → Span) (e : Expr) :
    (e.relocate move).erase = e.erase := by
  induction e with
  | missing | const | var => rfl
  | binary s op l r ihl ihr => rw [relocate, erase, ihl, ihr, erase]
  | unary s op e ih => rw [relocate, erase, ih, erase]

namespace Action

mutual

/-- The statement with its places moved. -/
def relocate (move : Span → Span) : Action → Action
  | missing => missing
  | assign s target e => assign (move s) target (e.relocate move)
  | print s e => print (move s) (e.relocate move)
  | seq s as => seq (move s) (relocateAll move as)

/-- The statements with their places moved. -/
def relocateAll (move : Span → Span) : List Action → List Action
  | [] => []
  | a :: as => a.relocate move :: relocateAll move as

end

mutual

theorem erase_relocate (move : Span → Span) : ∀ a : Action, (a.relocate move).erase = a.erase
  | missing => rfl
  | assign s target e => by rw [relocate, erase, Expr.erase_relocate, erase]
  | print s e => by rw [relocate, erase, Expr.erase_relocate, erase]
  | seq s as => by rw [relocate, erase, eraseAll_relocateAll move as, erase]

theorem eraseAll_relocateAll (move : Span → Span) :
    ∀ as : List Action, eraseAll (relocateAll move as) = eraseAll as
  | [] => rfl
  | a :: as => by
    rw [relocateAll, eraseAll, erase_relocate move a, eraseAll_relocateAll move as, eraseAll]

end

end Action

/-! ### Words and tokens -/

/-- The word, some lines further down. -/
def PlacedWord.movedDown (lines : Nat) (w : PlacedWord) : PlacedWord :=
  { w with line := w.line + lines }

theorem lineWords_add (number lines : Nat) (line : Bytes) :
    lineWords (number + lines) line = (lineWords number line).map (PlacedWord.movedDown lines) := by
  rw [lineWords, wordsAfter, lineWords, wordsAfter, List.map_map]
  rfl

/-- A text has a line more than it has line feeds. -/
theorem Bytes.length_lines (text : Bytes) : text.lines.length = 1 + text.count newline := by
  have hcount : ∀ piece : Bytes, (∀ b ∈ piece, (b == newline) = false) →
      piece.count newline = 0 := by
    intro piece hpiece
    rw [List.count_eq_zero]
    intro hmem
    exact absurd (hpiece newline hmem) (by decide)
  rw [lines, List.splitOn_eq_splitOnP]
  induction text using cut_induction (p := (· == newline)) with
  | last piece hpiece =>
    rw [List.splitOnP_eq_singleton hpiece, hcount piece hpiece, List.length_singleton]
  | cut piece b rest hpiece hb ih =>
    obtain rfl : b = newline := beq_iff_eq.mp hb
    rw [List.splitOnP_append_cons_of_forall_mem hpiece _ hb, List.length_cons, ih,
      List.count_append, List.count_cons_self, hcount piece hpiece]
    omega

/-- The words of two sources: those of the second one stand below the first one. -/
theorem sourceWords_append (first second : Bytes) :
    sourceWords (first ++ "\n" ++ second)
      = sourceWords first
        ++ (sourceWords second).map (PlacedWord.movedDown (1 + first.count Bytes.newline)) := by
  rw [sourceWords, Bytes.lines_join, List.zipIdx_append, List.flatMap_append, Bytes.length_lines,
    Nat.add_comm 1 (1 + _), ← List.map_snd_add_zipIdx_eq_zipIdx, List.flatMap_map, sourceWords,
    sourceWords, List.map_flatMap]
  congr 1
  exact List.flatMap_congr fun line _ => lineWords_add line.2 _ line.1

/-- The tokens of two sources. -/
theorem tokenize_append {file first second : Bytes} {ts us : List Token}
    (hts : tokenize file first = .ok ts) (hus : tokenize file second = .ok us) :
    tokenize file (first ++ "\n" ++ second)
      = .ok (ts ++ us.map (Token.relocate (Span.movedDown (1 + first.count Bytes.newline)))) := by
  obtain ⟨-, htexts⟩ := texts_of_tokenize hts
  obtain ⟨-, htexts'⟩ := texts_of_tokenize hus
  have hformed : ∀ w ∈ sourceTexts (first ++ "\n" ++ second), w.isWellFormed = true := by
    rw [sourceTexts_append]
    exact List.forall_mem_append.mpr ⟨htexts, htexts'⟩
  obtain ⟨both, hboth⟩ := exists_tokenize hformed file
  rw [hboth, (tokenize_eq_ok hboth).2, (tokenize_eq_ok hts).2, (tokenize_eq_ok hus).2,
    sourceWords_append, List.map_append, List.map_map, List.map_map]
  rfl

/-! ### Reading moved tokens -/

section Relocate

variable {move : Span → Span}
  (hmove : ∀ first last : Span, move (first.through last) = (move first).through (move last))

include hmove

theorem tokensSpan_relocate (t : Token) (ts : List Token) :
    tokensSpan ((t :: ts).map (Token.relocate move)) = move (tokensSpan (t :: ts)) := by
  rw [List.map_cons, tokensSpan, tokensSpan, hmove]
  simp only [← List.map_cons, List.getLast_map]
  rfl

/-- Moved tokens spell the moved expression. -/
theorem Reads.relocate {ts : List Token} {e : Expr} (h : Reads ts e) :
    Reads (ts.map (Token.relocate move)) (e.relocate move) := by
  induction h with
  | @var t hkind => exact .var (t := t.relocate move) hkind
  | @const t v hkind hvalue => exact .const (t := t.relocate move) hkind hvalue
  | @binary t op ls rs l r hkind hl hr ihl ihr =>
    rw [Expr.relocate, ← tokensSpan_relocate hmove, List.map_cons, List.map_append]
    exact .binary (t := t.relocate move) hkind ihl ihr
  | @unary t op ts e hkind he ih =>
    rw [Expr.relocate, ← tokensSpan_relocate hmove, List.map_cons]
    exact .unary (t := t.relocate move) hkind ih

theorem ReadsStatement.relocate {ts : List Token} {a : Action} (h : ReadsStatement ts a) :
    ReadsStatement (ts.map (Token.relocate move)) (a.relocate move) := by
  cases h with
  | @assign m x ts e hm hx he =>
    rw [Action.relocate, ← tokensSpan_relocate hmove, List.map_cons, List.map_cons]
    exact .assign (m := m.relocate move) (x := x.relocate move) hm hx (he.relocate hmove)
  | @print m ts e hm he =>
    rw [Action.relocate, ← tokensSpan_relocate hmove, List.map_cons]
    exact .print (m := m.relocate move) hm (he.relocate hmove)

/-- Moved tokens spell the moved statements. -/
theorem ReadsProgram.relocate {ts : List Token} {as : List Action} (h : ReadsProgram ts as) :
    ReadsProgram (ts.map (Token.relocate move)) (Action.relocateAll move as) := by
  induction h with
  | nil => exact .nil
  | cons hs _ ih =>
    rw [List.map_append, Action.relocateAll]
    exact .cons (hs.relocate hmove) ih

end Relocate

/-! ### Two sources -/

namespace Program

/-- **Compilation is modular.** Two sources that are read, with a line feed between them, are read
as the statements of the first one followed by those of the second one, in which every place has
moved down by the lines of the first source; and their code is the code of the first one followed by
the code of the second one. -/
theorem concatenation_is_modular {file first second : Bytes} {p q : Program}
    (hp : ofSource file first = .ok p) (hq : ofSource file second = .ok q) :
    ∃ r code code', ofSource file (first ++ "\n" ++ second) = .ok r ∧
      r.actions = p.actions
        ++ Action.relocateAll (Span.movedDown (1 + first.count Bytes.newline)) q.actions ∧
      p.compile = .ok code ∧ q.compile = .ok code' ∧ r.compile = .ok (code ++ code') := by
  obtain ⟨ts, hts, hp⟩ := Result.bind_eq_ok.mp hp
  obtain ⟨us, hus, hq⟩ := Result.bind_eq_ok.mp hq
  have hreads := (ofTokens_eq_ok.mp hp).2
  have hreads' := (ofTokens_eq_ok.mp hq).2
  let move := Span.movedDown (1 + first.count Bytes.newline)
  let below : Program := ⟨.zero, Action.relocateAll move q.actions⟩
  have hbelow : ReadsProgram (us.map (Token.relocate move)) below.actions :=
    hreads'.relocate fun _ _ => rfl
  -- the second tree has the same code in its new place
  obtain ⟨code, hcode⟩ := exists_compile (p := p) hreads.isWritten
  obtain ⟨code', hmoved, hcode'⟩ := exists_compile_of_erase_eq (p := below) (q := q)
    hbelow.isWritten hreads'.isWritten
    (congrArg (Program.mk .zero) (Action.eraseAll_relocateAll move q.actions))
  let r : Program := ⟨tokensSpan (ts ++ us.map (Token.relocate move)), p.actions ++ below.actions⟩
  refine ⟨r, code, code', ?_, rfl, hcode, hcode', ?_⟩
  · exact Result.bind_eq_ok.mpr ⟨_, tokenize_append hts hus,
      ofTokens_eq_ok.mpr ⟨rfl, hreads.append hbelow⟩⟩
  · exact Action.compileAll_append_eq_ok.mpr ⟨code, code', hcode, hmoved, rfl⟩

/-- The first source ends in a comment with a carriage return, the second one starts with a line
break and a comment. -/
theorem concatenation_is_modular_comment :
    let first : Bytes := "; né\n:= a 1 ;;\r"
    let second : Bytes := "\n; @\n @ né"
    ∃ p q r, ofSource "f" first = .ok p ∧ ofSource "f" second = .ok q ∧
      ofSource "f" (first ++ "\n" ++ second) = .ok r ∧
      r.actions = [.assign ⟨"f", 2, 1, 2, 7⟩ "a" (.const ⟨"f", 2, 6, 2, 7⟩ 1),
        .print ⟨"f", 5, 2, 5, 6⟩ (.var ⟨"f", 5, 4, 5, 6⟩ "né")] ∧
      r.compile = .ok [.push 1, .store "a", .load "né", .print] := by
  intro first second
  let p : Program := ⟨⟨"f", 2, 1, 2, 7⟩,
    [.assign ⟨"f", 2, 1, 2, 7⟩ "a" (.const ⟨"f", 2, 6, 2, 7⟩ 1)]⟩
  let q : Program := ⟨⟨"f", 3, 2, 3, 6⟩, [.print ⟨"f", 3, 2, 3, 6⟩ (.var ⟨"f", 3, 4, 3, 6⟩ "né")]⟩
  have hp : ofSource "f" first = .ok p := rfl
  have hq : ofSource "f" second = .ok q := rfl
  obtain ⟨r, code, code', hr, hactions, hcode, hcode', hboth⟩ := concatenation_is_modular hp hq
  cases hcode
  cases hcode'
  exact ⟨p, q, r, hp, hq, hr, hactions, hboth⟩

end Program

end Polish
