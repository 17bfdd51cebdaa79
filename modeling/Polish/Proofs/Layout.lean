import Polish.Proofs.Extents

/-!
# Words laid out in a source

A program is read from a list of words or from a source. A source is its words with gaps between
them; a gap is made of blanks and of comments that end with their lines. However the words are laid
out, the scanner finds them again, and the reader makes of them what it makes of the list, or fails
for the same reason. Only the places differ: a word of a list stands nowhere.

1. `IsGap`, `layOut`, `IsLayout`: gaps, and sources made of words and gaps.
2. `sourceTexts_layOut`: the words of such a source are the words it was made of.
3. `Token.bare`, `unplaced`: tokens and results without places.
4. `leaf_bare`, `supply_bare`, `readExpr_bare`, `Clause.read_bare`, `splitStatements_bare`: taking
   the places away before reading or after it is the same, also when reading fails.
5. `Program.source_agrees_with_words`: the two ways to a program agree.
-/

namespace Polish

/-! ### Gaps and layouts -/

/-- What can stand between two words: blanks, and comments up to their line feeds. -/
inductive IsGap : Bytes → Prop where
  | nil : IsGap []
  | blank {b : UInt8} {rest : Bytes} (hb : isGapByte b = true) (hrest : IsGap rest) :
      IsGap (b :: rest)
  | comment {body rest : Bytes} (hbody : Bytes.newline ∉ body) (hrest : IsGap rest) :
      IsGap (commentByte :: (body ++ Bytes.newline :: rest))

/-- The source that starts with a gap and goes on with words, each with the gap after it. -/
def layOut (before : Bytes) (parts : List (Bytes × Bytes)) : Bytes :=
  before ++ parts.flatMap fun part => part.1 ++ part.2

/-- The words of the parts can be told apart in the source: each is a well-formed word, and the gap
between two of them is not empty. -/
structure IsLayout (before : Bytes) (parts : List (Bytes × Bytes)) : Prop where
  nonempty : ∀ part ∈ parts, part.1 ≠ []
  wellFormed : ∀ part ∈ parts, part.1.isWellFormed = true
  bytes : ∀ part ∈ parts, ∀ b ∈ part.1, isWordByte b = true
  start : IsGap before
  gaps : ∀ part ∈ parts, IsGap part.2
  apart : ∀ part ∈ parts.dropLast, part.2 ≠ []

theorem not_isWordByte_of_isGapByte {b : UInt8} (h : isGapByte b = true) :
    isWordByte b = false := by
  rw [isWordByte, h]
  rfl

/-! ### The words of a layout -/

theorem sourceTexts_blank {b : UInt8} (hb : isGapByte b = true) (rest : Bytes) :
    sourceTexts (b :: rest) = sourceTexts rest := by
  have hcomment : b ≠ commentByte := by
    rintro rfl
    exact absurd hb (by decide)
  rw [sourceTexts_eq_scanFrom .start, scanFrom, not_isWordByte_of_isGapByte hb,
    if_neg (by decide), if_neg hcomment, ← sourceTexts_eq_scanFrom]

theorem sourceTexts_comment {body : Bytes} (hbody : Bytes.newline ∉ body) (rest : Bytes) :
    sourceTexts (commentByte :: (body ++ Bytes.newline :: rest)) = sourceTexts rest := by
  have hbytes : ∀ b ∈ body, b ≠ Bytes.newline := by
    rintro b hb rfl
    exact hbody hb
  have hend : EndsLine (Bytes.newline :: rest) := by
    rintro b ⟨⟩
    rfl
  have hstart : scanFrom .gap .start (commentByte :: (body ++ Bytes.newline :: rest))
      = scanFrom .comment ⟨1, 2⟩ (body ++ Bytes.newline :: rest) := rfl
  rw [sourceTexts_eq_scanFrom .start, hstart, scanFrom_comment hbytes hend,
    ← sourceTexts_eq_scanFrom, sourceTexts_blank (by decide)]

/-- A gap holds no words. -/
theorem IsGap.sourceTexts_append {gap : Bytes} (h : IsGap gap) (rest : Bytes) :
    sourceTexts (gap ++ rest) = sourceTexts rest := by
  induction h with
  | nil => rfl
  | blank hb _ ih => rw [List.cons_append, sourceTexts_blank hb, ih]
  | @comment body gap hbody _ ih =>
    rw [List.cons_append, List.append_assoc, List.cons_append, sourceTexts_comment hbody, ih]

/-- No byte at the front of a gap carries on a word. -/
theorem IsGap.endsWord {gap rest : Bytes} (h : IsGap gap) (hsep : gap = [] → rest = []) :
    EndsWord (gap ++ rest) := by
  cases h with
  | nil =>
    rw [hsep rfl]
    rintro b ⟨⟩
  | blank hb _ =>
    rintro x ⟨⟩
    exact not_isWordByte_of_isGapByte hb
  | comment _ _ =>
    rintro x ⟨⟩
    decide

/-- A word that ends is the first word of the text. -/
theorem sourceTexts_word {w rest : Bytes} (hne : w ≠ []) (hw : ∀ b ∈ w, isWordByte b = true)
    (hrest : EndsWord rest) : sourceTexts (w ++ rest) = w :: sourceTexts rest := by
  have hpiece : pieceWords 1 [] w = [⟨1, [], w⟩] := by
    rw [pieceWords, if_neg]
    rw [List.isEmpty_iff]
    exact hne
  rw [sourceTexts_eq_scanFrom ⟨1, 1 + Bytes.leads []⟩, scanFrom_piece hw hrest, hpiece,
    List.map_append, ← sourceTexts_eq_scanFrom]
  rfl

/-- **Scanning a layout.** The words of a source are the words it was made of. The induction is on
the words; the gap after a word is the gap before the others. -/
theorem sourceTexts_layOut {before : Bytes} {parts : List (Bytes × Bytes)}
    (h : IsLayout before parts) : sourceTexts (layOut before parts) = parts.map Prod.fst := by
  induction parts generalizing before with
  | nil => exact h.start.sourceTexts_append []
  | cons part parts ih =>
    obtain ⟨hne, hnonempty⟩ := List.forall_mem_cons.mp h.nonempty
    obtain ⟨hw, hbytes⟩ := List.forall_mem_cons.mp h.bytes
    obtain ⟨hgap, hgaps⟩ := List.forall_mem_cons.mp h.gaps
    have hrest : IsLayout part.2 parts := by
      refine ⟨hnonempty, (List.forall_mem_cons.mp h.wellFormed).2, hbytes, hgap, hgaps, ?_⟩
      intro next hnext
      refine h.apart next ?_
      rw [List.dropLast_cons_of_ne_nil (by rintro rfl; cases hnext)]
      exact List.mem_cons_of_mem part hnext
    have hsep : part.2 = [] → (parts.flatMap fun part => part.1 ++ part.2) = [] := by
      intro hnil
      cases parts with
      | nil => rfl
      | cons next parts => exact absurd hnil (h.apart part List.mem_cons_self)
    rw [layOut, List.flatMap_cons, h.start.sourceTexts_append, List.append_assoc,
      sourceTexts_word hne hw (hgap.endsWord hsep), List.map_cons, ← ih hrest, layOut]

/-! ### Reading without places -/

/-- The token with its place forgotten. -/
def Token.bare (t : Token) : Token := ⟨t.text, .zero⟩

/-- The waiting operator with all places forgotten. -/
def Pending.bare : Pending → Pending
  | operand t => operand t.bare
  | left t => left t.bare
  | right t e => right t.bare e.erase

/-- The clause with all places forgotten. -/
def Clause.bare (c : Clause) : Clause := ⟨c.first.bare, c.rest.map Token.bare⟩

/-- A result with all places forgotten; `strip` forgets those of a value. -/
def unplaced {α β : Type} (strip : α → β) (x : Except Failure α) : Except Failure β :=
  (x.map strip).mapError fun f => .ofFault f.fault

section Unplaced

variable {α β γ δ : Type} {strip : α → β} {strip' : γ → δ}

@[simp] theorem unplaced_atSpan (f : Fault) (span : Span) :
    unplaced strip (.error (.atSpan f span)) = .error (.atSpan f .zero) := rfl

/-- The parts of a computation can be stripped one after the other. -/
theorem unplaced_bind {f : α → Except Failure γ} {g : β → Except Failure δ} (x : Except Failure α)
    (h : ∀ a, g (strip a) = unplaced strip' (f a)) :
    (unplaced strip x >>= g) = unplaced strip' (x >>= f) := by
  cases x with
  | ok a => exact h a
  | error e => rfl

end Unplaced

theorem Token.ofTexts_texts (ts : List Token) : ofTexts (texts ts) = ts.map bare := by
  rw [ofTexts, texts, List.map_map]
  rfl

theorem Token.kind_bare (t : Token) : t.bare.kind = t.kind := rfl

theorem leaf_bare (t : Token) :
    leaf t.bare = unplaced (Sum.map Expr.erase Pending.bare) (leaf t) := by
  rw [leaf, leaf, Token.kind_bare]
  cases t.kind with
  | numeral =>
    have htext : t.bare.text = t.text := rfl
    simp only [htext]
    cases Decimal.readInt64? t.text <;> rfl
  | ident | binary _ | unary _ | assign | print | unknown => rfl

theorem supply_bare (last : Span) (e : Expr) (stack : List Pending) :
    supply .zero e.erase (stack.map Pending.bare)
      = Sum.map Expr.erase (List.map Pending.bare) (supply last e stack) := by
  induction stack generalizing e with
  | nil => rfl
  | cons op stack ih =>
    cases op with
    | operand t => exact ih (.unary (t.span.through last) t.text e)
    | left t => rfl
    | right t l => exact ih (.binary (t.span.through last) t.text l e)

/-- An expression that was read, its last token and the tokens after it, without places. -/
def stripRead (x : Expr × Token × List Token) : Expr × Token × List Token :=
  (x.1.erase, x.2.1.bare, x.2.2.map Token.bare)

/-- Reading an expression does not look at places. -/
theorem readExpr_bare (stack : List Pending) (prev : Token) (ts : List Token) :
    readExpr (stack.map Pending.bare) prev.bare (ts.map Token.bare)
      = unplaced stripRead (readExpr stack prev ts) := by
  induction ts generalizing stack prev with
  | nil => rfl
  | cons t ts ih =>
    have hleaf := leaf_bare t
    rw [List.map_cons]
    cases hread : leaf t with
    | error f =>
      rw [hread] at hleaf
      rw [readExpr_of_refused hread, readExpr_of_refused hleaf]
      rfl
    | ok found =>
      rw [hread] at hleaf
      cases found with
      | inr op =>
        rw [readExpr_of_operator hread, readExpr_of_operator hleaf]
        exact ih (op :: stack) t
      | inl e =>
        rw [readExpr_of_leaf hread, readExpr_of_leaf hleaf]
        have hsupply : supply t.bare.span e.erase (stack.map Pending.bare) = _ :=
          supply_bare t.span e stack
        rw [hsupply]
        cases supply t.span e stack with
        | inl e => rfl
        | inr stack => exact ih stack t

theorem expectEnd_bare (ts : List Token) :
    expectEnd (ts.map Token.bare) = unplaced id (expectEnd ts) := by
  cases ts <;> rfl

theorem readRest_bare (prev : Token) (ts : List Token) {build build' : Span → Expr → Action}
    (h : ∀ span e, build' .zero e.erase = (build span e).erase) :
    readRest prev.bare (ts.map Token.bare) build'
      = unplaced Action.erase (readRest prev ts build) := by
  have hread := readExpr_bare [] prev ts
  rw [List.map_nil] at hread
  rw [readRest, readRest, hread]
  refine unplaced_bind _ fun found => ?_
  obtain ⟨e, last, rest⟩ := found
  show (expectEnd (rest.map Token.bare) >>= fun _ => pure (build' .zero e.erase)) = _
  rw [expectEnd_bare]
  exact unplaced_bind _ fun _ => congrArg Except.ok (h last.span e)

/-- Reading a statement does not look at places. -/
theorem Clause.read_bare (c : Clause) : c.bare.read = unplaced Action.erase c.read := by
  obtain ⟨first, rest⟩ := c
  have hfirst := Token.kind_bare first
  rw [bare]
  cases hkind : first.kind with
  | print =>
    rw [hkind] at hfirst
    rw [read_print hfirst, read_print hkind]
    exact readRest_bare first rest fun _ _ => rfl
  | assign =>
    rw [hkind] at hfirst
    cases rest with
    | nil =>
      simp only [read, hkind, hfirst, List.map_nil, unplaced_atSpan]
      rfl
    | cons x rest =>
      have htarget := Token.kind_bare x
      rw [List.map_cons]
      by_cases hx : x.kind = .ident
      · rw [hx] at htarget
        rw [read_assign hfirst htarget, read_assign hkind hx]
        exact readRest_bare x rest fun _ _ => rfl
      · have hx' : ¬ x.bare.kind = .ident := hx
        simp only [read, hkind, hfirst, if_neg hx, if_neg hx', unplaced_atSpan]
        rfl
  | ident | numeral | binary _ | unary _ | unknown =>
    rw [hkind] at hfirst
    simp only [read, hkind, hfirst, unplaced_atSpan]
    rfl

/-- The cut at the markers does not look at places. -/
theorem splitStatements_bare (ts : List Token) :
    splitStatements (ts.map Token.bare) = (splitStatements ts).map Clause.bare := by
  induction ts with
  | nil => rfl
  | cons t ts ih =>
    rw [List.map_cons, splitStatements, splitStatements, ih]
    cases splitStatements ts with
    | nil => rfl
    | cons c cs =>
      have hmarker : c.bare.first.isMarker = c.first.isMarker := rfl
      simp only [List.map_cons, hmarker]
      split <;> rfl

theorem mapM_read_bare (cs : List Clause) :
    (cs.map Clause.bare).mapM Clause.read = unplaced Action.eraseAll (cs.mapM Clause.read) := by
  induction cs with
  | nil => rfl
  | cons c cs ih =>
    rw [List.map_cons, List.mapM_cons, List.mapM_cons, Clause.read_bare, ih]
    refine unplaced_bind _ fun a => ?_
    exact unplaced_bind _ fun as => rfl

namespace Program

/-- **Reading does not look at places.** Tokens without places are read as the program without
places, or refused for the same reason. -/
theorem ofTokens_bare (ts : List Token) :
    ofTokens (ts.map Token.bare) = unplaced erase (ofTokens ts) := by
  have hspan : tokensSpan (ts.map Token.bare) = .zero := by
    rw [← Token.ofTexts_texts]
    exact (placeless_ofTexts _).tokensSpan_eq
  rw [ofTokens, ofTokens, splitStatements_bare, mapM_read_bare, hspan]
  exact unplaced_bind _ fun as => rfl

/-- **A source agrees with its words.** However words are laid out in a source, the scanner finds
these words, and reading the source and reading the list of words give trees that are equal apart
from places, or both fail with the same code, message, value and hint. -/
theorem source_agrees_with_words {before : Bytes} {parts : List (Bytes × Bytes)}
    (h : IsLayout before parts) (file : Bytes) :
    let source := layOut before parts
    let words := parts.map Prod.fst
    (∃ ts, tokenize file source = .ok ts ∧ Token.texts ts = words) ∧
      ((∃ p q, ofSource file source = .ok p ∧ ofTexts words = .ok q ∧ p.erase = q.erase) ∨
        ∃ f g, ofSource file source = .error f ∧ ofTexts words = .error g ∧ f.code = g.code ∧
          f.fault.message = g.fault.message ∧ f.fault.value? = g.fault.value? ∧
          f.fault.hint = g.fault.hint) := by
  intro source words
  have hwords : sourceTexts source = words := sourceTexts_layOut h
  have hformed : ∀ w ∈ sourceTexts source, w.isWellFormed = true := by
    rw [hwords]
    exact List.forall_mem_map.mpr h.wellFormed
  obtain ⟨ts, hts⟩ := exists_tokenize hformed file
  have htexts : Token.texts ts = words := (texts_of_tokenize hts).1.trans hwords
  have hsource : ofSource file source = ofTokens ts := by
    rw [ofSource, hts]
    rfl
  have hlist : ofTexts words = unplaced erase (ofTokens ts) := by
    rw [ofTexts, ← htexts, Token.ofTexts_texts, ofTokens_bare]
  refine ⟨⟨ts, hts, htexts⟩, ?_⟩
  rw [hsource]
  cases hread : ofTokens ts with
  | ok p =>
    rw [hread] at hlist
    exact .inl ⟨p, p.erase, rfl, hlist, (erase_eq_of_ofTexts hlist).symm⟩
  | error f =>
    rw [hread] at hlist
    exact .inr ⟨f, _, rfl, hlist, rfl, rfl, rfl, rfl⟩

/-- A program that is cut off, with comments of bytes outside any character, one of them glued to a
word: the source is refused for the reason for which the list of its words is. -/
theorem source_agrees_with_words_cut :
    let comment : Bytes := [commentByte, 0xFF, Bytes.newline]
    let parts : List (Bytes × Bytes) := [("@", " "), ("+", comment), ("né", [])]
    IsLayout comment parts ∧ ofTexts ["@", "+", "né"] = .error ⟨.noExpression "né", none⟩ ∧
      ∃ f, ofSource "f" (layOut comment parts) = .error f ∧ f.code = .truncated ∧
        f.fault.value? = some (.text "né") := by
  intro comment parts
  have hbody : Bytes.newline ∉ ([0xFF] : Bytes) := by decide
  have hcomment : IsGap comment := .comment hbody .nil
  have hlayout : IsLayout comment parts := by
    refine ⟨by decide, by decide +kernel, by decide +kernel, hcomment, ?_, by decide⟩
    refine List.forall_mem_cons.mpr ⟨.blank rfl .nil, List.forall_mem_cons.mpr ⟨hcomment, ?_⟩⟩
    exact List.forall_mem_singleton.mpr .nil
  have hwords : ofTexts ["@", "+", "né"] = .error ⟨.noExpression "né", none⟩ := rfl
  obtain ⟨-, ⟨p, q, -, hq, -⟩ | ⟨f, g, hf, hg, hcode, -, hvalue, -⟩⟩ :=
    source_agrees_with_words hlayout "f"
  · cases hq.symm.trans hwords
  · cases hg.symm.trans hwords
    exact ⟨hlayout, hwords, f, hf, hcode, hvalue⟩

end Program

end Polish
