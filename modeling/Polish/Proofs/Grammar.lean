import Polish.Proofs.Numeral
import Polish.Proofs.Reading

/-!
# The grammar of programs

A program is a list of words. The grammar says which lists of words are programs, without tokens,
cuts or stacks; the reader accepts exactly these and returns the one tree that is written with the
same words, leading zeros of numerals apart.

* `IsExprText`, `IsProgramText`: the grammar.
* `Expr.words`, `Action.words`, `Program.words`: a tree written in prefix order.
* `Expr.IsWritten`, `Action.IsWritten`, `Program.IsWritten`: the trees that can be written: flat,
  nothing missing, operators of the language, identifiers as names and constants that need no sign.
* `Reads.words_eq`, `Expr.reads_words`: reading and writing undo each other.
-/

namespace Polish

/-! ### The grammar -/

/-- The words form an expression. -/
inductive IsExprText : List Bytes → Prop where
  | ident {w : Bytes} (h : isIdentifier w = true) : IsExprText [w]
  | numeral {w : Bytes} (h : Decimal.isNumeral w = true)
      (hvalue : Decimal.value w ≤ Decimal.maxConstant) : IsExprText [w]
  | binary (op : BinaryOp) {l r : List Bytes} (hl : IsExprText l) (hr : IsExprText r) :
      IsExprText (op.symbol :: (l ++ r))
  | unary (op : UnaryOp) {e : List Bytes} (he : IsExprText e) : IsExprText (op.symbol :: e)

/-- The words form a list of statements. -/
inductive IsProgramText : List Bytes → Prop where
  | nil : IsProgramText []
  | assign {x : Bytes} {e rest : List Bytes} (hx : isIdentifier x = true) (he : IsExprText e)
      (hrest : IsProgramText rest) : IsProgramText (assignMarker :: x :: (e ++ rest))
  | print {e rest : List Bytes} (he : IsExprText e) (hrest : IsProgramText rest) :
      IsProgramText (printMarker :: (e ++ rest))

/-- A word with the leading zeros of a numeral removed. -/
def canonicalWord (w : Bytes) : Bytes :=
  if Decimal.isNumeral w then Decimal.stripZeros w else w

/-! ### Trees as words -/

/-- The expression in prefix order. -/
def Expr.words : Expr → List Bytes
  | missing => []
  | const _ v => [Decimal.ofInt64 v]
  | var _ name => [name]
  | binary _ op l r => op :: (l.words ++ r.words)
  | unary _ op e => op :: e.words

/-- The expression can be written in a program. -/
def Expr.IsWritten : Expr → Prop
  | missing => False
  | const _ v => 0 ≤ v.toInt
  | var _ name => isIdentifier name = true
  | binary _ symbol l r => (∃ op, BinaryOp.ofSymbol? symbol = some op) ∧ l.IsWritten ∧ r.IsWritten
  | unary _ symbol e => (∃ op, UnaryOp.ofSymbol? symbol = some op) ∧ e.IsWritten

namespace Action

mutual

/-- The statement in prefix order. -/
def words : Action → List Bytes
  | missing => []
  | assign _ target rhs => assignMarker :: target :: rhs.words
  | print _ e => printMarker :: e.words
  | seq _ as => wordsAll as

/-- The statements in prefix order, one after the other. -/
def wordsAll : List Action → List Bytes
  | [] => []
  | a :: as => a.words ++ wordsAll as

end

/-- The statement can be written in a program: it is not missing, and no sequence. -/
def IsWritten : Action → Prop
  | assign _ target rhs => isIdentifier target = true ∧ rhs.IsWritten
  | print _ e => e.IsWritten
  | missing | seq _ _ => False

end Action

namespace Program

/-- The program in prefix order. -/
def words (p : Program) : List Bytes := Action.wordsAll p.actions

/-- The program is flat, and each of its statements can be written. -/
def IsWritten (p : Program) : Prop := ∀ a ∈ p.actions, a.IsWritten

end Program

/-! ### Kinds of words -/

theorem isIdentifier_iff {w : Bytes} :
    isIdentifier w = true ↔ ∃ b rest, w = b :: rest ∧ isLetter b = true := by
  cases w <;> simp [isIdentifier]

theorem isLetter_iff {b : UInt8} :
    isLetter b = true ↔
      (0x61 ≤ b.toNat ∧ b.toNat ≤ 0x7A) ∨ (0x41 ≤ b.toNat ∧ b.toNat ≤ 0x5A) := by
  simp only [isLetter, Bool.or_eq_true, Bool.and_eq_true, decide_eq_true_eq, UInt8.le_iff_toNat_le]
  rfl

theorem not_isNumeral_of_isIdentifier {w : Bytes} (h : isIdentifier w = true) :
    Decimal.isNumeral w = false := by
  obtain ⟨b, rest, rfl, hb⟩ := isIdentifier_iff.mp h
  rw [Bool.eq_false_iff]
  intro hnumeral
  have hdigit := Decimal.isDigit_iff.mp (Decimal.isNumeral_cons.mp hnumeral).1
  have hletter := isLetter_iff.mp hb
  omega

theorem classify_of_isIdentifier {w : Bytes} (h : isIdentifier w = true) :
    classify w = .ident := by
  have hassign : w ≠ assignMarker := by
    rintro rfl
    exact absurd h (by decide)
  have hprint : w ≠ printMarker := by
    rintro rfl
    exact absurd h (by decide)
  rw [classify, if_neg hassign, if_neg hprint, if_pos h]

theorem classify_of_isNumeral {w : Bytes} (h : Decimal.isNumeral w = true) :
    classify w = .numeral := by
  have hassign : w ≠ assignMarker := by
    rintro rfl
    exact absurd h (by decide)
  have hprint : w ≠ printMarker := by
    rintro rfl
    exact absurd h (by decide)
  have hident : ¬ isIdentifier w = true := by
    intro hident
    rw [not_isNumeral_of_isIdentifier hident] at h
    cases h
  rw [classify, if_neg hassign, if_neg hprint, if_neg hident, if_pos h]

theorem classify_binary (op : BinaryOp) : classify op.symbol = .binary op := by
  cases op <;> decide

theorem classify_unary (op : UnaryOp) : classify op.symbol = .unary op := by
  cases op <;> decide

theorem classify_assignMarker : classify assignMarker = .assign := by decide

theorem classify_printMarker : classify printMarker = .print := by decide

/-- What a word of a kind is. -/
def Kind.Describes (w : Bytes) : Kind → Prop
  | assign => w = assignMarker
  | print => w = printMarker
  | ident => isIdentifier w = true
  | numeral => Decimal.isNumeral w = true
  | binary op => BinaryOp.ofSymbol? w = some op
  | unary op => UnaryOp.ofSymbol? w = some op
  | unknown => True

theorem describes_classify (w : Bytes) : (classify w).Describes w := by
  unfold classify
  by_cases hassign : w = assignMarker
  · rw [if_pos hassign]
    exact hassign
  by_cases hprint : w = printMarker
  · rw [if_neg hassign, if_pos hprint]
    exact hprint
  by_cases hident : isIdentifier w = true
  · rw [if_neg hassign, if_neg hprint, if_pos hident]
    exact hident
  by_cases hnumeral : Decimal.isNumeral w = true
  · rw [if_neg hassign, if_neg hprint, if_neg hident, if_pos hnumeral]
    exact hnumeral
  rw [if_neg hassign, if_neg hprint, if_neg hident, if_neg hnumeral]
  cases hbinary : BinaryOp.ofSymbol? w with
  | some op => exact hbinary
  | none =>
    cases hunary : UnaryOp.ofSymbol? w with
    | some op => exact hunary
    | none => trivial

theorem Token.describes_kind {t : Token} {k : Kind} (h : t.kind = k) : k.Describes t.text := by
  rw [← h]
  exact describes_classify t.text

/-! ### What is read can be written -/

/-- A numeral that was read is a constant without sign, written without leading zeros. -/
theorem readInt64?_numeral_eq_some {w : Bytes} {v : Int64} (h : Decimal.isNumeral w = true)
    (hvalue : Decimal.readInt64? w = some v) :
    Decimal.value w ≤ Decimal.maxConstant ∧ v.toInt = Decimal.value w := by
  rw [Decimal.readInt64?_numeral h] at hvalue
  by_cases hle : Decimal.value w ≤ Decimal.maxConstant
  · rw [if_pos hle] at hvalue
    cases hvalue
    refine ⟨hle, ?_⟩
    unfold Decimal.maxConstant at hle
    exact Int64.toInt_ofInt_of_le (by omega) (by omega)
  · rw [if_neg hle] at hvalue
    cases hvalue

theorem ofInt64_of_toInt_eq {v : Int64} {n : Nat} (h : v.toInt = n) :
    Decimal.ofInt64 v = Decimal.ofNat n := by
  rw [Decimal.ofInt64, h]
  rfl

theorem canonicalWord_of_not_numeral {w : Bytes} (h : Decimal.isNumeral w = false) :
    canonicalWord w = w := by
  rw [canonicalWord, h]
  rfl

theorem not_isNumeral_of_binary {w : Bytes} {op : BinaryOp} (h : BinaryOp.ofSymbol? w = some op) :
    Decimal.isNumeral w = false := by
  rw [← BinaryOp.symbol_of_ofSymbol? h]
  cases op <;> decide

theorem not_isNumeral_of_unary {w : Bytes} {op : UnaryOp} (h : UnaryOp.ofSymbol? w = some op) :
    Decimal.isNumeral w = false := by
  rw [← UnaryOp.symbol_of_ofSymbol? h]
  cases op <;> decide

namespace Reads

variable {ts : List Token} {e : Expr}

/-- The tokens of an expression are words of the grammar. -/
theorem isExprText (h : Reads ts e) : IsExprText (Token.texts ts) := by
  induction h with
  | var hkind => exact .ident (Token.describes_kind hkind)
  | const hkind hvalue =>
    have hnumeral := Token.describes_kind hkind
    exact .numeral hnumeral (readInt64?_numeral_eq_some hnumeral hvalue).1
  | @binary t op ls rs _ _ hkind _ _ ihl ihr =>
    have hsymbol := BinaryOp.symbol_of_ofSymbol? (Token.describes_kind hkind)
    have htexts : Token.texts (t :: (ls ++ rs))
        = op.symbol :: (Token.texts ls ++ Token.texts rs) := by
      rw [hsymbol]
      simp [Token.texts]
    rw [htexts]
    exact .binary op ihl ihr
  | @unary t op ts _ hkind _ ih =>
    have hsymbol := UnaryOp.symbol_of_ofSymbol? (Token.describes_kind hkind)
    have htexts : Token.texts (t :: ts) = op.symbol :: Token.texts ts := by
      rw [hsymbol]
      rfl
    rw [htexts]
    exact .unary op ih

/-- An expression that was read can be written. -/
theorem isWritten (h : Reads ts e) : e.IsWritten := by
  induction h with
  | var hkind => exact Token.describes_kind hkind
  | const hkind hvalue =>
    have hv := (readInt64?_numeral_eq_some (Token.describes_kind hkind) hvalue).2
    show 0 ≤ Int64.toInt _
    rw [hv]
    exact Int.natCast_nonneg _
  | @binary _ op _ _ _ _ hkind _ _ ihl ihr => exact ⟨⟨op, Token.describes_kind hkind⟩, ihl, ihr⟩
  | @unary _ op _ _ hkind _ ih => exact ⟨⟨op, Token.describes_kind hkind⟩, ih⟩

/-- Writing an expression that was read gives its tokens back, leading zeros apart. -/
theorem words_eq (h : Reads ts e) : e.words = (Token.texts ts).map canonicalWord := by
  induction h with
  | @var t hkind =>
    have hword := canonicalWord_of_not_numeral
      (not_isNumeral_of_isIdentifier (Token.describes_kind hkind))
    simp [Expr.words, Token.texts, hword]
  | @const t v hkind hvalue =>
    have hnumeral : Decimal.isNumeral t.text = true := Token.describes_kind hkind
    have hv := (readInt64?_numeral_eq_some hnumeral hvalue).2
    rw [Expr.words, ofInt64_of_toInt_eq hv, Decimal.ofNat_value hnumeral]
    simp [Token.texts, canonicalWord, hnumeral]
  | @binary t op ls rs l r hkind _ _ ihl ihr =>
    have hword := canonicalWord_of_not_numeral
      (not_isNumeral_of_binary (Token.describes_kind hkind))
    rw [Expr.words, ihl, ihr]
    simp [Token.texts, hword]
  | @unary t op ts e hkind _ ih =>
    have hword := canonicalWord_of_not_numeral (not_isNumeral_of_unary (Token.describes_kind hkind))
    rw [Expr.words, ih]
    simp [Token.texts, hword]

end Reads

theorem Token.texts_append (xs ys : List Token) : texts (xs ++ ys) = texts xs ++ texts ys := by
  simp [texts]

theorem canonicalWord_assignMarker : canonicalWord assignMarker = assignMarker := by decide

theorem canonicalWord_printMarker : canonicalWord printMarker = printMarker := by decide

/-- A statement that was read can be written, with the same words. -/
theorem ReadsStatement.words_eq {ts : List Token} {a : Action} (h : ReadsStatement ts a) :
    a.IsWritten ∧ a.words = (Token.texts ts).map canonicalWord := by
  cases h with
  | @assign m x ts e hm hx he =>
    have hmarker : m.text = assignMarker := Token.describes_kind hm
    have hident : isIdentifier x.text = true := Token.describes_kind hx
    refine ⟨⟨hident, he.isWritten⟩, ?_⟩
    rw [Action.words, he.words_eq]
    simp [Token.texts, hmarker, canonicalWord_assignMarker,
      canonicalWord_of_not_numeral (not_isNumeral_of_isIdentifier hident)]
  | @print m ts e hm he =>
    have hmarker : m.text = printMarker := Token.describes_kind hm
    refine ⟨he.isWritten, ?_⟩
    rw [Action.words, he.words_eq]
    simp [Token.texts, hmarker, canonicalWord_printMarker]

namespace ReadsProgram

variable {ts : List Token} {as : List Action}

/-- The tokens of a program are words of the grammar. -/
theorem isProgramText (h : ReadsProgram ts as) : IsProgramText (Token.texts ts) := by
  induction h with
  | nil => exact .nil
  | @cons s ts a as hs _ ih =>
    cases hs with
    | @assign m x es e hm hx he =>
      have hmarker : m.text = assignMarker := Token.describes_kind hm
      have htexts : Token.texts (m :: x :: es ++ ts)
          = assignMarker :: x.text :: (Token.texts es ++ Token.texts ts) := by
        rw [← hmarker]
        simp [Token.texts]
      rw [htexts]
      exact .assign (Token.describes_kind hx) he.isExprText ih
    | @print m es e hm he =>
      have hmarker : m.text = printMarker := Token.describes_kind hm
      have htexts : Token.texts (m :: es ++ ts)
          = printMarker :: (Token.texts es ++ Token.texts ts) := by
        rw [← hmarker]
        simp [Token.texts]
      rw [htexts]
      exact .print he.isExprText ih

/-- Statements that were read can be written. -/
theorem isWritten (h : ReadsProgram ts as) : ∀ a ∈ as, a.IsWritten := by
  induction h with
  | nil => simp
  | cons hs _ ih =>
    intro a ha
    rcases List.mem_cons.mp ha with rfl | ha
    · exact hs.words_eq.1
    · exact ih a ha

/-- Writing statements that were read gives the tokens back, leading zeros apart. -/
theorem words_eq (h : ReadsProgram ts as) :
    Action.wordsAll as = (Token.texts ts).map canonicalWord := by
  induction h with
  | nil => rfl
  | cons hs _ ih =>
    rw [Action.wordsAll, hs.words_eq.2, ih, Token.texts_append, List.map_append]

end ReadsProgram

/-! ### Words without places -/

/-- The tokens stand nowhere. -/
def Placeless (ts : List Token) : Prop := ∀ t ∈ ts, t.span = .zero

theorem placeless_ofTexts (ws : List Bytes) : Placeless (Token.ofTexts ws) := by
  intro t ht
  obtain ⟨w, -, rfl⟩ := List.mem_map.mp ht
  rfl

theorem Placeless.tokensSpan_eq {ts : List Token} (h : Placeless ts) : tokensSpan ts = .zero := by
  cases ts with
  | nil => rfl
  | cons first rest =>
    have hfirst := h first List.mem_cons_self
    have hlast := h _ (List.getLast_mem (List.cons_ne_nil first rest))
    rw [tokensSpan, hfirst, hlast]
    rfl

theorem Placeless.append {xs ys : List Token} (h : Placeless (xs ++ ys)) :
    Placeless xs ∧ Placeless ys :=
  ⟨fun t ht => h t (List.mem_append_left ys ht), fun t ht => h t (List.mem_append_right xs ht)⟩

theorem Placeless.tail {t : Token} {ts : List Token} (h : Placeless (t :: ts)) : Placeless ts :=
  fun u hu => h u (List.mem_cons_of_mem t hu)

/-- An expression that was read from words has no places. -/
theorem Reads.erase_eq {ts : List Token} {e : Expr} (h : Reads ts e) (hts : Placeless ts) :
    e.erase = e := by
  induction h with
  | var _ | const _ _ => rw [Expr.erase, hts _ List.mem_cons_self]
  | binary _ _ _ ihl ihr =>
    rw [Expr.erase, ihl hts.tail.append.1, ihr hts.tail.append.2, hts.tokensSpan_eq]
  | unary _ _ ih => rw [Expr.erase, ih hts.tail, hts.tokensSpan_eq]

theorem ReadsProgram.eraseAll_eq {ts : List Token} {as : List Action} (h : ReadsProgram ts as)
    (hts : Placeless ts) : Action.eraseAll as = as := by
  induction h with
  | nil => rfl
  | cons hs _ ih =>
    obtain ⟨hstatement, hrest⟩ := hts.append
    rw [Action.eraseAll, ih hrest]
    cases hs with
    | assign _ _ he =>
      rw [Action.erase, he.erase_eq hstatement.tail.tail, hstatement.tokensSpan_eq]
    | print _ he => rw [Action.erase, he.erase_eq hstatement.tail, hstatement.tokensSpan_eq]

/-! ### What is written is read -/

theorem Token.ofTexts_append (xs ys : List Bytes) :
    ofTexts (xs ++ ys) = ofTexts xs ++ ofTexts ys := by
  simp [ofTexts]

theorem Token.ofTexts_cons (w : Bytes) (ws : List Bytes) :
    ofTexts (w :: ws) = ⟨w, .zero⟩ :: ofTexts ws := rfl

/-- A constant without sign is read back from its digits. -/
theorem reads_const {v : Int64} (h : 0 ≤ v.toInt) :
    Reads [⟨Decimal.ofInt64 v, .zero⟩] (.const .zero v) := by
  have hv : v.toInt = (v.toInt.toNat : Int) := (Int.toNat_of_nonneg h).symm
  have hnumeral : Decimal.isNumeral (Decimal.ofInt64 v) = true := by
    rw [ofInt64_of_toInt_eq hv]
    exact (Decimal.isNumeral_ofNat _).1
  have hkind : (⟨Decimal.ofInt64 v, .zero⟩ : Token).kind = .numeral :=
    classify_of_isNumeral hnumeral
  exact .const hkind (Decimal.readInt64?_ofInt64 v)

theorem reads_binary (op : BinaryOp) {ls rs : List Bytes} {l r : Expr}
    (hl : Reads (Token.ofTexts ls) l) (hr : Reads (Token.ofTexts rs) r) :
    Reads (Token.ofTexts (op.symbol :: (ls ++ rs))) (.binary .zero op.symbol l r) := by
  have hkind : (⟨op.symbol, .zero⟩ : Token).kind = .binary op := classify_binary op
  have hreads := Reads.binary hkind hl hr
  rw [← Token.ofTexts_append, ← Token.ofTexts_cons, (placeless_ofTexts _).tokensSpan_eq] at hreads
  exact hreads

theorem reads_unary (op : UnaryOp) {ws : List Bytes} {e : Expr} (he : Reads (Token.ofTexts ws) e) :
    Reads (Token.ofTexts (op.symbol :: ws)) (.unary .zero op.symbol e) := by
  have hkind : (⟨op.symbol, .zero⟩ : Token).kind = .unary op := classify_unary op
  have hreads := Reads.unary hkind he
  rw [← Token.ofTexts_cons, (placeless_ofTexts _).tokensSpan_eq] at hreads
  exact hreads

theorem readsStatement_assign {x : Bytes} {ws : List Bytes} {e : Expr}
    (hx : isIdentifier x = true) (he : Reads (Token.ofTexts ws) e) :
    ReadsStatement (Token.ofTexts (assignMarker :: x :: ws)) (.assign .zero x e) := by
  have hm : (⟨assignMarker, .zero⟩ : Token).kind = .assign := classify_assignMarker
  have hident : (⟨x, .zero⟩ : Token).kind = .ident := classify_of_isIdentifier hx
  have hreads := ReadsStatement.assign hm hident he
  rw [← Token.ofTexts_cons, ← Token.ofTexts_cons, (placeless_ofTexts _).tokensSpan_eq] at hreads
  exact hreads

theorem readsStatement_print {ws : List Bytes} {e : Expr} (he : Reads (Token.ofTexts ws) e) :
    ReadsStatement (Token.ofTexts (printMarker :: ws)) (.print .zero e) := by
  have hm : (⟨printMarker, .zero⟩ : Token).kind = .print := classify_printMarker
  have hreads := ReadsStatement.print hm he
  rw [← Token.ofTexts_cons, (placeless_ofTexts _).tokensSpan_eq] at hreads
  exact hreads

/-- An expression that can be written is read back from its words. -/
theorem Expr.reads_words {e : Expr} (h : e.IsWritten) :
    Reads (Token.ofTexts e.words) e.erase := by
  induction e with
  | missing => exact h.elim
  | const span v => exact reads_const h
  | var span name => exact .var (classify_of_isIdentifier h)
  | binary span symbol l r ihl ihr =>
    obtain ⟨⟨op, hop⟩, hl, hr⟩ := h
    obtain rfl := BinaryOp.symbol_of_ofSymbol? hop
    exact reads_binary op (ihl hl) (ihr hr)
  | unary span symbol e ih =>
    obtain ⟨⟨op, hop⟩, he⟩ := h
    obtain rfl := UnaryOp.symbol_of_ofSymbol? hop
    exact reads_unary op (ih he)

/-- Statements that can be written are read back from their words. -/
theorem Action.readsProgram_words {as : List Action} (h : ∀ a ∈ as, a.IsWritten) :
    ReadsProgram (Token.ofTexts (wordsAll as)) (eraseAll as) := by
  induction as with
  | nil => exact .nil
  | cons a as ih =>
    have hrest := ih fun b hb => h b (List.mem_cons_of_mem a hb)
    have ha := h a List.mem_cons_self
    rw [wordsAll, eraseAll, Token.ofTexts_append]
    cases a with
    | missing | seq => exact ha.elim
    | assign span target rhs =>
      exact .cons (readsStatement_assign ha.1 (Expr.reads_words ha.2)) hrest
    | print span e => exact .cons (readsStatement_print (Expr.reads_words ha)) hrest

/-- Words of the grammar are read as an expression. -/
theorem IsExprText.exists_reads {ws : List Bytes} (h : IsExprText ws) :
    ∃ e, Reads (Token.ofTexts ws) e := by
  induction h with
  | ident h => exact ⟨_, .var (classify_of_isIdentifier h)⟩
  | @numeral w h hvalue =>
    have hread := Decimal.readInt64?_numeral h
    rw [if_pos hvalue] at hread
    exact ⟨_, .const (classify_of_isNumeral h) hread⟩
  | binary op _ _ ihl ihr =>
    obtain ⟨l, hl⟩ := ihl
    obtain ⟨r, hr⟩ := ihr
    exact ⟨_, reads_binary op hl hr⟩
  | unary op _ ih =>
    obtain ⟨e, he⟩ := ih
    exact ⟨_, reads_unary op he⟩

/-- Words of the grammar are read as statements. -/
theorem IsProgramText.exists_reads {ws : List Bytes} (h : IsProgramText ws) :
    ∃ as, ReadsProgram (Token.ofTexts ws) as := by
  induction h with
  | nil => exact ⟨[], .nil⟩
  | @assign x e rest hx he _ ih =>
    obtain ⟨rhs, hrhs⟩ := he.exists_reads
    obtain ⟨as, has⟩ := ih
    rw [← List.cons_append, ← List.cons_append, Token.ofTexts_append]
    exact ⟨_, .cons (readsStatement_assign hx hrhs) has⟩
  | @print e rest he _ ih =>
    obtain ⟨value, hvalue⟩ := he.exists_reads
    obtain ⟨as, has⟩ := ih
    rw [← List.cons_append, Token.ofTexts_append]
    exact ⟨_, .cons (readsStatement_print hvalue) has⟩

/-! ### Reading words -/

namespace Program

theorem ofTexts_eq_ok {ws : List Bytes} {p : Program} :
    ofTexts ws = .ok p ↔ p.span = .zero ∧ ReadsProgram (Token.ofTexts ws) p.actions := by
  rw [ofTexts, ofTokens_eq_ok, (placeless_ofTexts ws).tokensSpan_eq]

/-- A program that can be written is read back from its words, without places. -/
theorem ofTexts_words {p : Program} (h : p.IsWritten) : ofTexts p.words = .ok p.erase :=
  ofTexts_eq_ok.mpr ⟨rfl, Action.readsProgram_words h⟩

theorem erase_eq_of_ofTexts {ws : List Bytes} {p : Program} (h : ofTexts ws = .ok p) :
    p.erase = p := by
  obtain ⟨hspan, hreads⟩ := ofTexts_eq_ok.mp h
  rw [erase, hreads.eraseAll_eq (placeless_ofTexts ws), ← hspan]

/-- **The grammar.** A list of words is read as a program exactly when it is a list of statements of
the grammar. The tree has no places, is flat and has every child, and writing it gives the words
back without leading zeros; no other tree that can be written does. And every tree that can be
written is read back from its words. -/
theorem ofTexts_iff_grammar (ws : List Bytes) :
    ((∃ p, ofTexts ws = .ok p) ↔ IsProgramText ws) ∧
      (∀ p, ofTexts ws = .ok p → p.IsWritten ∧ p.erase = p ∧ p.words = ws.map canonicalWord ∧
        ∀ q : Program, q.IsWritten → q.words = ws.map canonicalWord → q.erase = p) ∧
      ∀ p : Program, p.IsWritten → ofTexts p.words = .ok p.erase := by
  refine ⟨⟨?_, ?_⟩, ?_, fun p hp => ofTexts_words hp⟩
  · rintro ⟨p, hp⟩
    have htext := (ofTexts_eq_ok.mp hp).2.isProgramText
    rwa [Token.texts_ofTexts] at htext
  · intro h
    obtain ⟨as, has⟩ := h.exists_reads
    exact ⟨⟨.zero, as⟩, ofTexts_eq_ok.mpr ⟨rfl, has⟩⟩
  · intro p hp
    obtain ⟨-, hreads⟩ := ofTexts_eq_ok.mp hp
    have hwords : p.words = ws.map canonicalWord := by
      have h := hreads.words_eq
      rwa [Token.texts_ofTexts] at h
    have hself := erase_eq_of_ofTexts hp
    refine ⟨hreads.isWritten, hself, hwords, fun q hq hqwords => ?_⟩
    -- both trees are read from the same words
    have hread := ofTexts_words hq
    rw [hqwords, ← hwords, ofTexts_words hreads.isWritten, hself] at hread
    exact (Except.ok.inj hread).symm

/-- A numeral with leading zeros, which the tree does not keep. -/
theorem ofTexts_iff_grammar_zeros :
    let ws : List Bytes := [":=", "a", "007", "@", "#", "a"]
    let short : List Bytes := [":=", "a", "7", "@", "#", "a"]
    let p : Program := ⟨.zero, [.assign .zero "a" (.const .zero 7),
      .print .zero (.unary .zero "#" (.var .zero "a"))]⟩
    ofTexts ws = .ok p ∧ IsProgramText ws ∧ p.IsWritten ∧ ws.map canonicalWord = short ∧
      ofTexts short = .ok p := by
  intro ws short p
  have hread : ofTexts ws = .ok p := rfl
  obtain ⟨hgrammar, htree, hback⟩ := ofTexts_iff_grammar ws
  have hwritten := (htree p hread).1
  exact ⟨hread, hgrammar.mp ⟨p, hread⟩, hwritten, rfl, hback p hwritten⟩

end Program

end Polish
