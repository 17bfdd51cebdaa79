import Polish.Tree.Infix
import Polish.Proofs.Decoding
import Polish.Proofs.Effect
import Polish.Proofs.Listing

/-!
# The infix rendering is unambiguous

A program is shown in infix notation with blanks around binary operators and none after unary ones.
Names may hold parentheses, operators and markers after their first letter, but no blank and no line
feed. So a reader who goes from left to right always knows where a name ends, and the first byte of
an expression tells its sort: a letter, a digit, a parenthesis or a unary operator.

1. `word_append_inj`: a word is told from the text after it.
2. `Expr.sortOfFirst?`, `Expr.exists_first`: the sort of an expression, by its first byte.
3. `Expr.toInfix_append_inj`, `Action.toInfix_append_inj`: a rendering at the front of a text
   determines the tree, apart from places, and the text after it.
4. `Action.toInfixAll_inj`: the rendering of a program determines its statements.
5. `Program.infix_is_unambiguous`: and with them its code and what a run leaves.
-/

namespace Polish

/-! ### Words at the front of a text -/

/-- A word is told from the text after it. -/
theorem word_append_inj {w w' rest rest' : Bytes} (hw : ∀ b ∈ w, isWordByte b = true)
    (hw' : ∀ b ∈ w', isWordByte b = true) (hrest : EndsWord rest) (hrest' : EndsWord rest')
    (h : w ++ rest = w' ++ rest') : w = w' ∧ rest = rest' := by
  have hfront : ∀ {x tail : Bytes}, (∀ b ∈ x, isWordByte b = true) → EndsWord tail →
      (x ++ tail).takeWhile isWordByte = x := by
    intro x tail hx htail
    rw [List.takeWhile_append_of_pos hx]
    cases tail with
    | nil => exact List.append_nil x
    | cons b tail =>
      rw [List.takeWhile_cons_of_neg (by rw [htail b rfl]; decide), List.append_nil]
  have hsame : w = w' := by rw [← hfront hw hrest, h, hfront hw' hrest']
  subst hsame
  exact ⟨rfl, List.append_cancel_left h⟩

theorem endsWord_blank (text : Bytes) : EndsWord (" " ++ text) := by
  rintro b ⟨⟩
  decide

theorem endsWord_close (text : Bytes) : EndsWord (" )" ++ text) := by
  rintro b ⟨⟩
  decide

theorem endsWord_newline (text : Bytes) : EndsWord ("\n" ++ text) := by
  rintro b ⟨⟩
  decide

theorem BinaryOp.isWordByte_symbol (op : BinaryOp) : ∀ b ∈ op.symbol, isWordByte b = true := by
  cases op <;> decide +kernel

/-! ### The first byte of an expression -/

namespace Expr

/-- The sort of the expressions whose rendering starts with this byte. -/
def sortOfFirst? (b : UInt8) : Option Bytes :=
  if isLetter b then some ("Variable" : Bytes)
  else if Decimal.isDigit b then some ("Constant" : Bytes)
  else if b = Bytes.ascii '(' then some ("BinaryOperation" : Bytes)
  else if b = Bytes.ascii '_' ∨ b = Bytes.ascii '#' then some ("UnaryOperation" : Bytes)
  else none

theorem sortOfFirst?_digit {b : UInt8} (h : Decimal.isDigit b = true) :
    sortOfFirst? b = some ("Constant" : Bytes) := by
  have hletter : ¬ isLetter b = true := by
    rw [isLetter_iff]
    have hdigit := Decimal.isDigit_iff.mp h
    omega
  rw [sortOfFirst?, if_neg hletter, if_pos h]

/-- The first byte of a rendering tells the sort of the expression. -/
theorem exists_first {e : Expr} (h : e.IsWritten) :
    ∃ b tail, e.toInfix = b :: tail ∧ sortOfFirst? b = some e.sort := by
  cases e with
  | missing => exact h.elim
  | const span v =>
    have hv : v.toInt = (v.toInt.toNat : Int) := (Int.toNat_of_nonneg h).symm
    obtain ⟨hne, hdigits⟩ :=
      Decimal.isNumeral_iff.mp (Decimal.isNumeral_ofNat v.toInt.toNat).1
    obtain ⟨b, tail, htext⟩ := List.exists_cons_of_ne_nil hne
    rw [toInfix, ofInt64_of_toInt_eq hv, htext]
    exact ⟨b, tail, rfl, sortOfFirst?_digit (hdigits b (by rw [htext]; exact List.mem_cons_self))⟩
  | var span name =>
    obtain ⟨b, tail, rfl, hletter⟩ := isIdentifier_iff.mp h
    exact ⟨b, tail, rfl, if_pos hletter⟩
  | binary span symbol l r =>
    rw [toInfix, List.append_assoc, List.append_assoc, List.append_assoc, List.append_assoc,
      List.append_assoc]
    exact ⟨_, _, rfl, rfl⟩
  | unary span symbol e =>
    obtain ⟨⟨op, hop⟩, -⟩ := h
    rw [toInfix, ← UnaryOp.symbol_of_ofSymbol? hop]
    cases op <;> exact ⟨_, _, rfl, rfl⟩

theorem sort_eq_of_append {e e' : Expr} {rest rest' : Bytes} (he : e.IsWritten)
    (he' : e'.IsWritten) (h : e.toInfix ++ rest = e'.toInfix ++ rest') : e.sort = e'.sort := by
  obtain ⟨b, tail, htext, hb⟩ := exists_first he
  obtain ⟨b', tail', htext', hb'⟩ := exists_first he'
  rw [htext, htext'] at h
  obtain rfl : b = b' := (List.cons.inj h).1
  exact Option.some.inj (hb.symm.trans hb')

/-! ### Expressions -/

/-- The parts of a rendered operation, each followed by the rest of the text. -/
theorem toInfix_binary_append (span : Span) (symbol : Bytes) (l r : Expr) (rest : Bytes) :
    (binary span symbol l r).toInfix ++ rest
      = "( " ++ (l.toInfix ++ (" " ++ (symbol ++ (" " ++ (r.toInfix ++ (" )" ++ rest)))))) := by
  simp only [toInfix, List.append_assoc]

/-- **Expressions.** A rendering at the front of a text determines the expression, apart from
places, and the text after it. The induction is on the one expression; the other has the same
sort. -/
theorem toInfix_append_inj {e e' : Expr} {rest rest' : Bytes} (he : e.IsWritten)
    (he' : e'.IsWritten) (hnames : ∀ name ∈ e.vars, IsName name)
    (hnames' : ∀ name ∈ e'.vars, IsName name) (hrest : EndsWord rest) (hrest' : EndsWord rest')
    (h : e.toInfix ++ rest = e'.toInfix ++ rest') : e.erase = e'.erase ∧ rest = rest' := by
  induction e generalizing e' rest rest' with
  | missing => exact he.elim
  | const span v =>
    have hsort := sort_eq_of_append he he' h
    cases e' with
    | missing | var _ _ | binary _ _ _ _ | unary _ _ _ =>
      simp only [sort] at hsort
      exact absurd hsort (by decide)
    | const span' v' =>
      have hword : ∀ v : Int64, ∀ b ∈ Decimal.ofInt64 v, isWordByte b = true := fun v b hb =>
        ((Decimal.ofInt64_ascii v).2 b hb).2
      obtain ⟨htext, rfl⟩ := word_append_inj (hword v) (hword v') hrest hrest' h
      have hread := Decimal.readInt64?_ofInt64 v
      rw [htext, Decimal.readInt64?_ofInt64] at hread
      rw [erase, erase, Option.some.inj hread]
      exact ⟨rfl, rfl⟩
  | var span name =>
    have hsort := sort_eq_of_append he he' h
    cases e' with
    | missing | const _ _ | binary _ _ _ _ | unary _ _ _ =>
      simp only [sort] at hsort
      exact absurd hsort (by decide)
    | var span' name' =>
      have hname := (hnames name List.mem_cons_self).bytes
      have hname' := (hnames' name' List.mem_cons_self).bytes
      obtain ⟨htext, rfl⟩ := word_append_inj hname hname' hrest hrest' h
      obtain rfl : name = name' := htext
      exact ⟨rfl, rfl⟩
  | binary span symbol l r ihl ihr =>
    have hsort := sort_eq_of_append he he' h
    cases e' with
    | missing | const _ _ | var _ _ | unary _ _ _ =>
      simp only [sort] at hsort
      exact absurd hsort (by decide)
    | binary span' symbol' l' r' =>
      obtain ⟨⟨op, hop⟩, hl, hr⟩ := he
      obtain ⟨⟨op', hop'⟩, hl', hr'⟩ := he'
      obtain rfl := BinaryOp.symbol_of_ofSymbol? hop
      obtain rfl := BinaryOp.symbol_of_ofSymbol? hop'
      obtain ⟨hnamesl, hnamesr⟩ := List.forall_mem_append.mp hnames
      obtain ⟨hnamesl', hnamesr'⟩ := List.forall_mem_append.mp hnames'
      rw [toInfix_binary_append, toInfix_binary_append] at h
      -- the left operand, the operator and the right operand, each up to the blank after it
      obtain ⟨hleft, h⟩ := ihl hl hl' hnamesl hnamesl' (endsWord_blank _) (endsWord_blank _)
        (List.append_cancel_left h)
      obtain ⟨hsymbol, h⟩ := word_append_inj op.isWordByte_symbol op'.isWordByte_symbol
        (endsWord_blank _) (endsWord_blank _) (List.append_cancel_left h)
      obtain ⟨hright, h⟩ := ihr hr hr' hnamesr hnamesr' (endsWord_close _) (endsWord_close _)
        (List.append_cancel_left h)
      rw [erase, erase, hleft, hsymbol, hright]
      exact ⟨rfl, List.append_cancel_left h⟩
  | unary span symbol e ih =>
    have hsort := sort_eq_of_append he he' h
    cases e' with
    | missing | const _ _ | var _ _ | binary _ _ _ _ =>
      simp only [sort] at hsort
      exact absurd hsort (by decide)
    | unary span' symbol' e' =>
      obtain ⟨⟨op, hop⟩, he⟩ := he
      obtain ⟨⟨op', hop'⟩, he'⟩ := he'
      obtain rfl := UnaryOp.symbol_of_ofSymbol? hop
      obtain rfl := UnaryOp.symbol_of_ofSymbol? hop'
      -- nothing stands between the operator and its operand, but all unary operators are one byte
      have hlength : op.symbol.length = op'.symbol.length := by cases op <;> cases op' <;> rfl
      rw [toInfix, toInfix, List.append_assoc, List.append_assoc] at h
      obtain ⟨hsymbol, h⟩ := List.append_inj h hlength
      obtain ⟨hoperand, hafter⟩ := ih he he' hnames hnames' hrest hrest' h
      rw [erase, erase, hsymbol, hoperand]
      exact ⟨rfl, hafter⟩

end Expr

/-! ### Statements -/

namespace Action

theorem toInfix_assign_append (span : Span) (target : Bytes) (rhs : Expr) (rest : Bytes) :
    (assign span target rhs).toInfix ++ rest
      = target ++ (" " ++ (":= " ++ (rhs.toInfix ++ ("\n" ++ rest)))) := by
  have hmarker : (" := " : Bytes) = " " ++ ":= " := rfl
  rw [toInfix, hmarker]
  simp only [List.append_assoc]

theorem toInfix_print_append (span : Span) (e : Expr) (rest : Bytes) :
    (print span e).toInfix ++ rest = "Print" ++ (" " ++ (e.toInfix ++ ("\n" ++ rest))) := by
  have hmarker : ("Print " : Bytes) = "Print" ++ " " := rfl
  rw [toInfix, hmarker]
  simp only [List.append_assoc]

/-- An assignment to `Print` is no print statement: no expression starts with a colon. -/
theorem toInfix_assign_ne_print {span span' : Span} {target : Bytes} {rhs e : Expr}
    {rest rest' : Bytes} (hname : IsName target) (he : e.IsWritten) :
    (assign span target rhs).toInfix ++ rest ≠ (print span' e).toInfix ++ rest' := by
  intro h
  rw [toInfix_assign_append, toInfix_print_append] at h
  obtain ⟨-, h⟩ := word_append_inj hname.bytes (by decide +kernel) (endsWord_blank _)
    (endsWord_blank _) h
  obtain ⟨b, tail, htext, hb⟩ := Expr.exists_first he
  have h := List.append_cancel_left h
  rw [htext] at h
  obtain rfl : Bytes.ascii ':' = b := (List.cons.inj h).1
  cases hb

/-- **Statements.** A rendering at the front of a text determines the statement, apart from places,
and the text after it. -/
theorem toInfix_append_inj {a a' : Action} {rest rest' : Bytes} (ha : a.IsWritten)
    (ha' : a'.IsWritten) (hnames : ∀ name ∈ a.names, IsName name)
    (hnames' : ∀ name ∈ a'.names, IsName name)
    (h : a.toInfix ++ rest = a'.toInfix ++ rest') : a.erase = a'.erase ∧ rest = rest' := by
  cases a with
  | missing | seq _ _ => exact ha.elim
  | assign span target rhs =>
    obtain ⟨htarget, hrhs⟩ := List.forall_mem_cons.mp hnames
    cases a' with
    | missing | seq _ _ => exact ha'.elim
    | print span' e => exact absurd h (toInfix_assign_ne_print htarget ha')
    | assign span' target' rhs' =>
      obtain ⟨htarget', hrhs'⟩ := List.forall_mem_cons.mp hnames'
      rw [toInfix_assign_append, toInfix_assign_append] at h
      obtain ⟨hname, h⟩ := word_append_inj htarget.bytes htarget'.bytes (endsWord_blank _)
        (endsWord_blank _) h
      obtain ⟨hvalue, h⟩ := Expr.toInfix_append_inj ha.2 ha'.2 hrhs hrhs' (endsWord_newline _)
        (endsWord_newline _) (List.append_cancel_left (List.append_cancel_left h))
      rw [erase, erase, hname, hvalue]
      exact ⟨rfl, List.append_cancel_left h⟩
  | print span e =>
    cases a' with
    | missing | seq _ _ => exact ha'.elim
    | assign span' target' rhs' =>
      have htarget' := hnames' target' List.mem_cons_self
      exact absurd h.symm (toInfix_assign_ne_print htarget' ha)
    | print span' e' =>
      rw [toInfix_print_append, toInfix_print_append] at h
      obtain ⟨hvalue, h⟩ := Expr.toInfix_append_inj ha ha' hnames hnames' (endsWord_newline _)
        (endsWord_newline _) (List.append_cancel_left (List.append_cancel_left h))
      rw [erase, erase, hvalue]
      exact ⟨rfl, List.append_cancel_left h⟩

theorem toInfix_ne_nil {a : Action} (ha : a.IsWritten) : a.toInfix ≠ [] := by
  cases a with
  | missing | seq _ _ => exact ha.elim
  | assign span target rhs => exact List.append_ne_nil_of_right_ne_nil _ (by decide)
  | print span e => exact List.append_ne_nil_of_right_ne_nil _ (by decide)

/-- The rendering of statements determines them, apart from places. -/
theorem toInfixAll_inj {as bs : List Action} (has : ∀ a ∈ as, a.IsWritten)
    (hbs : ∀ b ∈ bs, b.IsWritten) (hnames : ∀ name ∈ namesAll as, IsName name)
    (hnames' : ∀ name ∈ namesAll bs, IsName name) (h : toInfixAll as = toInfixAll bs) :
    eraseAll as = eraseAll bs := by
  induction as generalizing bs with
  | nil =>
    cases bs with
    | nil => rfl
    | cons b bs =>
      have hnil := (List.append_eq_nil_iff.mp h.symm).1
      exact absurd hnil (toInfix_ne_nil (hbs b List.mem_cons_self))
  | cons a as ih =>
    cases bs with
    | nil =>
      have hnil := (List.append_eq_nil_iff.mp h).1
      exact absurd hnil (toInfix_ne_nil (has a List.mem_cons_self))
    | cons b bs =>
      obtain ⟨ha, has⟩ := List.forall_mem_cons.mp has
      obtain ⟨hb, hbs⟩ := List.forall_mem_cons.mp hbs
      obtain ⟨hfirst, hnames⟩ := List.forall_mem_append.mp hnames
      obtain ⟨hfirst', hnames'⟩ := List.forall_mem_append.mp hnames'
      rw [toInfixAll, toInfixAll] at h
      obtain ⟨hstatement, hrest⟩ := toInfix_append_inj ha hb hfirst hfirst' h
      rw [eraseAll, eraseAll, hstatement, ih has hbs hnames hnames' hrest]

end Action

/-! ### Places have no part in the rendering -/

theorem Expr.toInfix_erase (e : Expr) : e.erase.toInfix = e.toInfix := by
  induction e with
  | missing | const _ _ | var _ _ => rfl
  | binary span symbol l r ihl ihr => rw [erase, toInfix, ihl, ihr, toInfix]
  | unary span symbol e ih => rw [erase, toInfix, ih, toInfix]

namespace Action

mutual

theorem toInfix_erase : ∀ a : Action, a.erase.toInfix = a.toInfix
  | missing => rfl
  | assign span target rhs => by rw [erase, toInfix, Expr.toInfix_erase, toInfix]
  | print span e => by rw [erase, toInfix, Expr.toInfix_erase, toInfix]
  | seq span as => by rw [erase, toInfix, toInfixAll_eraseAll, toInfix]

theorem toInfixAll_eraseAll : ∀ as : List Action, toInfixAll (eraseAll as) = toInfixAll as
  | [] => rfl
  | a :: as => by rw [eraseAll, toInfixAll, toInfix_erase, toInfixAll_eraseAll, toInfixAll]

end

end Action

/-! ### Programs -/

namespace Program

theorem toInfix_erase (p : Program) : p.erase.toInfix = p.toInfix :=
  Action.toInfixAll_eraseAll p.actions

/-- Programs that are equal apart from places have the same code. -/
theorem exists_compile_of_erase_eq {p q : Program} (hp : p.IsWritten) (hq : q.IsWritten)
    (h : p.erase = q.erase) : ∃ code, p.compile = .ok code ∧ q.compile = .ok code := by
  obtain ⟨code, hcode⟩ := exists_compile hp
  obtain ⟨code', hcode'⟩ := exists_compile hq
  have hsame := compile_erase hcode
  rw [h, compile_erase hcode'] at hsame
  cases hsame
  exact ⟨code, hcode, hcode'⟩

/-- **The rendering is unambiguous.** Two sources that are read, each under its file name, are shown
as the same text exactly when their trees are equal apart from places. So the text that is shown
determines the code and what a run leaves that nobody stops. -/
theorem infix_is_unambiguous {file file' source source' : Bytes} {p q : Program}
    (hp : ofSource file source = .ok p) (hq : ofSource file' source' = .ok q) :
    (p.toInfix = q.toInfix ↔ p.erase = q.erase) ∧
      (p.toInfix = q.toInfix →
        (∃ code, p.compile = .ok code ∧ q.compile = .ok code) ∧
        ∀ (info info' : RunInfo) (store : Store), info.watch.cancelAt = none →
          info'.watch.cancelAt = none →
          (execute info p.toAction store).effect = (execute info' q.toAction store).effect) := by
  obtain ⟨ts, hts, hreads⟩ := ofSource_spec hp
  obtain ⟨ts', hts', hreads'⟩ := ofSource_spec hq
  have hwritten : p.IsWritten := hreads.isWritten
  have hwritten' : q.IsWritten := hreads'.isWritten
  have herase : p.toInfix = q.toInfix → p.erase = q.erase := by
    intro htext
    rw [erase, erase, Action.toInfixAll_inj hwritten hwritten' (hreads.isName hts)
      (hreads'.isName hts') htext]
  refine ⟨⟨herase, fun h => ?_⟩, fun htext => ⟨?_, fun info info' store hinfo hinfo' => ?_⟩⟩
  · rw [← toInfix_erase p, h, toInfix_erase]
  · exact exists_compile_of_erase_eq hwritten hwritten' (herase htext)
  · rw [effect_execute hinfo hwritten, effect_execute hinfo' hwritten']
    exact Action.effect_congr (fun a ha => (hwritten a ha).isStatement)
      (fun a ha => (hwritten' a ha).isStatement) (congrArg Program.actions (herase htext)) store

/-- Names that look like a marker, like a parenthesis and like an operator, in two layouts. -/
theorem infix_is_unambiguous_names :
    let source : Bytes := ":= Print + a( _ b// @ 7"
    let source' : Bytes := ":= Print\n+ a( _ b//;\n@ 07"
    let p : Program := ⟨⟨"f", 1, 1, 1, 24⟩, [.assign ⟨"f", 1, 1, 1, 20⟩ "Print"
        (.binary ⟨"f", 1, 10, 1, 20⟩ "+" (.var ⟨"f", 1, 12, 1, 14⟩ "a(")
          (.unary ⟨"f", 1, 15, 1, 20⟩ "_" (.var ⟨"f", 1, 17, 1, 20⟩ "b//"))),
      .print ⟨"f", 1, 21, 1, 24⟩ (.const ⟨"f", 1, 23, 1, 24⟩ 7)]⟩
    let q : Program := ⟨⟨"g", 1, 1, 3, 5⟩, [.assign ⟨"g", 1, 1, 2, 11⟩ "Print"
        (.binary ⟨"g", 2, 1, 2, 11⟩ "+" (.var ⟨"g", 2, 3, 2, 5⟩ "a(")
          (.unary ⟨"g", 2, 6, 2, 11⟩ "_" (.var ⟨"g", 2, 8, 2, 11⟩ "b//"))),
      .print ⟨"g", 3, 1, 3, 5⟩ (.const ⟨"g", 3, 3, 3, 5⟩ 7)]⟩
    ofSource "f" source = .ok p ∧ ofSource "g" source' = .ok q ∧
      p.toInfix = ("Print := ( a( + _b// )\nPrint 7\n" : Bytes) ∧ p.erase = q.erase ∧
      ∃ code, p.compile = .ok code ∧ q.compile = .ok code := by
  intro source source' p q
  have hp : ofSource "f" source = .ok p := rfl
  have hq : ofSource "g" source' = .ok q := rfl
  have htext : p.toInfix = ("Print := ( a( + _b// )\nPrint 7\n" : Bytes) := by decide +kernel
  have hsame : p.toInfix = q.toInfix := by decide +kernel
  obtain ⟨hiff, hdetermines⟩ := infix_is_unambiguous hp hq
  exact ⟨hp, hq, htext, hiff.mp hsame, (hdetermines hsame).1⟩

end Program

end Polish
