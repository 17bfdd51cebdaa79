import Mathlib.Data.Int.ModEq
import Polish.Proofs.Malformed

/-!
# Wrapping around once is enough

Words wrap around at every node of an expression. But words are the integers modulo `2 ^ 64`, and
sums, differences, products and negations respect that: the word of a sum is the sum of the words.
So the value of an expression built from these is the word of the value that it has in unbounded
integers, however often and wherever it wraps around on the way.

Quotients do not respect it, so a quotient is compared with that of its two words. There is one that
does not fit, that of the smallest word by minus one.

* `Wraps`, `wraps_ofInt`: the word that an integer wraps around to.
* `BinaryOp.onIntegers`, `Expr.onIntegers`: operations and expressions in unbounded integers.
* `BinaryOp.apply_ofInt`, `BinaryOp.apply_div`: what one operation does.
* `Expr.IsPolynomial`, `Expr.eval_eq_ofInt`: what an expression does, by induction on it.
* `wrapping_once_is_enough`: the same for both ways of running it.
-/

namespace Polish

/-! ### Words and integers -/

/-- The integer wraps around to this word: no other word is congruent to it. -/
def Wraps (n : Int) (v : Int64) : Prop := ∀ w : Int64, w.toInt ≡ n [ZMOD 2 ^ 64] ↔ w = v

theorem wraps_ofInt (n : Int) : Wraps n (Int64.ofInt n) := by
  intro w
  constructor
  · intro hmod
    have hemod : n % (2 ^ 64 : Nat) = w.toInt % (2 ^ 64 : Nat) := hmod.symm
    have hbmod : n.bmod (2 ^ 64) = w.toInt.bmod (2 ^ 64) := by rw [Int.bmod, Int.bmod, hemod]
    have hword : w.toInt.bmod (2 ^ 64) = w.toInt := w.toInt_bmod
    exact ((Int64.ofInt_eq_iff_bmod_eq_toInt n w).mpr (hbmod.trans hword)).symm
  · rintro rfl
    rw [Int64.toInt_ofInt]
    exact Int.bmod_emod

/-- The value of a binary operator on unbounded integers. -/
def BinaryOp.onIntegers : BinaryOp → Int → Int → Int
  | add, m, n => m + n
  | sub, m, n => m - n
  | mul, m, n => m * n
  | div, m, n => m.tdiv n

namespace BinaryOp

/-- Operators other than division respect wrapping around. -/
theorem apply_ofInt {op : BinaryOp} (hop : op ≠ div) (m n : Int) :
    op.apply (.ofInt m) (.ofInt n) = .ok (.ofInt (op.onIntegers m n)) := by
  cases op with
  | add => rw [onIntegers, Int64.ofInt_add, apply]
  | sub => rw [onIntegers, Int64.ofInt_sub, apply]
  | mul => rw [onIntegers, Int64.ofInt_mul, apply]
  | div => exact absurd rfl hop

/-- The quotient of two words. -/
theorem apply_div (a : Int64) {b : Int64} (hb : b ≠ 0) :
    div.apply a b = .ok (.ofInt (a.toInt.tdiv b.toInt)) := by
  have hquotient : Int64.ofInt (a.toInt.tdiv b.toInt) = a / b :=
    (Int64.ofInt_eq_iff_bmod_eq_toInt _ _).mpr (Int64.toInt_div a b).symm
  rw [apply, if_neg hb, hquotient]

end BinaryOp

theorem UnaryOp.apply_ofInt (n : Int) : neg.apply (.ofInt n) = .ok (.ofInt (-n)) := by
  rw [apply, Int64.ofInt_neg]

/-! ### Expressions -/

namespace Expr

/-- The expression is built from constants and names by sums, differences, products and
negations. -/
def IsPolynomial : Expr → Prop
  | missing => False
  | const _ _ | var _ _ => True
  | binary _ symbol l r => (∃ op, op ≠ .div ∧ symbol = BinaryOp.symbol op) ∧
      l.IsPolynomial ∧ r.IsPolynomial
  | unary _ symbol e => symbol = UnaryOp.neg.symbol ∧ e.IsPolynomial

/-- The value of the expression in unbounded integers. A square root, an unbound name or something
missing has none, and counts as zero. -/
def onIntegers (store : Store) : Expr → Int
  | missing => 0
  | const _ v => v.toInt
  | var _ name => ((store.get? name).map Int64.toInt).getD 0
  | binary _ symbol l r =>
    match BinaryOp.ofSymbol? symbol with
    | some op => op.onIntegers (l.onIntegers store) (r.onIntegers store)
    | none => 0
  | unary _ symbol e =>
    match UnaryOp.ofSymbol? symbol with
    | some .neg => -e.onIntegers store
    | some .sqrt | none => 0

variable {e : Expr} {store : Store}

theorem IsPolynomial.isSound (h : e.IsPolynomial) : e.IsSound := by
  induction e with
  | missing => exact h.elim
  | const span v => exact isSound_const span v
  | var span name => exact isSound_var span name
  | binary span symbol l r ihl ihr =>
    obtain ⟨⟨op, -, rfl⟩, hl, hr⟩ := h
    exact isSound_binary.mpr ⟨⟨op, BinaryOp.ofSymbol?_symbol op⟩, ihl hl, ihr hr⟩
  | unary span symbol e ih =>
    obtain ⟨rfl, he⟩ := h
    exact isSound_unary.mpr ⟨⟨.neg, UnaryOp.ofSymbol?_symbol .neg⟩, ih he⟩

/-- **Expressions.** The value of an expression is the word of its value in unbounded integers. -/
theorem eval_eq_ofInt (h : e.IsPolynomial)
    (hbound : ∀ name ∈ e.vars, (store.get? name).isSome = true) :
    e.eval store = .ok (.ofInt (e.onIntegers store)) := by
  induction e with
  | missing => exact h.elim
  | const span v => rw [eval, onIntegers, Int64.ofInt_toInt]
  | var span name =>
    obtain ⟨v, hv⟩ := Option.isSome_iff_exists.mp (hbound name List.mem_cons_self)
    rw [eval, onIntegers, Store.get, hv]
    show Except.ok v = .ok (.ofInt v.toInt)
    rw [Int64.ofInt_toInt]
  | binary span symbol l r ihl ihr =>
    obtain ⟨⟨op, hop, rfl⟩, hl, hr⟩ := h
    obtain ⟨hboundl, hboundr⟩ := List.forall_mem_append.mp hbound
    have hsymbol := BinaryOp.ofSymbol?_symbol op
    rw [eval_binary hsymbol, onIntegers, hsymbol, ihl hl hboundl, ihr hr hboundr, Result.ok_bind,
      Result.ok_bind, BinaryOp.apply_ofInt hop]
    rfl
  | unary span symbol e ih =>
    obtain ⟨rfl, he⟩ := h
    have hsymbol := UnaryOp.ofSymbol?_symbol .neg
    rw [eval_unary hsymbol, onIntegers, hsymbol, ih he hbound, Result.ok_bind, UnaryOp.apply_ofInt]
    rfl

end Expr

/-- Code that delivers a value pushes it, watched or not. -/
theorem Delivers.runFrom {m : Machine} {code : List Instr} {v : Int64} (h : Delivers m code (.ok v))
    {watch : Watch} (hwatch : watch.cancelAt = none) (pc reports : Nat) :
    (Machine.runFrom watch pc reports code m).machine = m.push v ∧
      (Machine.runFrom watch pc reports code m).failure = none := by
  have hfree : ∀ n, watch.canceled n = false := fun n => by rw [Watch.canceled, hwatch]
  have hexec : m.execCode code = .ok (m.push v) := h
  rw [← MachineRun.ending_eq_ok, Machine.ending_runFrom hfree, hexec]

/-- **Wrapping around once is enough.** An expression built from constants and names by sums,
differences, products and negations has a value on every table that binds its names, and that is the
only word congruent to its value in unbounded integers. Its code pushes the same word on any machine
with that table. A quotient of words by a word other than zero is the only word congruent to the
quotient of the integers, rounded toward zero, for the operator and for its instruction. -/
theorem wrapping_once_is_enough :
    (∀ (e : Expr) (store : Store), e.IsPolynomial →
      (∀ name ∈ e.vars, (store.get? name).isSome = true) →
      ∃ v, e.eval store = .ok v ∧ Wraps (e.onIntegers store) v ∧
        ∃ code, e.compile = .ok code ∧ ∀ (m : Machine) (watch : Watch) (pc reports : Nat),
          m.store = store → watch.cancelAt = none →
          (Machine.runFrom watch pc reports code m).machine = m.push v ∧
            (Machine.runFrom watch pc reports code m).failure = none) ∧
    ∀ a b : Int64, b ≠ 0 →
      ∃ v, applyBinary BinaryOp.div.symbol a b = .ok v ∧ Wraps (a.toInt.tdiv b.toInt) v ∧
        ∀ m : Machine, ((m.push a).push b).step (.plain (.binary .div)) = .ok (m.push v) := by
  constructor
  · intro e store hpolynomial hbound
    have hvalue := Expr.eval_eq_ofInt hpolynomial hbound
    obtain ⟨code, hcode⟩ := (Expr.exists_compile_iff e).mpr hpolynomial.isSound
    refine ⟨_, hvalue, wraps_ofInt _, code, hcode, ?_⟩
    rintro m watch pc reports rfl hwatch
    have hdelivers := Expr.delivers_of_compile hcode m
    rw [hvalue] at hdelivers
    exact hdelivers.runFrom hwatch pc reports
  · intro a b hb
    have hquotient := BinaryOp.apply_div a hb
    refine ⟨_, ?_, wraps_ofInt _, fun m => ?_⟩
    · rw [applyBinary_symbol, hquotient]
    · rw [Machine.step_binary, hquotient]
      rfl

/-- One more than the largest word and one less again: both steps wrap around, and the value is right.
The quotient that does not fit wraps around to its dividend. -/
theorem wrapping_once_is_enough_extremes :
    let largest : Int64 := 9223372036854775807
    let smallest : Int64 := -9223372036854775808
    let next : Expr := .binary .zero "+" (.var .zero "a") (.const .zero 1)
    let e : Expr := .binary .zero "-" next (.const .zero 1)
    let m : Machine := ⟨[7], NameMap.empty.put "a" largest, []⟩
    next.eval m.store = .ok smallest ∧ e.eval m.store = .ok largest ∧
      (∃ code, e.compile = .ok code ∧
        (Machine.runFrom .unwatched 0 0 code m).machine.stack = [largest, 7]) ∧
      applyBinary BinaryOp.div.symbol smallest (-1) = .ok smallest := by
  intro largest smallest next e m
  have hbound : ∀ name ∈ next.vars, (m.store.get? name).isSome = true :=
    List.forall_mem_singleton.mpr rfl
  have hnext : next.IsPolynomial := ⟨⟨.add, by decide, rfl⟩, trivial, trivial⟩
  obtain ⟨hpolynomials, hquotients⟩ := wrapping_once_is_enough
  obtain ⟨v, hv, hvwraps, -⟩ := hpolynomials next m.store hnext hbound
  obtain ⟨w, hw, hwwraps, code, hcode, hrun⟩ :=
    hpolynomials e m.store ⟨⟨.sub, by decide, rfl⟩, hnext, trivial⟩ hbound
  obtain ⟨q, hq, hqwraps, -⟩ := hquotients smallest (-1) (by decide)
  obtain rfl : smallest = v := (hvwraps smallest).mp (by decide)
  obtain rfl : largest = w := (hwwraps largest).mp (by decide)
  obtain rfl : smallest = q := (hqwraps smallest).mp (by decide)
  refine ⟨hv, hw, ⟨code, hcode, ?_⟩, hq⟩
  rw [(hrun m .unwatched 0 0 rfl rfl).1]
  rfl

end Polish
