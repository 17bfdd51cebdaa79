import Polish.Fault
import Polish.Operator

/-!
# Arithmetic

Numbers have 64 bits, and sums, differences, products, negations and quotients wrap around.
Division truncates toward zero and refuses a zero divisor; the square root is the floor of the exact
root and refuses a negative operand. Both ways of running a program share these operations.

* `rootFrom`: the floor of the square root, corrected from any estimate.
* `isqrt`: the root of a number that is not negative, from a floating-point estimate.
* `BinaryOp.apply`, `UnaryOp.apply`: the operators.
* `applyBinary`, `applyUnary`: the operators by their spelling.
-/

namespace Polish

/-! ### Steps between neighbours -/

theorem toInt_pred {r : Int64} (h : 0 < r) : (r - 1).toInt = r.toInt - 1 := by
  have hpos : 0 < r.toInt := Int64.lt_iff_toInt_lt.mp h
  have hlt := r.toInt_lt
  rw [Int64.toInt_sub, Int64.toInt_one]
  exact Int.bmod_eq_of_le (by omega) (by omega)

theorem toInt_succ {r : Int64} (h : r < Int64.maxValue) : (r + 1).toInt = r.toInt + 1 := by
  have hlt : r.toInt < 9223372036854775807 := Int64.lt_iff_toInt_lt.mp h
  have hle := r.le_toInt
  rw [Int64.toInt_add, Int64.toInt_one]
  exact Int.bmod_eq_of_le (by omega) (by omega)

/-- A number that is at most a quotient by it is not the largest one. -/
theorem lt_maxValue_of_le_div {a s : Int64} (h : s ≤ a / s) : s < Int64.maxValue := by
  apply Int64.lt_of_le_of_ne s.le_maxValue
  rintro rfl
  have hle : 9223372036854775807 ≤ a.toInt.tdiv 9223372036854775807 := by
    have hdiv := Int64.toInt_div_of_ne_right a Int64.maxValue (by decide)
    have htoInt := Int64.le_iff_toInt_le.mp h
    rw [hdiv] at htoInt
    exact htoInt
  have habs : (a.toInt.tdiv 9223372036854775807).natAbs = a.toInt.natAbs / 9223372036854775807 :=
    Int.natAbs_tdiv _ _
  have hlow := a.le_toInt
  have hhigh := a.toInt_lt
  omega

/-! ### Roots -/

/-- Lowers an estimate of the root of `a` while it is more than the quotient of `a` by it. -/
def lowerRoot (a r : Int64) : Int64 :=
  if 0 < r ∧ a / r < r then lowerRoot a (r - 1) else r
termination_by r.toInt.toNat
decreasing_by
  next h =>
  have hpos : 0 < r.toInt := Int64.lt_iff_toInt_lt.mp h.1
  rw [toInt_pred h.1]
  omega

/-- Raises an estimate of the root of `a` while the next number is at most the quotient of `a` by
it. -/
def raiseRoot (a r : Int64) : Int64 :=
  if r + 1 ≤ a / (r + 1) then raiseRoot a (r + 1) else r
termination_by (Int64.maxValue.toInt - (r + 1).toInt).toNat
decreasing_by
  next h =>
  -- the next number is not the largest, so the one after it does not wrap around
  have hlt := lt_maxValue_of_le_div h
  have hlt' := Int64.lt_iff_toInt_lt.mp hlt
  rw [toInt_succ hlt]
  omega

/-- The floor of the square root of `a`, starting from an estimate. Whatever the estimate, lowering
and then raising it ends at the root. -/
def rootFrom (estimate a : Int64) : Int64 := raiseRoot a (lowerRoot a estimate)

/-- The floor of the square root of a number that is not negative; the estimate of its root is not
negative either. -/
def isqrt (a : Int64) : Int64 := rootFrom (max 0 (Float.sqrt a.toFloat).toInt64) a

/-! ### Operators -/

/-- The value of a binary operator. -/
def BinaryOp.apply (op : BinaryOp) (a b : Int64) : Except Fault Int64 :=
  match op with
  | .add => .ok (a + b)
  | .sub => .ok (a - b)
  | .mul => .ok (a * b)
  | .div => if b = 0 then .error (.divisionByZero a) else .ok (a / b)

/-- The value of a unary operator. -/
def UnaryOp.apply (op : UnaryOp) (a : Int64) : Except Fault Int64 :=
  match op with
  | .neg => .ok (-a)
  | .sqrt => if a < 0 then .error (.negativeRoot a) else .ok (isqrt a)

/-- The value of the binary operator with a spelling. -/
def applyBinary (symbol : Bytes) (a b : Int64) : Except Fault Int64 :=
  match BinaryOp.ofSymbol? symbol with
  | some op => op.apply a b
  | none => .error (.unknownBinary symbol)

/-- The value of the unary operator with a spelling. -/
def applyUnary (symbol : Bytes) (a : Int64) : Except Fault Int64 :=
  match UnaryOp.ofSymbol? symbol with
  | some op => op.apply a
  | none => .error (.unknownUnary symbol)

@[simp] theorem applyBinary_symbol (op : BinaryOp) (a b : Int64) :
    applyBinary op.symbol a b = op.apply a b := by
  simp [applyBinary]

@[simp] theorem applyUnary_symbol (op : UnaryOp) (a : Int64) :
    applyUnary op.symbol a = op.apply a := by
  simp [applyUnary]

end Polish
