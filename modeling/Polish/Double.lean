import Polish.Bytes

/-!
# Double-precision numbers

A number with a fraction is known to 53 binary digits: it is the number `mantissa · 2 ^ exponent`
that is nearest to what was written, and of two that are equally near, the one with the even
mantissa. Very small numbers have fewer digits, and numbers that are too large are refused.

* `Double`: a double-precision number, infinity, or no number at all.
* `Double.ofRatio?`: the nearest number to a quotient.
* `Double.ofDecimal?`: the nearest number to a decimal.
* `Double.toInt64?`: the whole part.
* `Double.compare`: the order of numbers.
-/

namespace Polish

/-- A double-precision number. -/
inductive Double where
  /-- The number `mantissa · 2 ^ exponent`, or its negative. -/
  | finite (negative : Bool) (mantissa : Nat) (exponent : Int)
  | infinite (negative : Bool)
  | nan
deriving DecidableEq, Repr

namespace Double

/-! ### Rounding -/

/-- A quotient rounded to the nearest whole number, a half to the even neighbour. -/
def roundDiv (num den : Nat) : Nat :=
  let q := num / den
  let r := 2 * (num % den)
  if den < r || (r = den && q % 2 = 1) then q + 1 else q

/-- A quotient times a power of two, as a quotient. -/
def shifted (num den : Nat) (e : Int) : Nat × Nat :=
  if 0 ≤ e then (num * Nat.pow 2 e.toNat, den) else (num, den * Nat.pow 2 (-e).toNat)

/-- The least mantissa of a number that has all its digits. -/
def fullMantissa : Nat := Nat.pow 2 52

/-- The exponents of the smallest and of the largest numbers. -/
def exponentRange : Int × Int := (-1074, 971)

/-- The exponent with which a quotient has 53 binary digits before the point, or the least one. -/
def unitExponent (num den : Nat) : Int :=
  let rough : Int := (num.log2 : Int) - den.log2
  let (n, d) := shifted num den (-rough)
  max ((if n < d then rough - 1 else rough) - 52) exponentRange.1

/-- The number nearest to a quotient, unless that is too large. -/
def ofRatio? (negative : Bool) (num den : Nat) : Option Double :=
  if num = 0 then some (.finite negative 0 0)
  else
    let e := unitExponent num den
    let (n, d) := shifted num den (-e)
    let m := roundDiv n d
    let (m, e) := if m = 2 * fullMantissa then (fullMantissa, e + 1) else (m, e)
    if exponentRange.2 < e then none else some (.finite negative m e)

/-- The number of decimal digits before the point of all numbers that are not too large, and of zeros
after it in all that are not too small, with some room. A decimal digit is worth about 3.32 binary
ones. -/
def decimalLimit : Int := 400

/-- The number nearest to `digits · 10 ^ exponent`, unless that is too large. -/
def ofDecimal? (negative : Bool) (digits : Nat) (exponent : Int) : Option Double :=
  let size : Int := (digits.log2 * 30103 / 100000 : Nat) + exponent
  if digits = 0 || size < -decimalLimit then some (.finite negative 0 0)
  else if decimalLimit < size then none
  else if 0 ≤ exponent then ofRatio? negative (digits * Nat.pow 10 exponent.toNat) 1
  else ofRatio? negative digits (Nat.pow 10 (-exponent).toNat)

/-! ### Whole parts -/

/-- The whole part of `mantissa · 2 ^ exponent`. -/
def wholePart (mantissa : Nat) (exponent : Int) : Nat :=
  let (n, d) := shifted mantissa 1 exponent
  n / d

/-- The number as a 64-bit whole number, if it is not above them; the fraction is dropped, and numbers
below them become the least. -/
def toInt64? : Double → Option Int64
  | nan | infinite false => none
  | infinite true => some Int64.minValue
  | finite negative mantissa exponent =>
    let whole := wholePart mantissa exponent
    if negative then some (Int64.ofInt (max (-(whole : Int)) (-9223372036854775808)))
    else if whole ≤ 9223372036854775808 then some (Int64.ofInt whole)
    else none

/-! ### Order -/

/-- The number in units of the smallest one, with its sign. -/
def inUnits (negative : Bool) (mantissa : Nat) (exponent : Int) : Int :=
  let n : Int := mantissa * Nat.pow 2 (exponent - exponentRange.1).toNat
  if negative then -n else n

/-- The order of numbers: what is no number comes first, then the negative infinity. Both zeros are
equal. -/
def compare : Double → Double → Ordering
  | nan, nan => .eq
  | nan, _ => .lt
  | _, nan => .gt
  | infinite a, infinite b => if a = b then .eq else if a then .lt else .gt
  | infinite a, finite _ _ _ => if a then .lt else .gt
  | finite _ _ _, infinite b => if b then .gt else .lt
  | finite a m e, finite b n f => Ord.compare (inUnits a m e) (inUnits b n f)

end Double

end Polish
