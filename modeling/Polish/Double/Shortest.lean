import Polish.Double
import Polish.Text.Decimal

/-!
# Numbers in the fewest digits

A double-precision number is written with as few digits as tell it apart from all others: some
decimal with that many digits is nearer to it than to its neighbours, and of those decimals the
nearest is taken. Numbers of a middling size are written in positional notation, others with an
exponent.

* `Double.shortest`: the digits and the decimal exponent.
* `Double.render`: the number as text.
-/

namespace Polish.Double

/-! ### Digits -/

/-- The numbers that are read as `mantissa · 2 ^ exponent`, each over a common denominator: the least,
the number itself, the greatest, and whether the ends belong to them. -/
structure Vicinity where
  low : Nat
  exact : Nat
  high : Nat
  den : Nat
  closed : Bool
deriving DecidableEq, Repr

/-- The vicinity of a number; below a power of two the numbers lie closer together. -/
def vicinity (mantissa : Nat) (exponent : Int) : Vicinity :=
  let narrow := mantissa = fullMantissa && exponentRange.1 < exponent
  let spot := fun n => shifted n 1 (exponent - 2)
  ⟨(spot (4 * mantissa - if narrow then 1 else 2)).1, (spot (4 * mantissa)).1,
    (spot (4 * mantissa + 2)).1, (spot 1).2, mantissa % 2 = 0⟩

namespace Vicinity

/-- Is the number `num / den` read as the number at hand? -/
def holds (v : Vicinity) (num den : Nat) : Bool :=
  if v.closed then v.low * den ≤ num * v.den && num * v.den ≤ v.high * den
  else v.low * den < num * v.den && num * v.den < v.high * den

/-- The nearest multiple of `10 ^ unit` that is read as the number at hand, if there is one. -/
def onGrid? (v : Vicinity) (unit : Int) : Option Nat :=
  let (scale, den) := if 0 ≤ unit then (Nat.pow 10 unit.toNat, 1) else (1, Nat.pow 10 (-unit).toNat)
  let below := v.exact * den / (v.den * scale)
  let nearest := roundDiv (v.exact * den) (v.den * scale)
  let other := if nearest = below then below + 1 else below
  if v.holds (nearest * scale) den then some nearest
  else if v.holds (other * scale) den then some other
  else none

/-- Tries grids, each ten times finer than the one before. -/
def search (v : Vicinity) : Nat → Int → Nat × Int
  | 0, unit => ((v.onGrid? unit).getD 0, unit)
  | fuel + 1, unit =>
    match v.onGrid? unit with
    | some digits => if digits = 0 then v.search fuel (unit - 1) else (digits, unit)
    | none => v.search fuel (unit - 1)

/-- The number of digits before the point, or of zeros after it, counted as negative. -/
def size (v : Vicinity) : Int :=
  let whole := v.exact / v.den
  if whole ≠ 0 then (Nat.toDigits 10 whole).length
  else -((Nat.toDigits 10 (v.den / v.exact)).length : Int) + 1

end Vicinity

/-- As many digits as any number needs, and one more grid in case the first is too coarse. -/
def gridCount : Nat := 18

/-- The fewest digits of `mantissa · 2 ^ exponent`, and the decimal exponent of the last. -/
def shortest (mantissa : Nat) (exponent : Int) : Nat × Int :=
  let v := vicinity mantissa exponent
  v.search gridCount v.size

/-! ### Notation -/

/-- Digits without zeros at the end, and the exponent that then holds. -/
def trimZeros : Nat → Nat → Int → Nat × Int
  | 0, digits, exponent => (digits, exponent)
  | fuel + 1, digits, exponent =>
    if digits ≠ 0 && digits % 10 = 0 then trimZeros fuel (digits / 10) (exponent + 1)
    else (digits, exponent)

/-- The exponents of the first digit from which on, and below which, a number is written with an
exponent. -/
def positional : Int × Int := (-4, 6)

/-- The number `digits · 10 ^ exponent`. An exponent has a sign and at least two digits. -/
def renderDecimal (digits : Nat) (exponent : Int) : Bytes :=
  let (digits, exponent) := trimZeros (Nat.toDigits 10 digits).length digits exponent
  let ds := Decimal.ofNat digits
  let point := ds.length + exponent
  let first := point - 1
  if first < positional.1 || positional.2 ≤ first then
    let sign : Bytes := if first < 0 then "e-" else "e+"
    let e := Decimal.ofNat first.natAbs
    let fraction : Bytes := if ds.length = 1 then [] else "." ++ ds.tail
    ds.take 1 ++ fraction ++ sign ++ (if e.length < 2 then "0" ++ e else e)
  else if point ≤ 0 then "0." ++ Bytes.repeated (-point).toNat 0x30 ++ ds
  else if 0 ≤ exponent then ds ++ Bytes.repeated exponent.toNat 0x30
  else ds.take point.toNat ++ "." ++ ds.drop point.toNat

/-- The number as text. -/
def render : Double → Bytes
  | nan => "NaN"
  | infinite negative => if negative then "-Inf" else "+Inf"
  | finite negative mantissa exponent =>
    let text : Bytes := if mantissa = 0 then "0" else
      let (digits, e) := shortest mantissa exponent
      renderDecimal digits e
    if negative then "-" ++ text else text

end Polish.Double
