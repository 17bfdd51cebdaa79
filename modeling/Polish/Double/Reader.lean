import Polish.Double
import Polish.Text.Decimal

/-!
# Reading decimal numbers

A decimal number has a sign, digits with or without a point among them, and an exponent; all but the
digits may be left out.

* `Double.splitSign`: a sign and what follows it.
* `Double.read?`: the nearest double-precision number to a decimal.
-/

namespace Polish.Double

/-- A sign, if there is one, and what follows it. -/
def splitSign : Bytes → Option Bool × Bytes
  | 0x2B :: rest => (some false, rest)
  | 0x2D :: rest => (some true, rest)
  | rest => (none, rest)

/-- The exponent at the end of a number: nothing, or a mark, a sign and digits. -/
def exponent? : Bytes → Option Int
  | [] => some 0
  | mark :: rest => if mark = 0x65 || mark = 0x45 then Decimal.readInt? rest else none

/-- The parts of a decimal: whether it is negative, its digits as a whole number, and the exponent of
the last digit. -/
def decimal? (text : Bytes) : Option (Bool × Nat × Int) :=
  let (sign, rest) := splitSign text
  let whole := rest.takeWhile Decimal.isDigit
  let rest := rest.drop whole.length
  let (fraction, rest) := match rest with
    | 0x2E :: rest =>
      let fraction := rest.takeWhile Decimal.isDigit
      (fraction, rest.drop fraction.length)
    | rest => ([], rest)
  if whole.isEmpty && fraction.isEmpty then none
  else (exponent? rest).map fun e =>
    (sign = some true, Decimal.value (whole ++ fraction), e - fraction.length)

/-- The number nearest to a decimal, unless the text is no decimal or the number too large. -/
def read? (text : Bytes) : Option Double :=
  (decimal? text).bind fun (negative, digits, exponent) => ofDecimal? negative digits exponent

end Polish.Double
