import Polish.Bytes

/-!
# Decimal numbers

Numbers are written in decimal with the fewest digits and a minus sign where needed. A reader takes
a sign and any number of digits, leading zeros included.

* `Decimal.ofNat`, `Decimal.ofInt`, `Decimal.ofInt64`: writing.
* `Decimal.value`: the number a string of digits stands for.
* `Decimal.readInt?`, `Decimal.readInt64?`: reading.
-/

namespace Polish.Decimal

/-- The digits of a number. -/
def ofNat (n : Nat) : Bytes := (Nat.toDigits 10 n).map Bytes.ascii

/-- A number with a minus sign if it is negative. -/
def ofInt : Int → Bytes
  | .ofNat n => ofNat n
  | .negSucc n => Bytes.ascii '-' :: ofNat (n + 1)

/-- A 64-bit number. -/
def ofInt64 (n : Int64) : Bytes := ofInt n.toInt

/-- Is the byte a decimal digit? -/
def isDigit (b : UInt8) : Bool := 0x30 ≤ b && b ≤ 0x39

/-- Is the text a non-empty run of digits? -/
def isNumeral (text : Bytes) : Bool := !text.isEmpty && text.all isDigit

/-- The number a run of digits stands for. -/
def value (digits : Bytes) : Nat :=
  digits.foldl (fun n d => 10 * n + (d.toNat - 0x30)) 0

/-- Reads a run of digits. -/
def readNat? (text : Bytes) : Option Nat :=
  if isNumeral text then some (value text) else none

/-- Reads an optional sign and a run of digits. -/
def readInt? : Bytes → Option Int
  | 0x2B :: digits => (readNat? digits).map Int.ofNat
  | 0x2D :: digits => (readNat? digits).map fun n => -(n : Int)
  | digits => (readNat? digits).map Int.ofNat

/-- Does the number fit in 64 bits? -/
def fitsInt64 (n : Int) : Bool := -9223372036854775808 ≤ n && n ≤ 9223372036854775807

/-- Reads a number that fits in 64 bits. -/
def readInt64? (text : Bytes) : Option Int64 :=
  (readInt? text).bind fun n => if fitsInt64 n then some (Int64.ofInt n) else none

/-- A number below 16 as a small hexadecimal digit. -/
def hexDigit (n : Nat) : UInt8 :=
  if n < 10 then (0x30 + n).toUInt8 else (0x57 + n).toUInt8

/-- The last `width` hexadecimal digits of a number. -/
def hex : Nat → Nat → Bytes
  | 0, _ => []
  | width + 1, n => hex width (n / 16) ++ [hexDigit (n % 16)]

end Polish.Decimal
