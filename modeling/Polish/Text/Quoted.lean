import Polish.Text.Decimal
import Polish.Text.Printable
import Polish.Text.Rune

/-!
# Quoted text

A text shown between double quotes, on one line and without invisible characters: printable
characters stand for themselves, all others are escaped, and a stray byte shows its number.

* `Quoted.escape`: one character or stray byte.
* `Quoted.encode`: the quoted text.
-/

namespace Polish.Quoted

/-- The letter of a control character's short escape. -/
def shortEscape? (c : Char) : Option Char :=
  match c.toNat with
  | 0x07 => some 'a'
  | 0x08 => some 'b'
  | 0x09 => some 't'
  | 0x0A => some 'n'
  | 0x0B => some 'v'
  | 0x0C => some 'f'
  | 0x0D => some 'r'
  | _ => none

/-- A backslash and what follows it. -/
def escaped (mark : Char) (rest : Bytes) : Bytes :=
  Bytes.ascii '\\' :: Bytes.ascii mark :: rest

/-- One character or stray byte inside quotes. -/
def escape : Rune → Bytes
  | .stray b => escaped 'x' (Decimal.hex 2 b.toNat)
  | .char c =>
    if c = '"' || c = '\\' then escaped c []
    else if Text.isPrintable c then String.utf8EncodeChar c
    else match shortEscape? c with
      | some letter => escaped letter []
      | none =>
        if c.toNat < 0x80 then escaped 'x' (Decimal.hex 2 c.toNat)
        else if c.toNat < 0x10000 then escaped 'u' (Decimal.hex 4 c.toNat)
        else escaped 'U' (Decimal.hex 8 c.toNat)

/-- The text between double quotes. -/
def encode (text : Bytes) : Bytes :=
  Bytes.ascii '"' :: text.runes.flatMap escape ++ [Bytes.ascii '"']

end Polish.Quoted
