import Polish.Bytes

/-!
# Characters of a byte string

A byte string is read as UTF-8 one character at a time; a byte that starts no well-formed character
stands for itself. So every byte string has a reading, and it is well-formed exactly when no byte
stands alone.

* `Rune`: a character, or a byte outside any character.
* `Bytes.runes`: the reading of a byte string.
* `Bytes.WellFormed`: every byte belongs to a character.
* `Bytes.chars`: the reading with U+FFFD for each stray byte.
-/

namespace Polish

/-- One step in reading a byte string: a character, or a byte that is part of none. -/
inductive Rune where
  | char (c : Char)
  | stray (b : UInt8)
deriving DecidableEq, Repr

namespace Rune

/-- The replacement character, shown in place of a stray byte. -/
def replacement : Char := '\uFFFD'

/-- The character to show. -/
def toChar : Rune → Char
  | char c => c
  | stray _ => replacement

/-- The bytes that were read. -/
def bytes : Rune → Bytes
  | char c => String.utf8EncodeChar c
  | stray b => [b]

/-- Is it a character? -/
def isChar : Rune → Bool
  | char _ => true
  | stray _ => false

end Rune

namespace Bytes

/-- Does the byte continue a character of several bytes? -/
def isTail (b : UInt8) : Bool := 0x80 ≤ b && b ≤ 0xBF

/-- Does the byte begin a character, or stand alone? Columns count these bytes. -/
def isLead (b : UInt8) : Bool := !isTail b

/-- The character of two bytes, if they form one. -/
def pair? (a b : UInt8) : Option Char :=
  if 0xC2 ≤ a && a ≤ 0xDF && isTail b then
    some (Char.ofNat ((a.toNat - 0xC0) * 0x40 + (b.toNat - 0x80)))
  else none

/-- The character of three bytes, if they form one: neither an overlong form nor a surrogate. -/
def triple? (a b c : UInt8) : Option Char :=
  if 0xE0 ≤ a && a ≤ 0xEF && isTail b && isTail c && !(a == 0xE0 && b < 0xA0)
      && !(a == 0xED && 0x9F < b) then
    some (Char.ofNat ((a.toNat - 0xE0) * 0x1000 + (b.toNat - 0x80) * 0x40 + (c.toNat - 0x80)))
  else none

/-- The character of four bytes, if they form one: neither an overlong form nor above U+10FFFF. -/
def quad? (a b c d : UInt8) : Option Char :=
  if 0xF0 ≤ a && a ≤ 0xF4 && isTail b && isTail c && isTail d && !(a == 0xF0 && b < 0x90)
      && !(a == 0xF4 && 0x8F < b) then
    some (Char.ofNat ((a.toNat - 0xF0) * 0x40000 + (b.toNat - 0x80) * 0x1000
      + (c.toNat - 0x80) * 0x40 + (d.toNat - 0x80)))
  else none

/-- How many bytes the character at the front takes, with the character; `none` for a stray byte. -/
def front? : Bytes → Option (Char × Nat)
  | [] => none
  | a :: rest =>
    if a < 0x80 then some (Char.ofNat a.toNat, 1)
    else match rest with
      | [] => none
      | b :: rest =>
        match pair? a b with
        | some c => some (c, 2)
        | none =>
          match rest with
          | [] => none
          | c :: rest =>
            match triple? a b c with
            | some x => some (x, 3)
            | none =>
              match rest with
              | [] => none
              | d :: _ => (quad? a b c d).map fun x => (x, 4)

/-- Reads the bytes; `skip` bytes belong to the character already read. -/
def runesFrom : Nat → Bytes → List Rune
  | _, [] => []
  | skip + 1, _ :: rest => runesFrom skip rest
  | 0, b :: rest =>
    match front? (b :: rest) with
    | some (c, n) => .char c :: runesFrom (n - 1) rest
    | none => .stray b :: runesFrom 0 rest

/-- The reading of a byte string as UTF-8. -/
def runes (text : Bytes) : List Rune := runesFrom 0 text

/-- Every byte belongs to a character. -/
def isWellFormed (text : Bytes) : Bool := text.runes.all Rune.isChar

/-- The characters, with U+FFFD for each stray byte. -/
def chars (text : Bytes) : List Char := text.runes.map Rune.toChar

/-- The text as a string, with U+FFFD for each stray byte. -/
def toString (text : Bytes) : String := String.ofList text.chars

end Bytes

end Polish
