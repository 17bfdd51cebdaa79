/-!
# Byte strings

Sources, names, listings and everything the program writes are byte strings: an input need not be
well-formed UTF-8, and names are ordered by their bytes. A byte string is a list of bytes, so the
list library and its order apply as they are.

* `Bytes.ofString`: the UTF-8 encoding of a string (also a coercion, for literals).
* `Bytes.join`, `Bytes.spaces`: small builders.
* `Bytes.hasPrefix`, `Bytes.dropPrefix?`: leading text.
-/

namespace Polish

/-- A string of bytes, in most places the UTF-8 encoding of some text. -/
abbrev Bytes := List UInt8

namespace Bytes

/-- The UTF-8 encoding of a string. -/
def ofString (s : String) : Bytes :=
  s.toList.flatMap String.utf8EncodeChar

instance : Coe String Bytes := ⟨ofString⟩

/-- The UTF-8 encoding of a list of characters. -/
def ofChars (cs : List Char) : Bytes :=
  cs.flatMap String.utf8EncodeChar

@[simp] theorem ofChars_nil : ofChars [] = [] := rfl

@[simp] theorem ofChars_append (xs ys : List Char) :
    ofChars (xs ++ ys) = ofChars xs ++ ofChars ys := by
  simp [ofChars]

/-- The byte of an ASCII character. -/
def ascii (c : Char) : UInt8 := c.toNat.toUInt8

/-- The line feed, which ends a line. -/
def newline : UInt8 := 0x0A

/-- A byte, `n` times. -/
def repeated (n : Nat) (b : UInt8) : Bytes := List.replicate n b

/-- `n` blanks. -/
def spaces (n : Nat) : Bytes := repeated n 0x20

@[simp] theorem length_spaces (n : Nat) : (spaces n).length = n := by simp [spaces, repeated]

/-- The parts, in order, with `sep` between neighbours. -/
def join (sep : Bytes) (parts : List Bytes) : Bytes :=
  sep.intercalate parts

/-- Does the text start with `start`? -/
def hasPrefix (start text : Bytes) : Bool :=
  start.isPrefixOf text

/-- What follows `start` in the text, if the text starts with it. -/
def dropPrefix? : Bytes → Bytes → Option Bytes
  | [], text => some text
  | _ :: _, [] => none
  | p :: start, b :: text => if p = b then dropPrefix? start text else none

/-- Cuts the text at every line feed; the line feeds are dropped. -/
def lines (text : Bytes) : List Bytes :=
  text.splitOn newline

/-- The text with blanks added on the right up to `width` bytes. -/
def padRight (width : Nat) (text : Bytes) : Bytes :=
  text ++ spaces (width - text.length)

end Bytes

end Polish
