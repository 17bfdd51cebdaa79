import Polish.Text.Ranges
import Polish.Text.Rune

/-!
# White space

White space between the words of a listing line, around a trace line or around a line typed by a
user is white space of any script. (The scanner of programs knows ASCII blanks only.)

* `isBlank`: the class.
* `Bytes.trim`: the text without white space at its ends.
* `Bytes.fields`: the words of a text.
-/

namespace Polish.Text

/-- The characters with the property White_Space. -/
def blanks : List (Nat × Nat) := [
  (0x09, 0x0D), (0x20, 0x20), (0x85, 0x85), (0xA0, 0xA0), (0x1680, 0x1680), (0x2000, 0x200A),
  (0x2028, 0x2029), (0x202F, 0x202F), (0x205F, 0x205F), (0x3000, 0x3000)]

/-- Is the character white space? -/
def isBlank (c : Char) : Bool := inRanges blanks c

end Polish.Text

namespace Polish.Rune

/-- Is it a white space character? -/
def isBlank : Rune → Bool
  | char c => Text.isBlank c
  | stray _ => false

end Polish.Rune

namespace Polish.Bytes

/-- The bytes of a reading. -/
def ofRunes (rs : List Rune) : Bytes := rs.flatMap Rune.bytes

/-- The text without white space at its ends. -/
def trim (text : Bytes) : Bytes :=
  ofRunes ((text.runes.dropWhile Rune.isBlank).reverse.dropWhile Rune.isBlank).reverse

/-- The words of the text: its longest stretches without white space. -/
def fields (text : Bytes) : List Bytes :=
  ((text.runes.splitOnP Rune.isBlank).filter fun w => !w.isEmpty).map ofRunes

end Polish.Bytes
