import Polish.Text.Rune

/-!
# The characters of a YAML text

A YAML text is UTF-8, or UTF-16 with a byte order mark in front, and has no control characters. It is
read in stretches of 512 bytes, the next one when it is needed; a character that a stretch would cut
belongs to the next. So bytes that are no text make nothing unreadable but their own stretch and what
comes after it.

* `Yaml.Encoding`: how characters are written as bytes.
* `Yaml.Front`: what stands at the front of bytes.
* `Yaml.Source`: the characters that can be read, and what follows them.
* `Yaml.Source.ofBytes`: the characters of a text.
-/

namespace Polish.Yaml

/-- May the character stand in a text at all? -/
def isAllowed (c : Char) : Bool :=
  let n := c.toNat
  n = 0x09 || n = 0x0A || n = 0x0D || 0x20 ≤ n && n ≤ 0x7E || n = 0x85 || 0xA0 ≤ n && n ≤ 0xFFFD
    || 0x10000 ≤ n

/-- How characters are written as bytes. -/
inductive Encoding where
  | utf8
  /-- Two bytes to a unit; the lower one comes first, or the higher one. -/
  | utf16 (lowerFirst : Bool)
deriving DecidableEq, Repr

/-- What stands at the front of some bytes. -/
inductive Front where
  | char (c : Char) (width : Nat)
  /-- A character that is cut off, and what to call that if nothing follows. -/
  | cut (problem : Bytes)
  | bad (problem : Bytes)
deriving DecidableEq, Repr

/-! ### One character -/

/-- The number of bytes that a leading byte announces. -/
def announced? (b : UInt8) : Option Nat :=
  if b < 0x80 then some 1
  else if 0xC0 ≤ b && b < 0xE0 then some 2
  else if 0xE0 ≤ b && b < 0xF0 then some 3
  else if 0xF0 ≤ b && b < 0xF8 then some 4
  else none

/-- What is wrong with bytes that are all there and form no character. -/
def byteProblem (lead : UInt8) (rest : Bytes) : Bytes :=
  if !rest.all Bytes.isTail then "invalid trailing UTF-8 octet"
  else if lead < 0xC2 || (lead = 0xE0 && rest.head?.any (· < 0xA0))
      || (lead = 0xF0 && rest.head?.any (· < 0x90)) then "invalid length of a UTF-8 sequence"
  else "invalid Unicode character"

/-- The front of UTF-8. -/
def frontUtf8 : Bytes → Front
  | [] => .cut "incomplete UTF-8 octet sequence"
  | b :: rest =>
    match announced? b with
    | none => .bad "invalid leading UTF-8 octet"
    | some n =>
      let more := rest.take (n - 1)
      if more.length < n - 1 then .cut "incomplete UTF-8 octet sequence"
      else match Bytes.front? (b :: more) with
        | some (c, width) => .char c width
        | none => .bad (byteProblem b more)

/-- The first unit of UTF-16, and what follows it. -/
def unit? (lowerFirst : Bool) : Bytes → Option (Nat × Bytes)
  | a :: b :: rest =>
    some (if lowerFirst then a.toNat + 256 * b.toNat else 256 * a.toNat + b.toNat, rest)
  | _ => none

/-- Is the unit one of the first, or of the second, of a pair? -/
def isSurrogate (high : Bool) (unit : Nat) : Bool := unit / 0x400 = if high then 0x36 else 0x37

/-- The front of UTF-16. -/
def frontUtf16 (lowerFirst : Bool) (text : Bytes) : Front :=
  match unit? lowerFirst text with
  | none => .cut "incomplete UTF-16 character"
  | some (unit, rest) =>
    if isSurrogate false unit then .bad "unexpected low surrogate area"
    else if !isSurrogate true unit then .char (Char.ofNat unit) 2
    else match unit? lowerFirst rest with
      | none => .cut "incomplete UTF-16 surrogate pair"
      | some (low, _) =>
        if isSurrogate false low then
          .char (Char.ofNat (0x10000 + unit % 0x400 * 0x400 + low % 0x400)) 4
        else .bad "expected low surrogate area"

/-- The front of bytes; a control character is as bad as none. -/
def Encoding.front (e : Encoding) (text : Bytes) : Front :=
  let found := match e with
    | .utf8 => frontUtf8 text
    | .utf16 lowerFirst => frontUtf16 lowerFirst text
  match found with
  | .char c _ => if isAllowed c then found else .bad "control characters are not allowed"
  | _ => found

/-! ### All characters -/

/-- The characters that can be read, and what follows them. -/
structure Source where
  chars : List Char
  /-- What is wrong with the bytes after the last character, unless the text ends there. -/
  fault : Option Bytes
  /-- The number of characters in the first stretch. -/
  firstStretch : Nat
deriving DecidableEq, Repr

/-- The number of bytes in a stretch. -/
def stretchSize : Nat := 512

/-- No character has more bytes. -/
def widest : Nat := 4

/-- The state of reading characters: those of the stretches before and of this one, the last one
first, and the bytes that are left of this stretch. -/
structure Intake where
  before : List Char
  stretch : List Char
  room : Nat
  firstStretch : Option Nat

namespace Intake

/-- The stretch ends here. -/
def commit (i : Intake) : Intake :=
  ⟨i.stretch ++ i.before, [], stretchSize, some (i.firstStretch.getD i.stretch.length)⟩

/-- All that could be read, and what follows. -/
def close (i : Intake) (fault : Option Bytes) : Source :=
  ⟨i.before.reverse, fault, i.firstStretch.getD i.before.length⟩

/-- Takes a character of some bytes. -/
def take (i : Intake) (c : Char) (width : Nat) : Intake :=
  { i with stretch := c :: i.stretch, room := i.room - width }

/-- Reads characters; `skip` bytes belong to the character already read. -/
def readFrom (e : Encoding) : Nat → Intake → Bytes → Source
  | _, i, [] => i.commit.close none
  | skip + 1, i, _ :: rest => readFrom e skip i rest
  | 0, i, b :: rest =>
    let i := if i.room = 0 then i.commit else i
    match e.front ((b :: rest).take (min i.room widest)) with
    | .char c width => readFrom e (width - 1) (i.take c width) rest
    | .bad problem => i.close (some problem)
    | .cut _ =>
      let i := i.commit
      match e.front ((b :: rest).take widest) with
      | .char c width => readFrom e (width - 1) (i.take c width) rest
      | .bad problem | .cut problem => i.close (some problem)

end Intake

namespace Source

/-- The encoding that a byte order mark names, and the length of the mark. -/
def encoding (text : Bytes) : Encoding × Nat :=
  if Bytes.hasPrefix [0xFF, 0xFE] text then (.utf16 true, 2)
  else if Bytes.hasPrefix [0xFE, 0xFF] text then (.utf16 false, 2)
  else if Bytes.hasPrefix [0xEF, 0xBB, 0xBF] text then (.utf8, 3)
  else (.utf8, 0)

/-- The characters of a text, without the byte order mark in front. -/
def ofBytes (text : Bytes) : Source :=
  let (e, mark) := encoding text
  Intake.readFrom e 0 ⟨[], [], stretchSize - mark, none⟩ (text.drop mark)

end Source

end Polish.Yaml
