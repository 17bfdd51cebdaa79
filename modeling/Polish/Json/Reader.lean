import Polish.Json
import Polish.Text.Rune

/-!
# Reading JSON

A text is first cut into marks, strings and words, byte by byte; then the values are put together,
with the arrays and objects that are still open on a stack. Strings are made well-formed: a stray
byte and half of a surrogate pair become U+FFFD. Values nested deeper than `Json.depthLimit` are
refused.

* `Json.Lexeme`, `Json.lexemes?`: the pieces of a text.
* `Json.Assembly`: the values under construction.
* `Json.parse?`: the value of a text.
-/

namespace Polish.Json

/-- How deep arrays and objects may be nested. -/
def depthLimit : Nat := 10000

/-! ### Strings -/

/-- A part of a string as written: a byte, or the number of an escape. -/
inductive Part where
  | byte (b : UInt8)
  | escape (n : Nat)
deriving DecidableEq, Repr

/-- The character of a surrogate pair. -/
def surrogates? (hi lo : Nat) : Option Char :=
  if 0xD800 ≤ hi && hi < 0xDC00 && 0xDC00 ≤ lo && lo < 0xE000 then
    some (Char.ofNat (0x10000 + (hi - 0xD800) * 0x400 + (lo - 0xDC00)))
  else none

/-- The character of an escape that stands alone. -/
def lone (n : Nat) : Char :=
  if 0xD800 ≤ n && n < 0xE000 then Rune.replacement else Char.ofNat n

/-- Bytes, given last first, as well-formed text. -/
def rawText (raw : Bytes) : Bytes := Bytes.ofChars (Bytes.chars raw.reverse)

/-- The text of a string, given the bytes just before its parts, last byte first. -/
def decodeParts : Bytes → List Part → Bytes
  | raw, [] => rawText raw
  | raw, .byte b :: rest => decodeParts (b :: raw) rest
  | raw, .escape n :: .escape m :: rest =>
    match surrogates? n m with
    | some c => rawText raw ++ String.utf8EncodeChar c ++ decodeParts [] rest
    | none => rawText raw ++ String.utf8EncodeChar (lone n) ++ decodeParts [] (.escape m :: rest)
  | raw, .escape n :: rest => rawText raw ++ String.utf8EncodeChar (lone n) ++ decodeParts [] rest

/-- The character of a short escape. -/
def shortEscape? (b : UInt8) : Option Nat :=
  match b with
  | 0x22 | 0x5C | 0x2F => some b.toNat
  | 0x62 => some 0x08
  | 0x66 => some 0x0C
  | 0x6E => some 0x0A
  | 0x72 => some 0x0D
  | 0x74 => some 0x09
  | _ => none

/-- The value of a hexadecimal digit. -/
def hexValue? (b : UInt8) : Option Nat :=
  if 0x30 ≤ b && b ≤ 0x39 then some (b.toNat - 0x30)
  else if 0x61 ≤ b && b ≤ 0x66 then some (b.toNat - 0x57)
  else if 0x41 ≤ b && b ≤ 0x46 then some (b.toNat - 0x37)
  else none

/-! ### Numbers -/

/-- What a number may hold next. -/
inductive NumberState where
  | start
  | minus
  | zero
  | digits
  | point
  | fraction
  | mark
  | sign
  | exponent

/-- The state after a byte of a number. -/
def NumberState.step (s : NumberState) (b : UInt8) : Option NumberState :=
  let digit := Decimal.isDigit b
  match s with
  | start =>
    if b = 0x2D then some minus else if b = 0x30 then some zero else if digit then some digits
    else none
  | minus => if b = 0x30 then some zero else if digit then some digits else none
  | zero => if b = 0x2E then some point else if b = 0x65 || b = 0x45 then some mark else none
  | digits =>
    if digit then some digits else if b = 0x2E then some point
    else if b = 0x65 || b = 0x45 then some mark else none
  | point => if digit then some fraction else none
  | fraction =>
    if digit then some fraction else if b = 0x65 || b = 0x45 then some mark else none
  | mark => if b = 0x2B || b = 0x2D then some sign else if digit then some exponent else none
  | sign => if digit then some exponent else none
  | exponent => if digit then some exponent else none

/-- May a number end here? -/
def NumberState.complete : NumberState → Bool
  | zero | digits | fraction | exponent => true
  | _ => false

/-- Is the word a number? -/
def isNumber (word : Bytes) : Bool :=
  match word.foldlM NumberState.step .start with
  | some s => s.complete
  | none => false

/-! ### Lexemes -/

/-- A piece of a JSON text. -/
inductive Lexeme where
  | openArr
  | closeArr
  | openObj
  | closeObj
  | colon
  | comma
  | scalar (j : Json)

/-- The value of a word. -/
def word? (word : Bytes) : Option Json :=
  if word = "null" then some .null
  else if word = "true" then some (.bool true)
  else if word = "false" then some (.bool false)
  else if isNumber word then some (.num word)
  else none

/-- What is being read. Parts and bytes are kept last first. -/
inductive Scan where
  | idle
  | word (read : Bytes)
  | text (read : List Part)
  | escape (read : List Part)
  | hex (read : List Part) (missing value : Nat)

/-- The mark a byte stands for. -/
def mark? (b : UInt8) : Option Lexeme :=
  match b with
  | 0x5B => some .openArr
  | 0x5D => some .closeArr
  | 0x7B => some .openObj
  | 0x7D => some .closeObj
  | 0x3A => some .colon
  | 0x2C => some .comma
  | _ => none

/-- Is the byte white space between values? -/
def isGap (b : UInt8) : Bool := b == 0x20 || b == 0x09 || b == 0x0A || b == 0x0D

/-- Reads a byte outside strings and words. -/
def idleStep (b : UInt8) (done : List Lexeme) : Scan × List Lexeme :=
  match mark? b with
  | some m => (.idle, m :: done)
  | none =>
    if isGap b then (.idle, done)
    else if b = 0x22 then (.text [], done)
    else (.word [b], done)

/-- Reads a byte; the lexemes so far are kept last first. -/
def scanStep (state : Scan × List Lexeme) (b : UInt8) : Option (Scan × List Lexeme) :=
  let (scan, done) := state
  match scan with
  | .idle => some (idleStep b done)
  | .word read =>
    if (mark? b).isSome || isGap b || b = 0x22 then
      (word? read.reverse).map fun j => idleStep b (.scalar j :: done)
    else some (.word (b :: read), done)
  | .text read =>
    if b = 0x22 then some (.idle, .scalar (.str (decodeParts [] read.reverse)) :: done)
    else if b = 0x5C then some (.escape read, done)
    else if b < 0x20 then none
    else some (.text (.byte b :: read), done)
  | .escape read =>
    if b = 0x75 then some (.hex read 4 0, done)
    else (shortEscape? b).map fun n => (.text (.byte n.toUInt8 :: read), done)
  | .hex read missing value =>
    match hexValue? b with
    | none => none
    | some d =>
      let value := value * 16 + d
      if missing ≤ 1 then some (.text (.escape value :: read), done)
      else some (.hex read (missing - 1) value, done)

/-- The lexemes of a text. -/
def lexemes? (text : Bytes) : Option (List Lexeme) :=
  match text.foldlM scanStep (.idle, []) with
  | some (.idle, done) => some done.reverse
  | some (.word read, done) => (word? read.reverse).map fun j => (.scalar j :: done).reverse
  | _ => none

/-! ### Values -/

/-- An array or object that is still open; items and members are kept last first. -/
inductive Frame where
  | items (done : List Json)
  | members (done : List (Bytes × Json))
  | member (done : List (Bytes × Json)) (key : Bytes)

/-- What must come next. -/
inductive Expected where
  | value
  | firstItem
  | firstKey
  | key
  | colon
  | more
  | nothing (result : Json)

/-- The values under construction. -/
structure Assembly where
  stack : List Frame
  expected : Expected

namespace Assembly

/-- Takes a finished value. -/
def take (stack : List Frame) (j : Json) : Option Assembly :=
  match stack with
  | [] => some ⟨[], .nothing j⟩
  | .items done :: rest => some ⟨.items (j :: done) :: rest, .more⟩
  | .member done key :: rest => some ⟨.members ((key, j) :: done) :: rest, .more⟩
  | .members _ :: _ => none

/-- Opens an array or object. -/
def enter (a : Assembly) (f : Frame) (expected : Expected) : Option Assembly :=
  if a.stack.length < depthLimit then some ⟨f :: a.stack, expected⟩ else none

/-- Takes the start of a value. -/
def value (a : Assembly) : Lexeme → Option Assembly
  | .scalar j => take a.stack j
  | .openArr => a.enter (.items []) .firstItem
  | .openObj => a.enter (.members []) .firstKey
  | _ => none

/-- Closes the innermost array or object. -/
def close (a : Assembly) : Lexeme → Option Assembly
  | .closeArr =>
    match a.stack with
    | .items done :: rest => take rest (.arr done.reverse)
    | _ => none
  | .closeObj =>
    match a.stack with
    | .members done :: rest => take rest (.obj done.reverse)
    | _ => none
  | _ => none

/-- Takes the key of a member. -/
def takeKey (a : Assembly) : Lexeme → Option Assembly
  | .scalar (.str key) =>
    match a.stack with
    | .members done :: rest => some ⟨.member done key :: rest, .colon⟩
    | _ => none
  | _ => none

/-- Takes a lexeme. -/
def step (a : Assembly) (l : Lexeme) : Option Assembly :=
  match a.expected with
  | .value => a.value l
  | .firstItem => if let .closeArr := l then a.close l else a.value l
  | .firstKey => if let .closeObj := l then a.close l else a.takeKey l
  | .key => a.takeKey l
  | .colon => if let .colon := l then some ⟨a.stack, .value⟩ else none
  | .more =>
    match l, a.stack with
    | .comma, .items _ :: _ => some ⟨a.stack, .value⟩
    | .comma, .members _ :: _ => some ⟨a.stack, .key⟩
    | l, _ => a.close l
  | .nothing _ => none

end Assembly

/-- The value of a text. -/
def parse? (text : Bytes) : Option Json := do
  let lexemes ← lexemes? text
  let a ← lexemes.foldlM Assembly.step ⟨[], .value⟩
  match a.expected with
  | .nothing j => some j
  | _ => none

end Polish.Json
