import Polish.Yaml.Scalar

/-!
# YAML tags and directives

A tag names the kind of a node. It is written in short, as a handle and a suffix, and the handle
stands for the start of the tag; or in full, between angle brackets. Lines that start with a percent
sign come before a document: one gives the version of the language, others give handles of their own.

* `Yaml.TagName`: a tag as it is written.
* `Yaml.tagName`: reads a tag.
* `Yaml.Directive`, `Yaml.directive`: the lines before a document.
* `Yaml.Handles`: what handles stand for.
* `Yaml.TagName.resolve?`: the tag that is meant.
-/

namespace Polish.Yaml

/-- A tag as it is written: a handle, if there is one, and the rest. -/
structure TagName where
  handle : Bytes
  suffix : Bytes
deriving DecidableEq, Repr

/-! ### Characters -/

/-- May the character stand in a tag? -/
def isTagChar (c : Char) : Bool := isWordChar c || ";/?:@&=+$,.!~*'()[]%".toList.contains c

/-- The octet that a percent sign and two digits stand for. -/
def octet? (c : Cursor) : Option UInt8 :=
  match c.rest with
  | '%' :: high :: low :: _ => do
    let high ← hexValue? high
    let low ← hexValue? low
    return (16 * high + low).toUInt8
  | _ => none

/-- The octets of an escaped character after the first; `left` are missing, and `octets` were read,
the last one first. -/
def laterOctets (start : Nat) : Nat → Bytes → Cursor → Except Refusal (Bytes × Cursor)
  | 0, octets, c => .ok (octets, c)
  | left + 1, octets, c => do
    c.need 3
    match octet? c with
    | none => throw (.character "did not find URI escaped octet" start c)
    | some b =>
      if !Bytes.isTail b then
        throw (.character "found an incorrect trailing UTF-8 octet" start c)
      laterOctets start left (b :: octets) (c.advance 3)

/-- An escaped character after some octets, the last one first. -/
def escapedChar (start : Nat) (octets : Bytes) (c : Cursor) : Except Refusal (Bytes × Cursor) := do
  c.need 3
  match octet? c with
  | none => throw (.character "did not find URI escaped octet" start c)
  | some b =>
    match announced? b with
    | none => throw (.character "found an incorrect leading UTF-8 octet" start c)
    | some n => laterOctets start (n - 1) (b :: octets) (c.advance 3)

/-- As many characters of a tag as there are, after some octets, the last one first. -/
def tagCharsFrom (start : Nat) : Nat → Bytes → Cursor → Except Refusal (Bytes × Cursor)
  | 0, octets, c => .ok (octets.reverse, c)
  | fuel + 1, octets, c => do
    c.need 1
    match c.head?.filter isTagChar with
    | none => return (octets.reverse, c)
    | some x =>
      let (octets, c) ←
        if x = '%' then escapedChar start octets c
        else pure ((Bytes.ofChars [x]).reverse ++ octets, c.skip)
      tagCharsFrom start fuel octets c

/-- The characters of a tag; there has to be one, unless some have been read before. -/
def tagChars (start : Nat) (begun : Bool) (c : Cursor) : Except Refusal (Bytes × Cursor) := do
  let (text, after) ← tagCharsFrom start (c.size + 1) [] c
  if !begun && text.isEmpty then throw (.character "did not find expected tag URI" start after)
  return (text, after)

/-- A handle: an exclamation mark, or a word between two. The result may turn out to be the start of
a tag without a handle. -/
def handle (start : Nat) (c : Cursor) : Except Refusal (Bytes × Cursor) := do
  c.need 1
  if c.head? ≠ some '!' then throw (.character "did not find expected '!'" start c)
  let (word, c) ← c.skip.span isWordChar
  if c.head? = some '!' then return ("!" ++ Bytes.ofChars word ++ "!", c.skip)
  else return ("!" ++ Bytes.ofChars word, c)

/-! ### Tags -/

/-- A tag in full, between angle brackets. -/
def fullTag (start : Nat) (c : Cursor) : Except Refusal (TagName × Cursor) := do
  let (suffix, c) ← tagChars start false (c.advance 2)
  if c.head? ≠ some '>' then throw (.character "did not find the expected '>'" start c)
  return (⟨[], suffix⟩, c.skip)

/-- A tag in short. An exclamation mark alone has no handle. -/
def shortTag (start : Nat) (c : Cursor) : Except Refusal (TagName × Cursor) := do
  let (front, c) ← handle start c
  if 2 ≤ front.length && front.getLast? = some 0x21 then
    let (suffix, c) ← tagChars start false c
    return (⟨front, suffix⟩, c)
  else
    let (more, c) ← tagChars start true c
    let suffix := front.tail ++ more
    return (if suffix.isEmpty then ⟨[], "!"⟩ else ⟨"!", suffix⟩, c)

/-- Reads a tag. -/
def tagName (c : Cursor) : Except Refusal (TagName × Cursor) := do
  let start := c.line
  c.need 2
  let (name, after) ← if c.rest[1]? = some '<' then fullTag start c else shortTag start c
  after.need 1
  if !after.spaceAt 0 then
    throw (.character "did not find expected whitespace or line break" start after)
  return (name, after)

/-! ### Directives -/

/-- A line before a document. -/
inductive Directive where
  /-- The version of the language. -/
  | version (major minor : Nat)
  /-- A handle, and what it stands for. -/
  | tag (handle start : Bytes)
deriving DecidableEq, Repr

/-- A number of one or two digits. -/
def versionNumber (start : Nat) (c : Cursor) : Except Refusal (Nat × Cursor) := do
  let digits := c.rest.takeWhile Char.isDigit
  if 2 < digits.length then throw (.character "found extremely long version number" start c)
  let after := c.past digits
  after.need 1
  if digits.isEmpty then throw (.character "did not find expected version number" start after)
  return (Decimal.value (Bytes.ofChars digits), after)

/-- The version of the language. -/
def version (start : Nat) (c : Cursor) : Except Refusal (Directive × Cursor) := do
  let (major, c) ← versionNumber start (← c.skipWhile isBlank)
  if c.head? ≠ some '.' then
    throw (.character "did not find expected digit or '.' character" start c)
  let (minor, c) ← versionNumber start c.skip
  return (.version major minor, c)

/-- A handle, and what it stands for. -/
def handleMeaning (start : Nat) (c : Cursor) : Except Refusal (Directive × Cursor) := do
  let (name, c) ← handle start (← c.skipWhile isBlank)
  if name ≠ "!" && name.getLast? ≠ some 0x21 then
    throw (.character "did not find expected '!'" start c)
  c.need 1
  if !c.head?.any isBlank then throw (.character "did not find expected whitespace" start c)
  let (text, c) ← tagChars start false (← c.skipWhile isBlank)
  if !c.spaceAt 0 then
    throw (.character "did not find expected whitespace or line break" start c)
  return (.tag name text, c)

/-- Reads a line that starts with a percent sign. -/
def directive (c : Cursor) : Except Refusal (Directive × Cursor) := do
  let start := c.line
  let (word, c) ← c.skip.span isWordChar
  if word.isEmpty then throw (.character "could not find expected directive name" start c)
  if !c.spaceAt 0 then
    throw (.character "found unexpected non-alphabetical character" start c)
  let name := String.ofList word
  let (d, c) ←
    if name = "YAML" then version start c
    else if name = "TAG" then handleMeaning start c
    else throw (.character "found unknown directive name" start c)
  let c ← c.skipWhile isBlank
  let c ← if c.head? = some '#' then c.skipLine else pure c
  if c.head?.any (!isBreak ·) then
    throw (.character "did not find expected comment or line break" start c)
  return (d, ← c.skipBreak)

/-! ### Handles -/

/-- What handles stand for. -/
abbrev Handles := List (Bytes × Bytes)

/-- The start of the tags of the language itself. -/
def ownTags : Bytes := "tag:yaml.org,2002:"

/-- The handles that need no line of their own. -/
def Handles.standard : Handles := [("!", "!"), ("!!", ownTags)]

/-- A tag as it is shown: the tags of the language itself are written in short. -/
def shownName (tag : Bytes) : Bytes :=
  match Bytes.dropPrefix? ownTags tag with
  | some rest => "!!" ++ rest
  | none => tag

/-- The tag that is meant, if its handle is known. -/
def TagName.resolve? (handles : Handles) (t : TagName) : Option Bytes :=
  if t.handle.isEmpty then some (shownName t.suffix)
  else
    match (handles.lookup t.handle).map (· ++ t.suffix) with
    | some (b :: rest) => some (shownName (b :: rest))
    | _ => none

end Polish.Yaml
