import Polish.Text.Decimal
import Polish.Yaml.Encoding

/-!
# Places in a YAML text

A YAML text is read character by character by a cursor, which knows the line and column it has come
to, both counted from zero. Where the text cannot be read any further, looking ahead is refused.

* `Yaml.splitBreaks`: a text cut at its line breaks.
* `Yaml.Refusal`: why a text is no YAML.
* `Yaml.Cursor`: the rest of a text and the place where it starts.
* `Yaml.Cursor.need`: some characters, or the end of the text, have to be in sight.
-/

namespace Polish.Yaml

/-! ### Characters -/

/-- Is the character a blank within a line? -/
def isBlank (c : Char) : Bool := c = ' ' || c = '\t'

/-- Does the character end a line? -/
def isBreak (c : Char) : Bool :=
  c = '\n' || c = '\r' || c = '\u0085' || c = '\u2028' || c = '\u2029'

/-- Is the character a blank or a line break? -/
def isSpace (c : Char) : Bool := isBlank c || isBreak c

/-- May the character stand in a name or a number of a tag? -/
def isWordChar (c : Char) : Bool := c.isAlphanum || c = '_' || c = '-'

/-- What a line break stands for in a value. -/
def breakChar (c : Char) : Char := if c = '\u2028' || c = '\u2029' then c else '\n'

/-- Cuts a text at its line breaks: the first line, then each break with the line after it. A
carriage return and a line feed together are one break. -/
def splitBreaks : List Char → List Char × List (Char × List Char)
  | [] => ([], [])
  | '\r' :: '\n' :: rest =>
    let (line, more) := splitBreaks rest
    ([], ('\n', line) :: more)
  | c :: rest =>
    let (line, more) := splitBreaks rest
    if isBreak c then ([], (breakChar c, line) :: more) else (c :: line, more)

/-! ### Refusals -/

/-- Why a text is no YAML, and the line to show. -/
structure Refusal where
  problem : Bytes
  line : Option Nat
deriving DecidableEq, Repr

namespace Refusal

/-- The line that is shown: where the construct starts that cannot be read, or the offending
character if that is the first line. A problem in the first line shows no line. -/
def shownLine (base construct offence : Nat) : Option Nat :=
  if construct ≠ 0 then some (construct + base)
  else if offence ≠ 0 then some (offence + base)
  else none

/-- A token that does not fit, in a construct that starts in the line `construct`. -/
def token (problem : Bytes) (construct offence : Nat) : Refusal :=
  ⟨problem, shownLine 0 construct offence⟩

/-- The text of a refusal. -/
def message (r : Refusal) : Bytes :=
  match r.line with
  | none => r.problem
  | some n => "line " ++ Decimal.ofNat n ++ ": " ++ r.problem

end Refusal

/-! ### Cursors -/

/-- The rest of a text and the place where it starts. -/
structure Cursor where
  rest : List Char
  index : Nat
  line : Nat
  column : Nat
  /-- What is wrong with the bytes after the rest, unless the text ends there. -/
  fault : Option Bytes
  /-- The number of characters in the whole text, which bounds how far anything can reach. -/
  size : Nat
  /-- Lines that start before the character with this number lose their first character. -/
  lossy : Nat
deriving DecidableEq, Repr

/-- A character that does not fit, in a construct that starts in the line `construct`. -/
def Refusal.character (problem : Bytes) (construct : Nat) (c : Cursor) : Refusal :=
  ⟨problem, shownLine 1 construct c.line⟩

/-- A line and a column, and whether a carriage return was the last character. -/
structure LinePlace where
  line : Nat
  column : Nat
  afterReturn : Bool

/-- The place after a character. -/
def LinePlace.after (p : LinePlace) (c : Char) : LinePlace :=
  if c = '\n' && p.afterReturn then ⟨p.line, 0, false⟩
  else if isBreak c then ⟨p.line + 1, 0, c = '\r'⟩
  else ⟨p.line, p.column + 1, false⟩

namespace Cursor

/-- The start of a text. While a byte order mark is the first character of the first stretch, every
line of the stretch loses its first character to it. -/
def start (s : Source) : Cursor :=
  let marked := s.chars.head? = some '\uFEFF'
  ⟨s.chars, 0, 0, 0, s.fault, s.chars.length, if marked then s.firstStretch else 0⟩

/-- Are the next `n` characters in sight, or the end of the text? -/
def need (n : Nat) (c : Cursor) : Except Refusal Unit :=
  match c.fault with
  | some problem => if (c.rest.drop (n - 1)).isEmpty then .error ⟨problem, none⟩ else .ok ()
  | none => .ok ()

/-- Looks at the next `n` characters. Once that has gone beyond the first stretch, lines lose nothing
any more. -/
def reach (n : Nat) (c : Cursor) : Except Refusal Cursor := do
  c.need n
  return if c.lossy < c.index + n then { c with lossy := 0 } else c

/-- The next character. -/
def head? (c : Cursor) : Option Char := c.rest.head?

/-- Is the text at its end? -/
def atEnd (c : Cursor) : Bool := c.rest.isEmpty

/-- Does the rest, without its first `n` characters, start with a blank or a break, or end? -/
def spaceAt (n : Nat) (c : Cursor) : Bool := (c.rest[n]?).all isSpace

/-- The cursor after the given characters, which are the next ones. -/
def past (taken : List Char) (c : Cursor) : Cursor :=
  let p := taken.foldl LinePlace.after ⟨c.line, c.column, false⟩
  { c with
    rest := c.rest.drop taken.length, index := c.index + taken.length,
    line := p.line, column := p.column }

/-- The cursor after the next `n` characters. -/
def advance (n : Nat) (c : Cursor) : Cursor := c.past (c.rest.take n)

/-- The cursor after the next character. -/
def skip (c : Cursor) : Cursor := c.advance 1

/-- The longest stretch of characters of a class, and the cursor after it. -/
def span (p : Char → Bool) (c : Cursor) : Except Refusal (List Char × Cursor) := do
  let taken := c.rest.takeWhile p
  let after := c.past taken
  after.need 1
  return (taken, after)

/-- The cursor after the longest stretch of characters of a class. -/
def skipWhile (p : Char → Bool) (c : Cursor) : Except Refusal Cursor := return (← c.span p).2

/-- The number of characters that end the line here. -/
def breakLength (c : Cursor) : Nat :=
  match c.rest with
  | '\r' :: '\n' :: _ => 2
  | b :: _ => if isBreak b then 1 else 0
  | [] => 0

/-- The cursor after the line break here, if there is one. -/
def skipBreak (c : Cursor) : Except Refusal Cursor := do
  if c.head?.any isBreak then c.need 2
  return c.advance c.breakLength

/-- The cursor at the end of the line. -/
def skipLine (c : Cursor) : Except Refusal Cursor := c.skipWhile fun x => !isBreak x

/-- Does a line of three equal marks start or end a document here? -/
def atDocumentMark (mark : Char) (c : Cursor) : Bool :=
  c.column = 0 && c.rest.take 3 == [mark, mark, mark] && c.spaceAt 3

/-- Does a document start or end here? -/
def atDocumentEdge (c : Cursor) : Bool := c.atDocumentMark '-' || c.atDocumentMark '.'

/-- How far the longest look ahead goes: a mark of three characters and what follows it. -/
def markReach : Nat := 4

end Cursor

end Polish.Yaml
