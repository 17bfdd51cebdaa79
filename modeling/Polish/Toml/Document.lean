import Polish.Text.Decimal
import Polish.Text.Rune
import Polish.Toml.Rule

/-!
# TOML documents

A document is a list of pairs of a key and a value, one a line, and of tables, each with the pairs
that follow it. A value may itself be a table, or an array of values.

* `Toml.Key`, `Toml.Value`: the two sides of a pair.
* `Toml.Item`: a pair or the head of a table.
* `Toml.items`: the grammar.
* `Toml.parse`: the items of a text, or the line where it is no document.
-/

namespace Polish.Toml

open Rule

/-- A key and its line. It stands for no text if its escapes do not. -/
structure Key where
  text : Option Bytes
  line : Nat
deriving DecidableEq, Repr

/-- A value. Numbers are kept as they are written, without underscores. -/
inductive Value where
  /-- A text and the line where it ends; none if its escapes stand for no text. -/
  | string (line : Nat) (text : Option Bytes)
  | integer (digits : Bytes)
  | float (digits : Bytes)
  | boolean (b : Bool)
  | datetime (text : Bytes)
  | array (items : List Value)
  /-- A table and the line where it starts; each pair with the line where it ends. -/
  | table (line : Nat) (pairs : List (Key × Value × Nat))
deriving Repr

/-- An item of a document, with its line. -/
inductive Item where
  | pair (key : Key) (value : Value) (line : Nat)
  /-- The head of a table, with its name as it is written; an array has several tables. -/
  | head (inArray : Bool) (name : Bytes) (keys : List Key) (line : Nat)
deriving Repr

/-! ### Blanks -/

/-- Is the character a blank within a line? -/
def isBlank (c : Char) : Bool := c = ' ' || c = '\t'

/-- Is the character no control character, or a tab? -/
def isVisible (c : Char) : Bool := c = '\t' || ' ' ≤ c

/-- Line ends. -/
def newline : Rule Unit := part do
  let _ ← one isLineEnd
  let _ ← stretch isLineEnd

/-- Blanks, or nothing. -/
def blanks : Rule Unit := part do
  let _ ← stretch isBlank

/-- Blanks and line ends, or nothing. -/
def space : Rule Unit := part do
  let _ ← stretch fun c => isBlank c || isLineEnd c

/-- A comment. -/
def comment : Rule Unit := part do
  mark '#'
  let _ ← stretch isVisible

/-! ### Texts -/

/-- Reads four hexadecimal digits. -/
def hexQuad : Rule Unit := part do
  for _ in [0, 1, 2, 3] do
    let _ ← part (one fun c => c.isDigit || ('a' ≤ c && c ≤ 'f') || ('A' ≤ c && c ≤ 'F'))

/-- A backslash. -/
def backslash : Rule Unit := part (mark '\\')

/-- A character with a backslash before it. -/
def escaped : Rule Unit := part do
  backslash
  (do let _ ← one fun c => "btnfr\"/\\".toList.contains c)
    <|> (do mark 'u'; hexQuad) <|> (do mark 'U'; hexQuad; hexQuad)

/-- A character between double quotes. -/
def basicChar : Rule Unit :=
  part ((do let _ ← one fun c => ' ' ≤ c && c ≠ '"' && c ≠ '\\') <|> escaped)

/-- The character of a short escape; a slash has none. -/
def shortEscape? (c : Char) : Option Char :=
  match c with
  | 'b' => some '\x08'
  | 't' => some '\t'
  | 'n' => some '\n'
  | 'f' => some '\x0C'
  | 'r' => some '\r'
  | '"' => some '"'
  | '\\' => some '\\'
  | _ => none

/-- The value of hexadecimal digits. -/
def hexNumber (digits : List Char) : Nat :=
  digits.foldl (fun n c => 16 * n + (if c.isDigit then c.toNat - 0x30 else c.toNat % 32 + 9)) 0

/-- The character with a number. -/
def charOf? (n : Nat) : Option Char :=
  if h : n.isValidChar then some (Char.ofNatAux n h) else none

/-- What the characters between double quotes stand for; `skip` characters belong to the escape that
was read. -/
def unescapeFrom : Nat → List Char → Option (List Char)
  | _, [] => some []
  | skip + 1, _ :: rest => unescapeFrom skip rest
  | 0, '\\' :: c :: rest =>
    let digits := if c = 'u' then 4 else if c = 'U' then 8 else 0
    let char := if digits = 0 then shortEscape? c else charOf? (hexNumber (rest.take digits))
    char.bind fun x => (unescapeFrom (digits + 1) (c :: rest)).map (x :: ·)
  | 0, c :: rest => (unescapeFrom 0 rest).map (c :: ·)

/-- What the characters between double quotes stand for. -/
def unescape (text : List Char) : Option Bytes := (unescapeFrom 0 text).map Bytes.ofChars

/-- A text between double quotes. -/
def basicString : Rule (Option Bytes) := part do
  mark '"'
  let body ← textOf (many basicChar)
  mark '"'
  return unescape body

/-- A piece of a text between triple double quotes; a line end with a backslash before it stands for
nothing, and so do the blanks after it. -/
def multilinePiece : Rule (List Char) :=
  part (textOf (basicChar <|> newline)) <|> (do backslash; newline; space; return [])

/-- A text between triple double quotes; line ends at its start are dropped. -/
def multilineString : Rule (Option Bytes) := part do
  word "\"\"\"".toList
  let body ← part (many multilinePiece)
  word "\"\"\"".toList
  return unescape (body.flatten.dropWhile isLineEnd)

/-- A text between single quotes, which has no escapes. -/
def literalString : Rule (Option Bytes) := part do
  mark '\''
  let body ← part (textOf (many (part (one fun c => isVisible c && c ≠ '\''))))
  mark '\''
  return some (Bytes.ofChars body)

/-- A text between triple single quotes; line ends at its start are dropped. -/
def multilineLiteral : Rule (Option Bytes) := part do
  word "'''".toList
  let body ← part (textOf (many (do
    notAt "'''".toList
    (do let _ ← part (one isVisible)) <|> newline)))
  word "'''".toList
  return some (Bytes.ofChars (body.dropWhile isLineEnd))

/-- A text. -/
def string : Rule (Option Bytes) :=
  part (multilineLiteral <|> literalString <|> multilineString <|> basicString)

/-! ### Numbers and times -/

/-- A digit. -/
def digit : Rule Unit := part do
  let _ ← one Char.isDigit

/-- Two digits. -/
def twoDigits : Rule Unit := part do digit; digit

/-- More digits; an underscore may stand between two digits. -/
def moreDigit : Rule Unit := digit <|> (do mark '_'; digit)

/-- A sign, if there is one. -/
def sign : Rule Unit := do
  let _ ← optional? (one fun c => c = '-' || c = '+')

/-- A whole number; only zero starts with a zero. -/
def integer : Rule Unit := part do
  sign
  part ((do
    let _ ← one fun c => '1' ≤ c && c ≤ '9'
    let _ ← many1 moreDigit) <|> digit)

/-- The digits after a point. -/
def fraction : Rule Unit := part do
  mark '.'
  digit
  let _ ← many moreDigit

/-- An exponent. -/
def exponent : Rule Unit := part do
  let _ ← one fun c => c = 'e' || c = 'E'
  sign
  digit
  let _ ← many moreDigit

/-- A number with a fraction or an exponent. -/
def float : Rule Unit := part do
  integer
  (do fraction; let _ ← optional? exponent) <|> (do let _ ← optional? fraction; exponent)

/-- A date. -/
def date : Rule Unit := part do
  part do twoDigits; twoDigits
  mark '-'
  twoDigits
  mark '-'
  twoDigits

/-- A time of day. -/
def clock : Rule Unit := part do
  twoDigits
  mark ':'
  twoDigits
  mark ':'
  twoDigits
  let _ ← optional? (part do
    mark '.'
    let _ ← many1 digit)

/-- A distance from universal time. -/
def zone : Rule Unit := part (mark 'Z' <|> part do
  let _ ← one fun c => c = '-' || c = '+'
  twoDigits
  mark ':'
  twoDigits)

/-- A date, perhaps with a time of day, or a time of day alone. -/
def datetime : Rule Unit := part ((do
  date
  let _ ← optional? (do
    mark 'T'
    part do
      clock
      optional? zone)) <|> clock)

/-! ### Keys and values -/

/-- May the character stand in a key without quotes? -/
def isKeyChar (c : Char) : Bool := c.isAlphanum || c = '-' || c = '_'

/-- A key, with or without quotes. -/
def key : Rule Key := part (
  part (do
    let first ← one isKeyChar
    let rest ← stretch isKeyChar
    return ⟨some (Bytes.ofChars (first :: rest)), ← here⟩)
  <|> part (do
    mark '"'
    let body ← part (textOf (many basicChar))
    mark '"'
    return ⟨unescape body, ← here⟩))

/-- The text of a number without underscores. -/
def numeral {α : Type} (r : Rule α) : Rule Bytes := do
  return Bytes.ofChars ((← textOf r).filter (· ≠ '_'))

/-- A comment with blanks and line ends around it, or only those. -/
def gap : Rule Unit := do
  space
  let _ ← optional? comment
  space

/-- The comma between the values of an array. -/
def arrayComma : Rule Unit := part (mark ',')

/-- The values of an array. Comments may stand before and after each comma. -/
def arrayValues (inner : Rule Value) : Rule (List Value) := part do
  let first ← inner
  let more ← many do
    gap
    arrayComma
    gap
    inner
  space
  let _ ← optional? arrayComma
  space
  let _ ← optional? comment
  return first :: more

/-- An array. -/
def array (inner : Rule Value) : Rule Value := part do
  mark '['
  space
  let values ← optional? (arrayValues inner)
  space
  mark ']'
  return .array (values.getD [])

/-- A key and its value, and the line where the value ends. -/
def keyValue (inner : Rule Value) : Rule (Key × Value × Nat) := part do
  let k ← key
  blanks
  mark '='
  blanks
  let v ← inner
  return (k, v, ← here)

/-- A table within one value. Commas between its pairs may be left out. -/
def inlineTable (inner : Rule Value) : Rule Value := part do
  mark '\x7b'
  let line ← here
  blanks
  let pairs ← part (many do
    let p ← keyValue inner
    let _ ← optional? (part do blanks; mark ','; blanks)
    return p)
  blanks
  mark '\x7d'
  return .table line pairs

/-- The rule for values that are inside others, up to a depth. -/
def valueFrom : Nat → Rule Value
  | 0 => failure
  | depth + 1 => part (
    (do return .datetime (Bytes.ofChars (← textOf datetime)))
    <|> (do return .float (← numeral float))
    <|> (do return .integer (← numeral integer))
    <|> (do
      let text ← string
      return .string (← here) text)
    <|> part (do word "true".toList; return .boolean true)
    <|> part (do word "false".toList; return .boolean false)
    <|> array (valueFrom depth)
    <|> inlineTable (valueFrom depth))

/-- A value. -/
def value : Rule Value := do valueFrom ((← get).size + 1)

/-- A key and its value. -/
def pair : Rule Item := do
  let (k, v, line) ← keyValue value
  return .pair k v line

/-- Keys with points between them, and the text of the whole. -/
def path : Rule (Bytes × List Key) := part do
  let before ← get
  let first ← key
  let rest ← many do
    part do blanks; mark '.'; blanks
    key
  let after ← get
  return (Bytes.ofChars (before.rest.take (after.index - before.index)), first :: rest)

/-- The head of a table. -/
def tableHead : Rule Item := part (
  part (do
    mark '['
    blanks
    let (name, keys) ← path
    blanks
    mark ']'
    return .head false name keys (← here))
  <|> part (do
    word "[[".toList
    blanks
    let (name, keys) ← path
    blanks
    word "]]".toList
    return .head true name keys (← here)))

/-! ### Documents -/

/-- Blanks and a comment, at the end of a line. -/
def lineRest : Rule Unit := do
  blanks
  let _ ← optional? comment

/-- A table with its pairs, a pair, or an empty line. -/
def expression : Rule (List Item) := part (
  (do
    blanks
    let head ← tableHead
    lineRest
    let pairs ← many (do
      space
      let p ← pair
      lineRest
      return p)
    return head :: pairs)
  <|> (do
    blanks
    let p ← pair
    lineRest
    return [p])
  <|> (do
    lineRest
    return []))

/-- The items of a whole text. -/
def items : Rule (List Item) := do
  let first ← expression
  let rest ← many (do newline; expression)
  let _ ← optional? newline
  finished
  return first ++ rest.flatten

/-- The line of the character with a number; here only a line feed ends a line. -/
def lineOf (text : List Char) (n : Nat) : Nat := 1 + (text.take (n + 1)).count '\n'

/-- The items of a text, or the line where the text is no document. -/
def parse (text : Bytes) : Except Nat (List Item) :=
  let chars := text.chars
  (items.runOn chars).mapError (lineOf chars)

end Polish.Toml
