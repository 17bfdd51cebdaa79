import Polish.Operator
import Polish.Span
import Polish.Text.Decimal

/-!
# Tokens

A token is a word of a program and where it stands. Its kind follows from its text: a marker, an
identifier (a letter followed by anything), a numeral, an operator, or unknown.

* `Kind`, `classify`: the kind of a word.
* `Token`, `Token.kind`, `Token.isMarker`
* `Token.ofTexts`: the tokens of an already split word list.
-/

namespace Polish

/-- The kind of a word. -/
inductive Kind where
  | ident
  | numeral
  | assign
  | print
  | binary (op : BinaryOp)
  | unary (op : UnaryOp)
  | unknown
deriving DecidableEq, Repr

namespace Kind

/-- The name of the kind. -/
def name : Kind → Bytes
  | ident => "IDENT"
  | numeral => "INT"
  | assign => "ASSIGN"
  | print => "PRINT"
  | binary _ => "BINOP"
  | unary _ => "UNOP"
  | unknown => "UNKNOWN"

/-- The names of the kinds, in the order of their numbers. -/
def names : List Bytes := ["IDENT", "INT", "ASSIGN", "PRINT", "BINOP", "UNOP", "UNKNOWN"]

/-- The name of the kind with a number; a number without a kind is shown as it is. -/
def nameOfNumber (n : Int) : Bytes :=
  match n with
  | .ofNat k => names.getD k ("token(" ++ Decimal.ofInt n ++ ")")
  | .negSucc _ => "token(" ++ Decimal.ofInt n ++ ")"

end Kind

/-- Is the byte an ASCII letter? -/
def isLetter (b : UInt8) : Bool := (0x61 ≤ b && b ≤ 0x7A) || (0x41 ≤ b && b ≤ 0x5A)

/-- An identifier is a letter followed by anything. -/
def isIdentifier : Bytes → Bool
  | [] => false
  | b :: _ => isLetter b

/-- The kind of a word. -/
def classify (text : Bytes) : Kind :=
  if text = assignMarker then .assign
  else if text = printMarker then .print
  else if isIdentifier text then .ident
  else if Decimal.isNumeral text then .numeral
  else match BinaryOp.ofSymbol? text with
    | some op => .binary op
    | none => match UnaryOp.ofSymbol? text with
      | some op => .unary op
      | none => .unknown

/-- A word of a program and its place. -/
structure Token where
  text : Bytes
  span : Span
deriving DecidableEq, Repr

namespace Token

/-- The kind of the word. -/
def kind (t : Token) : Kind := classify t.text

/-- Does the token start a statement? -/
def isMarker (t : Token) : Bool :=
  match t.kind with
  | .assign | .print => true
  | _ => false

/-- The tokens of a word list; they stand nowhere. -/
def ofTexts (words : List Bytes) : List Token :=
  words.map fun w => ⟨w, .zero⟩

/-- The text of each token. -/
def texts (ts : List Token) : List Bytes := ts.map Token.text

@[simp] theorem texts_ofTexts (words : List Bytes) : texts (ofTexts words) = words := by
  simp [texts, ofTexts, Function.comp_def]

end Token

end Polish
