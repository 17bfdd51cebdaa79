import Polish.Bytes

/-!
# Operators and markers

The language has four binary and two unary operators, and two markers that start a statement. Trees
built by hand may spell operators that do not exist, so a tree holds the spelling and the operator
is looked up where it is applied.

* `BinaryOp`, `UnaryOp` with `symbol` and `ofSymbol?`
* `arity`: how many operands the operator of a spelling takes.
* `assignMarker`, `printMarker`
-/

namespace Polish

/-- An operator with two operands. -/
inductive BinaryOp where
  | add
  | sub
  | mul
  | div
deriving DecidableEq, Repr

namespace BinaryOp

/-- Every binary operator, in the order of the reference. -/
def all : List BinaryOp := [add, sub, mul, div]

/-- The spelling of the operator. -/
def symbol : BinaryOp → Bytes
  | add => "+"
  | sub => "-"
  | mul => "*"
  | div => "//"

/-- The operator of a spelling. -/
def ofSymbol? (text : Bytes) : Option BinaryOp :=
  all.find? fun op => op.symbol == text

@[simp] theorem ofSymbol?_symbol (op : BinaryOp) : ofSymbol? op.symbol = some op := by
  cases op <;> rfl

theorem symbol_of_ofSymbol? {text : Bytes} {op : BinaryOp} (h : ofSymbol? text = some op) :
    op.symbol = text := by
  simpa using List.find?_some h

end BinaryOp

/-- An operator with one operand. -/
inductive UnaryOp where
  | neg
  | sqrt
deriving DecidableEq, Repr

namespace UnaryOp

/-- Every unary operator, in the order of the reference. -/
def all : List UnaryOp := [neg, sqrt]

/-- The spelling of the operator. -/
def symbol : UnaryOp → Bytes
  | neg => "_"
  | sqrt => "#"

/-- The operator of a spelling. -/
def ofSymbol? (text : Bytes) : Option UnaryOp :=
  all.find? fun op => op.symbol == text

@[simp] theorem ofSymbol?_symbol (op : UnaryOp) : ofSymbol? op.symbol = some op := by
  cases op <;> rfl

theorem symbol_of_ofSymbol? {text : Bytes} {op : UnaryOp} (h : ofSymbol? text = some op) :
    op.symbol = text := by
  simpa using List.find?_some h

end UnaryOp

/-- The number of operands of the operator with this spelling, and 0 if there is none. -/
def arity (text : Bytes) : Nat :=
  if (BinaryOp.ofSymbol? text).isSome then 2
  else if (UnaryOp.ofSymbol? text).isSome then 1
  else 0

/-- The word that starts an assignment. -/
def assignMarker : Bytes := ":="

/-- The word that starts a print statement. -/
def printMarker : Bytes := "@"

/-- Does the word start a statement? -/
def isMarker (text : Bytes) : Bool := text == assignMarker || text == printMarker

end Polish
