import Polish.Fault
import Polish.Token.Scanner
import Polish.Tree

/-!
# From tokens to trees

The tokens are first cut before every statement marker. Each statement is then read from left to
right: an operator is followed by as many expressions as its arity. The operators that still wait
for operands are kept on a stack; a finished operand goes to the innermost of them, which may finish
in turn.

* `Clause`, `splitStatements`: the cut at the markers.
* `Pending`, `supply`: waiting operators and what a finished operand does to them.
* `readExpr`, `Clause.read`: one expression, one statement.
* `Program.ofTokens`, `Program.ofTexts`, `Program.ofSource`: whole programs. The first malformed
  statement is reported.
-/

namespace Polish

/-! ### Cutting into statements -/

/-- The tokens of one statement. There is at least one. -/
structure Clause where
  first : Token
  rest : List Token
deriving DecidableEq, Repr

/-- The tokens of the statement, in order. -/
def Clause.toList (c : Clause) : List Token := c.first :: c.rest

/-- Cuts the tokens before every marker. -/
def splitStatements : List Token → List Clause
  | [] => []
  | t :: ts =>
    match splitStatements ts with
    | [] => [⟨t, []⟩]
    | c :: cs =>
      if c.first.isMarker then ⟨t, []⟩ :: c :: cs else ⟨t, c.toList⟩ :: cs

/-! ### Expressions -/

/-- An operator that waits for an operand. -/
inductive Pending where
  /-- A unary operator. -/
  | operand (token : Token)
  /-- A binary operator before its left operand. -/
  | left (token : Token)
  /-- A binary operator before its right operand. -/
  | right (token : Token) (left : Expr)

/-- Hands a finished operand, which ends at `last`, to the innermost waiting operator. The result is
the finished expression if no operator waits any more, or the operators that still wait. -/
def supply (last : Span) : Expr → List Pending → Expr ⊕ List Pending
  | e, [] => .inl e
  | e, .operand t :: stack => supply last (.unary (t.span.through last) t.text e) stack
  | e, .left t :: stack => .inr (.right t e :: stack)
  | e, .right t l :: stack => supply last (.binary (t.span.through last) t.text l e) stack

/-- The leaf a token stands for, or the operator it is. -/
def leaf (t : Token) : Except Failure (Expr ⊕ Pending) :=
  match t.kind with
  | .ident => .ok (.inl (.var t.span t.text))
  | .numeral =>
    match Decimal.readInt64? t.text with
    | some v => .ok (.inl (.const t.span v))
    | none => .error (.atSpan (.numeralTooLarge t.text) t.span)
  | .binary _ => .ok (.inr (.left t))
  | .unary _ => .ok (.inr (.operand t))
  | _ => .error (.atSpan (.unknownToken t.text) t.span)

/-- Reads an expression for the operators that wait, `prev` being the last token read. The result is
the expression, its last token and the tokens after it. -/
def readExpr (stack : List Pending) (prev : Token) :
    List Token → Except Failure (Expr × Token × List Token)
  | [] => .error (.atSpan (.noExpression prev.text) prev.span)
  | t :: rest =>
    match leaf t with
    | .error f => .error f
    | .ok (.inr op) => readExpr (op :: stack) t rest
    | .ok (.inl e) =>
      match supply t.span e stack with
      | .inl e => .ok (e, t, rest)
      | .inr stack => readExpr stack t rest

/-! ### Statements and programs -/

/-- A statement must be complete where its tokens end. -/
def expectEnd : List Token → Except Failure Unit
  | [] => .ok ()
  | extra :: _ => .error (.atSpan (.trailing extra.text) extra.span)

/-- Reads one statement. -/
def Clause.read (c : Clause) : Except Failure Action :=
  match c.first.kind with
  | .assign =>
    match c.rest with
    | [] => .error (.atSpan (.noTarget c.first.text) c.first.span)
    | target :: rest =>
      if target.kind = .ident then do
        let (rhs, last, rest) ← readExpr [] target rest
        expectEnd rest
        return .assign (c.first.span.through last.span) target.text rhs
      else .error (.atSpan (.badTarget target.text) target.span)
  | .print => do
    let (value, last, rest) ← readExpr [] c.first c.rest
    expectEnd rest
    return .print (c.first.span.through last.span) value
  | _ => .error (.atSpan (.unknownStatement c.first.text) c.first.span)

/-- The range from the first token to the last. -/
def tokensSpan : List Token → Span
  | [] => .zero
  | first :: rest => first.span.through ((first :: rest).getLast (by simp)).span

namespace Program

/-- Reads a program. -/
def ofTokens (ts : List Token) : Except Failure Program := do
  return ⟨tokensSpan ts, ← (splitStatements ts).mapM Clause.read⟩

/-- Reads a program given as a list of words; its nodes have no places. -/
def ofTexts (words : List Bytes) : Except Failure Program := ofTokens (Token.ofTexts words)

/-- Reads a program from its source text. -/
def ofSource (file source : Bytes) : Except Failure Program := do
  ofTokens (← tokenize file source)

end Program

end Polish
