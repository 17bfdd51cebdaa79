import Polish.Text.Decimal
import Polish.Tree

/-!
# Infix rendering

A program is shown with its expressions in infix notation. Every binary operation stands in
parentheses, so that no reader needs to know precedences; unary operators stand directly before
their operand. Each statement takes a line.

* `Expr.toInfix`, `Action.toInfix`, `Node.toInfix`
* `Program.display`: a program under its heading.
-/

namespace Polish

/-- The expression in infix notation. -/
def Expr.toInfix : Expr → Bytes
  | missing => "<nil>"
  | const _ v => Decimal.ofInt64 v
  | var _ name => name
  | binary _ op l r => "( " ++ l.toInfix ++ " " ++ op ++ " " ++ r.toInfix ++ " )"
  | unary _ op e => op ++ e.toInfix

namespace Action

mutual

/-- The statement, or the statements of a sequence, a line each. -/
def toInfix : Action → Bytes
  | missing => []
  | assign _ target rhs => target ++ " := " ++ rhs.toInfix ++ "\n"
  | print _ value => "Print " ++ value.toInfix ++ "\n"
  | seq _ as => toInfixAll as

/-- The statements, a line each. -/
def toInfixAll : List Action → Bytes
  | [] => []
  | a :: as => a.toInfix ++ toInfixAll as

end

end Action

/-- The node in infix notation. -/
def Node.toInfix : Node → Bytes
  | expr e => e.toInfix
  | action a => a.toInfix

/-- The program in infix notation. -/
def Program.toInfix (p : Program) : Bytes := Action.toInfixAll p.actions

/-- The text before the infix rendering of a program. -/
def infixHeading : Bytes := "\nThe program, with expressions in infix notation:\n\n"

/-- The program in infix notation under its heading. -/
def Program.display (p : Program) : Bytes := infixHeading ++ p.toInfix

end Polish
