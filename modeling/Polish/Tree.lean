import Polish.Operator
import Polish.Span

/-!
# Trees

A program is a sequence of statements; a statement assigns the value of an expression to a name or
prints it. A tree built by hand may lack nodes, spell operators that do not exist and nest
sequences; a tree that was read from text does none of these. Nodes that only seem to be there are a
matter of `ExprSlot` and `ActionSlot`.

* `Expr`, `Action`: expressions and statements.
* `Program`: a sequence at the root.
* `Action.leaves`: the statements of a tree in the order they run.
* `Expr.erase`, `Action.erase`, `Program.erase`: a tree without its places.
* `Node`: a tree of either sort.
-/

namespace Polish

/-- An expression. -/
inductive Expr where
  /-- An expression that should be there and is not. -/
  | missing
  | const (span : Span) (value : Int64)
  | var (span : Span) (name : Bytes)
  | binary (span : Span) (op : Bytes) (left right : Expr)
  | unary (span : Span) (op : Bytes) (operand : Expr)
deriving DecidableEq, Repr, Inhabited

namespace Expr

/-- The place of the expression. -/
def span : Expr → Span
  | missing => .zero
  | const s _ | var s _ | binary s _ _ _ | unary s _ _ => s

/-- The name of the expression's sort. -/
def sort : Expr → Bytes
  | missing => "<nil>"
  | const _ _ => "Constant"
  | var _ _ => "Variable"
  | binary _ _ _ _ => "BinaryOperation"
  | unary _ _ _ => "UnaryOperation"

/-- The expression with all places forgotten. -/
def erase : Expr → Expr
  | missing => missing
  | const _ v => const .zero v
  | var _ n => var .zero n
  | binary _ op l r => binary .zero op l.erase r.erase
  | unary _ op e => unary .zero op e.erase

end Expr

/-- A statement, or a sequence of statements. -/
inductive Action where
  /-- A statement that should be there and is not. -/
  | missing
  | assign (span : Span) (target : Bytes) (rhs : Expr)
  | print (span : Span) (value : Expr)
  | seq (span : Span) (actions : List Action)
deriving Repr, Inhabited

namespace Action

/-- The place of the statement. -/
def span : Action → Span
  | missing => .zero
  | assign s _ _ | print s _ | seq s _ => s

/-- The name of the statement's sort. -/
def sort : Action → Bytes
  | missing => "<nil>"
  | assign _ _ _ => "Assignment"
  | print _ _ => "Print"
  | seq _ _ => "ActionSequence"

mutual

/-- The statement with all places forgotten. -/
def erase : Action → Action
  | missing => missing
  | assign _ n e => assign .zero n e.erase
  | print _ e => print .zero e.erase
  | seq _ as => seq .zero (eraseAll as)

/-- The statements with all places forgotten. -/
def eraseAll : List Action → List Action
  | [] => []
  | a :: as => a.erase :: eraseAll as

end

mutual

/-- The statements of a tree, in the order they run; sequences are opened. -/
def leaves : Action → List Action
  | seq _ as => leavesAll as
  | a => [a]

/-- The statements of a list of trees, in the order they run. -/
def leavesAll : List Action → List Action
  | [] => []
  | a :: as => a.leaves ++ leavesAll as

end

end Action

/-- A program: the sequence at the root of a tree. -/
structure Program where
  span : Span
  actions : List Action
deriving Repr

namespace Program

/-- The program as a statement. -/
def toAction (p : Program) : Action := .seq p.span p.actions

/-- The program with all places forgotten. -/
def erase (p : Program) : Program := ⟨.zero, Action.eraseAll p.actions⟩

end Program

/-- An expression or a statement. -/
inductive Node where
  | expr (e : Expr)
  | action (a : Action)
deriving Repr

namespace Node

/-- The place of the node. -/
def span : Node → Span
  | expr e => e.span
  | action a => a.span

/-- The name of the node's sort. -/
def sort : Node → Bytes
  | expr e => e.sort
  | action a => a.sort

end Node

end Polish
