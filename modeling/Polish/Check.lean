import Polish.Arith
import Polish.Tree

/-!
# Static checks

Without running a program, two kinds of certain failure can be found: a variable that is read before
any statement assigns its name, and a constant subexpression that divides by zero or takes the root
of a negative number. The findings come in the order in which the nodes would be evaluated.

* `Finding`: what was found in an expression, and its value if it is built from constants only.
* `Expr.check`, `Action.check`, `Program.check`
-/

namespace Polish

/-- What is known about an expression: the failures in it, and its value if it has no variables and
no failures. -/
structure Finding where
  failures : List Failure
  value? : Option Int64
deriving DecidableEq, Repr

/-- Checks an expression where the names in `assigned` have values. -/
def Expr.check (assigned : List Bytes) : Expr → Finding
  | missing => ⟨[], none⟩
  | const _ v => ⟨[], some v⟩
  | var span name =>
    if name ∈ assigned then ⟨[], none⟩ else ⟨[.atSpan (.readBeforeAssigned name) span], none⟩
  | binary span op l r =>
    let left := l.check assigned
    let right := r.check assigned
    let failures := left.failures ++ right.failures
    if op = BinaryOp.div.symbol ∧ right.value? = some 0 then
      ⟨failures ++ [.atSpan .constantZeroDivisor span], none⟩
    else match left.value?, right.value? with
      | some a, some b => ⟨failures, (applyBinary op a b).toOption⟩
      | _, _ => ⟨failures, none⟩
  | unary span op e =>
    let operand := e.check assigned
    match operand.value? with
    | none => operand
    | some a =>
      match applyUnary op a with
      | .ok v => ⟨operand.failures, some v⟩
      | .error f => ⟨operand.failures ++ [.atSpan f span], none⟩

namespace Action

mutual

/-- Checks a statement; the result also holds the names that have values after it. -/
def check (assigned : List Bytes) : Action → List Failure × List Bytes
  | missing => ([], assigned)
  | assign _ target rhs => ((rhs.check assigned).failures, target :: assigned)
  | print _ value => ((value.check assigned).failures, assigned)
  | seq _ as => checkAll assigned as

/-- Checks statements one after the other. -/
def checkAll (assigned : List Bytes) : List Action → List Failure × List Bytes
  | [] => ([], assigned)
  | a :: as =>
    let (first, assigned) := check assigned a
    let (rest, assigned) := checkAll assigned as
    (first ++ rest, assigned)

end

end Action

/-- The certain failures of a program, in the order of evaluation. -/
def Program.check (p : Program) : List Failure := (Action.checkAll [] p.actions).1

end Polish
