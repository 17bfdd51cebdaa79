import Polish.Fault
import Polish.Machine.Instr
import Polish.Tree

/-!
# Compilation

Code is emitted in postorder: operands first, then the operator. So the code of an expression leaves
exactly one value on the stack, and the code of a statement none. A tree with missing nodes or
operators that do not exist has no code.

* `Expr.compile`, `Action.compile`, `Program.compile`: the code of a tree.
* `Node.compile?`: the code of any node, which may be missing.
-/

namespace Polish

/-- The code of an expression. -/
def Expr.compile : Expr → Except Failure (List Instr)
  | missing => .error (.ofFault .noExpressionCode)
  | const _ v => .ok [.push v]
  | var _ name => .ok [.load name]
  | binary span op l r =>
    match Operation.ofBinary? op with
    | none => .error (.atSpan (.unknownBinary op) span)
    | some o => do
      let left ← l.compile
      let right ← r.compile
      return left ++ right ++ [.plain o]
  | unary span op e =>
    match Operation.ofUnary? op with
    | none => .error (.atSpan (.unknownUnary op) span)
    | some o => do
      let operand ← e.compile
      return operand ++ [.plain o]

namespace Action

mutual

/-- The code of a statement. -/
def compile : Action → Except Failure (List Instr)
  | missing => .error (.ofFault .noStatementCode)
  | assign _ target rhs => do
    let value ← rhs.compile
    return value ++ [.store target]
  | print _ e => do
    let value ← e.compile
    return value ++ [.print]
  | seq _ as => compileAll as

/-- The code of statements, one after the other. -/
def compileAll : List Action → Except Failure (List Instr)
  | [] => .ok []
  | a :: as => do
    let first ← compile a
    let rest ← compileAll as
    return first ++ rest

end

end Action

/-- The code of a program. -/
def Program.compile (p : Program) : Except Failure (List Instr) := Action.compileAll p.actions

/-- The code of a program that may be missing. -/
def Program.compile? : Option Program → Except Failure (List Instr)
  | none => .error (.ofFault .missingProgram)
  | some p => p.compile

/-- The code of a node that may be missing. -/
def Node.compile? : Option Node → Except Failure (List Instr)
  | none => .error (.ofFault .noNode)
  | some (.expr e) => e.compile
  | some (.action a) => a.compile

end Polish
