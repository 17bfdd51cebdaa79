import Polish.Compile
import Polish.Eval

/-!
# Trees with dangling slots

A tree that is built by hand consists of slots. A slot holds a node, or is empty, or dangles: it is
marked as the place of a node of some sort, and there is no node. An empty slot shows at a glance. A
dangling one looks like a node until something in the node is asked for, and then the walk crashes:
it ends with neither a result nor a failure.

The compiler looks behind the mark of a statement, and reports a dangling one. The interpreter does
so only for a sequence at the root. Neither of them does so for expressions.

* `ExprSlot`, `ActionSlot`, `NodeSlot`: the slots of a tree.
* `Expr.slot`, `Action.slot`, `Node.slot`: a tree in slots that do not dangle.
* `ExprSlot.blank`, `ActionSlot.blank`, `NodeSlot.blank`: the tree if dangling slots were empty.
* `Breakdown`: why a walk broke off.
* `ExprSlot.compile`, `ActionSlot.compile`, `NodeSlot.compile`: the code of a tree.
* `ExprSlot.eval`, `ActionSlot.exec`, `ActionSlot.execute`: its value and its runs.
-/

namespace Polish

/-! ### Slots -/

/-- The place of an expression. -/
inductive ExprSlot where
  | empty
  | dangling
  | const (span : Span) (value : Int64)
  | var (span : Span) (name : Bytes)
  | binary (span : Span) (op : Bytes) (left right : ExprSlot)
  | unary (span : Span) (op : Bytes) (operand : ExprSlot)
deriving DecidableEq, Repr, Inhabited

/-- The sorts of statements. -/
inductive ActionSort where
  | assign
  | print
  | seq
deriving DecidableEq, Repr

/-- The place of a statement, or of a sequence of statements. -/
inductive ActionSlot where
  | empty
  | dangling (sort : ActionSort)
  | assign (span : Span) (target : Bytes) (rhs : ExprSlot)
  | print (span : Span) (value : ExprSlot)
  | seq (span : Span) (actions : List ActionSlot)
deriving Repr, Inhabited

/-- The place of an expression or of a statement. -/
inductive NodeSlot where
  | expr (e : ExprSlot)
  | action (a : ActionSlot)
deriving Repr

/-- The place of the expression. -/
def Expr.slot : Expr → ExprSlot
  | missing => .empty
  | const span v => .const span v
  | var span name => .var span name
  | binary span op l r => .binary span op l.slot r.slot
  | unary span op e => .unary span op e.slot

namespace Action

mutual

/-- The place of the statement. -/
def slot : Action → ActionSlot
  | missing => .empty
  | assign span target e => .assign span target e.slot
  | print span e => .print span e.slot
  | seq span as => .seq span (slotAll as)

/-- The places of the statements. -/
def slotAll : List Action → List ActionSlot
  | [] => []
  | a :: as => a.slot :: slotAll as

end

end Action

/-- The place of the node. -/
def Node.slot : Node → NodeSlot
  | expr e => .expr e.slot
  | action a => .action a.slot

/-- The expression, if dangling slots were empty. -/
def ExprSlot.blank : ExprSlot → Expr
  | empty | dangling => .missing
  | const span v => .const span v
  | var span name => .var span name
  | binary span op l r => .binary span op l.blank r.blank
  | unary span op e => .unary span op e.blank

namespace ActionSlot

mutual

/-- The statement, if dangling slots were empty. -/
def blank : ActionSlot → Action
  | empty | dangling _ => .missing
  | assign span target e => .assign span target e.blank
  | print span e => .print span e.blank
  | seq span as => .seq span (blankAll as)

/-- The statements, if dangling slots were empty. -/
def blankAll : List ActionSlot → List Action
  | [] => []
  | a :: as => a.blank :: blankAll as

end

end ActionSlot

/-- The node, if dangling slots were empty; nothing for a slot without a node. -/
def NodeSlot.blank : NodeSlot → Option Node
  | expr .empty | expr .dangling | action .empty | action (.dangling _) => none
  | expr e => some (.expr e.blank)
  | action a => some (.action a.blank)

/-! ### Walks that break off -/

/-- Why a walk over a tree broke off. -/
inductive Breakdown where
  /-- It failed, and says why. -/
  | failed (f : Failure)
  /-- It asked a dangling slot for its node. -/
  | crashed
deriving DecidableEq, Repr

/-- Adds a place to a failure unless one is known. -/
def Breakdown.locate (span : Span) : Breakdown → Breakdown
  | failed f => failed (f.locate span)
  | crashed => crashed

/-! ### Compilation -/

/-- The code of an expression. -/
def ExprSlot.compile : ExprSlot → Except Breakdown (List Instr)
  | empty => .error (.failed (.ofFault .noExpressionCode))
  | dangling => .error .crashed
  | const _ v => .ok [.push v]
  | var _ name => .ok [.load name]
  | binary span op l r =>
    match Operation.ofBinary? op with
    | none => .error (.failed (.atSpan (.unknownBinary op) span))
    | some o => do
      let left ← l.compile
      let right ← r.compile
      return left ++ right ++ [.plain o]
  | unary span op e =>
    match Operation.ofUnary? op with
    | none => .error (.failed (.atSpan (.unknownUnary op) span))
    | some o => do
      let operand ← e.compile
      return operand ++ [.plain o]

/-- What the compiler reports of a dangling statement. -/
def ActionSort.fault : ActionSort → Fault
  | seq => .missingProgram
  | assign | print => .missingStatement

namespace ActionSlot

mutual

/-- The code of a statement. -/
def compile : ActionSlot → Except Breakdown (List Instr)
  | empty => .error (.failed (.ofFault .noStatementCode))
  | dangling sort => .error (.failed (.ofFault sort.fault))
  | assign _ target rhs => do
    let value ← rhs.compile
    return value ++ [.store target]
  | print _ e => do
    let value ← e.compile
    return value ++ [.print]
  | seq _ as => compileAll as

/-- The code of statements, one after the other. -/
def compileAll : List ActionSlot → Except Breakdown (List Instr)
  | [] => .ok []
  | a :: as => do
    let first ← compile a
    let rest ← compileAll as
    return first ++ rest

end

end ActionSlot

/-- The code of a node. -/
def NodeSlot.compile : NodeSlot → Except Breakdown (List Instr)
  | expr .empty | action .empty => .error (.failed (.ofFault .noNode))
  | expr e => e.compile
  | action a => a.compile

/-! ### Running -/

/-- The value of an expression. -/
def ExprSlot.eval (store : Store) : ExprSlot → Except Breakdown Int64
  | empty => .error (.failed (.ofFault .missingExpression))
  | dangling => .error .crashed
  | const _ v => .ok v
  | var span name => (Store.get store name).mapError fun f => .failed (.atSpan f span)
  | binary span op l r => do
    let a ← l.eval store
    let b ← r.eval store
    (applyBinary op a b).mapError fun f => .failed (.atSpan f span)
  | unary span op e => do
    let a ← e.eval store
    (applyUnary op a).mapError fun f => .failed (.atSpan f span)

/-- A run that broke off: the state it left, and why. -/
structure BrokenOff where
  progress : Progress
  breakdown : Breakdown
deriving DecidableEq, Repr

/-- Runs one statement: reports its start, evaluates its expression, applies the effect of the value
and reports the end. Nothing happens in a canceled run. -/
def runSlot (info : RunInfo) (sort : Bytes) (span : Span) (e : ExprSlot)
    (effect : Int64 → Progress → Progress) (data : Int64 → List (Bytes × Bytes)) (s : Progress) :
    Except BrokenOff Progress :=
  if info.watch.canceled s.events.length then .error ⟨s, .failed (.ofFault .canceled)⟩
  else
    let started := s.report info .stmtStart span [("kind", sort)]
    match e.eval started.store with
    | .error b => .error ⟨started, b.locate span⟩
    | .ok v => .ok ((effect v started).report info .stmtEnd span (data v))

namespace ActionSlot

mutual

/-- Runs a statement. A dangling one is asked for its place once the run is known to go on, a dangling
sequence at once for its statements. -/
def exec (info : RunInfo) : ActionSlot → Progress → Except BrokenOff Progress
  | empty, s => .error ⟨s, .failed (.ofFault .missingStatement)⟩
  | dangling .seq, s => .error ⟨s, .crashed⟩
  | dangling .assign, s | dangling .print, s =>
    if info.watch.canceled s.events.length then .error ⟨s, .failed (.ofFault .canceled)⟩
    else .error ⟨s, .crashed⟩
  | assign span target rhs, s =>
    runSlot info "Assignment" span rhs (.assign target)
      (fun v => [("name", target), ("value", Decimal.ofInt64 v)]) s
  | print span value, s =>
    runSlot info "Print" span value .print (fun v => [("value", Decimal.ofInt64 v)]) s
  | seq _ as, s => execAll info as s

/-- Runs statements one after the other, up to the first that breaks off. -/
def execAll (info : RunInfo) : List ActionSlot → Progress → Except BrokenOff Progress
  | [], s => .ok s
  | a :: as, s =>
    match exec info a s with
    | .error b => .error b
    | .ok s => execAll info as s

end

/-- The place of the statement, if there is a node to ask. -/
def span? : ActionSlot → Option Span
  | empty => some .zero
  | dangling _ => none
  | assign s _ _ | print s _ | seq s _ => some s

/-- The root of a tree that is to be run: a dangling sequence is an empty slot there. -/
def atRoot : ActionSlot → ActionSlot
  | dangling .seq => empty
  | a => a

end ActionSlot

/-- What a caller has of a run. -/
inductive Aftermath where
  | returned (x : Execution)
  /-- The run crashed and left this state. -/
  | crashed (left : Progress)
deriving DecidableEq, Repr

/-- Runs a tree on a store. The place of the root is asked for before anything is reported. -/
def ActionSlot.execute (info : RunInfo) (a : ActionSlot) (store : Store) : Aftermath :=
  match a.atRoot.span? with
  | none => .crashed (.start store)
  | some span =>
    match a.atRoot.exec info ((Progress.start store).report info .runStart span []) with
    | .ok s => .returned ⟨s.report info .runEnd span [], none⟩
    | .error ⟨s, .failed f⟩ => .returned ⟨s.report info .runEnd span [], some f⟩
    | .error ⟨s, .crashed⟩ => .crashed s

end Polish
