import Polish.Arith
import Polish.Event
import Polish.Store
import Polish.Tree

/-!
# Interpretation

The interpreter walks the tree. Operands are evaluated before their operator, the left one first. A
statement either completes, and then it has stored or printed its value, or fails and changes
nothing. A failing run keeps the state reached before the failing statement.

* `Expr.eval`: the value of an expression.
* `Progress`: the state of a run.
* `Action.exec`: runs a statement, watched or not.
* `execute`: a whole run, with the reports of its start and end.
-/

namespace Polish

/-- The value of an expression. A failure is placed at the innermost node that failed. -/
def Expr.eval (store : Store) : Expr → Except Failure Int64
  | missing => .error (.ofFault .missingExpression)
  | const _ v => .ok v
  | var span name => (Store.get store name).mapError (.atSpan · span)
  | binary span op l r => do
    let a ← l.eval store
    let b ← r.eval store
    (applyBinary op a b).mapError (.atSpan · span)
  | unary span op e => do
    let a ← e.eval store
    (applyUnary op a).mapError (.atSpan · span)

/-- The state of an interpreter run. -/
structure Progress where
  store : Store
  /-- The printed values, in order. -/
  prints : List Int64
  /-- The reports made, in order. -/
  events : List Event
deriving DecidableEq, Repr

/-- A run that stopped: the state it left, and why. -/
structure Halted where
  progress : Progress
  failure : Failure
deriving DecidableEq, Repr

/-- What the interpreter is told about a run. -/
structure RunInfo where
  watch : Watch
  runId : Bytes
deriving DecidableEq, Repr

namespace Progress

/-- The state before a run. -/
def start (store : Store) : Progress := ⟨store, [], []⟩

/-- Reports an event, if someone watches. -/
def report (info : RunInfo) (kind : EventKind) (span : Span) (data : List (Bytes × Bytes))
    (s : Progress) : Progress :=
  if info.watch.traced then
    { s with events := s.events ++ [⟨kind, info.runId, span.toOption, data⟩] }
  else s

@[simp] theorem report_store (info : RunInfo) (kind : EventKind) (span : Span)
    (data : List (Bytes × Bytes)) (s : Progress) : (s.report info kind span data).store = s.store := by
  unfold report
  split <;> rfl

@[simp] theorem report_prints (info : RunInfo) (kind : EventKind) (span : Span)
    (data : List (Bytes × Bytes)) (s : Progress) :
    (s.report info kind span data).prints = s.prints := by
  unfold report
  split <;> rfl

/-- Stores a value. -/
def assign (target : Bytes) (v : Int64) (s : Progress) : Progress :=
  { s with store := s.store.put target v }

/-- Prints a value. -/
def print (v : Int64) (s : Progress) : Progress :=
  { s with prints := s.prints ++ [v] }

end Progress

/-- Runs one statement: reports its start, evaluates its expression, applies the effect of the value
and reports the end. Nothing happens in a canceled run. -/
def runStatement (info : RunInfo) (sort : Bytes) (span : Span) (e : Expr)
    (effect : Int64 → Progress → Progress) (data : Int64 → List (Bytes × Bytes)) (s : Progress) :
    Except Halted Progress :=
  if info.watch.canceled s.events.length then .error ⟨s, .ofFault .canceled⟩
  else
    let started := s.report info .stmtStart span [("kind", sort)]
    match e.eval started.store with
    | .error f => .error ⟨started, f.locate span⟩
    | .ok v => .ok ((effect v started).report info .stmtEnd span (data v))

namespace Action

mutual

/-- Runs a statement. -/
def exec (info : RunInfo) : Action → Progress → Except Halted Progress
  | missing, s => .error ⟨s, .ofFault .missingStatement⟩
  | assign span target rhs, s =>
    runStatement info "Assignment" span rhs (.assign target)
      (fun v => [("name", target), ("value", Decimal.ofInt64 v)]) s
  | print span value, s =>
    runStatement info "Print" span value .print (fun v => [("value", Decimal.ofInt64 v)]) s
  | seq _ as, s => execAll info as s

/-- Runs statements one after the other, up to the first that fails. -/
def execAll (info : RunInfo) : List Action → Progress → Except Halted Progress
  | [], s => .ok s
  | a :: as, s =>
    match exec info a s with
    | .error h => .error h
    | .ok s => execAll info as s

end

end Action

/-- A finished run: the state it left, and why it stopped early if it did. -/
structure Execution where
  progress : Progress
  failure : Option Failure
deriving DecidableEq, Repr

namespace Execution

/-- The outcome of running statements. -/
def ofExcept : Except Halted Progress → Execution
  | .ok s => ⟨s, none⟩
  | .error h => ⟨h.progress, some h.failure⟩

/-- The line written for a printed value. -/
def printLine (v : Int64) : Bytes := "=== " ++ Decimal.ofInt64 v ++ "\n"

/-- The text written during the run. -/
def output (x : Execution) : Bytes := x.progress.prints.flatMap printLine

end Execution

/-- Runs a tree on a store. -/
def execute (info : RunInfo) (a : Action) (store : Store) : Execution :=
  let started := (Progress.start store).report info .runStart a.span []
  let x := Execution.ofExcept (a.exec info started)
  { x with progress := x.progress.report info .runEnd a.span [] }

end Polish
