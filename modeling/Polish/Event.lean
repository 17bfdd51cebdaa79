import Polish.Span

/-!
# Watching a run

Whoever starts a run may watch it: the interpreter reports the start and end of the run and of every
statement, the machine every instruction. The watcher may cancel the run from inside such a report,
or before the run starts; the runs look for it before every statement and instruction.

* `Watch`, `Watch.canceled`: who watches, and when the run is canceled.
* `Event`: a report of the interpreter.
-/

namespace Polish

/-- How a run is watched. -/
structure Watch where
  /-- Are events reported? -/
  traced : Bool
  /-- The run is canceled inside the report with this number, or before the run for 0. -/
  cancelAt : Option Nat
deriving DecidableEq, Repr

namespace Watch

/-- Nobody watches. -/
def unwatched : Watch := ⟨false, none⟩

/-- Is the run canceled once so many reports have been made? -/
def canceled (w : Watch) (reports : Nat) : Bool :=
  match w.cancelAt with
  | none => false
  | some n => n ≤ reports

@[simp] theorem canceled_none (traced : Bool) (reports : Nat) :
    canceled ⟨traced, none⟩ reports = false := rfl

end Watch

/-- What an event reports. -/
inductive EventKind where
  | runStart
  | runEnd
  | stmtStart
  | stmtEnd
  | machineStep
deriving DecidableEq, Repr

namespace EventKind

/-- The name of the kind in a trace. -/
def name : EventKind → Bytes
  | runStart => "run_start"
  | runEnd => "run_end"
  | stmtStart => "stmt_start"
  | stmtEnd => "stmt_end"
  | machineStep => "machine_step"

end EventKind

/-- A report made during a run. -/
structure Event where
  kind : EventKind
  runId : Bytes
  span : Option Span
  /-- Named details, ascending by name. -/
  data : List (Bytes × Bytes)
deriving DecidableEq, Repr

end Polish
