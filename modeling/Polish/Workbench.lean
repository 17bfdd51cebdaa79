import Polish.Check
import Polish.Compile
import Polish.Diagnostic
import Polish.Eval
import Polish.Log
import Polish.Machine
import Polish.Machine.Listing
import Polish.Store.Dump
import Polish.Tree.Infix
import Polish.Tree.Parser
import Polish.Workbench.Cache

/-!
# The workbench

The workbench runs programs from source text: on the interpreter, as compiled code on the machine,
or on both, and shows what it does. Whatever it does leaves a trail: text on its output, log records
and the reports made to whoever watches. The output may refuse every write; most writes do not care,
but showing a program or its code fails then.

* `Mode`: which of the two ways a run takes.
* `Trail`: what was written, logged and reported.
* `Workbench` with `display`, `interpret`, `runMachine`, `compileSource`, `checkSource`, `run`
* `Verdict`, `Workbench.verify`: both ways compared.
-/

namespace Polish

/-! ### Modes -/

/-- The way a program is run. -/
inductive Mode where
  | interpret
  | compile
  | both
deriving DecidableEq, Repr

namespace Mode

/-- The name of a mode. -/
def name : Mode → Bytes
  | interpret => "interpret"
  | compile => "compile"
  | both => "both"

/-- The mode with a name. -/
def ofName? (text : Bytes) : Option Mode := [interpret, compile, both].find? (·.name == text)

end Mode

/-! ### Trails -/

/-- A report to whoever watches. -/
inductive Notice where
  | event (e : Event)
  | step (e : StepEvent)
deriving DecidableEq, Repr

/-- What an activity leaves behind, in order. -/
structure Trail where
  out : Bytes
  log : List LogRecord
  notices : List Notice
deriving DecidableEq, Repr

namespace Trail

/-- Nothing happened. -/
def empty : Trail := ⟨[], [], []⟩

instance : Append Trail := ⟨fun a b => ⟨a.out ++ b.out, a.log ++ b.log, a.notices ++ b.notices⟩⟩

/-- Text was written. -/
def wrote (text : Bytes) : Trail := ⟨text, [], []⟩

/-- Records were logged. -/
def logged (records : List LogRecord) : Trail := ⟨[], records, []⟩

/-- Reports were made. -/
def noticed (notices : List Notice) : Trail := ⟨[], [], notices⟩

end Trail

/-! ### The workbench -/

/-- A place to run programs. -/
structure Workbench where
  /-- Why every write fails, if it does. -/
  outputFault : Option Bytes
  logger : Logger
  runId : Bytes
  traced : Bool
  showInfix : Bool
  showCode : Bool
  cache : Option Cache
deriving DecidableEq, Repr

namespace Workbench

/-- How many sources the cache keeps unless told otherwise. -/
def defaultCacheSize : Int := 64

/-- A cache of a size; no cache for a size that is not positive. -/
def cacheOfSize (size : Int) : Option Cache :=
  if 0 < size then some (Cache.empty size.toNat) else none

/-- Writes text and ignores a failure. -/
def write (w : Workbench) (text : Bytes) : Trail :=
  if w.outputFault.isSome then .empty else .wrote text

/-- Writes text and reports a failure. -/
def writeChecked (w : Workbench) (text : Bytes) : Except Bytes Trail :=
  match w.outputFault with
  | some reason => .error reason
  | none => .ok (.wrote text)

/-- Shows a program in infix notation. -/
def display (w : Workbench) (p : Program) : Except Bytes Trail := w.writeChecked p.display

/-- Shows code as a listing. -/
def displayCode (w : Workbench) (code : List Instr) : Except Bytes Trail :=
  w.writeChecked (listing code)

/-- What an interpreter run logs. -/
def executionLog (logger : Logger) (x : Execution) : List LogRecord :=
  match x.failure with
  | none => []
  | some f => [logger.debug "Execution failed" [("err", f.text)]]

/-- Runs a program on the interpreter with an empty symbol table, then shows the table. -/
def interpret (w : Workbench) (watch : Watch) (p : Program) : Trail × Execution :=
  let x := execute ⟨watch, w.runId⟩ p.toAction NameMap.empty
  let ending := match x.failure with
    | some _ => Trail.empty
    | none => w.write ("Interpretation Completed.\n\n" ++ Store.dump x.progress.store)
  let trail := w.write "\nInterpreting the parse tree...\n" ++ w.write x.output
    ++ .noticed (x.progress.events.map .event)
    ++ .logged (executionLog (w.logger.child "module" "evaluator") x) ++ ending
  (trail, x)

/-- What a machine run of some code logs. -/
def machineLog (logger : Logger) (code : List Instr) (r : MachineRun) : List LogRecord :=
  let started := logger.debug "Run started" [("instructions", Decimal.ofNat code.length)]
  let pc := r.steps.length
  let ending : List LogRecord := match r.failure with
    | none =>
      if r.machine.stack.isEmpty then []
      else [logger.warn "Values left on the stack"
        [("count", Decimal.ofNat r.machine.stack.length)]]
    | some f =>
      if f.fault = .canceled then []
      else (code[pc]?.map fun i => logger.debug "Run failed"
        [("pc", Decimal.ofNat pc), ("instr", i.text), ("err", f.text)]).toList
  started :: ending

/-- The text written by a machine run. -/
def machineOutput (r : MachineRun) : Bytes :=
  let ending : Bytes := match r.failure with
    | some _ => []
    | none =>
      "Machine: execution ended with " ++ Decimal.ofNat r.machine.stack.length
        ++ " items left on the stack.\n\n" ++ Store.dump r.machine.store
  "Executing compiled code...\n" ++ r.machine.prints.flatMap Machine.printLine ++ ending

/-- Runs code on a new machine, when `reports` reports have been made. -/
def runMachine (w : Workbench) (watch : Watch) (reports : Nat) (code : List Instr) :
    Trail × MachineRun :=
  let r := Machine.run watch reports code
  let notices := if watch.traced then r.steps.map Notice.step else []
  (w.write (machineOutput r) ++ .noticed notices
    ++ .logged (machineLog (w.logger.child "module" "machine") code r), r)

/-- Compiles a source, or takes its code from the cache. -/
def compileSource (w : Workbench) (file source : Bytes) :
    Workbench × Trail × Except Failure (List Instr) :=
  match w.cache.bind (·.get? source) with
  | some (code, cache) =>
    ({ w with cache := some cache },
      .logged [w.logger.debug "Compile cache hit" [("file", file)]], .ok code)
  | none =>
    match Program.ofSource file source >>= Program.compile with
    | .error f => (w, .empty, .error f)
    | .ok code => ({ w with cache := w.cache.map (·.add source code) }, .empty, .ok code)

/-- The certain failures of a source: why it cannot be read, or what a check finds. -/
def checkSource (file source : Bytes) : List Failure :=
  match Program.ofSource file source with
  | .error f => [f]
  | .ok p => p.check

/-- The part of a run on the machine, after `reports` reports. -/
def runCompiled (w : Workbench) (watch : Watch) (reports : Nat) (p : Program) :
    Trail × Option Failure :=
  match p.compile with
  | .error f => (.empty, some f)
  | .ok code =>
    match if w.showCode then w.displayCode code else .ok .empty with
    | .error reason => (.empty, some (.ofFault (.cannotWrite .output reason)))
    | .ok shown =>
      let (trail, r) := w.runMachine watch reports code
      (shown ++ trail, r.failure)

/-- Runs a program that was read. The interpreter comes first. -/
def runProgram (w : Workbench) (watch : Watch) (mode : Mode) (p : Program) :
    Trail × Option Failure :=
  if mode = .compile then w.runCompiled watch 0 p
  else
    let (trail, x) := w.interpret watch p
    match x.failure with
    | some f => (trail, some f)
    | none =>
      if mode = .interpret then (trail, none)
      else
        let (rest, f) := w.runCompiled watch x.progress.events.length p
        (trail ++ rest, f)

/-- Runs a source in the mode with a name. -/
def run (w : Workbench) (watch : Watch) (file source mode : Bytes) : Trail × Option Failure :=
  match Mode.ofName? mode with
  | none => (.empty, some (.ofFault (.unknownMode mode)))
  | some mode =>
    match Program.ofSource file source with
    | .error f => (.empty, some f)
    | .ok p =>
      let parsed := Trail.logged [w.logger.debug "Parsed program"
        [("file", file), ("statements", Decimal.ofNat p.actions.length)]]
      match if w.showInfix then w.display p else .ok .empty with
      | .error reason => (parsed, some (.ofFault (.cannotWrite .output reason)))
      | .ok shown =>
        let (trail, f) := w.runProgram watch mode p
        (parsed ++ shown ++ trail, f)

end Workbench

/-! ### Comparing both ways -/

/-- What one way of running a program produced. -/
structure Outcome where
  prints : List Int64
  store : Store
  /-- The kind of the failure, if it failed. -/
  code : Option Code
deriving DecidableEq, Repr

namespace Outcome

/-- The outcome of an interpreter run. -/
def ofExecution (x : Execution) : Outcome :=
  ⟨x.progress.prints, x.progress.store, x.failure.map Failure.code⟩

/-- The outcome of a machine run. -/
def ofMachineRun (r : MachineRun) : Outcome :=
  ⟨r.machine.prints, r.machine.store, r.failure.map Failure.code⟩

/-- The code of the failure; nothing on success. -/
def codeName (o : Outcome) : Bytes := (o.code.map Code.name).getD []

end Outcome

/-- Both outcomes of a program. -/
structure Verdict where
  interpreter : Outcome
  machine : Outcome
deriving DecidableEq, Repr

namespace Verdict

/-- The same prints, and the same failure or, on success, the same symbol table. -/
def agree (v : Verdict) : Bool :=
  v.interpreter.code == v.machine.code && v.interpreter.prints == v.machine.prints
    && (v.interpreter.code.isSome || v.interpreter.store.equal v.machine.store)

end Verdict

namespace Workbench

/-- Runs a program both ways without output and compares the outcomes. -/
def verify (w : Workbench) (watch : Watch) (p : Program) : Trail × Except Failure Verdict :=
  match p.compile with
  | .error f => (.empty, .error f)
  | .ok code =>
    let watch := { watch with traced := false }
    let x := execute ⟨watch, []⟩ p.toAction NameMap.empty
    let r := Machine.run watch 0 code
    let v : Verdict := ⟨.ofExecution x, .ofMachineRun r⟩
    let disagreement := if v.agree then [] else [w.logger.warn "Execution paths disagree"
      [("interpreter", v.interpreter.codeName), ("machine", v.machine.codeName)]]
    (.logged (executionLog (w.logger.child "module" "evaluator") x
      ++ machineLog (w.logger.child "module" "machine") code r ++ disagreement), .ok v)

/-- Compares both ways for a program that may be missing. -/
def verify? (w : Workbench) (watch : Watch) : Option Program → Trail × Except Failure Verdict
  | none => (.empty, .error (.ofFault .missingProgram))
  | some p => w.verify watch p

end Workbench

end Polish
