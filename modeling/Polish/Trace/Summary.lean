import Polish.Instant
import Polish.Trace

/-!
# Trace summaries

A summary counts the events of a trace: completed statements, assignments by name, printed values,
machine instructions by mnemonic, the greatest stack depth, and how long the run took. Lines that
are no events are skipped.

* `Summary`, `Summary.ofText`
* `Summary.toJson`, `Summary.render`: the summary for machines and for humans.
-/

namespace Polish

/-- What a trace says about a run. -/
structure Summary where
  runId : Bytes
  totalEvents : Nat
  statements : Nat
  assignments : NameMap Nat
  prints : List Int64
  machineSteps : Nat
  opsByName : NameMap Nat
  maxDepth : Int
  startTime : Bytes
  endTime : Bytes
deriving DecidableEq, Repr

namespace Summary

/-- The summary of an empty trace. -/
def blank : Summary := ⟨[], 0, 0, .empty, [], 0, .empty, 0, [], []⟩

/-- Counts a name once more. -/
def count (tally : NameMap Nat) (name : Bytes) : NameMap Nat :=
  tally.put name ((tally.get? name).getD 0 + 1)

/-- A value of an event; nothing if it has none. -/
def detail (e : TraceEntry) (name : Bytes) : Bytes := (e.data.get? name).getD []

/-- Takes a completed statement into account. -/
def addStatement (s : Summary) (e : TraceEntry) : Summary :=
  let s := { s with statements := s.statements + 1 }
  match e.data.get? "name" with
  | some name => { s with assignments := count s.assignments name }
  | none =>
    match Decimal.readInt64? (detail e "value") with
    | some v => { s with prints := s.prints ++ [v] }
    | none => s

/-- Takes a machine instruction into account. It extends the run. -/
def addStep (s : Summary) (e : TraceEntry) : Summary :=
  let ops := match (detail e "instr").fields with
    | [] => s.opsByName
    | name :: _ => count s.opsByName name
  let depth := match Decimal.readInt64? (detail e "depth") with
    | some d => max s.maxDepth d.toInt
    | none => s.maxDepth
  { s with machineSteps := s.machineSteps + 1, opsByName := ops, maxDepth := depth,
           endTime := e.time }

/-- Takes an event into account. -/
def add (s : Summary) (e : TraceEntry) : Summary :=
  let s := { s with totalEvents := s.totalEvents + 1,
                    runId := if s.runId.isEmpty then e.runId else s.runId }
  if e.kind = EventKind.runStart.name then
    { s with startTime := if s.startTime.isEmpty then e.time else s.startTime }
  else if e.kind = EventKind.runEnd.name then { s with endTime := e.time }
  else if e.kind = EventKind.stmtEnd.name then s.addStatement e
  else if e.kind = EventKind.machineStep.name then s.addStep e
  else s

/-- Takes a line into account. -/
def addLine (s : Summary) (line : Bytes) : Summary :=
  let line := line.trim
  if line.isEmpty then s
  else match TraceEntry.ofLine? line with
    | some e => s.add e
    | none => s

/-- The summary of a trace. -/
def ofText (text : Bytes) : Summary := (Line.readable text).foldl addLine blank

/-- How long the run took, in milliseconds; 0 if its times are unknown. -/
def duration (s : Summary) : Int :=
  match Instant.parse? s.startTime, Instant.parse? s.endTime with
  | some start, some stop => Instant.milliseconds start stop
  | _, _ => 0

/-! ### Showing -/

/-- Counts as a JSON object. -/
def tallyJson (tally : NameMap Nat) : Json :=
  .obj (tally.entries.map fun (name, n) => (name, .int n))

/-- Printed values as JSON; null if there are none. -/
def printsJson : List Int64 → Json
  | [] => .null
  | vs => .arr (vs.map fun v => .int v.toInt)

/-- A time, if it is known. -/
def timeMember (name time : Bytes) : Option (Bytes × Json) :=
  if time.isEmpty then none else some (name, .str time)

/-- The summary as JSON. -/
def toJson (s : Summary) : Json :=
  let members : List (Option (Bytes × Json)) :=
    [some ("runId", .str s.runId), some ("totalEvents", .int s.totalEvents),
      some ("statements", .int s.statements), some ("assignments", tallyJson s.assignments),
      some ("prints", printsJson s.prints), some ("machineSteps", .int s.machineSteps),
      some ("opsByName", tallyJson s.opsByName), some ("maxDepth", .int s.maxDepth),
      timeMember "startTime" s.startTime, timeMember "endTime" s.endTime,
      some ("durationMs", .int s.duration)]
  .obj (members.filterMap id)

/-- Numbers between brackets. -/
def showNumbers (vs : List Int64) : Bytes := "[" ++ Bytes.join " " (vs.map Decimal.ofInt64) ++ "]"

/-- A line for a name that was assigned. -/
def assignmentLine (entry : Bytes × Nat) : Bytes :=
  "  " ++ entry.1 ++ " assigned " ++ Decimal.ofNat entry.2 ++ " times\n"

/-- A line for a mnemonic. -/
def opLine (entry : Bytes × Nat) : Bytes := "  " ++ entry.1 ++ ": " ++ Decimal.ofNat entry.2 ++ "\n"

/-- The summary as text. -/
def render (s : Summary) : Bytes :=
  "Run: " ++ s.runId ++ "\n" ++ "Events: " ++ Decimal.ofNat s.totalEvents ++ "\n"
    ++ "Statements: " ++ Decimal.ofNat s.statements ++ "\n"
    ++ s.assignments.entries.flatMap assignmentLine
    ++ "Prints: " ++ showNumbers s.prints ++ "\n"
    ++ "Machine: " ++ Decimal.ofNat s.machineSteps ++ " steps, max stack depth "
    ++ Decimal.ofInt s.maxDepth ++ "\n"
    ++ s.opsByName.entries.flatMap opLine
    ++ if 0 < s.duration then "Duration: " ++ Decimal.ofInt s.duration ++ "ms\n" else []

end Summary

end Polish
