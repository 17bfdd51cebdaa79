import Polish.Diagnostic.Render
import Polish.Json.Reader
import Polish.Workbench

/-!
# Traces

A trace is a text with one event a line, each a JSON object: its time, the run it belongs to, its
kind, its place and named details. Reading is generous: keys are matched without regard to case,
unknown keys are skipped, and of repeated keys the last one counts; but a value of the wrong sort
makes the line no event.

* `Notice.traceLine`: the line of a report.
* `TraceEntry`, `TraceEntry.ofLine?`: the event on a line.
-/

namespace Polish

/-! ### Writing -/

/-- The line of an event. -/
def Event.traceLine (time : Bytes) (e : Event) : Bytes :=
  let members : List (Option (Bytes × Json)) :=
    [some ("ts", .str time), some ("runId", .str e.runId), some ("event", .str e.kind.name),
      e.span.map fun s => ("span", s.toJson),
      if e.data.isEmpty then none
      else some ("data", .obj (e.data.map fun (k, v) => (k, .str v)))]
  (Json.obj (members.filterMap id)).render ++ "\n"

/-- An executed instruction as an event. -/
def StepEvent.toEvent (runId : Bytes) (e : StepEvent) : Event :=
  ⟨.machineStep, runId, none, [("depth", Decimal.ofNat e.depth), ("instr", e.instr.text),
    ("pc", Decimal.ofNat e.pc)]⟩

/-- The line of a report. -/
def Notice.traceLine (time runId : Bytes) : Notice → Bytes
  | event e => e.traceLine time
  | step e => (e.toEvent runId).traceLine time

/-! ### Reading -/

/-- An event as read from a trace. -/
structure TraceEntry where
  time : Bytes
  runId : Bytes
  kind : Bytes
  data : NameMap Bytes
deriving DecidableEq, Repr

namespace TraceEntry

/-- An event that says nothing. -/
def blank : TraceEntry := ⟨[], [], [], .empty⟩

/-- A letter without regard to case; the long s and the Kelvin sign count as letters. -/
def foldChar (c : Char) : Char :=
  if c = '\u017F' then 'S'
  else if c = '\u212A' then 'K'
  else if 'a' ≤ c ∧ c ≤ 'z' then Char.ofNat (c.toNat - 0x20)
  else c

/-- Is the key the name, without regard to case? -/
def matchesKey (name key : Bytes) : Bool :=
  name.chars.map foldChar == key.chars.map foldChar

/-- A text, or the value so far for null. -/
def text? (before : Bytes) : Json → Option Bytes
  | .str t => some t
  | .null => some before
  | _ => none

/-- Is it a text or null? -/
def isText : Json → Bool
  | .str _ | .null => true
  | _ => false

/-- Is it null or an integer of 64 bits? -/
def isCount : Json → Bool
  | .null => true
  | .num literal => (Decimal.readInt64? literal).isSome
  | _ => false

/-- The names of the numbers in a place. -/
def countNames : List Bytes := ["startLine", "startCol", "endLine", "endCol"]

/-- Is the member one that a place may have? -/
def isSpanMember (m : Bytes × Json) : Bool :=
  if matchesKey "file" m.1 then isText m.2
  else if countNames.any (matchesKey · m.1) then isCount m.2
  else true

/-- Is it null or a place? -/
def isSpan : Json → Bool
  | .null => true
  | .obj members => members.all isSpanMember
  | _ => false

/-- Details added to those so far; null forgets them. -/
def details? (before : NameMap Bytes) : Json → Option (NameMap Bytes)
  | .null => some .empty
  | .obj members => members.foldlM (fun d m => (text? [] m.2).map (d.put m.1)) before
  | _ => none

/-- The event with one more member. -/
def addMember (e : TraceEntry) (m : Bytes × Json) : Option TraceEntry :=
  if matchesKey "ts" m.1 then (text? e.time m.2).map fun t => { e with time := t }
  else if matchesKey "runId" m.1 then (text? e.runId m.2).map fun t => { e with runId := t }
  else if matchesKey "event" m.1 then (text? e.kind m.2).map fun t => { e with kind := t }
  else if matchesKey "span" m.1 then if isSpan m.2 then some e else none
  else if matchesKey "data" m.1 then (details? e.data m.2).map fun d => { e with data := d }
  else some e

/-- The event of a value. -/
def ofJson? : Json → Option TraceEntry
  | .null => some blank
  | .obj members => members.foldlM addMember blank
  | _ => none

/-- The event on a line. -/
def ofLine? (line : Bytes) : Option TraceEntry := Json.parse? line >>= ofJson?

end TraceEntry

end Polish
