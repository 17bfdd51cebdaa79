import Polish.Diagnostic
import Polish.Json.Writer

/-!
# Showing diagnostics

Diagnostics are shown as JSON, or as text for humans. The text form exists twice: as one string for
a list of diagnostics, and as the lines a printer writes, which may be coloured.

* `Diagnostic.toJson`, `Diagnostic.jsonAll`
* `Diagnostic.pretty`, `Diagnostic.prettyAll`
* `Printer`, `Printer.print`, `Printer.printReport`
-/

namespace Polish

/-- A span as JSON. -/
def Span.toJson (s : Span) : Json :=
  .obj [("file", .str s.file), ("startLine", .int s.startLine), ("startCol", .int s.startCol),
    ("endLine", .int s.endLine), ("endCol", .int s.endCol)]

/-- An offending value as JSON. -/
def Value.toJson : Value → Json
  | text t => .str t
  | number n => .int n.toInt
  | opcode n => .int n
  | flag b => .bool b

/-- The place where a span starts. -/
def Span.place (s : Span) : Bytes :=
  s.file ++ ":" ++ Decimal.ofInt s.startLine ++ ":" ++ Decimal.ofInt s.startCol

namespace Diagnostic

/-! ### JSON -/

/-- The hint, if there is one. -/
def hint? (d : Diagnostic) : Option Bytes := if d.hint.isEmpty then none else some d.hint

/-- The diagnostic as JSON; a missing value, place or hint is left out. -/
def toJson (d : Diagnostic) : Json :=
  let members : List (Option (Bytes × Json)) :=
    [some ("code", .str d.code), some ("message", .str d.message),
      d.value?.map fun v => ("value", v.toJson), d.span.map fun s => ("span", s.toJson),
      d.hint?.map fun h => ("hint", .str h)]
  .obj (members.filterMap id)

/-- Diagnostics as JSON. No diagnostics at all are written as null. -/
def jsonAll : List Diagnostic → Json
  | [] => .null
  | ds => .arr (ds.map toJson)

/-! ### Text -/

/-- The diagnostic as text of one to three lines. -/
def pretty (d : Diagnostic) : Bytes :=
  let head := "error[" ++ d.code ++ "]: " ++ d.message
  let head := match d.value? with
    | some v => head ++ " (" ++ v.render ++ ")"
    | none => head
  let head := match d.span with
    | some s => head ++ "\n  --> " ++ s.place
    | none => head
  if d.hint.isEmpty then head else head ++ "\n  hint: " ++ d.hint

/-- Diagnostics as text, with a blank line between neighbours. -/
def prettyAll (ds : List Diagnostic) : Bytes := Bytes.join "\n\n" (ds.map pretty)

end Diagnostic

/-! ### The printer -/

/-- How diagnostics are written. Only text is coloured. -/
structure Printer where
  pretty : Bool
  colored : Bool
deriving DecidableEq, Repr

namespace Printer

/-- The text in a colour, if colours are wanted. -/
def paint (p : Printer) (colour text : Bytes) : Bytes :=
  if p.colored then "\x1b[" ++ colour ++ "m" ++ text ++ "\x1b[0m" else text

/-- The lines of one diagnostic. -/
def block (p : Printer) (d : Diagnostic) : Bytes :=
  let head := p.paint "31;1" ("error[" ++ d.code ++ "]") ++ ": " ++ d.message
  let value : Bytes := match d.value? with
    | some v => " (" ++ v.render ++ ")"
    | none => []
  let place : Bytes := match d.span with
    | some s => "  --> " ++ p.paint "36" s.place ++ "\n"
    | none => []
  let hint : Bytes :=
    if d.hint.isEmpty then [] else "  " ++ p.paint "33" "hint:" ++ " " ++ d.hint ++ "\n"
  head ++ value ++ "\n" ++ place ++ hint

/-- The blocks of diagnostics, with a blank line before each but the first. -/
def blocks (p : Printer) : List Diagnostic → Bytes
  | [] => []
  | d :: ds => p.block d ++ ds.flatMap fun d => Bytes.newline :: p.block d

/-- What is written for diagnostics. -/
def print (p : Printer) (ds : List Diagnostic) : Bytes :=
  if p.pretty then p.blocks ds else (Diagnostic.jsonAll ds).render ++ "\n"

/-- What is written for an error. -/
def printReport (p : Printer) (fallback : Bytes) (r : Report) : Bytes :=
  p.print [r.toDiagnostic fallback]

end Printer

end Polish
