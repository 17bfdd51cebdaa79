import Polish.Diagnostic

/-!
# What happens to an error on its way up

An error starts as a diagnostic. Whoever passes it on may wrap it in a message, say where it
happened, or add a hint. A place can be given to the diagnostic inside any wrapping, which drops the
wrapping, or only to an error that is itself a diagnostic; a hint is added in the second way only.

* `Diagnostic.raised`: a new diagnostic, with a place or without one.
* `Decoration`, `Decoration.apply`: one step on the way.
* `Report.decorated`: the error after some steps.
-/

namespace Polish

/-- A new diagnostic. The zero span is no place. -/
def Diagnostic.raised (code message : Bytes) (value? : Option Value) (place? : Option Span) :
    Diagnostic :=
  let d : Diagnostic := ⟨code, message, value?, none, []⟩
  match place? with
  | none => d
  | some span => d.locate span

/-- A step of an error on its way up. -/
inductive Decoration where
  /-- Wraps the error in a message. -/
  | wrap (text : Bytes)
  /-- Gives a place to the diagnostic inside. -/
  | locate (span : Span)
  /-- Gives a place to an error that is itself a diagnostic. -/
  | place (span : Span)
  /-- Gives a hint to an error that is itself a diagnostic. -/
  | advise (hint : Bytes)
deriving DecidableEq, Repr

/-- The error after the step. -/
def Decoration.apply : Decoration → Report → Report
  | wrap text, r => .wrapped text r
  | locate span, r => r.locate span
  | place span, r => r.mapDiagnostic (·.locate span)
  | advise hint, r => r.mapDiagnostic (·.withHint hint)

/-- The error after some steps, in order. -/
def Report.decorated (r : Report) (steps : List Decoration) : Report :=
  steps.foldl (fun r step => step.apply r) r

end Polish
