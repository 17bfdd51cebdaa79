import Polish.Fault

/-!
# Diagnostics

A diagnostic is what the user is told about a failure: a code, a message, the offending value, the
place and a hint. Errors of other origin are plain texts, and an error may be wrapped in a longer
message; the diagnostic inside is found through any wrapping.

* `Diagnostic`, `Failure.toDiagnostic`
* `Report`: a diagnostic, a plain error, or an error wrapped in a message.
* `Report.diagnostic?`, `Report.code`, `Report.toDiagnostic`: what an error tells.
* `Report.locate`: adds a place to the diagnostic inside.
-/

namespace Polish

/-- What the user is told about a failure. -/
structure Diagnostic where
  code : Bytes
  message : Bytes
  value? : Option Value
  span : Option Span
  hint : Bytes
deriving DecidableEq, Repr

namespace Diagnostic

/-- The message with the offending value. -/
def text (d : Diagnostic) : Bytes :=
  match d.value? with
  | some v => d.message ++ ": " ++ v.render
  | none => d.message

/-- Adds a place, unless one is known or the span says nothing. -/
def locate (span : Span) (d : Diagnostic) : Diagnostic :=
  match d.span with
  | some _ => d
  | none => { d with span := span.toOption }

/-- Replaces the hint. -/
def withHint (hint : Bytes) (d : Diagnostic) : Diagnostic := { d with hint := hint }

end Diagnostic

/-- The diagnostic of a failure. -/
def Failure.toDiagnostic (f : Failure) : Diagnostic :=
  ⟨f.fault.code.name, f.fault.message, f.fault.value?, f.span, f.fault.hint⟩

/-- An error on its way to the user. -/
inductive Report where
  | diagnostic (d : Diagnostic)
  | plain (text : Bytes)
  | wrapped (text : Bytes) (inner : Report)
deriving DecidableEq, Repr

namespace Report

/-- The text of the error. -/
def text : Report → Bytes
  | diagnostic d => d.text
  | plain t => t
  | wrapped t inner => t ++ ": " ++ inner.text

/-- The diagnostic inside. -/
def diagnostic? : Report → Option Diagnostic
  | diagnostic d => some d
  | plain _ => none
  | wrapped _ inner => inner.diagnostic?

/-- The code of the diagnostic inside, or nothing. -/
def code (r : Report) : Bytes :=
  match r.diagnostic? with
  | some d => d.code
  | none => []

/-- The diagnostic inside, or one made from the text with a fallback code. -/
def toDiagnostic (fallback : Bytes) (r : Report) : Diagnostic :=
  match r.diagnostic? with
  | some d => d
  | none => ⟨fallback, r.text, none, none, []⟩

/-- The diagnostic inside with a place added; wrapping around it is dropped. An error without a
diagnostic stays as it is. -/
def locate (span : Span) (r : Report) : Report :=
  match r.diagnostic? with
  | some d => diagnostic (d.locate span)
  | none => r

/-- Changes the error if it is itself a diagnostic. -/
def mapDiagnostic (f : Diagnostic → Diagnostic) : Report → Report
  | diagnostic d => diagnostic (f d)
  | r => r

end Report

end Polish
