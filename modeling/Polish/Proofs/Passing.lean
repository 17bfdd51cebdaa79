import Mathlib.Data.List.Basic
import Polish.Diagnostic.Decoration

/-!
# What an error still tells at the top

However an error is wrapped, located and advised on its way up, the diagnostic it started as is found
in it. One step changes at most two things of that diagnostic: a span given to it becomes its place
if it has none and the span is not zero, and a hint given to it replaces the one before. So over a
whole way the first of the places stays and the last of the hints, and nothing else changes.

Whether a step gives anything depends on the error it meets: one that is wrapped takes a place only
through the wrapping, and no hint.

* `Decoration.span?`, `Decoration.hint?`: what a step gives to the error it meets.
* `Report.meets`, `Report.spansGiven`, `Report.hintsGiven`: what the steps meet and give, one after
  the other.
* `Diagnostic.receive`: a diagnostic after spans and hints were given to it.
* `Report.diagnostic?_apply`, `Report.diagnostic?_decorated`: the diagnostic after one step, and after
  all of them.
* `Decoration.leavesBare`, `Report.isBare_decorated`: when the error is itself a diagnostic.
* `Report.decoration_keeps_the_diagnostic`: what is told at the top.
-/

namespace Polish

/-- Is the error itself a diagnostic, with nothing around it? -/
def Report.isBare : Report → Bool
  | diagnostic _ => true
  | plain _ | wrapped _ _ => false

namespace Decoration

/-- The span that the step gives to the error it meets. -/
def span? (r : Report) : Decoration → Option Span
  | locate span => some span
  | place span => if r.isBare then some span else none
  | wrap _ | advise _ => none

/-- Is the error itself a diagnostic after the step? A wrapping makes it more than that, a place given
through the wrapping makes it a diagnostic again, and the other steps leave it as it was. -/
def leavesBare (bare : Bool) : Decoration → Bool
  | wrap _ => false
  | locate _ => true
  | place _ | advise _ => bare

/-- The hint that the step gives to the error it meets. -/
def hint? (r : Report) : Decoration → Option Bytes
  | advise hint => if r.isBare then some hint else none
  | wrap _ | locate _ | place _ => none

end Decoration

namespace Report

/-- Each step with the error it meets. -/
def meets (r : Report) : List Decoration → List (Report × Decoration)
  | [] => []
  | step :: steps => (r, step) :: (step.apply r).meets steps

/-- The spans given on the way, the first one first. -/
def spansGiven (r : Report) (steps : List Decoration) : List Span :=
  (r.meets steps).filterMap fun m => m.2.span? m.1

/-- The hints given on the way, the first one first. -/
def hintsGiven (r : Report) (steps : List Decoration) : List Bytes :=
  (r.meets steps).filterMap fun m => m.2.hint? m.1

theorem spansGiven_cons (r : Report) (step : Decoration) (steps : List Decoration) :
    r.spansGiven (step :: steps) = (step.span? r).toList ++ (step.apply r).spansGiven steps := by
  rw [spansGiven, meets, List.filterMap_cons]
  cases step.span? r <;> rfl

theorem hintsGiven_cons (r : Report) (step : Decoration) (steps : List Decoration) :
    r.hintsGiven (step :: steps) = (step.hint? r).toList ++ (step.apply r).hintsGiven steps := by
  rw [hintsGiven, meets, List.filterMap_cons]
  cases step.hint? r <;> rfl

end Report

/-! ### What a diagnostic is given -/

/-- The first span that says something. -/
def firstPlace (spans : List Span) : Option Span := spans.find? fun s => !s.isZero

theorem firstPlace_append (xs ys : List Span) :
    firstPlace (xs ++ ys) = (firstPlace xs).or (firstPlace ys) := List.find?_append

theorem firstPlace_singleton (span : Span) : firstPlace [span] = span.toOption := by
  cases h : span.isZero <;> simp [firstPlace, Span.toOption, h]

namespace Diagnostic

/-- The diagnostic after spans and hints were given to it: it keeps a place it has, and its last
hint. -/
def receive (spans : List Span) (hints : List Bytes) (d : Diagnostic) : Diagnostic :=
  { d with span := d.span.or (firstPlace spans), hint := hints.getLast?.getD d.hint }

theorem receive_nil (d : Diagnostic) : d.receive [] [] = d := by
  simp [receive, firstPlace]

theorem receive_append (d : Diagnostic) (spans spans' : List Span) (hints hints' : List Bytes) :
    d.receive (spans ++ spans') (hints ++ hints')
      = (d.receive spans hints).receive spans' hints' := by
  have hhint : (hints ++ hints').getLast?.getD d.hint
      = hints'.getLast?.getD (hints.getLast?.getD d.hint) := by
    rw [List.getLast?_append]
    cases hints'.getLast? <;> rfl
  simp only [receive, firstPlace_append, Option.or_assoc, hhint]

theorem locate_eq_receive (d : Diagnostic) (span : Span) :
    d.locate span = d.receive [span] [] := by
  obtain ⟨code, message, value?, place, hint⟩ := d
  rw [receive, firstPlace_singleton]
  cases place <;> rfl

theorem raised_eq_receive (code message : Bytes) (value? : Option Value) (place? : Option Span) :
    raised code message value? place?
      = receive place?.toList [] ⟨code, message, value?, none, []⟩ := by
  cases place? with
  | none => exact (receive_nil _).symm
  | some span => exact locate_eq_receive ⟨code, message, value?, none, []⟩ span

theorem withHint_eq_receive (d : Diagnostic) (hint : Bytes) :
    d.withHint hint = d.receive [] [hint] := by
  simp [withHint, receive, firstPlace]

end Diagnostic

namespace Report

/-- **One step.** The diagnostic inside receives what the step gives to the error it meets. -/
theorem diagnostic?_apply {r : Report} {d : Diagnostic} (h : r.diagnostic? = some d)
    (step : Decoration) :
    (step.apply r).diagnostic?
      = some (d.receive (step.span? r).toList (step.hint? r).toList) := by
  cases step with
  | wrap text =>
    show r.diagnostic? = some (d.receive [] [])
    rw [Diagnostic.receive_nil, h]
  | locate span =>
    have happly : (Decoration.locate span).apply r = .diagnostic (d.locate span) := by
      simp only [Decoration.apply, locate, h]
    rw [happly, Diagnostic.locate_eq_receive]
    rfl
  | place span =>
    cases r with
    | diagnostic e =>
      cases h
      exact congrArg some (d.locate_eq_receive span)
    | plain text => cases h
    | wrapped text inner =>
      -- the step does not look through the wrapping, so nothing is given
      show inner.diagnostic? = some (d.receive [] [])
      rw [Diagnostic.receive_nil]
      exact h
  | advise hint =>
    cases r with
    | diagnostic e =>
      cases h
      exact congrArg some (d.withHint_eq_receive hint)
    | plain text => cases h
    | wrapped text inner =>
      show inner.diagnostic? = some (d.receive [] [])
      rw [Diagnostic.receive_nil]
      exact h

/-- **All steps.** The diagnostic inside receives everything that is given on the way. -/
theorem diagnostic?_decorated {r : Report} {d : Diagnostic} (h : r.diagnostic? = some d)
    (steps : List Decoration) :
    (r.decorated steps).diagnostic?
      = some (d.receive (r.spansGiven steps) (r.hintsGiven steps)) := by
  induction steps generalizing r d with
  | nil => exact h.trans (congrArg some d.receive_nil.symm)
  | cons step steps ih =>
    rw [spansGiven_cons, hintsGiven_cons, Diagnostic.receive_append]
    exact ih (diagnostic?_apply h step)

/-- **Wrapping and unwrapping.** The steps alone tell whether the error is itself a diagnostic at the
end. -/
theorem isBare_decorated {r : Report} {d : Diagnostic} (h : r.diagnostic? = some d)
    (steps : List Decoration) :
    (r.decorated steps).isBare = steps.foldl Decoration.leavesBare r.isBare := by
  induction steps generalizing r d with
  | nil => rfl
  | cons step steps ih =>
    have hrest := ih (diagnostic?_apply h step)
    rw [List.foldl_cons]
    refine hrest.trans (congrArg (List.foldl Decoration.leavesBare · steps) ?_)
    cases step with
    | wrap text => rfl
    | locate span =>
      -- the one step whose outcome depends on there being a diagnostic inside
      rw [Decoration.apply, locate, h]
      rfl
    | place span => cases r <;> rfl
    | advise hint => cases r <;> rfl

/-! ### What is told at the top -/

theorem toDiagnostic_of_some {r : Report} {d : Diagnostic} (h : r.diagnostic? = some d)
    (fallback : Bytes) : r.toDiagnostic fallback = d := by
  rw [toDiagnostic, h]

theorem code_of_some {r : Report} {d : Diagnostic} (h : r.diagnostic? = some d) :
    r.code = d.code := by
  rw [code, h]

/-- A place is kept whatever is given later. -/
theorem span_decorated_of_some {r : Report} {d : Diagnostic} (h : r.diagnostic? = some d)
    {span : Span} (hspan : d.span = some span) (more : List Decoration) (fallback : Bytes) :
    ((r.decorated more).toDiagnostic fallback).span = some span := by
  rw [toDiagnostic_of_some (diagnostic?_decorated h more), Diagnostic.receive, hspan]
  rfl

/-- **Diagnostics survive decoration.** Take an error that starts as a diagnostic, with a place or
without, and any steps. Its code, message and value are told at the top, and it is never told as an
error of other origin. Its place is the first of the places it was given, at the start or on the way,
and stays from then on. Its hint is the last one it was given. -/
theorem decoration_keeps_the_diagnostic (code message : Bytes) (value? : Option Value)
    (place? : Option Span) (steps : List Decoration) (fallback : Bytes) :
    let start := diagnostic (.raised code message value? place?)
    let r := start.decorated steps
    let d := r.toDiagnostic fallback
    (r.code = code ∧ d.code = code ∧ d.message = message ∧ d.value? = value?) ∧
    (d.span = firstPlace (place?.toList ++ start.spansGiven steps) ∧
      ∀ span more, d.span = some span →
        ((start.decorated (steps ++ more)).toDiagnostic fallback).span = some span) ∧
    d.hint = (start.hintsGiven steps).getLast?.getD [] ∧
    r.diagnostic? = some d := by
  intro start r d
  let bare : Diagnostic := ⟨code, message, value?, none, []⟩
  have hstart : start.diagnostic? = some (bare.receive place?.toList []) :=
    congrArg some (Diagnostic.raised_eq_receive code message value? place?)
  have hr : r.diagnostic?
      = some (bare.receive (place?.toList ++ start.spansGiven steps) (start.hintsGiven steps)) := by
    have hsteps := diagnostic?_decorated hstart steps
    rwa [← Diagnostic.receive_append, List.nil_append] at hsteps
  have hd : d = bare.receive (place?.toList ++ start.spansGiven steps) (start.hintsGiven steps) :=
    toDiagnostic_of_some hr fallback
  rw [hd]
  -- `receive` touches neither code nor message nor value
  refine ⟨⟨code_of_some hr, rfl, rfl, rfl⟩, ⟨rfl, fun span more hspan => ?_⟩, rfl, hr⟩
  rw [decorated, List.foldl_append]
  exact span_decorated_of_some hr hspan more fallback

/-- A wrapped error takes no hint, and the first place it takes is the one given through the
wrapping. -/
example :
    let second : Span := ⟨"f", 1, 2, 1, 3⟩
    let r := (diagnostic (.raised "E_UNBOUND" "variable has no value" (some (.text "x")) none)).decorated
      [.advise "a", .wrap "running", .advise "b", .place ⟨"f", 1, 1, 1, 2⟩, .locate .zero,
        .locate second]
    r = .diagnostic ⟨"E_UNBOUND", "variable has no value", some (.text "x"), some second, "a"⟩ := by
  decide

end Report

end Polish
