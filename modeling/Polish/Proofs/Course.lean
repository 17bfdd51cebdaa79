import Polish.Eval
import Polish.Proofs.Simulation

/-!
# The course of a run

A run goes through the statements of its tree in order. Each statement it starts it either completes
or fails at, and it looks for a cancellation only between two statements. So whatever stops a run,
what it leaves is the work of the statements it completed.

* `Action.course`: what the statements compute if nobody stops them: the values of those that
  complete, and the failure of the one that does not.
* `Progress.after`: the state once some statements have completed with some values.
* `Action.execAll_leaves`: a tree runs as the list of its statements.
* `Action.execAll_of_course`: statements that complete, in a run that may start them all, lead to
  the state after them. The invariant is `RunInfo.IsRegular`: between two statements a watcher has
  seen the start of the run and two events for each statement.
-/

namespace Polish

/-! ### What a statement computes -/

namespace Action

/-- An assignment or a print. -/
def IsStatement : Action → Prop
  | assign _ _ _ | print _ _ => True
  | missing | seq _ _ => False

/-- The value that a statement stores or prints, or why it fails. A failure that has no place of its
own is placed at the statement. -/
def value (store : Store) : Action → Except Failure Int64
  | assign span _ e | print span e => (e.eval store).mapError (·.locate span)
  | missing | seq _ _ => .error (.ofFault .missingStatement)

/-- The table after a statement with this value. -/
def settle (v : Int64) : Action → Store → Store
  | assign _ target _, store => store.put target v
  | print _ _, store | missing, store | seq _ _, store => store

/-- What a statement with this value prints. -/
def printed (v : Int64) : Action → List Int64
  | print _ _ => [v]
  | assign _ _ _ | missing | seq _ _ => []

/-- What is reported about the end of a statement with this value. -/
def details (v : Int64) : Action → List (Bytes × Bytes)
  | assign _ target _ => [("name", target), ("value", Decimal.ofInt64 v)]
  | print _ _ => [("value", Decimal.ofInt64 v)]
  | missing | seq _ _ => []

/-- The report that a statement starts. -/
def startEvent (runId : Bytes) (a : Action) : Event :=
  ⟨.stmtStart, runId, a.span.toOption, [("kind", a.sort)]⟩

/-- The report that a statement has ended with a value. -/
def endEvent (runId : Bytes) (a : Action) (v : Int64) : Event :=
  ⟨.stmtEnd, runId, a.span.toOption, a.details v⟩

end Action

/-! ### What a list of statements computes -/

/-- How statements go if nobody stops them. -/
structure Course where
  /-- The values of the statements before the first that fails. -/
  values : List Int64
  /-- Why that one fails, if there is one. -/
  failure : Option Failure
deriving DecidableEq

/-- How statements go on a table if nobody stops them. -/
def Action.course (store : Store) : List Action → Course
  | [] => ⟨[], none⟩
  | a :: as =>
    match a.value store with
    | .error f => ⟨[], some f⟩
    | .ok v =>
      let rest := course (a.settle v store) as
      ⟨v :: rest.values, rest.failure⟩

/-- Statements that have completed, each with its value. -/
abbrev Steps := List (Action × Int64)

namespace Steps

/-- The table after the statements. -/
def settle (steps : Steps) (store : Store) : Store :=
  steps.foldl (fun store step => step.1.settle step.2 store) store

/-- What the statements print. -/
def printed (steps : Steps) : List Int64 := steps.flatMap fun step => step.1.printed step.2

/-- The reports on the statements. -/
def events (runId : Bytes) (steps : Steps) : List Event :=
  steps.flatMap fun step => [step.1.startEvent runId, step.1.endEvent runId step.2]

theorem length_events (runId : Bytes) (steps : Steps) :
    (events runId steps).length = 2 * steps.length := by
  induction steps with
  | nil => rfl
  | cons step steps ih =>
    show (events runId steps).length + 2 = 2 * (steps.length + 1)
    omega

end Steps

namespace Action

variable {store : Store} {a : Action} {as : List Action}

theorem course_cons_of_error {f : Failure} (h : a.value store = .error f) :
    course store (a :: as) = ⟨[], some f⟩ := by
  rw [course, h]

theorem course_cons_of_ok {v : Int64} (h : a.value store = .ok v) :
    course store (a :: as) = ⟨v :: (course (a.settle v store) as).values,
      (course (a.settle v store) as).failure⟩ := by
  rw [course, h]

/-- All statements complete when the first one does and the others do after it. -/
theorem course_cons_eq_none {vs : List Int64} :
    course store (a :: as) = ⟨vs, none⟩ ↔
      ∃ v rest, vs = v :: rest ∧ a.value store = .ok v ∧
        course (a.settle v store) as = ⟨rest, none⟩ := by
  cases hvalue : a.value store with
  | error f => simp [course_cons_of_error hvalue]
  | ok v =>
    rw [course_cons_of_ok hvalue]
    cases hcourse : course (a.settle v store) as with
    | mk values failure =>
      constructor
      · intro h
        cases h
        exact ⟨v, values, rfl, rfl, hcourse⟩
      · rintro ⟨w, rest, rfl, hw, hrest⟩
        cases hw
        rw [hcourse] at hrest
        cases hrest
        rfl

theorem length_values_le (store : Store) (as : List Action) :
    (course store as).values.length ≤ as.length := by
  induction as generalizing store with
  | nil => exact Nat.le_refl 0
  | cons a as ih =>
    cases hvalue : a.value store with
    | error f =>
      rw [course_cons_of_error hvalue]
      exact Nat.zero_le _
    | ok v =>
      rw [course_cons_of_ok hvalue]
      exact Nat.succ_le_succ (ih (a.settle v store))

/-- After the statements that complete comes the one that fails, or nothing. -/
theorem course_next (store : Store) (as : List Action) :
    match (course store as).failure with
    | none => (course store as).values.length = as.length
    | some f => ∃ a, as[(course store as).values.length]? = some a ∧
        a.value (Steps.settle (as.zip (course store as).values) store) = .error f := by
  induction as generalizing store with
  | nil => rfl
  | cons a as ih =>
    cases hvalue : a.value store with
    | error f =>
      rw [course_cons_of_error hvalue]
      exact ⟨a, rfl, hvalue⟩
    | ok v =>
      have hrest := ih (a.settle v store)
      rw [course_cons_of_ok hvalue]
      cases hf : (course (a.settle v store) as).failure with
      | none =>
        rw [hf] at hrest
        exact congrArg (· + 1) hrest
      | some f =>
        rw [hf] at hrest
        exact hrest

/-- The statements before the first that fails complete, up to any of them. -/
theorem course_take {m : Nat} (hm : m ≤ (course store as).values.length) :
    course store (as.take m) = ⟨(course store as).values.take m, none⟩ := by
  induction as generalizing store m with
  | nil =>
    rw [List.take_nil]
    simp [course]
  | cons a as ih =>
    cases m with
    | zero => rfl
    | succ m =>
      cases hvalue : a.value store with
      | error f =>
        rw [course_cons_of_error hvalue] at hm
        exact absurd hm (Nat.not_succ_le_zero m)
      | ok v =>
        rw [course_cons_of_ok hvalue] at hm ⊢
        rw [List.take_succ_cons, List.take_succ_cons]
        exact course_cons_eq_none.mpr ⟨v, _, rfl, hvalue, ih (Nat.le_of_succ_le_succ hm)⟩

end Action

/-! ### The state after some statements -/

/-- What of these reports is made. -/
def RunInfo.seen (info : RunInfo) (events : List Event) : List Event :=
  if info.watch.traced then events else []

@[simp] theorem RunInfo.seen_append (info : RunInfo) (xs ys : List Event) :
    info.seen (xs ++ ys) = info.seen xs ++ info.seen ys := by
  unfold seen
  split <;> rfl

namespace Progress

theorem report_eq (info : RunInfo) (kind : EventKind) (span : Span)
    (data : List (Bytes × Bytes)) (s : Progress) :
    s.report info kind span data
      = { s with events := s.events ++ info.seen [⟨kind, info.runId, span.toOption, data⟩] } := by
  unfold report RunInfo.seen
  split
  · rfl
  · rw [List.append_nil]

/-- The state once statements have completed. -/
def after (info : RunInfo) (steps : Steps) (s : Progress) : Progress where
  store := steps.settle s.store
  prints := s.prints ++ steps.printed
  events := s.events ++ info.seen (steps.events info.runId)

/-- The state once a statement has started. -/
def begun (info : RunInfo) (a : Action) (s : Progress) : Progress :=
  { s with events := s.events ++ info.seen [a.startEvent info.runId] }

@[simp] theorem after_nil (info : RunInfo) (s : Progress) : s.after info [] = s := by
  have hseen : info.seen [] = [] := by
    unfold RunInfo.seen
    split <;> rfl
  simp [after, Steps.settle, Steps.printed, Steps.events, hseen]

theorem after_singleton (info : RunInfo) (a : Action) (v : Int64) (s : Progress) :
    s.after info [(a, v)] = ⟨a.settle v s.store, s.prints ++ a.printed v,
      s.events ++ info.seen [a.startEvent info.runId, a.endEvent info.runId v]⟩ := by
  have hprinted : Steps.printed [(a, v)] = a.printed v := List.append_nil _
  rw [after, hprinted]
  rfl

theorem after_cons (info : RunInfo) (step : Action × Int64) (steps : Steps) (s : Progress) :
    s.after info (step :: steps) = (s.after info [step]).after info steps := by
  have hevents : Steps.events info.runId (step :: steps)
      = Steps.events info.runId [step] ++ Steps.events info.runId steps := rfl
  have hprinted : Steps.printed (step :: steps) = Steps.printed [step] ++ Steps.printed steps := by
    simp [Steps.printed]
  simp only [after, hevents, hprinted, RunInfo.seen_append, List.append_assoc]
  rfl

end Progress

namespace Action

variable {info : RunInfo}

/-- The run of a statement, by its expression: a failure without a place gets that of the
statement. -/
theorem runStatement_eq {sort : Bytes} {span : Span} {e : Expr}
    {effect : Int64 → Progress → Progress} {data : Int64 → List (Bytes × Bytes)} (s : Progress) :
    runStatement info sort span e effect data s =
      if info.watch.canceled s.events.length then .error ⟨s, .ofFault .canceled⟩
      else
        let started := s.report info .stmtStart span [("kind", sort)]
        match (e.eval s.store).mapError (·.locate span) with
        | .error f => .error ⟨started, f⟩
        | .ok v => .ok ((effect v started).report info .stmtEnd span (data v)) := by
  simp only [runStatement, Progress.report_store]
  cases e.eval s.store <;> rfl

/-- What one statement does: nothing in a canceled run; else it starts, and then it fails or
completes. -/
theorem exec_statement {a : Action} (ha : a.IsStatement) (s : Progress) :
    a.exec info s =
      if info.watch.canceled s.events.length then .error ⟨s, .ofFault .canceled⟩
      else match a.value s.store with
        | .error f => .error ⟨s.begun info a, f⟩
        | .ok v => .ok (s.after info [(a, v)]) := by
  -- the reports at the start and at the end of a statement make one list
  have hreports : ∀ x y : Event, s.events ++ info.seen [x] ++ info.seen [y]
      = s.events ++ info.seen [x, y] := by
    intro x y
    rw [List.append_assoc, ← RunInfo.seen_append]
    rfl
  cases a with
  | missing | seq => exact ha.elim
  | assign span target e =>
    have hprints : ∀ v, s.prints ++ (assign span target e).printed v = s.prints := fun v =>
      List.append_nil s.prints
    rw [exec, runStatement_eq]
    simp only [value, Progress.report_eq, Progress.assign, hreports, Progress.after_singleton,
      hprints]
    split
    · rfl
    · cases (e.eval s.store).mapError (·.locate span) with
      | error f => rfl
      | ok v => rfl
  | print span e =>
    rw [exec, runStatement_eq]
    simp only [value, Progress.report_eq, Progress.print, hreports, Progress.after_singleton]
    split
    · rfl
    · cases (e.eval s.store).mapError (·.locate span) with
      | error f => rfl
      | ok v => rfl

/-! ### A tree runs as the list of its statements -/

theorem execAll_append (as bs : List Action) (s : Progress) :
    execAll info (as ++ bs) s = (execAll info as s >>= execAll info bs) := by
  induction as generalizing s with
  | nil => rfl
  | cons a as ih =>
    rw [List.cons_append, execAll, execAll]
    cases a.exec info s with
    | error halted => rfl
    | ok s' => exact ih s'

theorem execAll_singleton (a : Action) (s : Progress) : execAll info [a] s = a.exec info s := by
  rw [execAll]
  cases a.exec info s <;> rfl

mutual

/-- A tree runs as the list of its statements. -/
theorem execAll_leaves : ∀ (a : Action) (s : Progress), execAll info a.leaves s = a.exec info s
  | missing, s | assign _ _ _, s | print _ _, s => execAll_singleton _ s
  | seq _ as, s => by
    rw [leaves, exec]
    exact execAll_leavesAll as s

/-- Trees run as the list of their statements. -/
theorem execAll_leavesAll : ∀ (as : List Action) (s : Progress),
    execAll info (leavesAll as) s = execAll info as s
  | [], _ => rfl
  | a :: as, s => by
    rw [leavesAll, execAll_append, execAll_leaves a s, execAll]
    cases a.exec info s with
    | error halted => rfl
    | ok s' => exact execAll_leavesAll as s'

end

mutual

/-- No statement of a tree is a sequence. -/
theorem isStatement_of_mem_leaves : ∀ (a : Action) {b : Action}, b ∈ a.leaves → b ≠ missing →
    b.IsStatement
  | missing, b, hb, hne => absurd (List.mem_singleton.mp hb) hne
  | assign _ _ _, b, hb, _ | print _ _, b, hb, _ => by
    rw [List.mem_singleton.mp hb]
    trivial
  | seq _ as, b, hb, hne => isStatement_of_mem_leavesAll as hb hne

theorem isStatement_of_mem_leavesAll : ∀ (as : List Action) {b : Action}, b ∈ leavesAll as →
    b ≠ missing → b.IsStatement
  | a :: as, b, hb, hne => by
    rw [leavesAll, List.mem_append] at hb
    rcases hb with hb | hb
    · exact isStatement_of_mem_leaves a hb hne
    · exact isStatement_of_mem_leavesAll as hb hne

end

end Action

/-! ### How many statements a run may start -/

namespace Watch

/-- How many more statements a run may start once so many reports have been made; there may be no
limit. The first report is that of the start of the run, and each statement makes two. -/
def budget (w : Watch) (reports : Nat) : Option Nat :=
  w.cancelAt.map fun c => c / 2 - reports / 2

end Watch

/-- What holds between two statements: a watcher has seen the start of the run and two reports for
each statement, or the reports do not matter. -/
def RunInfo.IsRegular (info : RunInfo) (reports : Nat) : Prop :=
  info.watch.IsSteady ∨ info.watch.traced = true ∧ reports % 2 = 1

namespace RunInfo.IsRegular

variable {info : RunInfo} {reports : Nat}

/-- Between two statements, a run is canceled exactly when it may start no more of them. -/
theorem canceled_iff (h : info.IsRegular reports) :
    info.watch.canceled reports = true ↔ info.watch.budget reports = some 0 := by
  unfold Watch.canceled Watch.budget
  rcases h with (hnone | hzero) | ⟨-, hodd⟩
  · simp [hnone]
  · simp [hzero]
  · cases info.watch.cancelAt with
    | none => simp
    | some c =>
      simp only [decide_eq_true_eq, Option.map_some, Option.some.injEq]
      omega

/-- What a statement leaves to the statements after it. -/
theorem after (s : Progress) (h : info.IsRegular s.events.length) (step : Action × Int64) :
    info.IsRegular (s.after info [step]).events.length ∧
      info.watch.budget (s.after info [step]).events.length
        = (info.watch.budget s.events.length).map (· - 1) := by
  have hlength : (s.after info [step]).events.length
      = s.events.length + if info.watch.traced then 2 else 0 := by
    rw [Progress.after, List.length_append, RunInfo.seen]
    split
    · rw [Steps.length_events]
      rfl
    · rfl
  rw [hlength, Watch.budget, Watch.budget, Option.map_map]
  rcases h with hsteady | ⟨htraced, hodd⟩
  · refine ⟨.inl hsteady, ?_⟩
    rcases hsteady with hnone | hzero
    · rw [hnone]
      rfl
    · simp [hzero]
  · rw [if_pos htraced]
    refine ⟨.inr ⟨htraced, by omega⟩, ?_⟩
    congr 1
    funext c
    show c / 2 - (s.events.length + 2) / 2 = c / 2 - s.events.length / 2 - 1
    omega

end RunInfo.IsRegular

namespace Action

variable {info : RunInfo}

/-- **Statements that complete.** If nobody stops the statements and they all have values, the run
reaches the state after them. The induction is on the statements; the run stays regular, and its
budget falls by one for each of them. -/
theorem execAll_of_course {as : List Action} (has : ∀ a ∈ as, a.IsStatement) {s : Progress}
    (hregular : info.IsRegular s.events.length) {vs : List Int64}
    (hcourse : course s.store as = ⟨vs, none⟩)
    (hbudget : ∀ n, info.watch.budget s.events.length = some n → as.length ≤ n) :
    execAll info as s = .ok (s.after info (as.zip vs)) ∧
      info.IsRegular (s.after info (as.zip vs)).events.length ∧
      info.watch.budget (s.after info (as.zip vs)).events.length
        = (info.watch.budget s.events.length).map (· - as.length) := by
  induction as generalizing s vs with
  | nil =>
    rw [List.zip_nil_left, Progress.after_nil]
    refine ⟨rfl, hregular, ?_⟩
    simp
  | cons a as ih =>
    obtain ⟨v, rest, rfl, hvalue, hrest⟩ := course_cons_eq_none.mp hcourse
    obtain ⟨hregular', hbudget'⟩ := hregular.after s (a, v)
    -- this statement starts, since one more may
    have hfree : info.watch.canceled s.events.length = false := by
      rw [Bool.eq_false_iff, ne_eq, hregular.canceled_iff]
      intro hzero
      have hle := hbudget 0 hzero
      rw [List.length_cons] at hle
      omega
    have hexec : a.exec info s = .ok (s.after info [(a, v)]) := by
      rw [exec_statement (has a List.mem_cons_self), hfree, hvalue]
      rfl
    have hsettle : (s.after info [(a, v)]).store = a.settle v s.store := rfl
    rw [← hsettle] at hrest
    obtain ⟨hrun, hregular'', hbudget''⟩ := ih (fun b hb => has b (List.mem_cons_of_mem a hb))
      hregular' hrest (fun n hn => by
        rw [hbudget', Option.map_eq_some_iff] at hn
        obtain ⟨k, hk, rfl⟩ := hn
        have hle := hbudget k hk
        rw [List.length_cons] at hle
        omega)
    rw [List.zip_cons_cons, Progress.after_cons]
    refine ⟨?_, hregular'', ?_⟩
    · rw [execAll, hexec]
      exact hrun
    · rw [hbudget'', hbudget', Option.map_map, List.length_cons]
      congr 1
      funext n
      show n - 1 - as.length = n - (as.length + 1)
      omega

/-- The first statements of a run that may start them complete, and the run goes on from there. -/
theorem execAll_eq_drop {as : List Action} (has : ∀ a ∈ as, a.IsStatement) {s : Progress}
    (hregular : info.IsRegular s.events.length) {m : Nat}
    (hm : m ≤ (course s.store as).values.length)
    (hbudget : ∀ n, info.watch.budget s.events.length = some n → m ≤ n) :
    ∃ s', s' = s.after info ((as.zip (course s.store as).values).take m) ∧
      execAll info as s = execAll info (as.drop m) s' ∧ info.IsRegular s'.events.length ∧
      info.watch.budget s'.events.length
        = (info.watch.budget s.events.length).map (· - m) := by
  have hcount : (as.take m).length = m := by
    have hle := length_values_le s.store as
    rw [List.length_take]
    omega
  have hcourse := course_take hm
  obtain ⟨hrun, hregular', hbudget'⟩ := execAll_of_course
    (fun a ha => has a (List.mem_of_mem_take ha)) hregular hcourse
    (fun n hn => by rw [hcount]; exact hbudget n hn)
  rw [hcount] at hbudget'
  rw [List.zip, List.take_zipWith]
  refine ⟨_, rfl, ?_, hregular', hbudget'⟩
  calc execAll info as s
      = execAll info (as.take m ++ as.drop m) s := by rw [List.take_append_drop]
    _ = (execAll info (as.take m) s >>= execAll info (as.drop m)) := execAll_append _ _ s
    _ = execAll info (as.drop m) (s.after info ((as.take m).zip
          ((course s.store as).values.take m))) := by rw [hrun]; rfl

end Action

end Polish
