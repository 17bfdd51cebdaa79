import Polish.Proofs.Course
import Polish.Proofs.Kinds

/-!
# Where a run stops

A run ends in one of three ways: it is canceled between two statements, a statement fails, or all
statements complete. In each of them it leaves the work of the statements it completed, so a
statement is either done or not begun, whatever else happens.

* `Stops`: the three ways, with what each of them leaves.
* `Action.stops_execAll`: a run of statements ends in one of them.
* `Stops.progress_eq`, `Stops.failure_iff`: what a run leaves, and why it stopped.
* `execute_events`, `execute_completed`: what a watcher sees of a run.
* `execute_stops_between_statements`: a run leaves what its completed statements leave when they are
  run alone.
-/

namespace Polish

namespace Watch

/-- The run is canceled while statements before number `k`, out of `n`, are still to be started. -/
def Interrupts (w : Watch) (k n : Nat) : Prop :=
  ∃ c, w.cancelAt = some c ∧ c / 2 < k ∧ c / 2 < n

/-- The run may start statement number `k`. -/
def Reaches (w : Watch) (k : Nat) : Prop := ∀ c, w.cancelAt = some c → k ≤ c / 2

/-- How many of `n` statements a run may start. -/
def limit (w : Watch) (n : Nat) : Nat :=
  match w.cancelAt with
  | none => n
  | some c => min (c / 2) n

end Watch

/-- The three ways in which a run of statements ends: it is canceled, a statement fails, or all
complete. In each of them the statements before are complete, and nothing else has happened but the
start of the statement that fails. -/
inductive Stops (info : RunInfo) (as : List Action) (s : Progress) (course : Course) :
    Except Halted Progress → Prop where
  | canceled {c : Nat} (hcancel : info.watch.cancelAt = some c)
      (hk : c / 2 < course.values.length + 1) (hn : c / 2 < as.length) :
      Stops info as s course
        (.error ⟨s.after info ((as.zip course.values).take (c / 2)), .ofFault .canceled⟩)
  | failed {a : Action} {f : Failure} (hf : course.failure = some f)
      (ha : as[course.values.length]? = some a)
      (hreach : info.watch.Reaches (course.values.length + 1)) :
      Stops info as s course (.error ⟨(s.after info (as.zip course.values)).begun info a, f⟩)
  | completed (hnone : course.failure = none) (hlength : course.values.length = as.length)
      (hreach : info.watch.Reaches as.length) :
      Stops info as s course (.ok (s.after info (as.zip course.values)))

/-- A run that is not interrupted reaches the statements it is not stopped before. -/
theorem Watch.reaches_of_not_interrupts {w : Watch} {k n i : Nat} (h : ¬ w.Interrupts k n)
    (hk : i ≤ k) (hn : i ≤ n) : w.Reaches i := by
  intro c hc
  apply Nat.le_of_not_lt
  intro hlt
  exact h ⟨c, hc, by omega, by omega⟩

namespace Action

variable {info : RunInfo}

/-- **Where a run of statements stops.** The statements before complete (`execAll_eq_drop`), so only
the next one is to be looked at. -/
theorem stops_execAll {as : List Action} (has : ∀ a ∈ as, a.IsStatement) {s : Progress}
    (hregular : info.IsRegular s.events.length) (hstart : s.events.length / 2 = 0) :
    Stops info as s (course s.store as) (execAll info as s) := by
  have hle := length_values_le s.store as
  have hnext := course_next s.store as
  generalize hcourse : course s.store as = course at *
  have hbudget : info.watch.budget s.events.length = info.watch.cancelAt.map (· / 2) := by
    rw [Watch.budget, hstart]
    rfl
  by_cases hinterrupts : info.watch.Interrupts (course.values.length + 1) as.length
  · obtain ⟨c, hcancel, hk, hn⟩ := hinterrupts
    obtain ⟨s', hs', hrun, hregular', hbudget'⟩ := execAll_eq_drop has hregular (m := c / 2)
      (by rw [hcourse]; omega) (by
        intro n hbn
        rw [hbudget, hcancel] at hbn
        exact Nat.le_of_eq (Option.some.inj hbn))
    -- there is a next statement, but it may not start
    have hcanceled : info.watch.canceled s'.events.length = true := by
      rw [hregular'.canceled_iff, hbudget', hbudget, hcancel]
      simp
    rw [hrun, List.drop_eq_getElem_cons hn, execAll, exec_statement (has _ (List.getElem_mem hn)),
      hcanceled, hs', hcourse]
    exact .canceled hcancel hk hn
  · have hreaches := fun {i : Nat} => Watch.reaches_of_not_interrupts (i := i) hinterrupts
    obtain ⟨s', hs', hrun, hregular', hbudget'⟩ := execAll_eq_drop has hregular
      (m := course.values.length) (Nat.le_of_eq (by rw [hcourse])) (by
        intro n hbn
        rw [hbudget, Option.map_eq_some_iff] at hbn
        obtain ⟨c, hc, rfl⟩ := hbn
        exact hreaches (Nat.le_succ _) hle c hc)
    rw [hcourse, List.take_of_length_le (by rw [List.length_zip]; omega)] at hs'
    rw [hrun]
    cases hf : course.failure with
    | none =>
      rw [hf] at hnext
      rw [hnext, List.drop_length, execAll, hs']
      exact .completed hf hnext (hreaches (by omega) (Nat.le_refl _))
    | some f =>
      rw [hf] at hnext
      obtain ⟨a, ha, hvalue⟩ := hnext
      obtain ⟨hn, hget⟩ := List.getElem?_eq_some_iff.mp ha
      have hreach : info.watch.Reaches (course.values.length + 1) := hreaches (Nat.le_refl _) hn
      -- the statement may start, and fails
      have hfree : info.watch.canceled s'.events.length = false := by
        rw [Bool.eq_false_iff, ne_eq, hregular'.canceled_iff, hbudget', hbudget]
        intro hzero
        rw [Option.map_map, Option.map_eq_some_iff] at hzero
        obtain ⟨c, hc, hzero⟩ := hzero
        have hle := hreach c hc
        simp only [Function.comp_apply] at hzero
        omega
      have hstore : s'.store = Steps.settle (as.zip course.values) s.store := by
        rw [hs']
        rfl
      rw [List.drop_eq_getElem_cons hn, hget, execAll,
        exec_statement (has a (List.mem_of_getElem? ha)), hfree, hstore, hvalue, hs']
      exact .failed hf ha hreach

/-- A statement fails with the failure of an expression. -/
theorem failsWithin_value (store : Store) {a : Action} (ha : a.IsStatement) :
    FailsWithin Code.isEvaluation (a.value store) := by
  have hlocate : ∀ (e : Expr) (span : Span),
      FailsWithin Code.isEvaluation ((e.eval store).mapError (·.locate span)) := by
    intro e span f hf
    cases hev : e.eval store with
    | ok v =>
      rw [hev] at hf
      cases hf
    | error g =>
      rw [hev] at hf
      cases hf
      rw [Failure.code, Failure.locate_fault]
      exact Expr.failsWithin_eval store e g hev
  cases a with
  | missing | seq => exact ha.elim
  | assign span target e => exact hlocate e span
  | print span e => exact hlocate e span

theorem isEvaluation_of_course {store : Store} {as : List Action}
    (has : ∀ a ∈ as, a.IsStatement) {f : Failure} (hf : (course store as).failure = some f) :
    f.code.isEvaluation = true := by
  have hnext := course_next store as
  rw [hf] at hnext
  obtain ⟨a, ha, hvalue⟩ := hnext
  exact failsWithin_value _ (has a (List.mem_of_getElem? ha)) f hvalue

end Action

namespace Stops

variable {info : RunInfo} {as : List Action} {s : Progress} {course : Course}
  {result : Except Halted Progress}

/-- What statements leave: the work of those that were completed, and perhaps the report of one more
start. -/
theorem progress_eq (h : Stops info as s course result) :
    ∃ extra, (Execution.ofExcept result).progress
        = { s.after info ((as.zip course.values).take
              (info.watch.limit (min course.values.length as.length))) with
            events := s.events ++ info.seen (Steps.events info.runId ((as.zip course.values).take
              (info.watch.limit (min course.values.length as.length))) ++ extra) } ∧
      (course.values.length + 1 ≤ as.length ∧ info.watch.Reaches (course.values.length + 1) →
        extra = as[course.values.length]?.toList.map (Action.startEvent info.runId)) ∧
      (¬ (course.values.length + 1 ≤ as.length ∧
          info.watch.Reaches (course.values.length + 1)) → extra = []) := by
  have hall : ∀ m, min course.values.length as.length ≤ m →
      (as.zip course.values).take m = as.zip course.values := by
    intro m hm
    apply List.take_of_length_le
    rw [List.length_zip]
    omega
  have hlimit : info.watch.Reaches (min course.values.length as.length) →
      info.watch.limit (min course.values.length as.length)
        = min course.values.length as.length := by
    intro hreach
    unfold Watch.limit
    split
    · rfl
    · next c hc =>
      have hle := hreach c hc
      omega
  cases h with
  | @canceled c hcancel hk hn =>
    have hm : info.watch.limit (min course.values.length as.length) = c / 2 := by
      rw [Watch.limit, hcancel]
      show min (c / 2) _ = c / 2
      omega
    refine ⟨[], ?_, ?_, fun _ => rfl⟩
    · rw [hm, List.append_nil]
      rfl
    · rintro ⟨-, hreach⟩
      have hle := hreach c hcancel
      omega
  | @failed a f hf ha hreach =>
    have hn : course.values.length < as.length := (List.getElem?_eq_some_iff.mp ha).1
    have hreach' : info.watch.Reaches (min course.values.length as.length) := by
      intro c hc
      have hle := hreach c hc
      omega
    refine ⟨[a.startEvent info.runId], ?_, ?_, ?_⟩
    · rw [hlimit hreach', hall _ (Nat.le_refl _), RunInfo.seen_append, ← List.append_assoc]
      rfl
    · intro _
      rw [ha]
      rfl
    · intro hnot
      exact absurd ⟨hn, hreach⟩ hnot
  | completed hnone hlength hreach =>
    have hmin : min course.values.length as.length = as.length := by omega
    refine ⟨[], ?_, ?_, fun _ => rfl⟩
    · rw [hlimit (by rw [hmin]; exact hreach), hall _ (Nat.le_refl _), List.append_nil]
      rfl
    · rintro ⟨hk, -⟩
      omega

/-- Why statements stop. -/
theorem failure_iff (h : Stops info as s course result)
    (hcode : ∀ f, course.failure = some f → f.code ≠ .canceled) :
    ((∃ f, (Execution.ofExcept result).failure = some f ∧ f.code = .canceled) ↔
        info.watch.Interrupts (course.values.length + 1) as.length) ∧
      ((∃ f, course.failure = some f ∧ (Execution.ofExcept result).failure = some f) ↔
        course.values.length + 1 ≤ as.length ∧
          info.watch.Reaches (course.values.length + 1)) ∧
      ((Execution.ofExcept result).failure = none ↔
        ¬ info.watch.Interrupts (course.values.length + 1) as.length ∧
          ¬ (course.values.length + 1 ≤ as.length ∧
            info.watch.Reaches (course.values.length + 1))) := by
  cases h with
  | @canceled c hcancel hk hn =>
    have hinterrupts : info.watch.Interrupts (course.values.length + 1) as.length :=
      ⟨c, hcancel, hk, hn⟩
    have hown : ¬ (course.values.length + 1 ≤ as.length ∧
        info.watch.Reaches (course.values.length + 1)) := by
      rintro ⟨-, hreach⟩
      have hle := hreach c hcancel
      omega
    refine ⟨iff_of_true ⟨_, rfl, rfl⟩ hinterrupts, iff_of_false ?_ hown,
      iff_of_false (fun hnone => by cases hnone) fun hnot => hnot.1 hinterrupts⟩
    rintro ⟨f, hf, hcanceled⟩
    cases hcanceled
    exact hcode _ hf rfl
  | @failed a f hf ha hreach =>
    have hinterrupts : ¬ info.watch.Interrupts (course.values.length + 1) as.length := by
      rintro ⟨c, hcancel, hk, -⟩
      have hle := hreach c hcancel
      omega
    have hown := And.intro (List.getElem?_eq_some_iff.mp ha).1 hreach
    refine ⟨iff_of_false ?_ hinterrupts, iff_of_true ⟨f, hf, rfl⟩ hown,
      iff_of_false (fun hnone => by cases hnone) fun hnot => hnot.2 hown⟩
    rintro ⟨g, hg, hcanceled⟩
    cases hg
    exact hcode _ hf hcanceled
  | completed hnone hlength hreach =>
    have hinterrupts : ¬ info.watch.Interrupts (course.values.length + 1) as.length := by
      rintro ⟨c, hcancel, -, hn⟩
      have hle := hreach c hcancel
      omega
    have hown : ¬ (course.values.length + 1 ≤ as.length ∧
        info.watch.Reaches (course.values.length + 1)) := by
      rintro ⟨hk, -⟩
      omega
    refine ⟨iff_of_false ?_ hinterrupts, iff_of_false ?_ hown,
      iff_of_true rfl ⟨hinterrupts, hown⟩⟩
    · rintro ⟨f, hf, -⟩
      cases hf
    · rintro ⟨f, -, hf⟩
      cases hf

end Stops

/-! ### Whole runs -/

/-- The report that a run starts or ends. -/
def Action.runEvent (runId : Bytes) (kind : EventKind) (a : Action) : Event :=
  ⟨kind, runId, a.span.toOption, []⟩

/-- How many statements a watcher has seen complete. -/
def Execution.completed (x : Execution) : Nat :=
  x.progress.events.countP fun e => e.kind = .stmtEnd

theorem Steps.countP_events (runId : Bytes) (steps : Steps) :
    (Steps.events runId steps).countP (fun e => e.kind = .stmtEnd) = steps.length := by
  induction steps with
  | nil => rfl
  | cons step steps ih =>
    show (step.1.startEvent runId :: step.1.endEvent runId step.2
      :: Steps.events runId steps).countP _ = steps.length + 1
    rw [List.countP_cons_of_neg (by simp [Action.startEvent]),
      List.countP_cons_of_pos (by simp [Action.endEvent]), ih]

/-- A run is its start, the run of its statements, and its end. -/
theorem execute_stops {info : RunInfo} (hinfo : info.watch.traced = true ∨ info.watch.IsSteady)
    {a : Action} (ha : ∀ b ∈ a.leaves, b ≠ .missing) (store : Store) :
    ∃ result, Stops info a.leaves ⟨store, [], info.seen [a.runEvent info.runId .runStart]⟩
        (Action.course store a.leaves) result ∧
      execute info a store = { Execution.ofExcept result with
        progress := { (Execution.ofExcept result).progress with
          events := (Execution.ofExcept result).progress.events
            ++ info.seen [a.runEvent info.runId .runEnd] } } := by
  generalize hs : Progress.mk store [] (info.seen [a.runEvent info.runId .runStart]) = s
  have hlength : s.events.length = if info.watch.traced then 1 else 0 := by
    rw [← hs, RunInfo.seen]
    split <;> rfl
  have hregular : info.IsRegular s.events.length := by
    rcases hinfo with htraced | hsteady
    · refine .inr ⟨htraced, ?_⟩
      rw [hlength, if_pos htraced]
    · exact .inl hsteady
  have hstart : s.events.length / 2 = 0 := by
    rw [hlength]
    split <;> rfl
  have hstore : s.store = store := by rw [← hs]
  refine ⟨a.exec info s, ?_, ?_⟩
  · rw [← Action.execAll_leaves, ← hstore]
    exact Action.stops_execAll (fun b hb => Action.isStatement_of_mem_leaves a hb (ha b hb))
      hregular hstart
  · simp only [execute, Progress.report_eq, Progress.start, List.nil_append]
    rw [← hs]
    rfl

/-- Without a watcher, a run is the run of its statements. -/
theorem execute_unwatched (runId : Bytes) (a : Action) (store : Store) :
    execute ⟨.unwatched, runId⟩ a store
      = Execution.ofExcept (a.exec ⟨.unwatched, runId⟩ (.start store)) := rfl

/-- The first statements of those that complete, run alone. -/
theorem execute_take {store : Store} {as : List Action} (has : ∀ a ∈ as, a.IsStatement) {m : Nat}
    (hm : m ≤ (Action.course store as).values.length) (runId : Bytes) :
    execute ⟨.unwatched, runId⟩ (.seq .zero (as.take m)) store
      = ⟨⟨Steps.settle ((as.zip (Action.course store as).values).take m) store,
          Steps.printed ((as.zip (Action.course store as).values).take m), []⟩, none⟩ := by
  have hregular : RunInfo.IsRegular ⟨.unwatched, runId⟩ 0 := .inl (.inl rfl)
  have hsteps := (Action.execAll_of_course (s := .start store)
    (fun a ha => has a (List.mem_of_mem_take ha)) hregular (Action.course_take hm)
    (fun n hn => by cases hn)).1
  rw [execute_unwatched, Action.exec, hsteps, List.zip, List.take_zipWith]
  rfl

section Watched

variable {info : RunInfo} (htraced : info.watch.traced = true) {a : Action}
  (ha : ∀ b ∈ a.leaves, b ≠ .missing) (store : Store)

include htraced ha

/-- The reports of a run: its start, start and end of each statement that completes, the start of
the one that fails, and the end of the run. -/
theorem execute_events :
    let course := Action.course store a.leaves
    let m := info.watch.limit (min course.values.length a.leaves.length)
    let fails := course.values.length + 1 ≤ a.leaves.length ∧
      info.watch.Reaches (course.values.length + 1)
    ∃ extra, (execute info a store).progress.events = a.runEvent info.runId .runStart
        :: (Steps.events info.runId ((a.leaves.zip course.values).take m) ++ extra
          ++ [a.runEvent info.runId .runEnd]) ∧
      (fails → extra = a.leaves[course.values.length]?.toList.map (Action.startEvent info.runId)) ∧
      (¬ fails → extra = []) := by
  have hseen : ∀ events, info.seen events = events := fun events => if_pos htraced
  obtain ⟨result, hstops, hx⟩ := execute_stops (.inl htraced) ha store
  obtain ⟨extra, hprogress, hown, hnone⟩ := hstops.progress_eq
  refine ⟨extra, ?_, hown, hnone⟩
  rw [hx, hprogress]
  simp only [hseen]
  rfl

/-- A watcher sees a statement end for each one that completes. -/
theorem execute_completed :
    (execute info a store).completed
      = info.watch.limit (min (Action.course store a.leaves).values.length a.leaves.length) := by
  obtain ⟨extra, hevents, hown, hnone⟩ := execute_events htraced ha store
  generalize hcourse : Action.course store a.leaves = course at *
  have hextra : extra.countP (fun e => e.kind = .stmtEnd) = 0 := by
    by_cases hfails : course.values.length + 1 ≤ a.leaves.length ∧
        info.watch.Reaches (course.values.length + 1)
    · rw [hown hfails]
      cases a.leaves[course.values.length]? <;> rfl
    · rw [hnone hfails]
      rfl
  have hlimit : info.watch.limit (min course.values.length a.leaves.length)
      ≤ min course.values.length a.leaves.length := by
    unfold Watch.limit
    split <;> omega
  rw [Execution.completed, hevents, List.countP_cons_of_neg (by simp [Action.runEvent]),
    List.countP_append, List.countP_append, Steps.countP_events, hextra, List.length_take,
    List.length_zip]
  show min _ (min _ _) + 0 + 0 = _
  omega

end Watched

/-- **Statements are atomic.** A run of a tree without missing statements, watched or not, is never
canceled, canceled before it starts, or canceled inside report number `c`. Of its `n` statements,
let number `k` be the first that fails when nobody stops the run (`k = n + 1` if none does). Then:

* the run leaves the table, the prints and the output of its first `m` statements run alone, where
  `m` is the least of `c / 2`, `k - 1` and `n`;
* it fails as canceled exactly when `c / 2 < k` and `c / 2 < n`, with the failure of statement `k`
  exactly when there is one and the run may start it, and it succeeds otherwise;
* the reports are the start of the run, start and end of each of the `m` statements, the start of
  statement `k` if it fails, and the end of the run. -/
theorem execute_stops_between_statements {info : RunInfo}
    (hinfo : info.watch.traced = true ∨ info.watch.IsSteady) {a : Action}
    (ha : ∀ b ∈ a.leaves, b ≠ .missing) (store : Store) :
    let course := Action.course store a.leaves
    let n := a.leaves.length
    let k := course.values.length + 1
    let m := info.watch.limit (min (k - 1) n)
    let x := execute info a store
    let y := execute ⟨.unwatched, info.runId⟩ (.seq .zero (a.leaves.take m)) store
    (y.failure = none ∧ x.progress.store = y.progress.store ∧
      x.progress.prints = y.progress.prints ∧ x.output = y.output) ∧
    ((∃ f, x.failure = some f ∧ f.code = .canceled) ↔ info.watch.Interrupts k n) ∧
    ((∃ f, course.failure = some f ∧ x.failure = some f) ↔ k ≤ n ∧ info.watch.Reaches k) ∧
    (x.failure = none ↔
      ¬ info.watch.Interrupts k n ∧ ¬ (k ≤ n ∧ info.watch.Reaches k)) ∧
    (info.watch.traced = true → x.completed = m ∧ ∃ extra,
      x.progress.events = a.runEvent info.runId .runStart
        :: (Steps.events info.runId ((a.leaves.zip course.values).take m) ++ extra
          ++ [a.runEvent info.runId .runEnd]) ∧
      (k ≤ n ∧ info.watch.Reaches k →
        extra = a.leaves[k - 1]?.toList.map (Action.startEvent info.runId)) ∧
      (¬ (k ≤ n ∧ info.watch.Reaches k) → extra = [])) := by
  intro course n k m x y
  have hstatements : ∀ b ∈ a.leaves, b.IsStatement := fun b hb =>
    Action.isStatement_of_mem_leaves a hb (ha b hb)
  obtain ⟨result, hstops, hx⟩ := execute_stops hinfo ha store
  obtain ⟨extra, hprogress, -, -⟩ := hstops.progress_eq
  have hfailure := hstops.failure_iff fun f hf hcanceled => by
    have hkind := Action.isEvaluation_of_course hstatements hf
    rw [hcanceled] at hkind
    cases hkind
  have hm : m ≤ course.values.length := by
    show info.watch.limit (min course.values.length n) ≤ course.values.length
    unfold Watch.limit
    split <;> omega
  have hy : y = _ := execute_take hstatements hm info.runId
  have hx : x = _ := hx
  rw [hprogress] at hx
  refine ⟨⟨by rw [hy], ?_, ?_, ?_⟩, ?_, ?_, ?_, fun htraced => ?_⟩
  · rw [hx, hy]
    rfl
  · rw [hx, hy]
    rfl
  · rw [hx, hy]
    rfl
  · rw [hx]
    exact hfailure.1
  · rw [hx]
    exact hfailure.2.1
  · rw [hx]
    exact hfailure.2.2
  · exact ⟨execute_completed htraced ha store, execute_events htraced ha store⟩

/-- A tree with a nested sequence whose third statement divides by zero, canceled inside the fourth
report: the second statement has started there, so it still completes. -/
theorem execute_stops_between_statements_cut :
    let a : Action := .seq .zero [.seq .zero [.assign .zero "a" (.const .zero 7),
        .print .zero (.var .zero "a")],
      .print .zero (.binary .zero "//" (.var .zero "a") (.const .zero 0))]
    let info : RunInfo := ⟨⟨true, some 4⟩, "r"⟩
    let x := execute info a .empty
    (∀ b ∈ a.leaves, b ≠ .missing) ∧ a.leaves.length = 3 ∧
      Action.course .empty a.leaves = ⟨[7, 7], some (.ofFault (.divisionByZero 7))⟩ ∧
      x.completed = 2 ∧ x.progress.prints = [7] ∧
      (∃ f, x.failure = some f ∧ f.code = .canceled) := by
  intro a info x
  have hleaves : ∀ b ∈ a.leaves, b ≠ .missing := by
    intro b hb
    simp only [a, Action.leaves, Action.leavesAll, List.append_nil, List.cons_append,
      List.nil_append, List.mem_cons, List.not_mem_nil, or_false] at hb
    rcases hb with rfl | rfl | rfl <;> nofun
  have htraced : info.watch.traced = true ∨ info.watch.IsSteady := .inl rfl
  obtain ⟨⟨-, -, hprints, -⟩, hcanceled, -, -, hevents⟩ :=
    execute_stops_between_statements htraced hleaves .empty
  refine ⟨hleaves, rfl, rfl, (hevents rfl).1, hprints, hcanceled.mpr ⟨4, rfl, ?_, ?_⟩⟩
  · decide
  · decide

end Polish
