import Polish.Invocation
import Polish.Proofs.Atomicity
import Polish.Proofs.Places

/-!
# No false alarms

Whatever the static checks find in a program makes its run fail, and the run does not get past the
statement the first finding is in. For statements that complete have no findings, so the first
finding comes from a statement that does not complete, or from a later one. What the checks find
makes the command that runs the program end with the status of a program that cannot be read or of a
run that failed.

* `Program.checkAll_take_eq_nil`: statements that complete have no findings.
* `Program.reached_le_of_finding`: a run does not get past the first finding.
* `Workbench.run_of_checkSource`: a run of a source with findings fails, and how.
* `check_raises_no_false_alarm`: the promise, for programs and for commands.
-/

namespace Polish

/-! ### Programs without nested sequences -/

namespace Action

theorem IsWritten.isStatement {a : Action} (h : a.IsWritten) : a.IsStatement := by
  cases a with
  | missing | seq => exact h.elim
  | assign | print => trivial

/-- A list of statements is its own list of leaves. -/
theorem leavesAll_of_isStatement {as : List Action} (h : ∀ a ∈ as, a.IsStatement) :
    leavesAll as = as := by
  induction as with
  | nil => rfl
  | cons a as ih =>
    obtain ⟨ha, has⟩ := List.forall_mem_cons.mp h
    have hleaf : a.leaves = [a] := by
      cases a with
      | missing | seq => exact ha.elim
      | assign | print => rfl
    rw [leavesAll, hleaf, ih has, List.singleton_append]

end Action

namespace Program

variable {p : Program}

theorem leaves_toAction (h : p.IsWritten) : p.toAction.leaves = p.actions :=
  Action.leavesAll_of_isStatement fun a ha => (h a ha).isStatement

theorem ne_missing_of_mem_leaves (h : p.IsWritten) : ∀ b ∈ p.toAction.leaves, b ≠ .missing := by
  intro b hb
  rw [leaves_toAction h] at hb
  rintro rfl
  exact h _ hb

/-! ### How far a run gets -/

/-- How many statements complete in a run that nobody stops. -/
def reached (p : Program) : Nat := (Action.course .empty p.actions).values.length

/-- A watcher of a run that nobody stops sees the statements complete. -/
theorem completed_eq_reached (h : p.IsWritten) (runId : Bytes) :
    (execute ⟨⟨true, none⟩, runId⟩ p.toAction .empty).completed = p.reached := by
  have hle := Action.length_values_le .empty p.actions
  rw [execute_completed rfl (ne_missing_of_mem_leaves h), leaves_toAction h]
  exact Nat.min_eq_left hle

/-- Statements that complete have no findings. -/
theorem checkAll_take_eq_nil (hwritten : p.IsWritten) (hplaced : ∀ a ∈ p.actions, a.IsPlaced)
    {m : Nat} (hm : m ≤ p.reached) : (Action.checkAll [] (p.actions.take m)).1 = [] := by
  have hstatements : ∀ a ∈ p.actions, a.IsStatement := fun a ha => (hwritten a ha).isStatement
  have hrun := execute_take hstatements hm []
  have hfree : ∀ n, Watch.unwatched.canceled n = false := fun n => rfl
  have hnone : (execute ⟨.unwatched, []⟩ (toAction ⟨.zero, p.actions.take m⟩) .empty).failure
      = none := by
    rw [toAction, hrun]
  refine check_eq_nil ?_ ?_ hfree hnone
  · exact fun a ha => hwritten a (List.mem_of_mem_take ha)
  · exact fun a ha => hplaced a (List.mem_of_mem_take ha)

/-- A run does not get past a statement with a node where the first finding is. -/
theorem reached_le_of_finding (hwritten : p.IsWritten) (hplaced : ∀ a ∈ p.actions, a.IsPlaced)
    (hnodes : p.actions.Pairwise fun a b =>
      ∀ x ∈ a.nodes, ∀ y ∈ b.nodes, x.span.StartsBefore y.span)
    {d : Failure} (hd : p.check.head? = some d) {before after : List Action} {a : Action}
    (hactions : p.actions = before ++ a :: after) {x : Expr} (hx : x ∈ a.nodes)
    (hspan : d.span = some x.span) : p.reached ≤ before.length := by
  apply Nat.le_of_not_lt
  intro hlt
  -- the statement itself has completed, so the first finding comes from a later one
  have hsplit : p.actions = (before ++ [a]) ++ after := by simp [hactions]
  have htake : p.actions.take (before.length + 1) = before ++ [a] := by
    rw [hsplit]
    exact List.take_left' (by simp)
  have hnone := checkAll_take_eq_nil hwritten hplaced hlt
  rw [htake] at hnone
  have hlater : d ∈ (Action.checkAll (Action.checkAll [] (before ++ [a])).2 after).1 := by
    rw [check, hsplit, Action.checkAll_append, hnone, List.nil_append] at hd
    exact List.mem_of_mem_head? hd
  obtain ⟨b, hb, y, hy, hplace⟩ := Action.node_of_checkAll
    (fun b hb => hwritten b (by simp [hactions, hb]))
    (fun b hb => hplaced b (by simp [hactions, hb])) _ d hlater
  -- but the nodes of later statements start at other places
  rw [hactions] at hnodes
  have hcross := (List.pairwise_cons.mp (List.pairwise_append.mp hnodes).2.1).1 b hb x hx y hy
  rw [hspan] at hplace
  exact hcross.start_ne (congrArg Span.start (Option.some.inj hplace))

section Source

variable {file source : Bytes} (hsource : ofSource file source = .ok p)

include hsource

/-- A program that was read from a source can be written, and its nodes have places. -/
theorem isWritten_of_source : p.IsWritten ∧ ∀ a ∈ p.actions, a.IsPlaced := by
  obtain ⟨ts, hproper, hreads⟩ := ofSource_spec hsource
  exact ⟨hreads.isWritten, hreads.isPlaced hproper⟩

/-- A program with findings fails, watched or not. -/
theorem fails_of_check (hfound : p.check ≠ []) {watch : Watch} (hwatch : watch.cancelAt = none)
    (runId : Bytes) : (execute ⟨watch, runId⟩ p.toAction .empty).failure ≠ none := by
  obtain ⟨hwritten, hplaced⟩ := isWritten_of_source hsource
  have hfree : ∀ n, watch.canceled n = false := fun n => by rw [Watch.canceled, hwatch]
  intro hnone
  exact hfound (check_eq_nil hwritten hplaced hfree hnone)

end Source

end Program

/-! ### How a run fails -/

/-- A run that is not canceled fails with the failure of an expression. -/
theorem isEvaluation_of_execute {info : RunInfo} (hwatch : info.watch.cancelAt = none) {a : Action}
    (ha : ∀ b ∈ a.leaves, b ≠ .missing) {store : Store} {f : Failure}
    (hf : (execute info a store).failure = some f) : f.code.isEvaluation = true := by
  obtain ⟨result, hstops, hx⟩ := execute_stops (.inr (.inl hwatch)) ha store
  rw [hx] at hf
  cases hstops with
  | canceled hcancel _ _ =>
    rw [hwatch] at hcancel
    cases hcancel
  | failed hfailure _ _ =>
    cases hf
    exact Action.isEvaluation_of_course
      (fun b hb => Action.isStatement_of_mem_leaves a hb (ha b hb)) hfailure
  | completed _ _ _ => cases hf

namespace Workbench

variable {w : Workbench} {watch : Watch} {p : Program}

/-- There is a failure, and it is one of an expression. -/
def FailsAsRun (result : Option Failure) : Prop := ∃ f, result = some f ∧ f.code.isEvaluation = true

/-- What is not shown, or shown on an output that takes it, does not fail. -/
theorem exists_shown {shown : Bool} (h : w.outputFault = none ∨ shown = false) (text : Bytes) :
    ∃ trail, (if shown then w.writeChecked text else .ok .empty) = .ok trail := by
  rcases h with h | h
  · cases shown with
    | true => exact ⟨.wrote text, by rw [if_pos rfl, writeChecked, h]⟩
    | false => exact ⟨.empty, rfl⟩
  · exact ⟨.empty, by rw [h]; rfl⟩

section Fails

variable (hwatch : watch.cancelAt = none) (hwritten : p.IsWritten)
  (hfails : ∀ runId, (execute ⟨watch, runId⟩ p.toAction .empty).failure ≠ none)

include hwatch hwritten hfails

/-- If the interpreter fails, it fails at an expression. -/
theorem failsAsRun_execute (runId : Bytes) :
    FailsAsRun (execute ⟨watch, runId⟩ p.toAction .empty).failure := by
  obtain ⟨f, hf⟩ := Option.ne_none_iff_exists'.mp (hfails runId)
  exact ⟨f, hf, isEvaluation_of_execute hwatch (Program.ne_missing_of_mem_leaves hwritten) hf⟩

/-- If the interpreter fails, the machine does, and in the same way. -/
theorem failsAsRun_runCompiled (hshow : w.outputFault = none ∨ w.showCode = false)
    (reports : Nat) : FailsAsRun (w.runCompiled watch reports p).2 := by
  obtain ⟨code, hcode⟩ := Program.exists_compile hwritten
  obtain ⟨shown, hshown⟩ := exists_shown hshow (listing code)
  obtain ⟨f, hf, hkind⟩ := failsAsRun_execute hwatch hwritten hfails w.runId
  have hsame := sameEffect_of_compile hcode (.inl hwatch) w.runId reports
  have hmachine : (Machine.run watch reports code).failure ≠ none := by
    intro hnone
    rw [hsame.succeeds.mpr hnone] at hf
    cases hf
  obtain ⟨g, hg⟩ := Option.ne_none_iff_exists'.mp hmachine
  have hresult : (w.runCompiled watch reports p).2 = (Machine.run watch reports code).failure := by
    simp only [runCompiled, hcode, displayCode, hshown]
    rfl
  refine ⟨g, hresult.trans hg, ?_⟩
  rw [← (hsame.fails f g hf hg).1]
  exact hkind

/-- If the interpreter fails, a run fails in every mode. -/
theorem failsAsRun_runProgram (hshow : w.outputFault = none ∨ w.showCode = false) (mode : Mode) :
    FailsAsRun (w.runProgram watch mode p).2 := by
  rw [runProgram]
  split
  · exact failsAsRun_runCompiled hwatch hwritten hfails hshow 0
  · obtain ⟨f, hf, hkind⟩ := failsAsRun_execute hwatch hwritten hfails w.runId
    have hinterpret : (w.interpret watch p).2.failure = some f := hf
    simp only [hinterpret]
    exact ⟨f, rfl, hkind⟩

end Fails

/-- A source with findings cannot be read, or its run fails. -/
theorem run_of_checkSource {file source mode : Bytes} (hwatch : watch.cancelAt = none)
    (hfound : checkSource file source ≠ []) (hmode : Mode.ofName? mode ≠ none)
    (hshow : w.outputFault = none ∨ w.showInfix = false ∧ w.showCode = false) :
    ∃ f, (w.run watch file source mode).2 = some f ∧
      (f.code.isReading = true ∨ f.code.isEvaluation = true) := by
  obtain ⟨mode', hmode⟩ := Option.ne_none_iff_exists'.mp hmode
  cases hsource : Program.ofSource file source with
  | error f =>
    refine ⟨f, ?_, .inl (Program.failsWithin_ofSource file source f hsource)⟩
    simp only [run, hmode, hsource]
  | ok p =>
    -- the source is read, so what was found are findings of the checks
    have hwritten := (Program.isWritten_of_source hsource).1
    have hcheck : p.check ≠ [] := by
      rw [checkSource, hsource] at hfound
      exact hfound
    obtain ⟨shown, hshown⟩ := exists_shown (hshow.imp_right And.left) p.display
    obtain ⟨f, hf, hkind⟩ := failsAsRun_runProgram hwatch hwritten
      (Program.fails_of_check hsource hcheck hwatch) (hshow.imp_right And.right) mode'
    refine ⟨f, ?_, .inr hkind⟩
    simp only [run, hmode, hsource, display, hshown]
    exact hf

end Workbench

/-! ### Commands -/

namespace Setup

variable {s : Setup} {flags : Flags} {file text : Bytes} {args : List Bytes}

/-- Nothing but the program itself can make a run fail: its output takes what it shows of the
program, and its trace can be created. -/
structure CanWrite (s : Setup) (flags : Flags) : Prop where
  shown : (s.runBench flags).outputFault = none ∨
    (s.runBench flags).showInfix = false ∧ (s.runBench flags).showCode = false
  trace : ∀ notices, ∃ tree, s.withTrace flags notices = .ok tree

/-- A source that cannot be found ends a command as misuse does. -/
theorem status_of_source_error {word : Bytes} {f : Fault} (h : s.source word = .error f) :
    (s.failWith f).status = .usage := by
  have hcode : f.code = .io := by
    rw [source] at h
    split at h
    · split at h
      · cases h
      · cases h
        rfl
    · split at h
      · cases h
      · cases h
        rfl
  show ExitStatus.ofCode f.code = .usage
  rw [hcode]
  rfl

/-- Findings, and nothing else, make the command that checks a source end as for an unreadable
one. -/
theorem status_check_iff {checkFlags : Flags} :
    (Command.check.obey s checkFlags args).status = .unreadable ↔
      ∃ word text file, args = [word] ∧ s.source word = .ok (text, file) ∧
        Workbench.checkSource file text ≠ [] := by
  constructor
  · intro h
    match args, h with
    | [], h => cases h
    | _ :: _ :: _, h => cases h
    | [word], h =>
      rw [Command.obey, withSource] at h
      cases hsource : s.source word with
      | error f =>
        rw [hsource] at h
        exact absurd ((status_of_source_error hsource).symm.trans h) (by decide)
      | ok found =>
        obtain ⟨text, file⟩ := found
        rw [hsource] at h
        refine ⟨word, text, file, rfl, hsource, fun hnone => ?_⟩
        simp only [check, hnone] at h
        cases h
  · rintro ⟨word, text, file, rfl, hsource, hfound⟩
    obtain ⟨d, rest, hcheck⟩ := List.exists_cons_of_ne_nil hfound
    simp only [Command.obey, withSource, hsource, check, hcheck]

/-- A run that fails has the status of its failure, if nothing else goes wrong. -/
theorem status_run {f : Failure} (hfailure : (s.runSource flags file text).2 = some f)
    (hwrite : s.CanWrite flags) : (s.run flags file text).status = .ofCode f.code := by
  obtain ⟨tree, htree⟩ := hwrite.trace (s.runSource flags file text).1.notices
  simp only [run, htree, hfailure]
  rfl

/-- A source with findings ends the command that runs it with the status of a source that cannot be
read or of a run that failed. -/
theorem status_run_of_checkSource (hfound : Workbench.checkSource file text ≠ [])
    (hmode : Mode.ofName? (s.runMode flags) ≠ none) (hwrite : s.CanWrite flags) :
    (s.run flags file text).status = .unreadable ∨ (s.run flags file text).status = .failed := by
  obtain ⟨f, hf, hkind⟩ : ∃ f, (s.runSource flags file text).2 = some f ∧
      (f.code.isReading = true ∨ f.code.isEvaluation = true) :=
    Workbench.run_of_checkSource rfl hfound hmode hwrite.shown
  rw [status_run hf hwrite]
  rcases hkind with hreading | hevaluation
  · exact .inl (ExitStatus.ofCode_of_isReading hreading)
  · exact .inr (ExitStatus.ofCode_of_isEvaluation hevaluation)

end Setup

/-- **The static checks raise no false alarm.** If something is found in a program that was read
from a source, every run of it that is not canceled fails. The first finding stands at a node of some
statement, and in whatever statement it stands, no more statements complete than there are before
that one. So if the command that checks a source ends as for an unreadable one, the command that
runs it ends so too in any mode, or with the status of a failed run, unless something it shows or
traces cannot be written. -/
theorem check_raises_no_false_alarm :
    (∀ (file source : Bytes) (p : Program), Program.ofSource file source = .ok p → p.check ≠ [] →
      (∀ (watch : Watch) (runId : Bytes), watch.cancelAt = none →
        (execute ⟨watch, runId⟩ p.toAction .empty).failure ≠ none) ∧
      ∃ d, p.check.head? = some d ∧
        (∃ before a after, p.actions = before ++ a :: after ∧
          ∃ x ∈ a.nodes, d.span = some x.span) ∧
        ∀ before a after, p.actions = before ++ a :: after →
          (∃ x ∈ a.nodes, d.span = some x.span) → ∀ runId,
          (execute ⟨⟨true, none⟩, runId⟩ p.toAction .empty).completed ≤ before.length) ∧
    ∀ (s : Setup) (checkFlags flags : Flags) (args : List Bytes),
      (Command.check.obey s checkFlags args).status = .unreadable →
      Mode.ofName? (s.runMode flags) ≠ none → s.CanWrite flags →
      (Command.run.obey s flags args).status = .unreadable ∨
        (Command.run.obey s flags args).status = .failed := by
  refine ⟨?_, ?_⟩
  · intro file source p hsource hfound
    obtain ⟨hwritten, hplaced⟩ := Program.isWritten_of_source hsource
    refine ⟨fun watch runId hwatch => Program.fails_of_check hsource hfound hwatch runId, ?_⟩
    obtain ⟨d, rest, hcheck⟩ := List.exists_cons_of_ne_nil hfound
    have hd : p.check.head? = some d := by rw [hcheck, List.head?_cons]
    have hmem : d ∈ (Action.checkAll [] p.actions).1 := List.mem_of_mem_head? hd
    refine ⟨d, hd, ?_, ?_⟩
    · obtain ⟨a, ha, hnode⟩ := Action.node_of_checkAll hwritten hplaced [] d hmem
      obtain ⟨before, after, hactions⟩ := List.append_of_mem ha
      exact ⟨before, a, after, hactions, hnode⟩
    · rintro before a after hactions ⟨x, hx, hspan⟩ runId
      rw [Program.completed_eq_reached hwritten]
      exact Program.reached_le_of_finding hwritten hplaced (Program.pairwise_nodes hsource) hd
        hactions hx hspan
  · intro s checkFlags flags args hstatus hmode hwrite
    obtain ⟨word, text, file, rfl, hsource, hfound⟩ := Setup.status_check_iff.mp hstatus
    have hobey : Command.run.obey s flags [word] = s.run flags file text := by
      rw [Command.obey, Setup.withSource, hsource]
    rw [hobey]
    exact Setup.status_run_of_checkSource hfound hmode hwrite

/-- A constant zero under a name that has a value: the second statement is found out, the run
completes the first one only, and the command that runs the source fails like the one that checks
it. -/
theorem check_raises_no_false_alarm_division :
    let text : Bytes := ":= a 1 @ // a 0"
    let place (first last : Int) : Span := ⟨"<stdin>", 1, first, 1, last⟩
    let quotient : Expr :=
      .binary (place 10 16) "//" (.var (place 13 14) "a") (.const (place 15 16) 0)
    let first : Action := .assign (place 1 7) "a" (.const (place 6 7) 1)
    let p : Program := ⟨place 1 16, [first, .print (place 8 16) quotient]⟩
    let s : Setup := .ofSettings ⟨.ok text, none, ⟨"/", "/", .empty, []⟩, "r", [], []⟩ .defaults
    Program.ofSource "<stdin>" text = .ok p ∧
      p.check = [⟨.constantZeroDivisor, some (place 10 16)⟩] ∧
      (execute ⟨⟨true, none⟩, "r"⟩ p.toAction .empty).completed ≤ 1 ∧
      (Command.check.obey s [] ["-"]).status = .unreadable ∧
      ((Command.run.obey s [] ["-"]).status = .unreadable ∨
        (Command.run.obey s [] ["-"]).status = .failed) := by
  intro text place quotient first p s
  have hsource : Program.ofSource "<stdin>" text = .ok p := rfl
  have hcheck : p.check = [⟨.constantZeroDivisor, some (place 10 16)⟩] := rfl
  have hfound : p.check ≠ [] := by
    rw [hcheck]
    nofun
  have hstatus : (Command.check.obey s [] ["-"]).status = .unreadable := by
    refine Setup.status_check_iff.mpr ⟨"-", text, "<stdin>", rfl, rfl, ?_⟩
    rw [Workbench.checkSource, hsource]
    exact hfound
  have hmode : Mode.ofName? (s.runMode []) ≠ none := by decide
  have hwrite : s.CanWrite [] := ⟨.inl rfl, fun _ => ⟨_, rfl⟩⟩
  obtain ⟨hprogram, hcommand⟩ := check_raises_no_false_alarm
  obtain ⟨-, d, hd, -, hreached⟩ := hprogram _ text p hsource hfound
  rw [hcheck] at hd
  cases hd
  refine ⟨hsource, hcheck, ?_, hstatus, hcommand s [] [] _ hstatus hmode hwrite⟩
  exact hreached [first] _ [] rfl ⟨quotient, List.mem_cons_self, rfl⟩ "r"

end Polish
