import Polish.Proofs.Effect
import Polish.Proofs.Joining
import Polish.Proofs.Malformed

/-!
# What decides the exit status

An invocation that runs a source goes through the settings, the flags, the reader, the compiler and
one or both ways of running. All of these can fail on their own account; but if the source can be
read, the settings are valid and what is to be written can be written, only the program is left to
decide how the invocation ends. The branches for failures inside the compiler and the machine are
there, and no source gets to them: the trees of the reader have no defects, and their code keeps the
stack in balance.

1. `Code.isInternal`, `Workbench.run_not_internal`: the failures that no source causes, under any
   watch and on any output.
2. `Workbench.code_run`: in every mode a run of a source fails as the interpreter does.
3. `sourceStatus`, `Setup.status_run_eq`: the status that a source deserves, and gets.
4. `Invocation.Asks`, `Invocation.Opens`: words that ask for a command on a source.
5. `status_is_decided_by_the_program`: the statuses of whole invocations.
-/

namespace Polish

/-! ### Failures that no source causes -/

/-- The failures that would be mistakes of the program itself: a tree with a defect, an empty stack,
an instruction that does not exist. -/
def Code.isInternal : Code → Bool
  | .ast | .stackUnderflow | .badInstruction => true
  | _ => false

theorem Code.not_internal_of_isRun {c : Code} (h : c.isRun = true) : c.isInternal = false := by
  revert h
  cases c <;> decide

theorem Code.not_internal_of_isReading {c : Code} (h : c.isReading = true) :
    c.isInternal = false := by
  revert h
  cases c <;> decide

/-- If the computation fails, its failure is not internal. -/
def NotInternal (result : Option Failure) : Prop :=
  ∀ f, result = some f → f.code.isInternal = false

/-- Whenever it is canceled, a run of code fails as canceled or as plain execution does. -/
theorem Machine.failure_runFrom {watch : Watch} {pc reports : Nat} {code : List Instr} {m : Machine}
    {f : Failure} (hf : (runFrom watch pc reports code m).failure = some f) :
    f = .ofFault .canceled ∨ ∃ stopped, m.execCode code = .error ⟨stopped, f⟩ := by
  induction code generalizing pc reports m with
  | nil => cases hf
  | cons i rest ih =>
    rw [runFrom] at hf
    split at hf
    · cases hf
      exact .inl rfl
    · rw [execCode_cons]
      cases hstep : m.step i with
      | error stuck =>
        rw [hstep] at hf
        cases hf
        exact .inr ⟨stuck.machine, rfl⟩
      | ok next =>
        rw [hstep] at hf
        exact ih hf

namespace Program

variable {p : Program}

/-- A program that can be written has no defects. -/
theorem isSound_of_isWritten (h : p.IsWritten) : p.toAction.IsSound :=
  (Action.exists_compile_iff p.toAction).mp (exists_compile h)

/-- A run that nobody stops fails because of an unbound name, a zero divisor or a negative number
under a root. -/
theorem isRuntime_of_execute (h : p.IsWritten) {info : RunInfo}
    (hwatch : info.watch.cancelAt = none) {store : Store} {f : Failure}
    (hf : (execute info p.toAction store).failure = some f) : f.code.isRuntime = true := by
  have hrun := isRun_of_execute (isSound_of_isWritten h) hf
  have hevaluation := isEvaluation_of_execute hwatch (ne_missing_of_mem_leaves h) hf
  revert hrun hevaluation
  cases f.code <;> decide

/-- The code of a program fails as the program does, or is canceled. -/
theorem isRun_of_machine (h : p.IsWritten) {code : List Instr} (hcode : p.compile = .ok code)
    {watch : Watch} {reports : Nat} {f : Failure}
    (hf : (Machine.run watch reports code).failure = some f) : f.code.isRun = true := by
  rcases Machine.failure_runFrom hf with rfl | ⟨m, hstuck⟩
  · rfl
  · have hsame : SameEffect (execute ⟨.unwatched, []⟩ p.toAction .empty)
        (Machine.run .unwatched 0 code) := sameEffect_of_compile hcode (.inl rfl) [] 0
    have hending : (Machine.run .unwatched 0 code).ending = .error ⟨m, f⟩ :=
      (Machine.ending_runFrom (fun _ => rfl) 0 0 code .empty).trans hstuck
    obtain ⟨g, hg, hsame, -⟩ := hsame.exists_failure (MachineRun.ending_eq_error.mp hending).2
    rw [← hsame]
    exact isRun_of_execute (isSound_of_isWritten h) hg

end Program

namespace Workbench

variable (w : Workbench) (watch : Watch)

theorem runCompiled_not_internal {p : Program} (h : p.IsWritten) (reports : Nat) :
    NotInternal (w.runCompiled watch reports p).2 := by
  obtain ⟨code, hcode⟩ := Program.exists_compile h
  intro f hf
  rw [runCompiled, hcode] at hf
  dsimp only at hf
  split at hf
  · cases hf
    rfl
  · exact Code.not_internal_of_isRun (Program.isRun_of_machine h hcode hf)

theorem runProgram_not_internal {p : Program} (h : p.IsWritten) (mode : Mode) :
    NotInternal (w.runProgram watch mode p).2 := by
  rw [runProgram]
  split
  · exact w.runCompiled_not_internal watch h 0
  · dsimp only
    split
    · next f hfailure =>
      rintro _ ⟨⟩
      exact Code.not_internal_of_isRun (isRun_of_execute (Program.isSound_of_isWritten h) hfailure)
    · split
      · rintro f ⟨⟩
      · exact w.runCompiled_not_internal watch h _

/-- No source makes a run fail internally. -/
theorem run_not_internal (file source mode : Bytes) :
    NotInternal (w.run watch file source mode).2 := by
  rw [run]
  split
  · rintro _ ⟨⟩
    rfl
  · split
    · next f hsource =>
      rintro _ ⟨⟩
      exact Code.not_internal_of_isReading (Program.failsWithin_ofSource file source f hsource)
    · next p hsource =>
      dsimp only
      split
      · rintro _ ⟨⟩
        rfl
      · exact w.runProgram_not_internal watch (Program.isWritten_of_source hsource).1 _

/-- A source that has no code cannot be read. -/
theorem isReading_of_compileSource {file source : Bytes} {f : Failure}
    (hf : (w.compileSource file source).2.2 = .error f) : f.code.isReading = true := by
  rw [compileSource] at hf
  split at hf
  · cases hf
  · cases hsource : Program.ofSource file source with
    | error g =>
      rw [hsource] at hf
      cases hf
      exact Program.failsWithin_ofSource file source _ hsource
    | ok p =>
      obtain ⟨code, hcode⟩ := Program.exists_compile (Program.isWritten_of_source hsource).1
      rw [hsource, Result.ok_bind, hcode] at hf
      cases hf

/-- The comparison of the two ways always has a verdict, and neither side fails internally. -/
theorem verify_not_internal {p : Program} (h : p.IsWritten) :
    ∃ v, (w.verify watch p).2 = .ok v ∧
      ∀ c, v.interpreter.code = some c ∨ v.machine.code = some c → c.isInternal = false := by
  obtain ⟨code, hcode⟩ := Program.exists_compile h
  rw [verify, hcode]
  refine ⟨_, rfl, ?_⟩
  rintro c (hc | hc)
  · obtain ⟨f, hf, rfl⟩ := Option.map_eq_some_iff.mp hc
    exact Code.not_internal_of_isRun (isRun_of_execute (Program.isSound_of_isWritten h) hf)
  · obtain ⟨f, hf, rfl⟩ := Option.map_eq_some_iff.mp hc
    exact Code.not_internal_of_isRun (Program.isRun_of_machine h hcode hf)

/-- The two ways agree on a program that can be written. -/
theorem exists_agreement {p : Program} (h : p.IsWritten) :
    ∃ trail v, w.verify .unwatched p = (trail, .ok v) ∧ v.agree = true := by
  obtain ⟨code, hcode⟩ := Program.exists_compile h
  have hsame : SameEffect (execute ⟨.unwatched, []⟩ p.toAction .empty)
      (Machine.run .unwatched 0 code) := sameEffect_of_compile hcode (.inl rfl) [] 0
  rw [verify, hcode]
  exact ⟨_, _, rfl, Verdict.agree_of_sameEffect hsame⟩

end Workbench

/-! ### Every mode fails as the interpreter does -/

theorem SameEffect.code_eq {x : Execution} {r : MachineRun} (h : SameEffect x r) :
    r.failure.map Failure.code = x.failure.map Failure.code := by
  cases hr : r.failure with
  | none => rw [h.succeeds.mpr hr]
  | some g =>
    obtain ⟨f, hf, hfg, -⟩ := h.exists_failure hr
    rw [hf, Option.map_some, Option.map_some, hfg]

namespace Workbench

variable {w : Workbench} {watch : Watch} {p : Program}

theorem code_runCompiled (hwatch : watch.cancelAt = none) (hwritten : p.IsWritten)
    (hshow : w.outputFault = none ∨ w.showCode = false) (reports : Nat) :
    (w.runCompiled watch reports p).2.map Failure.code
      = (execute ⟨watch, w.runId⟩ p.toAction .empty).failure.map Failure.code := by
  obtain ⟨code, hcode⟩ := Program.exists_compile hwritten
  obtain ⟨shown, hshown⟩ := exists_shown hshow (listing code)
  have hresult : (w.runCompiled watch reports p).2 = (Machine.run watch reports code).failure := by
    simp only [runCompiled, hcode, displayCode, hshown]
    rfl
  rw [hresult]
  exact (sameEffect_of_compile hcode (.inl hwatch) w.runId reports).code_eq

theorem code_runProgram (hwatch : watch.cancelAt = none) (hwritten : p.IsWritten)
    (hshow : w.outputFault = none ∨ w.showCode = false) (mode : Mode) :
    (w.runProgram watch mode p).2.map Failure.code
      = (execute ⟨watch, w.runId⟩ p.toAction .empty).failure.map Failure.code := by
  have hcompiled := code_runCompiled hwatch hwritten hshow
  have hinterpret : (w.interpret watch p).2 = execute ⟨watch, w.runId⟩ p.toAction .empty := rfl
  rw [runProgram]
  split
  · exact hcompiled 0
  · simp only [hinterpret]
    cases hx : (execute ⟨watch, w.runId⟩ p.toAction .empty).failure with
    | some f => rfl
    | none =>
      -- the interpreter has succeeded, and so does the machine
      simp only [hx] at hcompiled
      dsimp only
      split
      · rfl
      · exact hcompiled _

/-- A run of a source that is read fails as the interpreter does, whatever the mode. -/
theorem code_run {file source mode : Bytes} (hsource : Program.ofSource file source = .ok p)
    (hwatch : watch.cancelAt = none) (hmode : Mode.ofName? mode ≠ none)
    (hshow : w.outputFault = none ∨ w.showInfix = false ∧ w.showCode = false) :
    (w.run watch file source mode).2.map Failure.code
      = (execute ⟨watch, w.runId⟩ p.toAction .empty).failure.map Failure.code := by
  obtain ⟨mode', hmode⟩ := Option.ne_none_iff_exists'.mp hmode
  obtain ⟨shown, hshown⟩ := exists_shown (hshow.imp_right And.left) p.display
  have hwritten := (Program.isWritten_of_source hsource).1
  simp only [run, hmode, hsource, display, hshown]
  exact code_runProgram hwatch hwritten (hshow.imp_right And.right) mode'

theorem run_of_source_error {file source mode : Bytes} {f : Failure}
    (hsource : Program.ofSource file source = .error f) (hmode : Mode.ofName? mode ≠ none) :
    (w.run watch file source mode).2 = some f := by
  obtain ⟨mode', hmode⟩ := Option.ne_none_iff_exists'.mp hmode
  simp only [run, hmode, hsource]

end Workbench

/-! ### The status of a source -/

/-- The status that a source deserves: it cannot be read, or it fails, or neither. -/
def sourceStatus (file text : Bytes) : ExitStatus :=
  match Program.ofSource file text with
  | .error _ => .unreadable
  | .ok p =>
    match (execute ⟨.unwatched, []⟩ p.toAction .empty).failure with
    | none => .ok
    | some _ => .failed

theorem sourceStatus_of_error {file text : Bytes} {f : Failure}
    (h : Program.ofSource file text = .error f) : sourceStatus file text = .unreadable := by
  rw [sourceStatus, h]

section Read

variable {file text : Bytes} {p : Program} (hsource : Program.ofSource file text = .ok p)
  {info : RunInfo} (hwatch : info.watch.cancelAt = none)

include hsource hwatch

/-- Who watches a run does not change how it fails. -/
theorem failure_execute_unwatched :
    (execute ⟨.unwatched, []⟩ p.toAction .empty).failure
      = (execute info p.toAction .empty).failure := by
  have hleaves := Program.ne_missing_of_mem_leaves (Program.isWritten_of_source hsource).1
  have hunwatched : (RunInfo.mk .unwatched []).watch.cancelAt = none := rfl
  rw [(execute_eq_course hunwatched hleaves .empty).2.2,
    (execute_eq_course hwatch hleaves .empty).2.2]

theorem sourceStatus_of_none (h : (execute info p.toAction .empty).failure = none) :
    sourceStatus file text = .ok := by
  simp only [sourceStatus, hsource, failure_execute_unwatched hsource hwatch, h]

theorem sourceStatus_of_some {f : Failure}
    (h : (execute info p.toAction .empty).failure = some f) :
    sourceStatus file text = .failed := by
  simp only [sourceStatus, hsource, failure_execute_unwatched hsource hwatch, h]

end Read

/-- Which status a source deserves. -/
theorem sourceStatus_iff (file text : Bytes) {info : RunInfo}
    (hwatch : info.watch.cancelAt = none) :
    ((sourceStatus file text).number = 2 ↔ ∃ f, Program.ofSource file text = .error f) ∧
      ((sourceStatus file text).number = 4 ↔ ∃ p f, Program.ofSource file text = .ok p ∧
        (execute info p.toAction .empty).failure = some f) ∧
      ((sourceStatus file text).number = 0 ↔ ∃ p, Program.ofSource file text = .ok p ∧
        (execute info p.toAction .empty).failure = none) := by
  cases hsource : Program.ofSource file text with
  | error f =>
    rw [sourceStatus_of_error hsource]
    simp [ExitStatus.number]
  | ok p =>
    cases hx : (execute info p.toAction .empty).failure with
    | some f =>
      rw [sourceStatus_of_some hsource hwatch hx]
      simp [ExitStatus.number, hx]
    | none =>
      rw [sourceStatus_of_none hsource hwatch hx]
      simp [ExitStatus.number, hx]

/-- Under another name a source is read as a program with the same effect. -/
theorem exists_ofSource_effect {file text : Bytes} {p : Program}
    (hp : Program.ofSource file text = .ok p) (file' : Bytes) {info : RunInfo}
    (hwatch : info.watch.cancelAt = none) (store : Store) :
    ∃ q, Program.ofSource file' text = .ok q ∧
      (execute info q.toAction store).effect = (execute info p.toAction store).effect := by
  obtain ⟨q, hq, herase⟩ := (Spells.of_source hp).exists_ofSource file'
  have hpwritten := (Program.isWritten_of_source hp).1
  have hqwritten := (Program.isWritten_of_source hq).1
  refine ⟨q, hq, ?_⟩
  rw [Program.effect_execute hwatch hpwritten, Program.effect_execute hwatch hqwritten]
  exact Action.effect_congr (fun a ha => (hqwritten a ha).isStatement)
    (fun a ha => (hpwritten a ha).isStatement) herase store

/-- The name under which a source is read has no part in its status. -/
theorem sourceStatus_eq (file file' text : Bytes) :
    sourceStatus file text = sourceStatus file' text := by
  have hwatch : (RunInfo.mk .unwatched []).watch.cancelAt = none := rfl
  cases hsource : Program.ofSource file text with
  | error f =>
    cases hsource' : Program.ofSource file' text with
    | error g => rw [sourceStatus_of_error hsource, sourceStatus_of_error hsource']
    | ok q =>
      obtain ⟨p, hp, -⟩ := exists_ofSource_effect hsource' file hwatch .empty
      rw [hsource] at hp
      cases hp
  | ok p =>
    obtain ⟨q, hq, heffect⟩ := exists_ofSource_effect hsource file' hwatch .empty
    have hfault : (execute ⟨.unwatched, []⟩ q.toAction .empty).failure.map Failure.fault
        = (execute ⟨.unwatched, []⟩ p.toAction .empty).failure.map Failure.fault :=
      congrArg Effect.fault heffect
    cases hx : (execute ⟨.unwatched, []⟩ p.toAction .empty).failure with
    | none =>
      rw [hx, Option.map_none, Option.map_eq_none_iff] at hfault
      rw [sourceStatus_of_none hsource hwatch hx, sourceStatus_of_none hq hwatch hfault]
    | some f =>
      rw [hx, Option.map_some] at hfault
      obtain ⟨g, hg, -⟩ := Option.map_eq_some_iff.mp hfault
      rw [sourceStatus_of_some hsource hwatch hx, sourceStatus_of_some hq hwatch hg]

/-! ### Commands -/

namespace Setup

variable {s : Setup} {flags : Flags} {file text : Bytes}

/-- Nothing but the source itself can make a run fail: what is to be written can be written, and the
flag for the mode, if it is given, names one. -/
structure CanRun (s : Setup) (flags : Flags) : Prop where
  write : s.CanWrite flags
  mode : flags.text .mode = [] ∨ ∃ mode : Mode, flags.text .mode = mode.name

section Read

variable {p : Program} (hsource : Program.ofSource file text = .ok p)
  (hmode : Mode.ofName? (s.runMode flags) ≠ none) (hwrite : s.CanWrite flags) {info : RunInfo}
  (hwatch : info.watch.cancelAt = none)

include hsource hmode hwrite hwatch

/-- A run of a source that is read fails as the interpreter does on its own. -/
theorem code_runSource :
    (s.runSource flags file text).2.map Failure.code
      = (execute info p.toAction .empty).failure.map Failure.code := by
  let own : RunInfo := ⟨⟨(s.runBench flags).traced, none⟩, (s.runBench flags).runId⟩
  have hown : own.watch.cancelAt = none := rfl
  rw [← failure_execute_unwatched hsource hwatch, failure_execute_unwatched hsource hown]
  exact Workbench.code_run hsource hown hmode hwrite.shown

theorem exists_failure_runSource {f : Failure}
    (hf : (execute info p.toAction .empty).failure = some f) :
    ∃ g, (s.runSource flags file text).2 = some g ∧ g.code = f.code := by
  have hcode := code_runSource hsource hmode hwrite hwatch
  rw [hf, Option.map_some] at hcode
  exact Option.map_eq_some_iff.mp hcode

end Read

/-- A run that does not fail ends well, if nothing else goes wrong. -/
theorem status_run_of_none (h : (s.runSource flags file text).2 = none)
    (hwrite : s.CanWrite flags) : (s.run flags file text).status = .ok := by
  obtain ⟨tree, htree⟩ := hwrite.trace (s.runSource flags file text).1.notices
  simp only [run, htree, h]
  rfl

/-- The command that runs a source ends with the status that the source deserves. -/
theorem status_run_eq (hmode : Mode.ofName? (s.runMode flags) ≠ none)
    (hwrite : s.CanWrite flags) : (s.run flags file text).status = sourceStatus file text := by
  cases hsource : Program.ofSource file text with
  | error f =>
    have hfailure : (s.runSource flags file text).2 = some f :=
      Workbench.run_of_source_error hsource hmode
    rw [status_run hfailure hwrite, sourceStatus_of_error hsource]
    exact ExitStatus.ofCode_of_isReading (Program.failsWithin_ofSource file text f hsource)
  | ok p =>
    have hwatch : (RunInfo.mk .unwatched []).watch.cancelAt = none := rfl
    have hcode := code_runSource hsource hmode hwrite hwatch
    cases hx : (execute ⟨.unwatched, []⟩ p.toAction .empty).failure with
    | none =>
      rw [hx, Option.map_none, Option.map_eq_none_iff] at hcode
      rw [status_run_of_none hcode hwrite, sourceStatus_of_none hsource hwatch hx]
    | some f =>
      obtain ⟨g, hg, hgf⟩ := exists_failure_runSource hsource hmode hwrite hwatch hx
      have hkind := isEvaluation_of_execute hwatch
        (Program.ne_missing_of_mem_leaves (Program.isWritten_of_source hsource).1) hx
      rw [status_run hg hwrite, sourceStatus_of_some hsource hwatch hx, hgf]
      exact ExitStatus.ofCode_of_isEvaluation hkind

/-- The command that compares both ways ends as for an unreadable source if the source cannot be
read. -/
theorem status_verify_of_error {f : Failure} (hsource : Program.ofSource file text = .error f) :
    (s.verify file text).status = .unreadable := by
  simp only [verify, hsource]
  exact ExitStatus.ofCode_of_isReading (Program.failsWithin_ofSource file text f hsource)

/-- If the source can be read, the two ways agree. -/
theorem status_verify_of_ok {p : Program} (hsource : Program.ofSource file text = .ok p) :
    (s.verify file text).status = .ok := by
  obtain ⟨trail, v, hv, hagree⟩ := s.bench.exists_agreement (Program.isWritten_of_source hsource).1
  simp only [verify, hsource, hv, hagree]
  rfl

end Setup

/-! ### Invocations -/

/-- The mode of settings in force is one. -/
theorem Settings.mode_of_effective {tree : FileTree} {flags : Flags} {settings : Settings}
    (h : effective tree flags = .ok settings) : Mode.ofName? settings.mode ≠ none := by
  rw [effective] at h
  obtain ⟨found, -, h⟩ := Result.bind_eq_ok.mp h
  obtain ⟨valid, hvalid, h⟩ := Result.bind_eq_ok.mp h
  cases h
  intro hnone
  rw [validate, hnone] at hvalid
  cases hvalid

/-- A legal flag for the mode, or none, gives a run a mode. -/
theorem Setup.CanRun.ofName?_runMode {s : Setup} {flags : Flags} (h : s.CanRun flags)
    (hsettings : Mode.ofName? s.settings.mode ≠ none) : Mode.ofName? (s.runMode flags) ≠ none := by
  rw [runMode]
  rcases h.mode with hempty | ⟨mode, hmode⟩
  · rw [hempty]
    exact hsettings
  · have hgiven : mode.name.isEmpty = false := by cases mode <;> rfl
    have hname : Mode.ofName? mode.name ≠ none := by cases mode <;> decide
    rw [hmode, hgiven]
    exact hname

namespace Invocation

/-- The words ask for a command with these flags and arguments, and not for help. -/
structure Asks (words : List Bytes) (globals : Flags) (c : Command) (flags : Flags)
    (args : List Bytes) : Prop where
  words : ∃ word rest, Flags.parse Flag.global words = (globals, .ok (word :: rest)) ∧
    Command.ofName? word = some c ∧ Flags.parse c.flags (Flags.gather rest) = (flags, .ok args)
  oneForm : Flags.twoForms? Flag.global globals = none ∧ Flags.twoForms? c.flags flags = none
  noHelp : globals.isOn .help = false ∧ flags.isOn .help = false

/-- The words ask for a command on a source that can be found, and the settings in force are
valid. -/
def Opens (around : Surroundings) (words : List Bytes) (c : Command) (s : Setup) (flags : Flags)
    (file text : Bytes) : Prop :=
  ∃ globals settings word, Asks words globals c flags [word] ∧
    Settings.effective around.tree globals = .ok settings ∧ s = .ofSettings around settings ∧
    s.source word = .ok (text, file)

variable {around : Surroundings} {words : List Bytes} {c : Command} {s : Setup} {flags : Flags}
  {file text : Bytes}

theorem run_of_asks {globals : Flags} {args : List Bytes} (h : Asks words globals c flags args) :
    run around words = command around globals flags args c := by
  obtain ⟨word, rest, hglobals, hc, hflags⟩ := h.words
  simp only [run, hglobals, h.oneForm.1, h.noHelp.1, hc, withCommand, hflags, h.oneForm.2,
    h.noHelp.2, Bool.false_eq_true, if_false]

/-- An invocation that opens a source obeys its command on it. -/
theorem run_of_opens (h : Opens around words c s flags file text) (hc : c ≠ .help) :
    ∃ word, run around words = c.obey s flags [word] ∧ s.source word = .ok (text, file) ∧
      Mode.ofName? s.settings.mode ≠ none := by
  obtain ⟨globals, settings, word, hasks, hsettings, rfl, hsource⟩ := h
  refine ⟨word, ?_, hsource, Settings.mode_of_effective hsettings⟩
  rw [run_of_asks hasks, command, if_neg hc, hsettings]

/-- The status of an invocation that runs a source. -/
theorem status_of_run (h : Opens around words .run s flags file text) (hrun : s.CanRun flags) :
    (run around words).status = sourceStatus file text := by
  obtain ⟨word, hobey, hsource, hmode⟩ := run_of_opens h (by decide)
  rw [hobey, Command.obey, Setup.withSource, hsource]
  exact Setup.status_run_eq (hrun.ofName?_runMode hmode) hrun.write

/-- An invocation that compares both ways on a source. -/
theorem run_verify (h : Opens around words .verify s flags file text) :
    run around words = s.verify file text := by
  obtain ⟨word, hobey, hsource, -⟩ := run_of_opens h (by decide)
  rw [hobey, Command.obey, Setup.withSource, hsource]

end Invocation

/-- **The program alone decides the exit status.** Take an invocation that runs a source that can be
found, with valid settings, a legal mode and outputs that can be written. It ends with 2 exactly if
the source cannot be read, with 4 exactly if it can be read and its run on an empty table fails, and
with 0 otherwise. A run fails because of an unbound name, a zero divisor or a negative number under
a root, and the invocation reports a failure of the same kind. Two invocations that run the same
text end alike, whatever their modes. An invocation that compares both ways ends with 2 exactly if
the source cannot be read and with 0 otherwise, hence never with 5. And no source whatever, on any
workbench and under any watch, makes a run, a compilation or a comparison fail because of a defect
of the tree, an empty stack or an unknown instruction. -/
theorem status_is_decided_by_the_program :
    (∀ around words s flags file text, Invocation.Opens around words .run s flags file text →
      s.CanRun flags → ∀ info : RunInfo, info.watch.cancelAt = none →
      let status := (Invocation.run around words).status.number
      (status = 2 ↔ ∃ f, Program.ofSource file text = .error f) ∧
      (status = 4 ↔ ∃ p f, Program.ofSource file text = .ok p ∧
        (execute info p.toAction .empty).failure = some f) ∧
      (status = 0 ↔ ∃ p, Program.ofSource file text = .ok p ∧
        (execute info p.toAction .empty).failure = none) ∧
      ∀ p f, Program.ofSource file text = .ok p →
        (execute info p.toAction .empty).failure = some f →
        (f.code = .unbound ∨ f.code = .divZero ∨ f.code = .negSqrt) ∧
        ∃ g, (s.runSource flags file text).2 = some g ∧ g.code = f.code) ∧
    (∀ around words s flags file around' words' s' flags' file' text,
      Invocation.Opens around words .run s flags file text → s.CanRun flags →
      Invocation.Opens around' words' .run s' flags' file' text → s'.CanRun flags' →
      (Invocation.run around words).status = (Invocation.run around' words').status) ∧
    (∀ around words s flags file text, Invocation.Opens around words .verify s flags file text →
      let status := (Invocation.run around words).status.number
      (status = 2 ↔ ∃ f, Program.ofSource file text = .error f) ∧
      (status = 0 ↔ ∃ p, Program.ofSource file text = .ok p) ∧ status ≠ 5) ∧
    ∀ (w : Workbench) (watch : Watch) (file source : Bytes),
      (∀ mode f, (w.run watch file source mode).2 = some f → f.code.isInternal = false) ∧
      (∀ f, (w.compileSource file source).2.2 = .error f → f.code.isInternal = false) ∧
      ∀ p, Program.ofSource file source = .ok p → ∃ v, (w.verify watch p).2 = .ok v ∧
        ∀ c, v.interpreter.code = some c ∨ v.machine.code = some c → c.isInternal = false := by
  refine ⟨?_, ?_, ?_, ?_⟩
  · intro around words s flags file text hopens hrun info hwatch status
    have hstatus : status = (sourceStatus file text).number :=
      congrArg ExitStatus.number (Invocation.status_of_run hopens hrun)
    obtain ⟨hunreadable, hfailed, hok⟩ := sourceStatus_iff file text hwatch
    rw [hstatus]
    refine ⟨hunreadable, hfailed, hok, fun p f hsource hf => ⟨?_, ?_⟩⟩
    · have hkind := Program.isRuntime_of_execute (Program.isWritten_of_source hsource).1 hwatch hf
      revert hkind
      cases f.code <;> decide
    · obtain ⟨word, -, -, hmode⟩ := Invocation.run_of_opens hopens (by decide)
      exact Setup.exists_failure_runSource hsource (hrun.ofName?_runMode hmode) hrun.write hwatch hf
  · intro around words s flags file around' words' s' flags' file' text hopens hrun hopens' hrun'
    rw [Invocation.status_of_run hopens hrun, Invocation.status_of_run hopens' hrun']
    exact sourceStatus_eq file file' text
  · intro around words s flags file text hopens status
    have hstatus : status = (s.verify file text).status.number := by
      rw [← Invocation.run_verify hopens]
    rw [hstatus]
    cases hsource : Program.ofSource file text with
    | error f =>
      rw [Setup.status_verify_of_error hsource]
      simp [ExitStatus.number]
    | ok p =>
      rw [Setup.status_verify_of_ok hsource]
      simp [ExitStatus.number]
  · intro w watch file source
    refine ⟨fun mode => w.run_not_internal watch file source mode, fun f hf => ?_,
      fun p hp => w.verify_not_internal watch (Program.isWritten_of_source hp).1⟩
    exact Code.not_internal_of_isReading (w.isReading_of_compileSource hf)

/-- A program that divides by zero is written in a file. Running the file ends with 4 in every mode,
and the comparison of both ways ends with 0. -/
theorem status_is_decided_by_the_program_division :
    let text : Bytes := ":= a 1 @ // a 0"
    let place (first last : Int) : Span := ⟨"p", 1, first, 1, last⟩
    let quotient : Expr :=
      .binary (place 10 16) "//" (.var (place 13 14) "a") (.const (place 15 16) 0)
    let first : Action := .assign (place 1 7) "a" (.const (place 6 7) 1)
    let p : Program := ⟨place 1 16, [first, .print (place 8 16) quotient]⟩
    let tree : FileTree := ⟨"/w", "/h", .ofList [("/w/p", text)], []⟩
    let around : Surroundings := ⟨.ok [], none, tree, "r", [], []⟩
    let words (mode : Mode) : List Bytes := ["run", "--mode", mode.name, "p"]
    Program.ofSource "p" text = .ok p ∧
      (∀ mode, (Invocation.run around (words mode)).status.number = 4) ∧
      (∀ mode mode', (Invocation.run around (words mode)).status
        = (Invocation.run around (words mode')).status) ∧
      (Invocation.run around ["verify", "p"]).status.number = 0 := by
  intro text place quotient first p tree around words
  let s : Setup := .ofSettings around .defaults
  let flags (mode : Mode) : Flags := [("mode", mode.name)]
  have hsource : Program.ofSource "p" text = .ok p := rfl
  have hsettings : Settings.effective tree [] = .ok .defaults := by decide +kernel
  have hfound : s.source "p" = .ok (text, "p") := by decide +kernel
  have hasks (mode : Mode) : Invocation.Asks (words mode) [] .run (flags mode) ["p"] := by
    refine ⟨⟨"run", (words mode).tail, ?_⟩, ?_, ?_⟩ <;> cases mode <;> decide +kernel
  have hverify : Invocation.Asks ["verify", "p"] [] .verify [] ["p"] :=
    ⟨⟨"verify", ["p"], by decide +kernel⟩, by decide, by decide⟩
  have hopens (mode : Mode) : Invocation.Opens around (words mode) .run s (flags mode) "p" text :=
    ⟨[], .defaults, "p", hasks mode, hsettings, rfl, hfound⟩
  have hcan (mode : Mode) : s.CanRun (flags mode) :=
    ⟨⟨.inl rfl, fun _ => ⟨_, rfl⟩⟩, .inr ⟨mode, rfl⟩⟩
  obtain ⟨hrun, hmodes, hcompare, -⟩ := status_is_decided_by_the_program
  refine ⟨hsource, fun mode => ?_, fun mode mode' => ?_, ?_⟩
  · refine (hrun _ _ _ _ _ _ (hopens mode) (hcan mode) ⟨.unwatched, []⟩ rfl).2.1.mpr ?_
    exact ⟨p, _, hsource, rfl⟩
  · exact hmodes _ _ _ _ _ _ _ _ _ _ _ (hopens mode) (hcan mode) (hopens mode') (hcan mode')
  · have hopened : Invocation.Opens around ["verify", "p"] .verify s [] "p" text :=
      ⟨[], .defaults, "p", hverify, hsettings, rfl, hfound⟩
    exact (hcompare _ _ _ _ _ _ hopened).2.1.mpr ⟨p, hsource⟩

end Polish
