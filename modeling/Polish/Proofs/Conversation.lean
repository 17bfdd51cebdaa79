import Polish.Session
import Polish.Proofs.Effect
import Polish.Proofs.Joining

/-!
# A session is one program

The lines of a session are read one by one, each for itself, and run on a table that outlives them.
If they hold statements only, this amounts to reading all of them as one source and running that:
a line ends where a statement may end, and a run leaves to the next what a longer run would have
there. A line that fails keeps what its statements did before, as a longer run does.

* `Session.turns`, `Session.after`: the turns of a session, and the session after them.
* `Session.Spoken`: the line is no command, and is read as this program.
* `Session.eval_of_spoken`: a turn leaves what the statements of its line leave.
* `Session.Carries`, `Session.carries_turns`: turns amount to an effect. The induction is on the
  lines; the table between two lines is the one that the statements so far have left.
* `Session.turns_eq_execute`: a session is the run of its joined lines.
-/

namespace Polish

/-- What is written of a text: nothing if every write fails. -/
def SessionInfo.written (info : SessionInfo) (text : Bytes) : Bytes :=
  if info.outputFault.isSome then [] else text

theorem SessionInfo.written_nil (info : SessionInfo) : info.written [] = [] := ite_self _

theorem SessionInfo.written_append (info : SessionInfo) (xs ys : Bytes) :
    info.written (xs ++ ys) = info.written xs ++ info.written ys := by
  unfold written
  split <;> rfl

namespace Session

/-- What lines do, one after the other. -/
def turns (info : SessionInfo) : List Bytes → Session → List Turn
  | [], _ => []
  | line :: lines, s => s.eval info line :: turns info lines (s.eval info line).session

/-- The session after some lines. -/
def after (info : SessionInfo) (lines : List Bytes) (s : Session) : Session :=
  lines.foldl (fun s line => (s.eval info line).session) s

variable {info : SessionInfo}

/-! ### One line -/

/-- The line is no command, and is read as this program. -/
structure Spoken (line : Bytes) (p : Program) : Prop where
  notCommand : isCommand line.trim = false
  reads : Program.ofSource fileName line.trim = .ok p

/-- A turn leaves what the statements of its line leave. -/
theorem eval_of_spoken (hwatch : info.watch.cancelAt = none) {line : Bytes} {p : Program}
    (h : Spoken line p) (s : Session) :
    let t := s.eval info line
    let x := Action.effect s.store p.actions
    t.session.store = x.store ∧ t.out = info.written x.output ∧
      t.failure.map Failure.fault = x.fault := by
  intro t x
  have ht : t = if line.trim.isEmpty then s.say info [] else s.statements info line.trim := by
    show eval info line s = _
    rw [eval, h.notCommand]
    rfl
  rw [ht]
  cases hempty : line.trim.isEmpty with
  | true =>
    -- a line without text is the program without statements
    have hreads := h.reads
    rw [List.isEmpty_iff.mp hempty] at hreads
    cases hreads
    exact ⟨rfl, rfl, rfl⟩
  | false =>
    have hwritten : p.IsWritten := (Program.isWritten_of_source h.reads).1
    obtain ⟨code, hcode⟩ := Program.exists_compile hwritten
    generalize hrun : execute ⟨{ info.watch with traced := false }, []⟩ p.toAction s.store = y
    have hy : y.effect = x := by
      rw [← hrun]
      exact Program.effect_execute hwatch hwritten s.store
    rw [if_neg (by decide), statements, h.reads]
    simp only [hcode, hrun]
    rw [← hy]
    exact ⟨rfl, rfl, rfl⟩

/-! ### Several lines -/

/-- What turns amount to. If nothing fails, no turn does, and the turns have written the text and
left the table. Otherwise this holds up to and with the first turn that fails. -/
def Carries (info : SessionInfo) (final : Store) (ts : List Turn) (x : Effect) : Prop :=
  match x.fault with
  | none => (∀ t ∈ ts, t.failure = none) ∧ ts.flatMap Turn.out = info.written x.output ∧
      final = x.store
  | some f => ∃ before t after, ts = before ++ t :: after ∧ (∀ u ∈ before, u.failure = none) ∧
      t.failure.map Failure.fault = some f ∧
      (before ++ [t]).flatMap Turn.out = info.written x.output ∧ t.session.store = x.store

/-- A turn that does not fail goes before the others. -/
theorem Carries.cons {final : Store} {t : Turn} {ts : List Turn} {prints : List Int64} {x : Effect}
    (hfailure : t.failure = none)
    (hout : t.out = info.written (prints.flatMap Execution.printLine))
    (h : Carries info final ts x) : Carries info final (t :: ts) (x.after prints) := by
  have houtput : info.written (x.after prints).output = t.out ++ info.written x.output := by
    rw [hout, ← SessionInfo.written_append, Effect.output_after]
  unfold Carries at h ⊢
  show match x.fault with
    | none => _
    | some f => _
  cases hfault : x.fault with
  | none =>
    rw [hfault] at h
    obtain ⟨hfailures, houts, hstore⟩ := h
    exact ⟨List.forall_mem_cons.mpr ⟨hfailure, hfailures⟩,
      by rw [List.flatMap_cons, houts, houtput], hstore⟩
  | some f =>
    rw [hfault] at h
    obtain ⟨before, u, rest, rfl, hbefore, hf, houts, hstore⟩ := h
    exact ⟨t :: before, u, rest, rfl, List.forall_mem_cons.mpr ⟨hfailure, hbefore⟩, hf,
      by rw [List.cons_append, List.flatMap_cons, houts, houtput], hstore⟩

/-- **Several lines.** The turns of lines amount to what their statements, one line after the other,
leave. -/
theorem carries_turns (hwatch : info.watch.cancelAt = none) {lines : List Bytes}
    {ps : List Program} (h : List.Forall₂ Spoken lines ps) (s : Session) :
    Carries info (s.after info lines).store (s.turns info lines)
      (Action.effect s.store (ps.flatMap Program.actions)) := by
  induction h generalizing s with
  | nil => exact ⟨by simp [turns], info.written_nil.symm, rfl⟩
  | @cons line p lines ps hline hlines ih =>
    obtain ⟨hstore, hout, hfault⟩ := eval_of_spoken hwatch hline s
    rw [List.flatMap_cons, Action.effect_append, turns]
    cases hx : (Action.effect s.store p.actions).fault with
    | some f =>
      -- the lines after this one do not matter
      rw [Effect.andThen_of_fault hx, Carries, hx]
      refine ⟨[], _, _, rfl, by simp, hfault.trans hx, ?_, hstore⟩
      rw [List.nil_append, List.flatMap_singleton, hout]
    | none =>
      rw [Effect.andThen_of_none hx, ← hstore]
      rw [hx, Option.map_eq_none_iff] at hfault
      exact (ih (s.eval info line).session).cons hfault hout

/-- Lines that are read, under any file name, say something. -/
theorem exists_spoken {lines : List Bytes}
    (hcommand : ∀ line ∈ lines, isCommand line.trim = false)
    (hreads : ∀ line ∈ lines, line.trim = [] ∨ ∃ file p, Program.ofSource file line.trim = .ok p) :
    ∃ ps, List.Forall₂ Spoken lines ps := by
  induction lines with
  | nil => exact ⟨[], .nil⟩
  | cons line lines ih =>
    obtain ⟨hnot, hcommand⟩ := List.forall_mem_cons.mp hcommand
    obtain ⟨hline, hreads⟩ := List.forall_mem_cons.mp hreads
    obtain ⟨ps, hps⟩ := ih hcommand hreads
    have hspoken : ∃ p, Program.ofSource fileName line.trim = .ok p := by
      rcases hline with hempty | ⟨file, q, hq⟩
      · rw [hempty]
        exact ⟨_, rfl⟩
      · obtain ⟨p, hp, -⟩ := (Spells.of_source hq).exists_ofSource fileName
        exact ⟨p, hp⟩
    obtain ⟨p, hp⟩ := hspoken
    exact ⟨p :: ps, .cons ⟨hnot, hp⟩ hps⟩

theorem isStatement_of_spoken {lines : List Bytes} {ps : List Program}
    (h : List.Forall₂ Spoken lines ps) : ∀ a ∈ ps.flatMap Program.actions, a.IsStatement := by
  induction h with
  | nil => simp
  | cons hspoken _ ih =>
    have hwritten := (Program.isWritten_of_source hspoken.reads).1
    rw [List.flatMap_cons, List.forall_mem_append]
    exact ⟨fun a ha => (hwritten a ha).isStatement, ih⟩

/-- The joined lines are read as a program with the effect of their statements. -/
theorem exists_ofSource_of_spoken {lines : List Bytes} {ps : List Program}
    (h : List.Forall₂ Spoken lines ps) (file : Bytes) :
    ∃ p, Program.ofSource file (Bytes.join "\n" (lines.map Bytes.trim)) = .ok p ∧
      ∀ (run : RunInfo) (store : Store), run.watch.cancelAt = none →
        (execute run p.toAction store).effect
          = Action.effect store (ps.flatMap Program.actions) := by
  have hparts : List.Forall₂ (fun part p => Program.ofSource fileName part = .ok p)
      (lines.map Bytes.trim) ps :=
    List.forall₂_map_left_iff.mpr (h.imp fun line p hspoken => hspoken.reads)
  obtain ⟨p, hp, herase⟩ := Program.exists_ofSource_join hparts file
  have hwritten : p.IsWritten := (Program.isWritten_of_source hp).1
  refine ⟨p, hp, fun run store hrun => ?_⟩
  rw [Program.effect_execute hrun hwritten]
  exact Action.effect_congr (fun a ha => (hwritten a ha).isStatement) (isStatement_of_spoken h)
    herase store

/-- **A session is one program.** Take lines that are no commands once they are trimmed, and that
are then empty or can be read, each for itself. Joined by line feeds they can be read, too, under
every file name. If nobody cancels the session, and the run of that program on an empty table
succeeds, then no line of a new session fails, and the session writes the text and leaves the table
of that run. If the run fails, the first line that fails has a failure with the same code, message
and value, and the text and the table are at that moment those that the run leaves. -/
theorem turns_eq_execute (hwatch : info.watch.cancelAt = none) {lines : List Bytes}
    (hcommand : ∀ line ∈ lines, isCommand line.trim = false)
    (hreads : ∀ line ∈ lines, line.trim = [] ∨ ∃ file p, Program.ofSource file line.trim = .ok p)
    (file : Bytes) :
    ∃ p, Program.ofSource file (Bytes.join "\n" (lines.map Bytes.trim)) = .ok p ∧
      ∀ run : RunInfo, run.watch.cancelAt = none →
        let x := execute run p.toAction .empty
        let ts := start.turns info lines
        (x.failure = none →
          (∀ t ∈ ts, t.failure = none) ∧ ts.flatMap Turn.out = info.written x.output ∧
          (start.after info lines).store = x.progress.store) ∧
        ∀ f, x.failure = some f →
          ∃ before t after, ts = before ++ t :: after ∧ (∀ u ∈ before, u.failure = none) ∧
            (∃ g, t.failure = some g ∧ g.code = f.code ∧ g.fault.message = f.fault.message ∧
              g.fault.value? = f.fault.value?) ∧
            (before ++ [t]).flatMap Turn.out = info.written x.output ∧
            t.session.store = x.progress.store := by
  obtain ⟨ps, hspoken⟩ := exists_spoken hcommand hreads
  obtain ⟨p, hp, heffect⟩ := exists_ofSource_of_spoken hspoken file
  refine ⟨p, hp, fun run hrun => ?_⟩
  intro x ts
  have hcarries : Carries info _ ts _ := carries_turns hwatch hspoken start
  have hx : Action.effect start.store (ps.flatMap Program.actions) = x.effect :=
    (heffect run .empty hrun).symm
  have hfault : x.effect.fault = x.failure.map Failure.fault := rfl
  rw [hx, Carries, hfault] at hcarries
  refine ⟨fun hnone => ?_, fun f hf => ?_⟩
  · rw [hnone] at hcarries
    exact hcarries
  · rw [hf] at hcarries
    obtain ⟨before, t, after, hts, hbefore, hfault, hout, hstore⟩ := hcarries
    obtain ⟨g, hg, hgf⟩ := Option.map_eq_some_iff.mp hfault
    refine ⟨before, t, after, hts, hbefore, ⟨g, hg, ?_, ?_, ?_⟩, hout, hstore⟩
    · rw [Failure.code, Failure.code, hgf]
    · rw [hgf]
    · rw [hgf]

/-- Four lines, the first with a comment and the second blank: the third prints 6 and then divides
by zero, and so does the program of all four. -/
theorem turns_eq_execute_division :
    let info : SessionInfo := ⟨none, ⟨[]⟩, .unwatched, ⟨false, false⟩⟩
    let lines : List Bytes := [" := a 6;six", "\t", "@ a @ // a 0", "@ 1"]
    let place (line first last : Int) : Span := ⟨"f", line, first, line, last⟩
    let p : Program := ⟨⟨"f", 1, 1, 4, 4⟩, [.assign (place 1 1 7) "a" (.const (place 1 6 7) 6),
      .print (place 3 1 4) (.var (place 3 3 4) "a"),
      .print (place 3 5 13) (.binary (place 3 7 13) "//" (.var (place 3 10 11) "a")
        (.const (place 3 12 13) 0)),
      .print (place 4 1 4) (.const (place 4 3 4) 1)]⟩
    (∀ line ∈ lines, isCommand line.trim = false) ∧
      (∀ line ∈ lines, line.trim = [] ∨ ∃ file p, Program.ofSource file line.trim = .ok p) ∧
      Program.ofSource "f" (Bytes.join "\n" (lines.map Bytes.trim)) = .ok p ∧
      ∃ before t after, start.turns info lines = before ++ t :: after ∧
        (∀ u ∈ before, u.failure = none) ∧
        (∃ g, t.failure = some g ∧ g.code = .divZero ∧ g.fault.value? = some (.text "6/0")) ∧
        (before ++ [t]).flatMap Turn.out = "=== 6\n" := by
  intro info lines place p
  have hcommand : ∀ line ∈ lines, isCommand line.trim = false := by decide
  have hreads : ∀ line ∈ lines,
      line.trim = [] ∨ ∃ file p, Program.ofSource file line.trim = .ok p := by
    simp only [lines, List.forall_mem_cons]
    exact ⟨.inr ⟨[], _, rfl⟩, .inl rfl, .inr ⟨[], _, rfl⟩, .inr ⟨[], _, rfl⟩, by simp⟩
  have hwatch : info.watch.cancelAt = none := rfl
  have hp : Program.ofSource "f" (Bytes.join "\n" (lines.map Bytes.trim)) = .ok p := rfl
  have hfailure : (execute ⟨.unwatched, []⟩ p.toAction .empty).failure
      = some ⟨.divisionByZero 6, some (place 3 7 13)⟩ := rfl
  have houtput : (execute ⟨.unwatched, []⟩ p.toAction .empty).output = "=== 6\n" := rfl
  obtain ⟨q, hq, hsession⟩ := turns_eq_execute hwatch hcommand hreads "f"
  obtain rfl : p = q := Except.ok.inj (hp.symm.trans hq)
  obtain ⟨before, t, after, hts, hbefore, ⟨g, hg, hcode, -, hvalue⟩, hout, -⟩ :=
    (hsession ⟨.unwatched, []⟩ rfl).2 _ hfailure
  exact ⟨hcommand, hreads, hp, before, t, after, hts, hbefore, ⟨g, hg, hcode, hvalue⟩,
    hout.trans houtput⟩

end Session

end Polish
