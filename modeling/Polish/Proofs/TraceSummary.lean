import Polish.Proofs.Influence
import Polish.Proofs.Sizes
import Polish.Proofs.Status

/-!
# The summary of a trace reports what happened

The trace of a run is read back event by event, and each event tells the summary what the statement
or the instruction did: the end of a statement whether it assigned a name or printed a value, an
instruction its mnemonic and the depth of the stack. So the summary of the trace of a run, whether
it fails or not, has the counts of what the run did.

* `Activity`, `Workbench.activity`: the statements that a run completes, what it prints, and the
  instructions it executes. Events play no part in it.
* `Summary.Reports`: the summary has the counts of an activity.
* `Summary.Reports.add_endEvent`, `Summary.Reports.add_step`: what one event does to a summary.
* `Tells`: what a list of events does to a summary, whatever their times; `tells_execute`,
  `tells_run` for the events of runs.
* `Setup.summary_reports_run`: the summary of a trace reports the run.
-/

namespace Polish

/-! ### Tallies -/

/-- The tally has how often each name occurs in the list, and no names that do not. -/
def Tallies (tally : NameMap Nat) (names : List Bytes) : Prop :=
  ∀ name, tally.get? name = if names.count name = 0 then none else some (names.count name)

theorem tallies_empty : Tallies .empty [] := fun _ => rfl

theorem Tallies.count {tally : NameMap Nat} {names : List Bytes} (h : Tallies tally names)
    (name : Bytes) : Tallies (Summary.count tally name) (names ++ [name]) := by
  intro other
  rw [Summary.count, NameMap.get?_put, List.count_append]
  by_cases hother : other = name
  · subst hother
    rw [if_pos rfl, List.count_singleton_self, if_neg (Nat.succ_ne_zero _), h other]
    by_cases hzero : names.count other = 0
    · rw [if_pos hzero, hzero]
      rfl
    · rw [if_neg hzero]
      rfl
  · have hsingle : List.count other [name] = 0 :=
      List.count_eq_zero_of_not_mem fun hmem => hother (List.mem_singleton.mp hmem)
    rw [if_neg hother, hsingle, Nat.add_zero]
    exact h other

/-! ### What a run does -/

/-- The mnemonic of an instruction; for an opcode without operation, what is shown in its place. -/
def Instr.mnemonic (i : Instr) : Bytes :=
  match i.operation? with
  | none => unknownMnemonic
  | some o => o.mnemonic

/-- What a run does. -/
structure Activity where
  /-- The statements that the interpreter completes, each with its value. -/
  completed : Steps
  /-- The values that the interpreter prints. -/
  prints : List Int64
  /-- The instructions that the machine executes. -/
  executed : List StepEvent

namespace Activity

/-- Nothing. -/
def idle : Activity := ⟨[], [], []⟩

/-- More statements complete. -/
def complete (x : Activity) (steps : Steps) : Activity :=
  { x with completed := x.completed ++ steps, prints := x.prints ++ steps.printed }

/-- More instructions are executed. -/
def execute (x : Activity) (steps : List StepEvent) : Activity :=
  { x with executed := x.executed ++ steps }

theorem complete_nil (x : Activity) : x.complete [] = x := by
  rw [complete, List.append_nil]
  show { x with prints := x.prints ++ [] } = x
  rw [List.append_nil]

theorem complete_cons (x : Activity) (step : Action × Int64) (steps : Steps) :
    x.complete (step :: steps) = (x.complete [step]).complete steps := by
  have hprinted : Steps.printed (step :: steps) = Steps.printed [step] ++ Steps.printed steps := by
    simp [Steps.printed]
  simp only [complete, hprinted, List.append_assoc, List.singleton_append]

theorem execute_nil (x : Activity) : x.execute [] = x := by
  rw [execute, List.append_nil]

theorem execute_cons (x : Activity) (e : StepEvent) (es : List StepEvent) :
    x.execute (e :: es) = (x.execute [e]).execute es := by
  simp only [execute, List.append_assoc, List.singleton_append]

end Activity

/-! ### Texts in events -/

theorem Bytes.StartsSolid.cleaned_eq {t : Bytes} (h : t.StartsSolid) : t.cleaned = t := by
  obtain ⟨c, cs, rfl, -⟩ := h
  rw [cleaned, chars_ofChars]

theorem Bytes.StartsSolid.line {m w : Bytes} (hm : m.StartsSolid) (hw : w.StartsSolid) :
    (m ++ "\t" ++ w).StartsSolid := by
  obtain ⟨c, cs, rfl, hc⟩ := hm
  obtain ⟨d, ds, rfl, -⟩ := hw
  rw [line_ofChars]
  exact ⟨c, cs ++ '\t' :: d :: ds, rfl, hc⟩

/-- The line of an instruction is text, and its first word is the mnemonic. -/
theorem Instr.IsProper.fields_text {i : Instr} (h : i.IsProper) :
    i.text.cleaned = i.text ∧ ∃ rest, i.text.fields = i.mnemonic :: rest := by
  cases h with
  | @plain o ho =>
    obtain ⟨hstart, hsolid⟩ := o.startsSolid_mnemonic
    have hmnemonic : (Instr.plain o).mnemonic = o.mnemonic := by
      rw [mnemonic, operation?, Instr.plain, Operation.ofNumber?_number]
    rw [text_plain ho, hmnemonic]
    exact ⟨hstart.cleaned_eq, [], Bytes.fields_of_isSolid hstart hsolid⟩
  | push v =>
    obtain ⟨hstart, hsolid⟩ := Operation.push.startsSolid_mnemonic
    have hnumber := (Decimal.startsSolid_ofInt64 v).1
    rw [text_push]
    exact ⟨(hstart.line hnumber).cleaned_eq, _, Bytes.fields_line hstart hsolid hnumber⟩
  | @named o name ho hname =>
    obtain ⟨hstart, hsolid⟩ := o.startsSolid_mnemonic
    have hmnemonic : mnemonic ⟨o.number, 0, name⟩ = o.mnemonic := by
      rw [mnemonic, operation?, Operation.ofNumber?_number]
    rw [text_named ho, hmnemonic]
    exact ⟨(hstart.line hname.startsSolid).cleaned_eq, _,
      Bytes.fields_line hstart hsolid hname.startsSolid⟩

theorem Decimal.cleaned_ofInt64 (v : Int64) : (ofInt64 v).cleaned = ofInt64 v :=
  (startsSolid_ofInt64 v).1.cleaned_eq

/-- A small number is written and read as one of 64 bits. -/
theorem Decimal.exists_ofInt64 {n : Nat} (h : n ≤ maxConstant) :
    ∃ v : Int64, v.toInt = n ∧ ofNat n = ofInt64 v := by
  unfold maxConstant at h
  have hvalue : (Int64.ofInt n).toInt = n := Int64.toInt_ofInt_of_le (by omega) (by omega)
  exact ⟨Int64.ofInt n, hvalue, (ofInt64_of_toInt_eq hvalue).symm⟩

namespace Summary

/-- The summary counts so many events, and says of the activity how many statements completed, how
often each name was assigned, what was printed, how many instructions were executed, how often each
mnemonic, and how deep the stack was at most. -/
structure Reports (s : Summary) (x : Activity) (events : Nat) : Prop where
  totalEvents : s.totalEvents = events
  statements : s.statements = x.completed.length
  assignments : Tallies s.assignments (x.completed.flatMap fun step => step.1.assigned)
  prints : s.prints = x.prints
  machineSteps : s.machineSteps = x.executed.length
  opsByName : Tallies s.opsByName (x.executed.map fun e => e.instr.mnemonic)
  maxDepth : s.maxDepth = ((x.executed.map StepEvent.depth).foldl max 0 : Nat)

theorem reports_blank : blank.Reports .idle 0 :=
  ⟨rfl, rfl, tallies_empty, rfl, rfl, tallies_empty, rfl⟩

/-! ### One event -/

/-- Every event is counted, and names the run if none did before. -/
def counted (s : Summary) (e : TraceEntry) : Summary :=
  { s with totalEvents := s.totalEvents + 1,
           runId := if s.runId.isEmpty then e.runId else s.runId }

theorem add_of_stmtEnd (s : Summary) {e : TraceEntry} (h : e.kind = EventKind.stmtEnd.name) :
    s.add e = (s.counted e).addStatement e := by
  rw [add, h]
  rfl

theorem add_of_machineStep (s : Summary) {e : TraceEntry}
    (h : e.kind = EventKind.machineStep.name) : s.add e = (s.counted e).addStep e := by
  rw [add, h]
  rfl

namespace Reports

variable {s : Summary} {x : Activity} {n : Nat}

theorem counted (h : s.Reports x n) (e : TraceEntry) : (s.counted e).Reports x (n + 1) :=
  { h with totalEvents := congrArg (· + 1) h.totalEvents }

/-- The start or end of a run and the start of a statement are counted, and that is all. -/
theorem add_quiet (h : s.Reports x n) {e : TraceEntry} (hstatement : e.kind ≠ EventKind.stmtEnd.name)
    (hstep : e.kind ≠ EventKind.machineStep.name) : (s.add e).Reports x (n + 1) := by
  have hcounted := h.counted e
  unfold add
  simp only [if_neg hstatement, if_neg hstep]
  split
  · exact { hcounted with }
  · split
    · exact { hcounted with }
    · exact hcounted

/-- The end of a statement is told from what it reports: an assignment has a name. -/
theorem add_endEvent (h : s.Reports x n) (time runId : Bytes) {a : Action} (ha : a.IsStatement)
    (hnames : ∀ name ∈ a.assigned, name.isWellFormed = true) (v : Int64) :
    (s.add ((a.endEvent runId v).entry time)).Reports (x.complete [(a, v)]) (n + 1) := by
  rw [add_of_stmtEnd s rfl]
  have hcounted := h.counted ((a.endEvent runId v).entry time)
  generalize s.counted _ = t at hcounted ⊢
  -- whatever the statement is, it is one more
  have hstatements : t.statements + 1 = (x.complete [(a, v)]).completed.length := by
    rw [hcounted.statements, Activity.complete, List.length_append]
    rfl
  have hassigned : (x.complete [(a, v)]).completed.flatMap (fun step => step.1.assigned)
      = x.completed.flatMap (fun step => step.1.assigned) ++ a.assigned := by
    rw [Activity.complete, List.flatMap_append, List.flatMap_singleton]
  cases a with
  | missing | seq => exact ha.elim
  | assign span target rhs =>
    have htarget : target.cleaned = target :=
      Bytes.cleaned_of_isWellFormed (hnames target List.mem_cons_self)
    have hname : (((Action.assign span target rhs).endEvent runId v).entry time).data.get? "name"
        = some target := by
      show ((NameMap.empty.put "name" target.cleaned).put "value" _).get? "name" = some target
      rw [NameMap.get?_put, if_neg (by decide), NameMap.get?_put_self, htarget]
    have hprints : (x.complete [(Action.assign span target rhs, v)]).prints = x.prints :=
      List.append_nil _
    simp only [addStatement, hname]
    refine { hcounted with statements := hstatements, assignments := ?_, prints := ?_ }
    · rw [hassigned]
      exact hcounted.assignments.count target
    · rw [hprints]
      exact hcounted.prints
  | print span e =>
    have hname : (((Action.print span e).endEvent runId v).entry time).data.get? "name" = none := rfl
    have hvalue : detail (((Action.print span e).endEvent runId v).entry time) "value"
        = Decimal.ofInt64 v := Decimal.cleaned_ofInt64 v
    simp only [addStatement, hname, hvalue, Decimal.readInt64?_ofInt64]
    refine { hcounted with statements := hstatements, assignments := ?_, prints := ?_ }
    · rw [hassigned]
      show Tallies t.assignments (_ ++ [])
      rw [List.append_nil]
      exact hcounted.assignments
    · show t.prints ++ [v] = x.prints ++ [v]
      rw [hcounted.prints]

/-- An instruction is told from its line, and the stack from its depth. -/
theorem add_step (h : s.Reports x n) (time runId : Bytes) {e : StepEvent}
    (hproper : e.instr.IsProper) (hdepth : e.depth ≤ Decimal.maxConstant) :
    (s.add ((e.toEvent runId).entry time)).Reports (x.execute [e]) (n + 1) := by
  rw [add_of_machineStep s rfl]
  have hcounted := h.counted ((e.toEvent runId).entry time)
  generalize s.counted _ = t at hcounted ⊢
  obtain ⟨htext, rest, hfields⟩ := hproper.fields_text
  -- the depth is small, so it is read back as it was written
  obtain ⟨d, hd, hnumber⟩ := Decimal.exists_ofInt64 hdepth
  have hdata : ((e.toEvent runId).entry time).data
      = ((NameMap.empty.put "depth" (Decimal.ofNat e.depth).cleaned).put "instr"
        e.instr.text.cleaned).put "pc" (Decimal.ofNat e.pc).cleaned := rfl
  have hinstr : (detail ((e.toEvent runId).entry time) "instr").fields
      = e.instr.mnemonic :: rest := by
    rw [detail, hdata, NameMap.get?_put, if_neg (by decide), NameMap.get?_put_self, htext]
    exact hfields
  have hread : Decimal.readInt64? (detail ((e.toEvent runId).entry time) "depth") = some d := by
    rw [detail, hdata, NameMap.get?_put, if_neg (by decide), NameMap.get?_put, if_neg (by decide),
      NameMap.get?_put_self, hnumber, Decimal.cleaned_ofInt64]
    exact Decimal.readInt64?_ofInt64 d
  rw [addStep, hinstr, hread]
  refine { hcounted with machineSteps := ?_, opsByName := ?_, maxDepth := ?_ }
  · show t.machineSteps + 1 = (x.executed ++ [e]).length
    rw [hcounted.machineSteps, List.length_append, List.length_singleton]
  · show Tallies (count t.opsByName e.instr.mnemonic) ((x.executed ++ [e]).map _)
    rw [List.map_append]
    exact hcounted.opsByName.count e.instr.mnemonic
  · show max t.maxDepth d.toInt = (((x.executed ++ [e]).map StepEvent.depth).foldl max 0 : Nat)
    rw [hcounted.maxDepth, hd, List.map_append, List.map_singleton, List.foldl_concat]
    exact (Nat.cast_max ..).symm

end Reports

end Summary

/-! ### Lists of events -/

/-- A summary that reports the first activity and takes the events into account, whatever their
times, reports the second one. -/
def Tells (events : List Event) (x y : Activity) : Prop :=
  ∀ (s : Summary) (n : Nat) (stamped : List (Bytes × Event)), stamped.map Prod.snd = events →
    s.Reports x n →
    (stamped.foldl (fun s e => s.add (e.2.entry e.1)) s).Reports y (n + events.length)

namespace Tells

variable {x y z : Activity} {events more : List Event}

theorem nil (x : Activity) : Tells [] x x := by
  intro s n stamped hstamped hs
  rw [List.map_eq_nil_iff.mp hstamped]
  exact hs

theorem append (hx : Tells events x y) (hy : Tells more y z) : Tells (events ++ more) x z := by
  intro s n stamped hstamped hs
  obtain ⟨first, rest, rfl, hfirst, hrest⟩ := List.map_eq_append_iff.mp hstamped
  rw [List.foldl_append, List.length_append, ← Nat.add_assoc]
  exact hy _ _ rest hrest (hx s n first hfirst hs)

theorem single {e : Event} (h : ∀ {s : Summary} {n : Nat} (time : Bytes), s.Reports x n →
    (s.add (e.entry time)).Reports y (n + 1)) : Tells [e] x y := by
  intro s n stamped hstamped hs
  obtain ⟨⟨time, e'⟩, rest, rfl, rfl, hrest⟩ := List.map_eq_cons_iff.mp hstamped
  rw [List.map_eq_nil_iff.mp hrest]
  exact h time hs

/-- Events about the start of something, or about the end of the run. -/
theorem quiet (x : Activity)
    (h : ∀ e ∈ events, e.kind = .runStart ∨ e.kind = .runEnd ∨ e.kind = .stmtStart) :
    Tells events x x := by
  induction events with
  | nil => exact nil x
  | cons e events ih =>
    obtain ⟨he, hevents⟩ := List.forall_mem_cons.mp h
    have hkind : e.kind.name ≠ EventKind.stmtEnd.name ∧ e.kind.name ≠ EventKind.machineStep.name := by
      rcases he with he | he | he <;> rw [he] <;> decide
    have hfirst : Tells [e] x x := single fun time hs => hs.add_quiet hkind.1 hkind.2
    exact hfirst.append (ih hevents)

/-- The events of completed statements tell that they complete. -/
theorem statements (runId : Bytes) {steps : Steps}
    (h : ∀ step ∈ steps, step.1.IsStatement ∧ ∀ name ∈ step.1.assigned, name.isWellFormed = true)
    (x : Activity) : Tells (steps.events runId) x (x.complete steps) := by
  induction steps generalizing x with
  | nil =>
    rw [Activity.complete_nil]
    exact nil x
  | cons step steps ih =>
    obtain ⟨⟨hstatement, hnames⟩, hsteps⟩ := List.forall_mem_cons.mp h
    have hstart : Tells [step.1.startEvent runId] x x := quiet x (by simp [Action.startEvent])
    have hend : Tells [step.1.endEvent runId step.2] x (x.complete [step]) :=
      single fun time hs => hs.add_endEvent time runId hstatement hnames step.2
    rw [Activity.complete_cons]
    exact (hstart.append hend).append (ih hsteps (x.complete [step]))

/-- The events of executed instructions tell that they are executed. -/
theorem instructions (runId : Bytes) {es : List StepEvent}
    (h : ∀ e ∈ es, e.instr.IsProper ∧ e.depth ≤ Decimal.maxConstant) (x : Activity) :
    Tells (es.map (StepEvent.toEvent runId)) x (x.execute es) := by
  induction es generalizing x with
  | nil =>
    rw [Activity.execute_nil]
    exact nil x
  | cons e es ih =>
    obtain ⟨⟨hproper, hdepth⟩, hes⟩ := List.forall_mem_cons.mp h
    have hfirst : Tells [e.toEvent runId] x (x.execute [e]) :=
      single fun time hs => hs.add_step time runId hproper hdepth
    rw [Activity.execute_cons]
    exact hfirst.append (ih hes (x.execute [e]))

end Tells

/-! ### The interpreter and the machine -/

namespace Program

variable {file source : Bytes} {p : Program} (hsource : ofSource file source = .ok p)

/-- The statements that complete when the interpreter runs the program, each with its value. -/
def completed (p : Program) : Steps := p.actions.zip (Action.course .empty p.actions).values

/-- The instructions that the machine executes when it runs the program's code. -/
def executed (p : Program) : List StepEvent :=
  match p.compile with
  | .error _ => []
  | .ok code => (Machine.run .unwatched 0 code).steps

include hsource

theorem isName_of_mem_assigned : ∀ a ∈ p.actions, ∀ name ∈ a.assigned, IsName name := by
  obtain ⟨ts, hproper, hreads⟩ := ofSource_spec hsource
  intro a ha name hname
  obtain ⟨part, hpart, hstatement⟩ := hreads.exists_infix a ha
  cases hstatement with
  | assign _ htarget _ =>
    rw [List.mem_singleton.mp hname]
    exact (hproper _ (hpart.subset (by simp))).isName htarget
  | print => cases hname

/-- The events of the interpreter: the start of the run, start and end of the statements that
complete, the start of one that fails, and the end of the run. -/
theorem exists_events (runId : Bytes) :
    ∃ begun : List Action, (∀ a ∈ begun, a ∈ p.actions) ∧
      (execute ⟨⟨true, none⟩, runId⟩ p.toAction .empty).progress.events
        = [p.toAction.runEvent runId .runStart] ++ (p.completed.events runId
          ++ begun.map (Action.startEvent runId) ++ [p.toAction.runEvent runId .runEnd]) := by
  have hwritten := (isWritten_of_source hsource).1
  have htraced : (RunInfo.mk ⟨true, none⟩ runId).watch.traced = true := rfl
  obtain ⟨extra, hevents, hown, hnone⟩ :=
    execute_events htraced (ne_missing_of_mem_leaves hwritten) .empty
  rw [leaves_toAction hwritten] at hevents hown hnone
  -- nobody stops the run, so all statements that have values complete
  have hall : (p.actions.zip (Action.course .empty p.actions).values).take
      (Watch.limit ⟨true, none⟩
        (min (Action.course .empty p.actions).values.length p.actions.length)) = p.completed := by
    apply List.take_of_length_le
    rw [List.length_zip, Nat.min_comm]
    exact Nat.le_refl _
  rw [hevents, hall]
  by_cases hfails : (Action.course .empty p.actions).values.length + 1 ≤ p.actions.length ∧
      Watch.Reaches ⟨true, none⟩ ((Action.course .empty p.actions).values.length + 1)
  · refine ⟨p.actions[(Action.course .empty p.actions).values.length]?.toList, ?_, ?_⟩
    · intro a ha
      exact List.mem_of_getElem? (Option.mem_toList.mp ha)
    · rw [hown hfails]
      rfl
  · refine ⟨[], by simp, ?_⟩
    rw [hnone hfails]
    rfl

/-- The events of the interpreter tell which statements complete. -/
theorem tells_execute (runId : Bytes) (x : Activity) :
    Tells (execute ⟨⟨true, none⟩, runId⟩ p.toAction .empty).progress.events x
      (x.complete p.completed) := by
  obtain ⟨begun, -, hevents⟩ := exists_events hsource runId
  have hsteps : ∀ step ∈ p.completed, step.1.IsStatement ∧
      ∀ name ∈ step.1.assigned, name.isWellFormed = true := by
    intro step hstep
    have hmem : step.1 ∈ p.actions := (List.of_mem_zip hstep).1
    exact ⟨((isWritten_of_source hsource).1 _ hmem).isStatement,
      fun name hname => (isName_of_mem_assigned hsource _ hmem name hname).wellFormed⟩
  have hstart : Tells [p.toAction.runEvent runId .runStart] x x :=
    .quiet x (by simp [Action.runEvent])
  have hbegun : Tells (begun.map (Action.startEvent runId)) (x.complete p.completed)
      (x.complete p.completed) := .quiet _ (by simp [Action.startEvent])
  have hend : Tells [p.toAction.runEvent runId .runEnd] (x.complete p.completed)
      (x.complete p.completed) := .quiet _ (by simp [Action.runEvent])
  rw [hevents]
  exact hstart.append (((Tells.statements runId hsteps x).append hbegun).append hend)

/-- The events of the interpreter stand at the program or at a statement. -/
theorem span_of_mem_events {runId : Bytes} {e : Event}
    (he : e ∈ (execute ⟨⟨true, none⟩, runId⟩ p.toAction .empty).progress.events) :
    e.span = p.span.toOption ∨ ∃ a ∈ p.actions, e.span = a.span.toOption := by
  obtain ⟨begun, hbegun, hevents⟩ := exists_events hsource runId
  rw [hevents, List.mem_append, List.mem_append, List.mem_append, List.mem_singleton,
    List.mem_singleton] at he
  rcases he with rfl | (he | he) | rfl
  · exact .inl rfl
  · obtain ⟨step, hstep, he⟩ := List.mem_flatMap.mp he
    refine .inr ⟨step.1, (List.of_mem_zip hstep).1, ?_⟩
    rcases List.mem_cons.mp he with rfl | he
    · rfl
    · rw [List.mem_singleton.mp he]
      rfl
  · obtain ⟨a, ha, rfl⟩ := List.mem_map.mp he
    exact .inr ⟨a, hbegun a ha, rfl⟩
  · exact .inl rfl

/-- The events of the machine tell which instructions are executed. -/
theorem tells_executed (hsize : source.length < Decimal.maxConstant) (runId : Bytes)
    (x : Activity) : Tells (p.executed.map (StepEvent.toEvent runId)) x (x.execute p.executed) := by
  refine .instructions runId (fun e he => ?_) x
  rw [executed] at he
  split at he
  · cases he
  · next code hcode =>
    obtain ⟨hproper, hdepth⟩ := depth_le_of_source hsource hcode e he
    exact ⟨hproper, by omega⟩

end Program

/-- Who watches a run that nobody stops does not change what is executed. -/
theorem Machine.steps_runFrom {watch other : Watch} (h : ∀ n, watch.canceled n = false)
    (hother : ∀ n, other.canceled n = false) (pc reports reports' : Nat) (code : List Instr)
    (m : Machine) :
    (runFrom watch pc reports code m).steps = (runFrom other pc reports' code m).steps := by
  induction code generalizing pc reports reports' m with
  | nil => rfl
  | cons i rest ih =>
    rw [runFrom, runFrom, h, hother]
    cases m.step i with
    | error stuck => rfl
    | ok next => exact congrArg (_ :: ·) (ih _ _ _ next)

/-! ### Whole runs -/

/-- The event of a notice. -/
def Notice.toEvent (runId : Bytes) : Notice → Event
  | event e => e
  | step e => e.toEvent runId

theorem Notice.traceLine_eq (time runId : Bytes) (n : Notice) :
    n.traceLine time runId = (n.toEvent runId).traceLine time := by
  cases n <;> rfl

namespace Workbench

/-- What is to be shown, if it is, can be written. -/
def CanShow (w : Workbench) (shown : Bool) : Prop := w.outputFault = none ∨ shown = false

instance (w : Workbench) (shown : Bool) : Decidable (w.CanShow shown) :=
  inferInstanceAs (Decidable (_ ∨ _))

theorem canShow_cases (w : Workbench) (shown : Bool) (text : Bytes) :
    (w.CanShow shown ∧ ∃ trail, trail.notices = [] ∧
        (if shown then w.writeChecked text else .ok .empty) = .ok trail) ∨
      ¬ w.CanShow shown ∧ ∃ reason,
        (if shown then w.writeChecked text else .ok .empty) = .error reason := by
  cases shown with
  | false => exact .inl ⟨.inr rfl, .empty, rfl, rfl⟩
  | true =>
    rw [if_pos rfl, writeChecked]
    cases hfault : w.outputFault with
    | none => exact .inl ⟨.inl hfault, .wrote text, rfl, rfl⟩
    | some reason =>
      refine .inr ⟨?_, reason, rfl⟩
      rintro (hnone | hfalse)
      · rw [hfault] at hnone
        cases hnone
      · cases hfalse

/-- The interpreter has a part in the run. -/
def Interprets (w : Workbench) (mode : Mode) : Prop := w.CanShow w.showInfix ∧ mode ≠ .compile

/-- The machine has a part in the run: it comes after the interpreter, if that did not fail. -/
def RunsCode (w : Workbench) (mode : Mode) (p : Program) : Prop :=
  w.CanShow w.showInfix ∧ w.CanShow w.showCode ∧ mode ≠ .interpret ∧
    (mode = .both → (execute ⟨.unwatched, []⟩ p.toAction .empty).failure = none)

instance (w : Workbench) (mode : Mode) : Decidable (w.Interprets mode) :=
  inferInstanceAs (Decidable (_ ∧ _))

instance (w : Workbench) (mode : Mode) (p : Program) : Decidable (w.RunsCode mode p) :=
  inferInstanceAs (Decidable (_ ∧ _ ∧ _ ∧ (_ → _)))

/-- What a run that nobody stops does. -/
def activity (w : Workbench) (mode : Mode) (p : Program) : Activity where
  completed := if w.Interprets mode then p.completed else []
  prints :=
    if w.Interprets mode then (execute ⟨.unwatched, []⟩ p.toAction .empty).progress.prints else []
  executed := if w.RunsCode mode p then p.executed else []

@[simp] theorem notices_append (a b : Trail) : (a ++ b).notices = a.notices ++ b.notices := rfl

@[simp] theorem notices_logged (records : List LogRecord) : (Trail.logged records).notices = [] := rfl

@[simp] theorem notices_noticed (notices : List Notice) :
    (Trail.noticed notices).notices = notices := rfl

@[simp] theorem notices_write (w : Workbench) (text : Bytes) : (w.write text).notices = [] := by
  unfold write
  split <;> rfl

theorem notices_interpret (w : Workbench) (watch : Watch) (p : Program) :
    (w.interpret watch p).1.notices
      = (execute ⟨watch, w.runId⟩ p.toAction .empty).progress.events.map .event := by
  simp only [interpret, notices_append, notices_write, notices_noticed, notices_logged,
    List.nil_append, List.append_nil]
  cases (execute ⟨watch, w.runId⟩ p.toAction .empty).failure with
  | none => rw [notices_write, List.append_nil]
  | some f => exact List.append_nil _

section Notices

variable {file source : Bytes} {p : Program} (hsource : Program.ofSource file source = .ok p)
  (w : Workbench)

include hsource

theorem notices_runCompiled (reports : Nat) :
    (w.runCompiled ⟨true, none⟩ reports p).1.notices
      = if w.CanShow w.showCode then p.executed.map .step else [] := by
  obtain ⟨code, hcode⟩ := Program.exists_compile (Program.isWritten_of_source hsource).1
  have hsteps : (Machine.run ⟨true, none⟩ reports code).steps = p.executed := by
    simp only [Program.executed, hcode]
    exact Machine.steps_runFrom (fun _ => rfl) (fun _ => rfl) 0 reports 0 code .empty
  rcases w.canShow_cases w.showCode (listing code) with
    ⟨hshow, trail, hnotices, hshown⟩ | ⟨hshow, reason, hshown⟩
  · simp only [if_pos hshow, runCompiled, hcode, displayCode, hshown, runMachine, notices_append,
      notices_write, notices_noticed, notices_logged, hnotices, hsteps, List.nil_append,
      List.append_nil, if_true]
  · simp only [if_neg hshow, runCompiled, hcode, displayCode, hshown]
    rfl

/-- The machine has a part in a run that has shown the program if the mode asks for it and, where
the interpreter comes first, that did not fail. -/
theorem notices_runProgram (mode : Mode) :
    (w.runProgram ⟨true, none⟩ mode p).1.notices
      = (if mode ≠ .compile then
            (execute ⟨⟨true, none⟩, w.runId⟩ p.toAction .empty).progress.events.map .event else [])
        ++ if w.CanShow w.showCode ∧ mode ≠ .interpret ∧
            (mode = .both → (execute ⟨.unwatched, []⟩ p.toAction .empty).failure = none)
          then p.executed.map .step else [] := by
  have hwatch : (RunInfo.mk ⟨true, none⟩ w.runId).watch.cancelAt = none := rfl
  have hfailure := failure_execute_unwatched hsource hwatch
  -- the interpreter is watched here; it fails as it does without a watcher
  have hinterpret : (w.interpret ⟨true, none⟩ p).2.failure
      = (execute ⟨.unwatched, []⟩ p.toAction .empty).failure := hfailure.symm
  cases mode with
  | compile =>
    rw [runProgram, if_pos rfl, notices_runCompiled hsource]
    simp
  | interpret =>
    rw [runProgram, if_neg (by decide)]
    cases hf : (execute ⟨.unwatched, []⟩ p.toAction .empty).failure with
    | none => simp [hinterpret, hf, notices_interpret]
    | some f => simp [hinterpret, hf, notices_interpret]
  | both =>
    rw [runProgram, if_neg (by decide)]
    cases hf : (execute ⟨.unwatched, []⟩ p.toAction .empty).failure with
    | none => simp [hinterpret, hf, notices_interpret, notices_runCompiled hsource]
    | some f => simp [hinterpret, hf, notices_interpret]

/-- **The notices of a run** are the events of the interpreter and the steps of the machine, if
these have a part in it. -/
theorem notices_run {name : Bytes} {mode : Mode} (hmode : Mode.ofName? name = some mode) :
    (w.run ⟨true, none⟩ file source name).1.notices
      = (if w.Interprets mode then
            (execute ⟨⟨true, none⟩, w.runId⟩ p.toAction .empty).progress.events.map .event else [])
        ++ if w.RunsCode mode p then p.executed.map .step else [] := by
  simp only [run, hmode, hsource, display]
  rcases w.canShow_cases w.showInfix p.display with
    ⟨hshow, trail, hnotices, hshown⟩ | ⟨hshow, reason, hshown⟩
  · simp only [hshown, notices_append, notices_logged, hnotices, List.nil_append,
      notices_runProgram hsource, Interprets, RunsCode, hshow, true_and]
  · have hinterprets : ¬ w.Interprets mode := fun h => hshow h.1
    have hruns : ¬ w.RunsCode mode p := fun h => hshow h.1
    simp only [hshown, if_neg hinterprets, if_neg hruns]
    rfl

/-- The notices of a run tell what it does. -/
theorem tells_run {name : Bytes} {mode : Mode} (hmode : Mode.ofName? name = some mode)
    (hsize : source.length < Decimal.maxConstant) :
    Tells ((w.run ⟨true, none⟩ file source name).1.notices.map (Notice.toEvent w.runId)) .idle
      (w.activity mode p) := by
  have hwritten := (Program.isWritten_of_source hsource).1
  have hwatch : (RunInfo.mk .unwatched []).watch.cancelAt = none := rfl
  have hprints : (execute ⟨.unwatched, []⟩ p.toAction .empty).progress.prints
      = p.completed.printed := by
    rw [(execute_eq_course hwatch (Program.ne_missing_of_mem_leaves hwritten) .empty).2.1,
      Program.leaves_toAction hwritten]
    rfl
  rw [notices_run hsource w hmode, List.map_append]
  -- the interpreter's part comes first, the machine's part is added to it
  generalize hx : w.activity mode p = x
  have hinterpreter : Tells ((if w.Interprets mode then
      (execute ⟨⟨true, none⟩, w.runId⟩ p.toAction .empty).progress.events.map .event
        else []).map (Notice.toEvent w.runId)) .idle ⟨x.completed, x.prints, []⟩ := by
    rw [← hx, activity]
    by_cases h : w.Interprets mode
    · simp only [if_pos h, hprints, List.map_map]
      have hevents := Program.tells_execute hsource w.runId .idle
      rwa [← List.map_id (execute _ _ _).progress.events] at hevents
    · simp only [if_neg h]
      exact .nil .idle
  have hmachine : Tells ((if w.RunsCode mode p then p.executed.map .step else []).map
      (Notice.toEvent w.runId)) ⟨x.completed, x.prints, []⟩ x := by
    rw [← hx, activity]
    by_cases h : w.RunsCode mode p
    · simp only [if_pos h, List.map_map]
      exact Program.tells_executed hsource hsize w.runId _
    · simp only [if_neg h]
      exact .nil _
  exact hinterpreter.append hmachine

/-- The places in the notices of a run fit in 64 bits. -/
theorem fits_of_mem_notices {name : Bytes} {mode : Mode} (hmode : Mode.ofName? name = some mode)
    (hsize : source.length < Decimal.maxConstant) :
    ∀ n ∈ (w.run ⟨true, none⟩ file source name).1.notices,
      ∀ span ∈ (n.toEvent w.runId).span, span.Fits := by
  obtain ⟨hprogram, hactions⟩ := Program.fits_span hsize hsource
  have hoption : ∀ {s t : Span}, s.Fits → t ∈ s.toOption → t.Fits := by
    intro s t hs ht
    rw [Span.toOption] at ht
    split at ht
    · cases ht
    · cases ht
      exact hs
  intro n hn span hspan
  rw [notices_run hsource w hmode, List.mem_append] at hn
  rcases hn with hn | hn
  · split at hn
    · obtain ⟨e, he, rfl⟩ := List.mem_map.mp hn
      have hplace : e.span = p.span.toOption ∨ ∃ a ∈ p.actions, e.span = a.span.toOption :=
        Program.span_of_mem_events hsource he
      have hspan : span ∈ e.span := hspan
      rcases hplace with hplace | ⟨a, ha, hplace⟩
      · exact hoption hprogram (hplace ▸ hspan)
      · exact hoption (hactions a ha) (hplace ▸ hspan)
    · cases hn
  · -- instructions have no place
    split at hn
    · obtain ⟨e, -, rfl⟩ := List.mem_map.mp hn
      cases hspan
    · cases hn

end Notices

end Workbench

/-! ### Traces -/

/-- The text has the lines of the notices of a run, each with some time. -/
def IsTrace (runId : Bytes) (notices : List Notice) (text : Bytes) : Prop :=
  ∃ stamped : List (Bytes × Notice), stamped.map Prod.snd = notices ∧
    text = stamped.flatMap fun n => n.2.traceLine n.1 runId

namespace Setup

/-- The trace that a run writes. -/
theorem isTrace_traceLines (s : Setup) (notices : List Notice) :
    IsTrace s.surroundings.runId notices (s.traceLines notices) := by
  refine ⟨notices.map fun n => (s.surroundings.timestamp, n), ?_, ?_⟩
  · rw [List.map_map]
    exact List.map_id notices
  · rw [traceLines, List.flatMap_map]

/-- **The summary of a trace reports what happened.** Let a program be read from a source and run in
any mode with a trace, whether the run fails or not, and let no line of the trace be too long to be
read. Then the summary of the trace counts the events of the interpreter and of the machine. It has
as many statements as the interpreter completes and, for each name and no other, how often a
completed statement assigns it; the values that the interpreter prints, in order; as many machine
steps as there are instructions executed and how often each mnemonic; and the greatest depth of the
stack after an instruction. (Places and depths are numbers of 64 bits, so the length of the source
must be one.) -/
theorem summary_reports_run {s : Setup} {flags : Flags} {file source text : Bytes} {p : Program}
    {mode : Mode} (hsource : Program.ofSource file source = .ok p)
    (hsize : source.length < Decimal.maxConstant)
    (hmode : Mode.ofName? (s.runMode flags) = some mode) (htrace : flags.text .trace ≠ [])
    (htext : IsTrace s.surroundings.runId (s.runSource flags file source).1.notices text)
    (hshort : Line.tooLong text = false) :
    (Summary.ofText text).Reports ((s.runBench flags).activity mode p)
      (s.runSource flags file source).1.notices.length := by
  have htraced : (s.runBench flags).traced = true := by
    show (!(flags.text .trace).isEmpty) = true
    rw [List.isEmpty_eq_false_iff.mpr htrace]
    rfl
  have hrun : s.runSource flags file source
      = (s.runBench flags).run ⟨true, none⟩ file source (s.runMode flags) := by
    rw [runSource, htraced]
  have htells := Workbench.tells_run hsource (s.runBench flags) hmode hsize
  have hfits := Workbench.fits_of_mem_notices hsource (s.runBench flags) hmode hsize
  rw [← hrun] at htells hfits
  generalize (s.runSource flags file source).1.notices = notices at *
  obtain ⟨stamped, rfl, rfl⟩ := htext
  -- the lines are those of events, so they are read back as these
  have hlines : (stamped.flatMap fun n => n.2.traceLine n.1 s.surroundings.runId)
      = (stamped.map fun n => (n.1, n.2.toEvent s.surroundings.runId)).flatMap
        fun e => e.2.traceLine e.1 := by
    rw [List.flatMap_map]
    exact List.flatMap_congr fun n _ => n.2.traceLine_eq n.1 s.surroundings.runId
  rw [hlines] at hshort ⊢
  rw [Summary.ofText_events _ hshort]
  · have hreports := htells .blank 0 (stamped.map fun n => (n.1, n.2.toEvent s.surroundings.runId))
      (by rw [List.map_map, List.map_map]; rfl) Summary.reports_blank
    rw [List.length_map, Nat.zero_add] at hreports
    exact hreports
  · intro e he
    obtain ⟨n, hn, rfl⟩ := List.mem_map.mp he
    exact hfits n.2 (List.mem_map_of_mem hn)

/-- A run that fails in an assignment. On the interpreter one statement completes, and the assignment
is not counted; on the machine four instructions are executed. -/
theorem summary_reports_run_division :
    let source : Bytes := "@ 7 := né // 1 0"
    let s : Setup := .ofSettings ⟨.ok source, none, ⟨"/", "/", .empty, []⟩, "r", [], []⟩ .defaults
    let flags (mode : Bytes) : Flags := [("mode", mode), ("trace", "t")]
    let summary (mode : Bytes) : Summary :=
      .ofText (s.traceLines (s.runSource (flags mode) "<stdin>" source).1.notices)
    (s.runSource (flags "both") "<stdin>" source).2.isSome = true ∧
      (summary "both").totalEvents = 5 ∧ (summary "both").statements = 1 ∧
      (summary "both").assignments.get? "né" = none ∧ (summary "both").prints = [7] ∧
      (summary "both").machineSteps = 0 ∧ (summary "compile").machineSteps = 4 ∧
      (summary "compile").opsByName.get? "PUSH" = some 3 ∧ (summary "compile").maxDepth = 2 := by
  intro source s flags
  dsimp only
  let place (first last : Int) : Span := ⟨"<stdin>", 1, first, 1, last⟩
  let quotient : Expr :=
    .binary (place 11 17) "//" (.const (place 14 15) 1) (.const (place 16 17) 0)
  let p : Program := ⟨place 1 17, [.print (place 1 4) (.const (place 3 4) 7),
    .assign (place 5 17) "né" quotient]⟩
  have hsource : Program.ofSource "<stdin>" source = .ok p := rfl
  have hsize : source.length < Decimal.maxConstant := by decide
  have hbothMode : Mode.ofName? (s.runMode (flags "both")) = some .both := by decide
  have hcompileMode : Mode.ofName? (s.runMode (flags "compile")) = some .compile := by decide
  have hboth := summary_reports_run hsource hsize hbothMode (by decide)
    (s.isTrace_traceLines _) (by decide +kernel)
  have hcompile := summary_reports_run hsource hsize hcompileMode (by decide)
    (s.isTrace_traceLines _) (by decide +kernel)
  rw [hboth.totalEvents, hboth.statements, hboth.assignments, hboth.prints, hboth.machineSteps,
    hcompile.machineSteps, hcompile.opsByName, hcompile.maxDepth]
  decide +kernel

end Setup

end Polish
