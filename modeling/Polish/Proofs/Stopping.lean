import Polish.Proofs.StackEffect

/-!
# Where a run of code stops

A run of code ends in one of three ways: it is canceled before an instruction, an instruction fails,
or all are executed. In each of them it leaves the work of the instructions executed so far, and
what the machine was used for before has no part in it. Only the stack can tell that an instruction
has failed: its operands are gone.

1. `Machine.runFrom_append`: a run executes the front of its code as if it were alone, unless it is
   canceled in there. The induction is on the front; the invariant is the number of reports made.
2. `Machine.run_of_canceled`, `Machine.run_of_stuck`, `Machine.run_of_execCode`: the three ways.
3. `Machine.exists_first_failure`: where the run would stop if nobody stopped it.
4. `Machine.stack_of_stuck`: a failing instruction takes operands at most.
5. `Machine.run_ends`, `Machine.run_leaves_front`: which of the three it is, and what they have in
   common.
6. `Machine.run_stops_between_instructions`: what a run leaves, what it reports and why it stops.
-/

namespace Polish

/-! ### The front of a run -/

namespace Watch

/-- How many reports have been made after `k` more instructions. -/
def reportsAfter (w : Watch) (reports k : Nat) : Nat := if w.traced then reports + k else reports

/-- How many of `k` instructions may be executed. -/
def allowance (w : Watch) (k : Nat) : Nat :=
  match w.cancelAt with
  | none => k
  | some n => min n k

/-- The run is canceled before one of `length` instructions, none of those before number `f` having
failed. -/
def Cuts (w : Watch) (f length : Nat) : Prop := ∃ n, w.cancelAt = some n ∧ n ≤ f ∧ n < length

/-- The run may execute instruction number `f`. -/
def Allows (w : Watch) (f : Nat) : Prop := ∀ n, w.cancelAt = some n → f < n

theorem allowance_le (w : Watch) (k : Nat) : w.allowance k ≤ k := by
  unfold allowance
  split <;> omega

theorem allowance_of_cancelAt {w : Watch} {n k : Nat} (h : w.cancelAt = some n) :
    w.allowance k = min n k := by
  rw [allowance, h]

theorem allowance_eq_self {w : Watch} {k : Nat} (h : ∀ n, w.cancelAt = some n → k ≤ n) :
    w.allowance k = k := by
  cases hcancel : w.cancelAt with
  | none => rw [allowance, hcancel]
  | some n => rw [allowance_of_cancelAt hcancel, Nat.min_eq_right (h n hcancel)]

theorem Allows.le {w : Watch} {f : Nat} (h : w.Allows f) : ∀ n, w.cancelAt = some n → f ≤ n :=
  fun n hn => Nat.le_of_lt (h n hn)

/-- A run that is not canceled and does not come to a failing instruction executes all. -/
theorem completes {w : Watch} {f length : Nat} (hf : f ≤ length) (hcuts : ¬ w.Cuts f length)
    (hfails : ¬ (w.Allows f ∧ f < length)) :
    f = length ∧ ∀ n, w.cancelAt = some n → length ≤ n := by
  have hlater : ∀ n, w.cancelAt = some n → n ≤ f → length ≤ n := by
    intro n hn hle
    apply Nat.le_of_not_lt
    intro hlt
    exact hcuts ⟨n, hn, hle, hlt⟩
  have hlength : f = length := by
    by_contra hne
    have hlt : f < length := Nat.lt_of_le_of_ne hf hne
    refine hfails ⟨fun n hn => ?_, hlt⟩
    apply Nat.lt_of_not_le
    intro hle
    have hbeyond := hlater n hn hle
    omega
  refine ⟨hlength, fun n hn => ?_⟩
  rcases Nat.le_total n f with hle | hle
  · exact hlater n hn hle
  · omega

theorem reportsAfter_succ (w : Watch) (reports k : Nat) :
    w.reportsAfter (if w.traced then reports + 1 else reports) k
      = w.reportsAfter reports (k + 1) := by
  unfold reportsAfter
  split <;> omega

/-- If every instruction is reported, or reports do not matter, a run is canceled once as many
instructions have been executed as there may be reports. -/
theorem canceled_reportsAfter {w : Watch} (h : w.traced = true ∨ w.IsSteady) {k : Nat} :
    w.canceled (w.reportsAfter 0 k) = true ↔ ∃ n, w.cancelAt = some n ∧ n ≤ k := by
  unfold canceled reportsAfter
  rcases h with htraced | hnone | hzero
  · rw [htraced]
    cases w.cancelAt <;> simp
  · simp [hnone]
  · simp [hzero]

end Watch

namespace Machine

variable {watch : Watch} {pc reports : Nat} {m next : Machine} {front back : List Instr}

/-- **The front of a run.** If the run is not canceled in there, its front is executed and reported
as if it were alone, and the rest is run on the machine that it leaves. -/
theorem runFrom_append (hfront : m.execCode front = .ok next)
    (hfree : ∀ k < front.length, watch.canceled (watch.reportsAfter reports k) = false) :
    runFrom watch pc reports (front ++ back) m =
      let rest := runFrom watch (pc + front.length) (watch.reportsAfter reports front.length) back
        next
      { rest with steps := (runFrom .unwatched pc 0 front m).steps ++ rest.steps } := by
  -- whether the run is canceled depends on the reports made, so these grow along the induction
  induction front generalizing m pc reports with
  | nil =>
    obtain rfl : m = next := Except.ok.inj hfront
    have hsame : watch.reportsAfter reports 0 = reports := by
      unfold Watch.reportsAfter
      split <;> rfl
    rw [List.length_nil, hsame]
    rfl
  | cons i front ih =>
    obtain ⟨m₁, hstep, hrest⟩ := Result.bind_eq_ok.mp (execCode_cons i front m ▸ hfront)
    have hstart : watch.canceled reports = false := by
      have hzero := hfree 0 (Nat.zero_lt_succ _)
      unfold Watch.reportsAfter at hzero
      split at hzero <;> exact hzero
    have hlater : ∀ k < front.length, watch.canceled
        (watch.reportsAfter (if watch.traced then reports + 1 else reports) k) = false := by
      intro k hk
      rw [Watch.reportsAfter_succ]
      exact hfree (k + 1) (Nat.succ_lt_succ hk)
    rw [List.cons_append, runFrom, hstart, hstep, if_neg Bool.false_ne_true]
    dsimp only
    rw [ih hrest hlater, Watch.reportsAfter_succ, List.length_cons, runFrom, hstep]
    have hpc : pc + 1 + front.length = pc + (front.length + 1) := by omega
    rw [hpc]
    rfl

/-! ### The three ways to stop -/

section Stops

variable {code : List Instr} (hwatch : watch.traced = true ∨ watch.IsSteady)

include hwatch

/-- The front of a run on a new machine, if the run is not canceled before its end. -/
theorem run_take {n : Nat} (hn : n ≤ code.length) (hnext : empty.execCode (code.take n) = .ok next)
    (hlater : ∀ c, watch.cancelAt = some c → n ≤ c) :
    run watch 0 code =
      let rest := runFrom watch n (watch.reportsAfter 0 n) (code.drop n) next
      { rest with steps := (run .unwatched 0 (code.take n)).steps ++ rest.steps } := by
  have hlength : (code.take n).length = n := List.length_take_of_le hn
  have hfree : ∀ k < (code.take n).length, watch.canceled (watch.reportsAfter 0 k) = false := by
    intro k hk
    rw [Bool.eq_false_iff, ne_eq, Watch.canceled_reportsAfter hwatch]
    rintro ⟨c, hc, hck⟩
    have hle := hlater c hc
    omega
  have happend : runFrom watch 0 0 (code.take n ++ code.drop n) empty = _ :=
    runFrom_append hnext hfree
  rw [List.take_append_drop, hlength, Nat.zero_add] at happend
  exact happend

/-- The run is canceled before instruction number `n`. -/
theorem run_of_canceled {n : Nat} (hn : n < code.length) (hcancel : watch.cancelAt = some n)
    (hnext : empty.execCode (code.take n) = .ok next) :
    run watch 0 code
      = ⟨next, (run .unwatched 0 (code.take n)).steps, some (.ofFault .canceled)⟩ := by
  have hcanceled : watch.canceled (watch.reportsAfter 0 n) = true :=
    (Watch.canceled_reportsAfter hwatch).mpr ⟨n, hcancel, Nat.le_refl n⟩
  rw [run_take hwatch (Nat.le_of_lt hn) hnext (fun c hc => by rw [hcancel] at hc; cases hc; rfl),
    List.drop_eq_getElem_cons hn, runFrom, hcanceled]
  exact congrArg (MachineRun.mk next · _) (List.append_nil _)

/-- Instruction number `f` fails. -/
theorem run_of_stuck {f : Nat} {i : Instr} {stuck : Stuck} (hi : code[f]? = some i)
    (hnext : empty.execCode (code.take f) = .ok next)
    (hstuck : next.step i = .error stuck) (hallows : watch.Allows f) :
    run watch 0 code
      = ⟨stuck.machine, (run .unwatched 0 (code.take f)).steps, some stuck.failure⟩ := by
  obtain ⟨hf, rfl⟩ := List.getElem?_eq_some_iff.mp hi
  have hfree : watch.canceled (watch.reportsAfter 0 f) = false := by
    rw [Bool.eq_false_iff, ne_eq, Watch.canceled_reportsAfter hwatch]
    rintro ⟨n, hn, hle⟩
    exact Nat.not_lt_of_le hle (hallows n hn)
  rw [run_take hwatch (Nat.le_of_lt hf) hnext hallows.le,
    List.drop_eq_getElem_cons hf, runFrom, hfree, hstuck]
  exact congrArg (MachineRun.mk stuck.machine · _) (List.append_nil _)

/-- All instructions are executed. -/
theorem run_of_execCode (hnext : empty.execCode code = .ok next)
    (hlater : ∀ n, watch.cancelAt = some n → code.length ≤ n) :
    run watch 0 code = ⟨next, (run .unwatched 0 code).steps, none⟩ := by
  have hall : code.take code.length = code := List.take_length
  rw [run_take hwatch (Nat.le_refl _) (by rw [hall]; exact hnext) hlater, hall, List.drop_length,
    runFrom]
  exact congrArg (MachineRun.mk next · _) (List.append_nil _)

end Stops

/-! ### Where the run would stop -/

variable {code : List Instr}

/-- If nobody stops the run, all instructions before the one that it stops at are executed; this one
fails, unless there is none. -/
theorem exists_first_failure (code : List Instr) :
    let whole := run .unwatched 0 code
    whole.steps.length ≤ code.length ∧
    ∃ next, empty.execCode (code.take whole.steps.length) = .ok next ∧
      (whole.steps.length = code.length ∧ whole.failure = none ∨
        ∃ i stuck, code[whole.steps.length]? = some i ∧ next.step i = .error stuck ∧
          whole.failure = some stuck.failure) := by
  intro whole
  cases hfailure : whole.failure with
  | none =>
    have hlength : whole.steps.length = code.length := length_steps_of_runFrom hfailure
    refine ⟨Nat.le_of_eq hlength, whole.machine, ?_, .inl ⟨hlength, rfl⟩⟩
    rw [hlength, List.take_length]
    exact execCode_of_runFrom hfailure
  | some f =>
    obtain ⟨i, next, stuck, hi, hnext, hstuck, rfl⟩ :=
      (stopsAt_iff fun _ => rfl).mp ⟨rfl, hfailure⟩
    have hlt : whole.steps.length < code.length := (List.getElem?_eq_some_iff.mp hi).1
    exact ⟨Nat.le_of_lt hlt, next, hnext, .inr ⟨i, stuck, hi, hstuck, rfl⟩⟩

/-- A failing instruction takes no more than its operands, and puts nothing on the stack. -/
theorem stack_of_stuck {m : Machine} {i : Instr} {stuck : Stuck} (h : m.step i = .error stuck) :
    ∃ k ≤ i.pops, stuck.machine = { m with stack := m.stack.drop k } := by
  have hstep := step_executes i m
  rw [h] at hstep
  cases hstep with
  | unknown => exact ⟨0, Nat.zero_le _, rfl⟩
  | underflow _ hshort =>
    refine ⟨m.stack.length, Nat.le_of_lt hshort, ?_⟩
    rw [List.drop_length]
  | refused => exact ⟨i.pops, Nat.le_refl _, rfl⟩

/-! ### Whole runs -/

/-- The text written for the printed values. -/
def output (m : Machine) : Bytes := m.prints.flatMap printLine

/-- Code that can be executed, run alone on a new machine. -/
theorem run_unwatched (hnext : empty.execCode code = .ok next) :
    run .unwatched 0 code = ⟨next, (run .unwatched 0 code).steps, none⟩ :=
  run_of_execCode (.inr (.inl rfl)) hnext nofun

/-- **Where a run stops.** It has executed and reported its front, as long as `m` instructions, and
one of three things ends it. -/
theorem run_ends (hwatch : watch.traced = true ∨ watch.IsSteady) (code : List Instr) :
    let whole := run .unwatched 0 code
    let f := whole.steps.length
    let m := watch.allowance (min f code.length)
    let front := run .unwatched 0 (code.take m)
    front.failure = none ∧
    (watch.Cuts f code.length →
      run watch 0 code = ⟨front.machine, front.steps, some (.ofFault .canceled)⟩) ∧
    (watch.Allows f ∧ f < code.length → ∃ i stuck, code[f]? = some i ∧
      front.machine.step i = .error stuck ∧ whole.failure = some stuck.failure ∧
      run watch 0 code = ⟨stuck.machine, front.steps, some stuck.failure⟩) ∧
    (¬ watch.Cuts f code.length → ¬ (watch.Allows f ∧ f < code.length) →
      run watch 0 code = ⟨front.machine, front.steps, none⟩ ∧ m = code.length) := by
  intro whole f m front
  obtain ⟨hf, next, hnext, hstop⟩ := exists_first_failure code
  have hf : f ≤ code.length := hf
  by_cases hcuts : watch.Cuts f code.length
  · -- canceled before an instruction
    obtain ⟨n, hcancel, hnf, hn⟩ := hcuts
    have hm : m = n := by
      unfold m
      rw [Watch.allowance_of_cancelAt hcancel]
      omega
    obtain ⟨last, hlast⟩ := runsTo_iff.mp ((runsTo_iff.mpr ⟨next, hnext⟩).of_le hnf)
    rw [← hm] at hcancel hnf hn hlast
    have hfront : front = ⟨last, front.steps, none⟩ := run_unwatched hlast
    rw [hfront]
    refine ⟨rfl, fun _ => run_of_canceled hwatch hn hcancel hlast, ?_, ?_⟩
    · rintro ⟨hallows, -⟩
      exact absurd (hallows m hcancel) (Nat.not_lt_of_le hnf)
    · intro hnot
      exact absurd ⟨m, hcancel, hnf, hn⟩ hnot
  by_cases hfails : watch.Allows f ∧ f < code.length
  · -- an instruction fails
    have hm : m = f := by
      unfold m
      rw [Nat.min_eq_left hf, Watch.allowance_eq_self hfails.1.le]
    have hlast : empty.execCode (code.take m) = .ok next := by
      rw [hm]
      exact hnext
    have hfront : front = ⟨next, front.steps, none⟩ := run_unwatched hlast
    rcases hstop with ⟨hlength, -⟩ | ⟨i, stuck, hi, hstuck, hfailure⟩
    · exact absurd hlength (Nat.ne_of_lt hfails.2)
    · have hrun : run watch 0 code = ⟨stuck.machine, front.steps, some stuck.failure⟩ := by
        unfold front
        rw [hm]
        exact run_of_stuck hwatch hi hnext hstuck hfails.1
      rw [hfront]
      exact ⟨rfl, fun h => absurd h hcuts, fun _ => ⟨i, stuck, hi, hstuck, hfailure, hrun⟩,
        fun _ hnot => absurd hfails hnot⟩
  · -- nothing stops the run
    obtain ⟨hlength, hlater⟩ := Watch.completes hf hcuts hfails
    have hm : m = code.length := by
      unfold m
      rw [Nat.min_eq_right (Nat.le_of_eq hlength.symm), Watch.allowance_eq_self hlater]
    have hall : empty.execCode code = .ok next := by
      rwa [show (run .unwatched 0 code).steps.length = code.length from hlength,
        List.take_length] at hnext
    have hfront : front = run .unwatched 0 code := by
      unfold front
      rw [hm, List.take_length]
    rw [hfront, run_unwatched hall]
    exact ⟨rfl, fun h => absurd h hcuts, fun h => absurd h hfails,
      fun _ _ => ⟨run_of_execCode hwatch hall hlater, hm⟩⟩

/-- A run reports its front and leaves table and prints of it: whatever ends the run, only the stack
can tell. -/
theorem run_leaves_front (hwatch : watch.traced = true ∨ watch.IsSteady) (code : List Instr) :
    let m := watch.allowance (min (run .unwatched 0 code).steps.length code.length)
    let front := run .unwatched 0 (code.take m)
    (run watch 0 code).steps = front.steps ∧
      ∃ stack, (run watch 0 code).machine = { front.machine with stack := stack } := by
  intro m front
  obtain ⟨-, hcuts, hfails, hcompletes⟩ := run_ends hwatch code
  by_cases h : watch.Cuts (run .unwatched 0 code).steps.length code.length
  · rw [hcuts h]
    exact ⟨rfl, front.machine.stack, rfl⟩
  by_cases h' : watch.Allows (run .unwatched 0 code).steps.length ∧
      (run .unwatched 0 code).steps.length < code.length
  · obtain ⟨i, stuck, -, hstuck, -, hrun⟩ := hfails h'
    obtain ⟨k, -, hmachine⟩ := stack_of_stuck hstuck
    rw [hrun]
    exact ⟨rfl, _, hmachine⟩
  · rw [(hcompletes h h').1]
    exact ⟨rfl, front.machine.stack, rfl⟩

/-- The depths that a run reports are those of runs of the first instructions alone. -/
theorem getElem?_steps_run {k : Nat} (hk : k < (run watch reports code).steps.length) :
    ∃ i, code[k]? = some i ∧ (run watch reports code).steps[k]? =
      some ⟨k, i, (run .unwatched 0 (code.take (k + 1))).machine.stack.length⟩ := by
  obtain ⟨⟨pc, i, depth⟩, he⟩ : ∃ e, (run watch reports code).steps[k]? = some e :=
    ⟨_, List.getElem?_eq_getElem hk⟩
  obtain ⟨hpc, hi, next, hnext, hdepth⟩ := getElem?_steps he
  have hpc : pc = k := hpc.trans (Nat.zero_add k)
  have hdepth : depth = next.stack.length := hdepth
  refine ⟨i, hi, ?_⟩
  rw [he, run_unwatched hnext, hpc, hdepth]

/-- **Only whole instructions.** A run of any code on a machine, watched or not, is never canceled,
canceled before it starts, or canceled inside report number `n`. Let number `f` be the first
instruction that fails when nobody stops the run (`f` is the length of the code if none does). Then:

* exactly `m` instructions are executed, where `m` is the least of `n`, `f` and the length; table,
  prints and output are those of a run of these alone on a new machine, whatever the machine was
  used for before;
* the reports are the numbers of these instructions, the instructions, and the depth after each;
* if `n ≤ f` and there is an instruction number `n`, the run fails as canceled, and the stack is
  that of the `m` instructions;
* if the run may execute instruction number `f` and there is one, it fails as this one does, and the
  stack is that of the `m` instructions without some of the operands of this one;
* otherwise it succeeds, and has executed all the code. -/
theorem run_stops_between_instructions (watch : Watch)
    (hwatch : watch.traced = true ∨ watch.IsSteady) (old : Machine) (code : List Instr) :
    let whole := run .unwatched 0 code
    let f := whole.steps.length
    let m := watch.allowance (min f code.length)
    let r := old.rerun watch 0 code
    let front := run .unwatched 0 (code.take m)
    (f ≤ code.length ∧ RunsTo code f ∧ (f < code.length → ¬ RunsTo code (f + 1))) ∧
    (front.failure = none ∧ r.steps.length = m ∧ r.machine.store = front.machine.store ∧
      r.machine.prints = front.machine.prints ∧ r.machine.output = front.machine.output) ∧
    (∀ k < m, ∃ i, code[k]? = some i ∧ r.steps[k]? =
      some ⟨k, i, (run .unwatched 0 (code.take (k + 1))).machine.stack.length⟩) ∧
    (watch.Cuts f code.length →
      r.failure = some (.ofFault .canceled) ∧ r.machine.stack = front.machine.stack) ∧
    (watch.Allows f ∧ f < code.length → ∃ i stuck, code[f]? = some i ∧
      front.machine.step i = .error stuck ∧ whole.failure = some stuck.failure ∧
      r.failure = whole.failure ∧ ∃ k ≤ i.pops, r.machine.stack = front.machine.stack.drop k) ∧
    (¬ watch.Cuts f code.length → ¬ (watch.Allows f ∧ f < code.length) →
      r.failure = none ∧ r.steps.length = code.length) := by
  intro whole f m r front
  obtain ⟨hf, next, hnext, hstop⟩ := exists_first_failure code
  obtain ⟨hfailure, hcuts, hfails, hcompletes⟩ := run_ends hwatch code
  obtain ⟨hsteps, stack, hmachine⟩ := run_leaves_front hwatch code
  -- what the machine was used for before has no part in the run
  have hr : run watch 0 code = r := (rerun_eq_run old watch 0 code).symm
  rw [hr] at hcuts hfails hcompletes hsteps hmachine
  have hmachine : r.machine = { front.machine with stack := stack } := hmachine
  have hlength : r.steps.length = m := by
    have hall : front.steps.length = (code.take m).length := length_steps_of_runFrom hfailure
    have hm : m ≤ code.length := (watch.allowance_le _).trans (Nat.min_le_right _ _)
    rw [hsteps]
    exact hall.trans (List.length_take_of_le hm)
  refine ⟨⟨hf, runsTo_iff.mpr ⟨next, hnext⟩, ?_⟩, ⟨hfailure, hlength, ?_, ?_, ?_⟩, ?_, ?_, ?_, ?_⟩
  · intro hlt
    rcases hstop with ⟨hend, -⟩ | ⟨i, stuck, hi, hstuck, -⟩
    · exact absurd hend (Nat.ne_of_lt hlt)
    · exact not_runsTo_succ hnext hi hstuck
  · rw [hmachine]
  · rw [hmachine]
  · rw [output, hmachine, output]
  · intro k hk
    rw [← hlength] at hk
    exact getElem?_steps_run hk
  · intro h
    rw [hcuts h]
    exact ⟨rfl, rfl⟩
  · intro h
    obtain ⟨i, stuck, hi, hstuck, hwhole, hrun⟩ := hfails h
    obtain ⟨k, hk, hstack⟩ := stack_of_stuck hstuck
    rw [hrun, hstack]
    exact ⟨i, stuck, hi, hstuck, hwhole, hwhole.symm, k, hk, rfl⟩
  · intro h h'
    obtain ⟨hrun, hm⟩ := hcompletes h h'
    rw [hlength, hrun]
    exact ⟨rfl, hm⟩

/-- A used machine whose run would be canceled after six instructions, but the sixth divides by
zero. Both operands are gone, and of what was there before the run nothing is left. -/
theorem run_stops_between_instructions_division :
    let code : List Instr :=
      [.push 7, .print, .push 3, .push 1, .push 0, .plain (.binary .div), .print]
    let old : Machine := ⟨[9], NameMap.empty.put "a" 3, [1]⟩
    let r := old.rerun ⟨true, some 6⟩ 0 code
    r.steps.length = 5 ∧ r.machine.store = .empty ∧ r.machine.output = "*** 7\n" ∧
      r.failure = some (.ofFault (.divisionByZero 1)) ∧
      ∃ k ≤ 2, r.machine.stack = [(0 : Int64), 1, 3].drop k := by
  intro code old r
  obtain ⟨-, ⟨-, hlength, hstore, -, houtput⟩, -, -, hfails, -⟩ :=
    run_stops_between_instructions ⟨true, some 6⟩ (.inl rfl) old code
  obtain ⟨i, stuck, hi, -, -, hfailure, k, hk, hstack⟩ :=
    hfails ⟨fun n hn => by cases hn; decide, by decide⟩
  refine ⟨hlength.trans rfl, hstore.trans rfl, houtput.trans rfl, hfailure.trans rfl, k, ?_, hstack⟩
  obtain rfl : Instr.plain (.binary .div) = i := Option.some.inj hi
  exact hk

end Machine

end Polish
