import Polish.Proofs.FailingNode
import Polish.Proofs.SavedCode

/-!
# The depth of the stack

How deep the stack is after some instructions does not depend on the values in it: every operation
takes a fixed number of operands and changes the depth by a fixed amount. So whether an instruction
finds its operands can be told from the code alone, for any code, also one that was written by hand.

1. `Operation.pops`, `Operation.change`, `netChange`: the depth, told from the code.
2. `Machine.Executes`, `Machine.step_executes`: all that an instruction can come to. What a failing
   instruction takes, and that it touches neither table nor prints, is in its cases.
3. `Machine.length_stack_execCode`: the depth after code that was executed.
4. `Machine.stopsAt_iff`, `Machine.getElem?_steps`: at which instruction a run stops and what it has
   reported before.
5. `Machine.depth_is_told_by_the_code`: the depths in a run, where it underflows, and where it meets
   an unknown instruction.
-/

namespace Polish

/-! ### The depth, told from the code -/

namespace Operation

/-- How many values the operation takes from the stack. -/
def pops : Operation → Nat
  | push | load => 0
  | store | unary _ | print => 1
  | binary _ => 2

/-- By how much the operation changes the depth of the stack. -/
def change : Operation → Int
  | push | load => 1
  | unary _ => 0
  | store | print | binary _ => -1

end Operation

namespace Instr

/-- How many values the instruction takes from the stack. -/
def pops (i : Instr) : Nat := (i.operation?.map Operation.pops).getD 0

/-- By how much the instruction changes the depth of the stack. -/
def change (i : Instr) : Int := (i.operation?.map Operation.change).getD 0

theorem spec_of_operation? {i : Instr} {o : Operation} (ho : i.operation? = some o) :
    i.opcode < 10 ∧ i.pops = o.pops ∧ i.change = o.change := by
  refine ⟨?_, ?_, ?_⟩
  · rw [← UInt8.not_le, ← Operation.ofNumber?_eq_none_iff, ← operation?, ho]
    exact Option.some_ne_none o
  · rw [pops, ho]
    rfl
  · rw [change, ho]
    rfl

theorem change_le_one (i : Instr) : i.change ≤ 1 := by
  cases ho : i.operation? with
  | none =>
    rw [change, ho]
    decide
  | some o =>
    rw [(spec_of_operation? ho).2.2]
    cases o <;> simp [Operation.change]

end Instr

/-- By how much code changes the depth of the stack: the sum of what its instructions do. -/
def netChange : List Instr → Int
  | [] => 0
  | i :: rest => i.change + netChange rest

@[simp] theorem netChange_nil : netChange [] = 0 := rfl

@[simp] theorem netChange_cons (i : Instr) (code : List Instr) :
    netChange (i :: code) = i.change + netChange code := rfl

@[simp] theorem netChange_append (xs ys : List Instr) :
    netChange (xs ++ ys) = netChange xs + netChange ys := by
  induction xs with
  | nil => exact (Int.zero_add _).symm
  | cons i xs ih => rw [List.cons_append, netChange_cons, netChange_cons, ih, Int.add_assoc]

/-- One instruction adds at most one value to the stack. -/
theorem netChange_le_length (code : List Instr) : netChange code ≤ code.length := by
  induction code with
  | nil => exact Int.le_refl 0
  | cons i rest ih =>
    have hone := i.change_le_one
    rw [netChange_cons, List.length_cons]
    omega

/-! ### What an instruction comes to -/

namespace Machine

/-- What executing an instruction comes to. An opcode without operation does nothing. If operands
are missing, those that are there are taken. Otherwise the operands are taken, and either the
operation fails, because of them or of the table, or results take their place. Only one operation
changes the table, and only one prints. -/
inductive Executes (i : Instr) (m : Machine) : Except Stuck Machine → Prop where
  | unknown (hopcode : 10 ≤ i.opcode) :
      Executes i m (.error ⟨m, .ofFault (.unknownInstruction i.opcode.toNat)⟩)
  | underflow (hopcode : i.opcode < 10) (hshort : m.stack.length < i.pops) :
      Executes i m (.error ⟨{ m with stack := [] }, .ofFault (.stackUnderflow i.text)⟩)
  | refused {f : Fault} (hopcode : i.opcode < 10) (hdeep : i.pops ≤ m.stack.length)
      (hf : f.code.isRuntime = true) :
      Executes i m (.error ⟨{ m with stack := m.stack.drop i.pops }, .ofFault f⟩)
  | done {results : List Int64} {store : Store} {printed : List Int64} (hopcode : i.opcode < 10)
      (hdeep : i.pops ≤ m.stack.length) (hresults : (results.length : Int) = i.pops + i.change)
      (hstore : i.operation? ≠ some .store → store = m.store)
      (hprinted : i.operation? ≠ some .print → printed = []) :
      Executes i m (.ok ⟨results ++ m.stack.drop i.pops, store, m.prints ++ printed⟩)

variable {i : Instr} {m : Machine}

namespace Executes

variable {o : Operation} (ho : i.operation? = some o)

include ho

theorem short (hshort : m.stack.length < o.pops) :
    Executes i m (.error ⟨{ m with stack := [] }, .ofFault (.stackUnderflow i.text)⟩) := by
  obtain ⟨hopcode, hpops, -⟩ := Instr.spec_of_operation? ho
  rw [← hpops] at hshort
  exact .underflow hopcode hshort

theorem effect (results : List Int64) {store : Store} {printed : List Int64}
    (hdeep : o.pops ≤ m.stack.length) (hresults : (results.length : Int) = o.pops + o.change)
    (hstore : o ≠ .store → store = m.store) (hprinted : o ≠ .print → printed = []) :
    Executes i m (.ok ⟨results ++ m.stack.drop o.pops, store, m.prints ++ printed⟩) := by
  obtain ⟨hopcode, hpops, hchange⟩ := Instr.spec_of_operation? ho
  rw [← hpops, ← hchange] at hresults
  rw [← hpops] at hdeep ⊢
  have hne : ∀ o', i.operation? ≠ some o' → o ≠ o' := by
    rintro _ hne rfl
    exact hne ho
  exact .done hopcode hdeep hresults (fun h => hstore (hne _ h)) (fun h => hprinted (hne _ h))

theorem silent (results : List Int64) {store : Store} (hdeep : o.pops ≤ m.stack.length)
    (hresults : (results.length : Int) = o.pops + o.change)
    (hstore : o ≠ .store → store = m.store) :
    Executes i m (.ok ⟨results ++ m.stack.drop o.pops, store, m.prints⟩) := by
  have hdone : Executes i m (.ok ⟨results ++ m.stack.drop o.pops, store, m.prints ++ []⟩) :=
    effect ho results hdeep hresults hstore fun _ => rfl
  rwa [List.append_nil] at hdone

/-- An operation that ends with a result, or with the fault that took its place. -/
theorem finish (result : Except Fault Int64) (hdeep : o.pops ≤ m.stack.length)
    (hone : o.pops + o.change = 1)
    (hresult : ∀ f, result = .error f → f.code.isRuntime = true) :
    Executes i m (Machine.finish { m with stack := m.stack.drop o.pops } result) := by
  cases result with
  | error f =>
    obtain ⟨hopcode, hpops, -⟩ := Instr.spec_of_operation? ho
    rw [← hpops] at hdeep ⊢
    exact .refused hopcode hdeep (hresult f rfl)
  | ok v => exact silent ho [v] hdeep hone.symm fun _ => rfl

end Executes

/-- **One instruction.** It comes to one of these things. -/
theorem step_executes (i : Instr) (m : Machine) : Executes i m (m.step i) := by
  unfold step
  split
  · next hnone => exact .unknown (Operation.ofNumber?_eq_none_iff.mp hnone)
  · next ho => exact .finish ho (.ok i.value) (Nat.zero_le _) rfl nofun
  · next ho =>
    refine .finish ho (m.store.get i.name) (Nat.zero_le _) rfl fun f hf => ?_
    unfold Store.get at hf
    split at hf
    · cases hf
    · cases hf
      rfl
  · next ho =>
    rcases m with ⟨_ | ⟨v, below⟩, store, prints⟩
    · exact .short ho Nat.zero_lt_one
    · exact .silent (m := ⟨v :: below, store, prints⟩) ho [] (Nat.le_add_left _ _) rfl
        fun h => absurd rfl h
  · next op ho =>
    have hresult : ∀ a b f, op.apply a b = .error f → f.code.isRuntime = true := by
      intro a b f hf
      obtain ⟨-, -, rfl⟩ := BinaryOp.apply_eq_error.mp hf
      rfl
    -- the right operand is taken also if the left one is missing
    rcases m with ⟨_ | ⟨b, _ | ⟨a, below⟩⟩, store, prints⟩
    · exact .short ho Nat.zero_lt_two
    · exact .short ho Nat.one_lt_two
    · exact .finish (m := ⟨b :: a :: below, store, prints⟩) ho (op.apply a b)
        (Nat.le_add_left _ _) rfl (hresult a b)
  · next op ho =>
    rcases m with ⟨_ | ⟨a, below⟩, store, prints⟩
    · exact .short ho Nat.zero_lt_one
    · refine .finish (m := ⟨a :: below, store, prints⟩) ho (op.apply a) (Nat.le_add_left _ _) rfl
        fun f hf => ?_
      obtain ⟨-, -, rfl⟩ := UnaryOp.apply_eq_error.mp hf
      rfl
  · next ho =>
    rcases m with ⟨_ | ⟨v, below⟩, store, prints⟩
    · exact .short ho Nat.zero_lt_one
    · exact .effect (m := ⟨v :: below, store, prints⟩) ho [] (Nat.le_add_left _ _) rfl
        (fun _ => rfl) fun h => absurd rfl h

/-- An instruction that is executed changes the depth by its change. -/
theorem length_stack_of_step {next : Machine} (h : m.step i = .ok next) :
    (next.stack.length : Int) = m.stack.length + i.change := by
  have hstep := step_executes i m
  rw [h] at hstep
  cases hstep with
  | done _ hdeep hresults =>
    rw [List.length_append, List.length_drop]
    omega

/-- An instruction underflows if it has an operation and operands are missing. -/
theorem step_underflows_iff :
    (∃ stuck, m.step i = .error stuck ∧ stuck.failure.code = .stackUnderflow) ↔
      i.opcode < 10 ∧ m.stack.length < i.pops := by
  have hstep := step_executes i m
  generalize m.step i = result at hstep
  cases hstep with
  | unknown hopcode =>
    refine iff_of_false ?_ fun h => UInt8.not_le.mpr h.1 hopcode
    rintro ⟨_, ⟨rfl⟩, ⟨⟩⟩
  | underflow hopcode hshort => exact iff_of_true ⟨_, rfl, rfl⟩ ⟨hopcode, hshort⟩
  | refused _ hdeep hf =>
    refine iff_of_false ?_ fun h => Nat.not_lt_of_le hdeep h.2
    rintro ⟨_, ⟨rfl⟩, hcode⟩
    rw [Failure.code, Failure.ofFault] at hcode
    rw [hcode] at hf
    cases hf
  | done _ hdeep =>
    refine iff_of_false ?_ fun h => Nat.not_lt_of_le hdeep h.2
    rintro ⟨_, ⟨⟩, -⟩

/-- An instruction is bad if it has no operation. -/
theorem step_bad_iff :
    (∃ stuck, m.step i = .error stuck ∧ stuck.failure.code = .badInstruction) ↔
      10 ≤ i.opcode := by
  have hstep := step_executes i m
  generalize m.step i = result at hstep
  cases hstep with
  | unknown hopcode => exact iff_of_true ⟨_, rfl, rfl⟩ hopcode
  | underflow hopcode =>
    refine iff_of_false ?_ (UInt8.not_le.mpr hopcode)
    rintro ⟨_, ⟨rfl⟩, ⟨⟩⟩
  | refused hopcode _ hf =>
    refine iff_of_false ?_ (UInt8.not_le.mpr hopcode)
    rintro ⟨_, ⟨rfl⟩, hcode⟩
    rw [Failure.code, Failure.ofFault] at hcode
    rw [hcode] at hf
    cases hf
  | done hopcode =>
    refine iff_of_false ?_ (UInt8.not_le.mpr hopcode)
    rintro ⟨_, ⟨⟩, -⟩

/-! ### Runs of code -/

theorem execCode_nil (m : Machine) : m.execCode [] = .ok m := rfl

/-- Code that is executed changes the depth by its change. -/
theorem length_stack_execCode {code : List Instr} {next : Machine}
    (h : m.execCode code = .ok next) :
    (next.stack.length : Int) = m.stack.length + netChange code := by
  induction code generalizing m with
  | nil =>
    cases h
    simp
  | cons i rest ih =>
    obtain ⟨m₁, hstep, hrest⟩ := Result.bind_eq_ok.mp (execCode_cons i rest m ▸ h)
    rw [ih hrest, length_stack_of_step hstep, netChange_cons]
    omega

section Run

variable {watch : Watch} {pc reports : Nat} {code : List Instr}

/-- The reports of a run, canceled or not, name the instructions that were executed, in order, with
the depth after each of them. -/
theorem getElem?_steps {k : Nat} {e : StepEvent}
    (he : (runFrom watch pc reports code m).steps[k]? = some e) :
    e.pc = pc + k ∧ code[k]? = some e.instr ∧
      ∃ next, m.execCode (code.take (k + 1)) = .ok next ∧ e.depth = next.stack.length := by
  induction code generalizing pc reports m k with
  | nil => cases he
  | cons i rest ih =>
    rw [runFrom] at he
    split at he
    · cases he
    · cases hstep : m.step i with
      | error stuck =>
        rw [hstep] at he
        cases he
      | ok m₁ =>
        rw [hstep] at he
        rw [List.take_succ_cons, execCode_cons, hstep, Result.ok_bind]
        cases k with
        | zero =>
          cases he
          exact ⟨rfl, rfl, m₁, rfl, rfl⟩
        | succ k =>
          obtain ⟨hpc, hinstr, hdepth⟩ := ih he
          exact ⟨by omega, hinstr, hdepth⟩

/-- A run that succeeds reports all instructions. -/
theorem length_steps_of_runFrom (h : (runFrom watch pc reports code m).failure = none) :
    (runFrom watch pc reports code m).steps.length = code.length := by
  induction code generalizing pc reports m with
  | nil => rfl
  | cons i rest ih =>
    rw [runFrom] at h ⊢
    split at h
    · cases h
    · next hfree =>
      rw [if_neg hfree]
      cases hstep : m.step i with
      | error stuck =>
        rw [hstep] at h
        cases h
      | ok m₁ =>
        rw [hstep] at h
        exact congrArg Nat.succ (ih h)

/-- A run that nobody stops fails at the first instruction that cannot be executed. -/
theorem stopsAt_iff (hfree : ∀ n, watch.canceled n = false) {j : Nat} {f : Failure} :
    ((runFrom watch pc reports code m).steps.length = j ∧
        (runFrom watch pc reports code m).failure = some f) ↔
      ∃ i next stuck, code[j]? = some i ∧ m.execCode (code.take j) = .ok next ∧
        next.step i = .error stuck ∧ stuck.failure = f := by
  induction code generalizing pc reports m j with
  | nil => simp [runFrom]
  | cons i rest ih =>
    rw [runFrom, hfree]
    cases hstep : m.step i with
    | error stuck =>
      cases j with
      | zero => simp [execCode_nil, hstep]
      | succ j => simp [execCode_cons, hstep]
    | ok m₁ =>
      cases j with
      | zero => simp [execCode_nil, hstep]
      | succ j => simpa [execCode_cons, hstep] using ih

end Run

end Machine

/-- All instructions before number `j` were executed, and this one failed with this kind of
failure. -/
def MachineRun.FailsAt (r : MachineRun) (j : Nat) (c : Code) : Prop :=
  r.steps.length = j ∧ ∃ f, r.failure = some f ∧ f.code = c

namespace Machine

/-- On a new machine, no instruction before number `j` fails. -/
def RunsTo (code : List Instr) (j : Nat) : Prop :=
  (run .unwatched 0 (code.take j)).failure = none

variable {watch : Watch} {reports : Nat} {code : List Instr} {j : Nat}

theorem failure_run_eq_none_iff (hfree : ∀ n, watch.canceled n = false) :
    (run watch reports code).failure = none ↔ ∃ next, empty.execCode code = .ok next := by
  have hending : (run watch reports code).ending = empty.execCode code :=
    ending_runFrom hfree 0 reports code empty
  rw [← hending]
  constructor
  · intro hnone
    exact ⟨_, MachineRun.ending_eq_ok.mpr ⟨rfl, hnone⟩⟩
  · rintro ⟨next, hnext⟩
    exact (MachineRun.ending_eq_ok.mp hnext).2

theorem runsTo_iff : RunsTo code j ↔ ∃ next, empty.execCode (code.take j) = .ok next :=
  failure_run_eq_none_iff fun _ => rfl

/-- No instruction before an earlier one fails either. -/
theorem RunsTo.of_le {k : Nat} (h : RunsTo code j) (hk : k ≤ j) : RunsTo code k := by
  obtain ⟨next, hnext⟩ := runsTo_iff.mp h
  rw [← List.take_append_drop k (code.take j), List.take_take, Nat.min_eq_left hk,
    execCode_append] at hnext
  obtain ⟨m, hm, -⟩ := Result.bind_eq_ok.mp hnext
  exact runsTo_iff.mpr ⟨m, hm⟩

theorem failsAt_iff (hfree : ∀ n, watch.canceled n = false) {c : Code} :
    (run watch reports code).FailsAt j c ↔
      ∃ next, empty.execCode (code.take j) = .ok next ∧ ∃ i, code[j]? = some i ∧
        ∃ stuck, next.step i = .error stuck ∧ stuck.failure.code = c := by
  constructor
  · rintro ⟨hlength, f, hf, hcode⟩
    obtain ⟨i, next, stuck, hi, hnext, hstuck, rfl⟩ := (stopsAt_iff hfree).mp ⟨hlength, hf⟩
    exact ⟨next, hnext, i, hi, stuck, hstuck, hcode⟩
  · rintro ⟨next, hnext, i, hi, stuck, hstuck, hcode⟩
    obtain ⟨hlength, hf⟩ := (stopsAt_iff hfree).mpr ⟨i, next, stuck, hi, hnext, hstuck, rfl⟩
    exact ⟨hlength, stuck.failure, hf, hcode⟩

/-- The depth before an instruction of a new machine's run. -/
theorem depth_of_execCode {next : Machine} (h : empty.execCode code = .ok next) :
    (next.stack.length : Int) = netChange code := by
  rw [length_stack_execCode h]
  exact Int.zero_add _

/-- A failing instruction is the end of the run. -/
theorem not_runsTo_succ {next : Machine} {i : Instr} {stuck : Stuck}
    (hnext : empty.execCode (code.take j) = .ok next) (hi : code[j]? = some i)
    (hstuck : next.step i = .error stuck) : ¬ RunsTo code (j + 1) := by
  rw [runsTo_iff, List.take_add_one, hi, execCode_append, hnext, Result.ok_bind]
  rintro ⟨last, hlast⟩
  rw [Option.toList_some, execCode_singleton, hstuck] at hlast
  cases hlast

/-- A run that nobody stops reports the instructions that are executed, and no others. -/
theorem lt_length_steps_iff (hfree : ∀ n, watch.canceled n = false) {k : Nat} :
    k < (run watch reports code).steps.length ↔ k < code.length ∧ RunsTo code (k + 1) := by
  constructor
  · intro hk
    obtain ⟨-, hinstr, next, hnext, -⟩ := getElem?_steps (List.getElem?_eq_getElem hk)
    exact ⟨(List.getElem?_eq_some_iff.mp hinstr).1, runsTo_iff.mpr ⟨next, hnext⟩⟩
  · rintro ⟨hk, hruns⟩
    cases hfailure : (run watch reports code).failure with
    | none =>
      have hall : (run watch reports code).steps.length = code.length :=
        length_steps_of_runFrom hfailure
      rwa [hall]
    | some f =>
      obtain ⟨i, next, stuck, hi, hnext, hstuck, -⟩ := (stopsAt_iff hfree).mp ⟨rfl, hfailure⟩
      -- had the run stopped earlier, the instruction there would have failed in front of this one
      apply Nat.lt_of_not_le
      intro hle
      exact not_runsTo_succ hnext hi hstuck (hruns.of_le (Nat.succ_le_succ hle))

/-- **Depths are told by the code.** In a run of any code that nobody stops:

* every instruction that is executed is reported, and the depth reported after it is the sum of the
  changes up to it;
* the run underflows at an instruction exactly when no instruction before it fails, it has an
  operation, and the sum of the changes before it is less than the number of its operands;
* it meets a bad instruction exactly when the first instruction that fails has no operation;
* if it succeeds, as many values are left on the stack as the sum of all changes. -/
theorem depth_is_told_by_the_code (watch : Watch) (hwatch : watch.cancelAt = none) (reports : Nat)
    (code : List Instr) :
    let r := run watch reports code
    (∀ k, k < r.steps.length ↔ k < code.length ∧ RunsTo code (k + 1)) ∧
    (∀ k e, r.steps[k]? = some e → e.pc = k ∧ code[k]? = some e.instr ∧
      (e.depth : Int) = netChange (code.take (k + 1))) ∧
    (∀ j, r.FailsAt j .stackUnderflow ↔ RunsTo code j ∧
      ∃ i, code[j]? = some i ∧ i.opcode < 10 ∧ netChange (code.take j) < i.pops) ∧
    (∀ j, r.FailsAt j .badInstruction ↔ RunsTo code j ∧ ¬ RunsTo code (j + 1) ∧
      ∃ i, code[j]? = some i ∧ 10 ≤ i.opcode) ∧
    (r.failure = none → (r.machine.stack.length : Int) = netChange code) := by
  intro r
  have hfree : ∀ n, watch.canceled n = false := by
    intro n
    rw [Watch.canceled, hwatch]
  refine ⟨fun k => lt_length_steps_iff hfree, fun k e he => ?_, fun j => ?_, fun j => ?_,
    fun hnone => ?_⟩
  · obtain ⟨hpc, hinstr, next, hnext, hdepth⟩ := getElem?_steps he
    rw [hdepth, depth_of_execCode hnext]
    exact ⟨by omega, hinstr, rfl⟩
  · rw [failsAt_iff hfree, runsTo_iff]
    constructor
    · rintro ⟨next, hnext, i, hi, hstuck⟩
      obtain ⟨hopcode, hshort⟩ := step_underflows_iff.mp hstuck
      rw [← depth_of_execCode hnext]
      exact ⟨⟨next, hnext⟩, i, hi, hopcode, Int.ofNat_lt.mpr hshort⟩
    · rintro ⟨⟨next, hnext⟩, i, hi, hopcode, hshort⟩
      rw [← depth_of_execCode hnext, Int.ofNat_lt] at hshort
      exact ⟨next, hnext, i, hi, step_underflows_iff.mpr ⟨hopcode, hshort⟩⟩
  · rw [failsAt_iff hfree]
    constructor
    · rintro ⟨next, hnext, i, hi, stuck, hstuck, hcode⟩
      exact ⟨runsTo_iff.mpr ⟨next, hnext⟩, not_runsTo_succ hnext hi hstuck, i, hi,
        step_bad_iff.mp ⟨stuck, hstuck, hcode⟩⟩
    · rintro ⟨hruns, -, i, hi, hopcode⟩
      obtain ⟨next, hnext⟩ := runsTo_iff.mp hruns
      exact ⟨next, hnext, i, hi, step_bad_iff.mpr hopcode⟩
  · exact depth_of_execCode (execCode_of_runFrom hnone)

/-- A sum whose right operand is there and whose left one is missing: the run underflows at the
instruction after the one that prints. -/
theorem depth_is_told_by_the_code_underflow :
    let code : List Instr := [.push 7, .print, .push 1, .plain (.binary .add), ⟨12, 0, []⟩]
    let r := run ⟨true, none⟩ 0 code
    r.FailsAt 3 .stackUnderflow ∧ ¬ r.FailsAt 4 .badInstruction ∧
      r.steps.map StepEvent.depth = [1, 0, 1] := by
  intro code r
  obtain ⟨-, -, hunderflow, hbad, -⟩ :=
    depth_is_told_by_the_code ⟨true, none⟩ rfl 0 code
  refine ⟨(hunderflow 3).mpr ⟨rfl, _, rfl, by decide, by decide⟩, ?_, rfl⟩
  intro h
  obtain ⟨hruns, -⟩ := (hbad 4).mp h
  cases hruns

end Machine

end Polish
