import Polish.Compile
import Polish.Eval
import Polish.Machine
import Polish.Workbench
import Polish.Proofs.Bindings
import Polish.Proofs.Result

/-!
# The two ways of running a program agree

A tree can be walked by the interpreter, or compiled and run by the stack machine. Both ways print
the same values, leave the same symbol table and fail for the same cause, whatever the tree.

The simulation has three layers:

1. `Expr.delivers_of_compile`: on any stack, the code of an expression pushes the value of the
   expression, or stops with the fault of its evaluation and leaves the old stack below.
2. `Action.follows_of_compile`: between two statements the machine is determined by the state of the
   interpreter (`Progress.toMachine`), and the code of a statement keeps this.
3. `SameEffect`: what an observer of both runs can compare, for a run that is never canceled or
   canceled from the start (`Watch.IsSteady`).
-/

namespace Polish

/-! ### Running code without a watch -/

namespace MachineRun

/-- How the run ended: with a machine, or stuck. -/
def ending (r : MachineRun) : Except Stuck Machine :=
  match r.failure with
  | none => .ok r.machine
  | some f => .error ⟨r.machine, f⟩

theorem ending_eq_ok {r : MachineRun} {m : Machine} :
    r.ending = .ok m ↔ r.machine = m ∧ r.failure = none := by
  unfold ending
  cases r.failure <;> simp

theorem ending_eq_error {r : MachineRun} {m : Machine} {f : Failure} :
    r.ending = .error ⟨m, f⟩ ↔ r.machine = m ∧ r.failure = some f := by
  unfold ending
  cases r.failure <;> simp

end MachineRun

namespace Machine

/-- Executes instructions one after the other, up to the first that fails. -/
def execCode (code : List Instr) (m : Machine) : Except Stuck Machine :=
  code.foldlM (fun m i => m.step i) m

theorem execCode_cons (i : Instr) (code : List Instr) (m : Machine) :
    m.execCode (i :: code) = (m.step i >>= fun m => m.execCode code) := rfl

theorem execCode_append (xs ys : List Instr) (m : Machine) :
    m.execCode (xs ++ ys) = (m.execCode xs >>= fun m => m.execCode ys) := by
  unfold execCode
  rw [List.foldlM_append]

theorem execCode_singleton (i : Instr) (m : Machine) : m.execCode [i] = m.step i := by
  rw [execCode_cons]
  cases m.step i <;> rfl

/-- A run that is not canceled ends like plain execution. -/
theorem ending_runFrom {watch : Watch} (hwatch : ∀ n, watch.canceled n = false)
    (pc reports : Nat) (code : List Instr) (m : Machine) :
    (runFrom watch pc reports code m).ending = m.execCode code := by
  induction code generalizing pc reports m with
  | nil => rfl
  | cons i rest ih =>
    rw [execCode_cons, runFrom, hwatch]
    cases m.step i with
    | error stuck => rfl
    | ok m' => exact ih _ _ m'

/-- A canceled run executes nothing. -/
theorem runFrom_of_canceled {watch : Watch} (hwatch : ∀ n, watch.canceled n = true)
    (pc reports : Nat) (code : List Instr) (m : Machine) :
    runFrom watch pc reports code m
      = ⟨m, [], if code = [] then none else some (.ofFault .canceled)⟩ := by
  cases code with
  | nil => rfl
  | cons i rest => simp [runFrom, hwatch]

/-! ### Single instructions -/

theorem step_push (v : Int64) (m : Machine) : m.step (.push v) = .ok (m.push v) := rfl

theorem step_load (name : Bytes) (m : Machine) :
    m.step (.load name) = m.finish (Store.get m.store name) := rfl

theorem step_store (name : Bytes) (v : Int64) (m : Machine) :
    (m.push v).step (.store name) = .ok { m with store := m.store.put name v } := rfl

theorem step_print (v : Int64) (m : Machine) :
    (m.push v).step .print = .ok { m with prints := m.prints ++ [v] } := rfl

theorem step_binary (op : BinaryOp) (a b : Int64) (m : Machine) :
    ((m.push a).push b).step (.plain (.binary op)) = m.finish (op.apply a b) := by
  cases op <;> rfl

theorem step_unary (op : UnaryOp) (a : Int64) (m : Machine) :
    (m.push a).step (.plain (.unary op)) = m.finish (op.apply a) := by
  cases op <;> rfl

end Machine

/-! ### Code of an expression -/

/-- The code does to the machine what the result says: it pushes the value, or it stops with the
fault, having changed nothing but values pushed above the old stack. -/
def Delivers (m : Machine) (code : List Instr) : Except Failure Int64 → Prop
  | .ok v => m.execCode code = .ok (m.push v)
  | .error f => ∃ above, m.execCode code
      = .error ⟨{ m with stack := above ++ m.stack }, .ofFault f.fault⟩

namespace Expr

/-- A binary operation has code when its operator exists and both operands have code. -/
theorem compile_binary_eq_ok {span : Span} {symbol : Bytes} {l r : Expr} {code : List Instr} :
    (binary span symbol l r).compile = .ok code ↔
      ∃ op left right, BinaryOp.ofSymbol? symbol = some op ∧ l.compile = .ok left ∧
        r.compile = .ok right ∧ code = left ++ right ++ [.plain (.binary op)] := by
  rw [compile, Operation.ofBinary?]
  cases BinaryOp.ofSymbol? symbol with
  | none => simp
  | some op =>
    constructor
    · intro h
      obtain ⟨left, hl, h⟩ := Result.bind_eq_ok.mp h
      obtain ⟨right, hr, hcode⟩ := Result.bind_pure_eq_ok.mp h
      exact ⟨op, left, right, rfl, hl, hr, hcode⟩
    · rintro ⟨op', left, right, hop, hl, hr, hcode⟩
      cases hop
      exact Result.bind_eq_ok.mpr ⟨left, hl, Result.bind_pure_eq_ok.mpr ⟨right, hr, hcode⟩⟩

/-- A unary operation has code when its operator exists and the operand has code. -/
theorem compile_unary_eq_ok {span : Span} {symbol : Bytes} {e : Expr} {code : List Instr} :
    (unary span symbol e).compile = .ok code ↔
      ∃ op operand, UnaryOp.ofSymbol? symbol = some op ∧ e.compile = .ok operand ∧
        code = operand ++ [.plain (.unary op)] := by
  rw [compile, Operation.ofUnary?]
  cases UnaryOp.ofSymbol? symbol with
  | none => simp
  | some op =>
    constructor
    · intro h
      obtain ⟨operand, he, hcode⟩ := Result.bind_pure_eq_ok.mp h
      exact ⟨op, operand, rfl, he, hcode⟩
    · rintro ⟨op', operand, hop, he, hcode⟩
      cases hop
      exact Result.bind_pure_eq_ok.mpr ⟨operand, he, hcode⟩

theorem eval_binary {span : Span} {symbol : Bytes} {op : BinaryOp} {l r : Expr} {store : Store}
    (hop : BinaryOp.ofSymbol? symbol = some op) :
    (binary span symbol l r).eval store = (l.eval store >>= fun a => r.eval store >>= fun b =>
      (op.apply a b).mapError (.atSpan · span)) := by
  simp only [eval, applyBinary, hop]

theorem eval_unary {span : Span} {symbol : Bytes} {op : UnaryOp} {e : Expr} {store : Store}
    (hop : UnaryOp.ofSymbol? symbol = some op) :
    (unary span symbol e).eval store
      = (e.eval store >>= fun a => (op.apply a).mapError (.atSpan · span)) := by
  simp only [eval, applyUnary, hop]

/-- An instruction that ends by finishing with a result delivers that result, wherever the fault is
placed in the tree. -/
theorem delivers_finish {m : Machine} {code : List Instr} {result : Except Fault Int64}
    {span : Span} (h : m.execCode code = m.finish result) :
    Delivers m code (result.mapError (.atSpan · span)) := by
  cases result with
  | ok v => exact h
  | error f => exact ⟨[], h⟩

/-- Code for two operands and then the instruction of an operator delivers the operation. -/
theorem delivers_binary {m : Machine} {left right : List Instr} {x y : Except Failure Int64}
    (op : BinaryOp) (span : Span) (hleft : Delivers m left x)
    (hright : ∀ a, Delivers (m.push a) right y) :
    Delivers m (left ++ right ++ [.plain (.binary op)])
      (x >>= fun a => y >>= fun b => (op.apply a b).mapError (.atSpan · span)) := by
  cases x with
  | error f =>
    -- the left operand fails: neither the right one nor the operator runs
    obtain ⟨above, hleft⟩ := hleft
    refine ⟨above, ?_⟩
    rw [Machine.execCode_append, Machine.execCode_append, hleft]
    rfl
  | ok a =>
    have hleft : m.execCode left = .ok (m.push a) := hleft
    have hright := hright a
    cases y with
    | error f =>
      -- the value of the left operand stays on the stack
      obtain ⟨above, hright⟩ := hright
      refine ⟨above ++ [a], ?_⟩
      rw [Machine.execCode_append, Machine.execCode_append, hleft, Result.ok_bind, hright,
        Result.error_bind, List.append_assoc]
      rfl
    | ok b =>
      have hright : (m.push a).execCode right = .ok ((m.push a).push b) := hright
      apply delivers_finish
      rw [Machine.execCode_append, Machine.execCode_append, hleft, Result.ok_bind, hright,
        Result.ok_bind, Machine.execCode_singleton, Machine.step_binary]

/-- Code for an operand and then the instruction of an operator delivers the operation. -/
theorem delivers_unary {m : Machine} {operand : List Instr} {x : Except Failure Int64}
    (op : UnaryOp) (span : Span) (hoperand : Delivers m operand x) :
    Delivers m (operand ++ [.plain (.unary op)])
      (x >>= fun a => (op.apply a).mapError (.atSpan · span)) := by
  cases x with
  | error f =>
    obtain ⟨above, hoperand⟩ := hoperand
    refine ⟨above, ?_⟩
    rw [Machine.execCode_append, hoperand, Result.error_bind]
  | ok a =>
    have hoperand : m.execCode operand = .ok (m.push a) := hoperand
    apply delivers_finish
    rw [Machine.execCode_append, hoperand, Result.ok_bind, Machine.execCode_singleton,
      Machine.step_unary]

/-- **Expressions.** On any machine, the code of an expression delivers what evaluation gives. -/
theorem delivers_of_compile {e : Expr} {code : List Instr} (h : e.compile = .ok code)
    (m : Machine) : Delivers m code (e.eval m.store) := by
  induction e generalizing code m with
  | missing => cases h
  | const span v =>
    cases h
    show m.execCode [.push v] = .ok (m.push v)
    rw [Machine.execCode_singleton, Machine.step_push]
  | var span name =>
    cases h
    apply delivers_finish
    rw [Machine.execCode_singleton, Machine.step_load]
  | binary span symbol l r ihl ihr =>
    obtain ⟨op, left, right, hop, hl, hr, rfl⟩ := compile_binary_eq_ok.mp h
    rw [eval_binary hop]
    exact delivers_binary op span (ihl hl m) fun a => ihr hr (m.push a)
  | unary span symbol e ih =>
    obtain ⟨op, operand, hop, he, rfl⟩ := compile_unary_eq_ok.mp h
    rw [eval_unary hop]
    exact delivers_unary op span (ih he m)

end Expr

/-! ### Code of a statement -/

/-- The machine between two statements: its stack is empty, and it has seen what the interpreter has
seen. -/
def Progress.toMachine (s : Progress) : Machine := ⟨[], s.store, s.prints⟩

/-- The code takes the machine where the interpreter went: to the machine of the state after the
statements, or to a stop with the same fault, the same table and the same prints. -/
def Follows (s : Progress) (code : List Instr) : Except Halted Progress → Prop
  | .ok s' => s.toMachine.execCode code = .ok s'.toMachine
  | .error halted => ∃ stack, s.toMachine.execCode code
      = .error ⟨{ halted.progress.toMachine with stack := stack }, .ofFault halted.failure.fault⟩

namespace Action

theorem compile_assign_eq_ok {span : Span} {target : Bytes} {rhs : Expr} {code : List Instr} :
    (assign span target rhs).compile = .ok code ↔
      ∃ value, rhs.compile = .ok value ∧ code = value ++ [.store target] := by
  rw [compile]
  exact Result.bind_pure_eq_ok

theorem compile_print_eq_ok {span : Span} {e : Expr} {code : List Instr} :
    (print span e).compile = .ok code ↔
      ∃ value, e.compile = .ok value ∧ code = value ++ [.print] := by
  rw [compile]
  exact Result.bind_pure_eq_ok

theorem compileAll_cons_eq_ok {a : Action} {as : List Action} {code : List Instr} :
    compileAll (a :: as) = .ok code ↔
      ∃ first rest, a.compile = .ok first ∧ compileAll as = .ok rest ∧ code = first ++ rest := by
  rw [compileAll, Result.bind_eq_ok]
  constructor
  · rintro ⟨first, hfirst, h⟩
    obtain ⟨rest, hrest, hcode⟩ := Result.bind_pure_eq_ok.mp h
    exact ⟨first, rest, hfirst, hrest, hcode⟩
  · rintro ⟨first, rest, hfirst, hrest, hcode⟩
    exact ⟨first, hfirst, Result.bind_pure_eq_ok.mpr ⟨rest, hrest, hcode⟩⟩

variable {info : RunInfo}

/-- One statement: the code of its expression, then an instruction that does to the machine what the
statement's effect does to the state. -/
theorem follows_runStatement (hwatch : ∀ n, info.watch.canceled n = false) {sort : Bytes}
    {span : Span} {e : Expr} {effect : Int64 → Progress → Progress}
    {data : Int64 → List (Bytes × Bytes)} {value : List Instr} {last : Instr}
    (hvalue : e.compile = .ok value)
    (hlast : ∀ v (s : Progress), (s.toMachine.push v).step last = .ok (effect v s).toMachine)
    (s : Progress) :
    Follows s (value ++ [last]) (runStatement info sort span e effect data s) := by
  rw [runStatement, hwatch]
  generalize hstarted : s.report info .stmtStart span [("kind", sort)] = started
  have hsame : started.toMachine = s.toMachine := by
    rw [← hstarted]
    simp [Progress.toMachine]
  have hdelivers : Delivers s.toMachine value (e.eval started.store) := by
    rw [← hsame]
    exact Expr.delivers_of_compile hvalue started.toMachine
  simp only [Bool.false_eq_true, if_false]
  cases hev : e.eval started.store with
  | error f =>
    rw [hev] at hdelivers
    obtain ⟨above, hdelivers⟩ := hdelivers
    refine ⟨above ++ [], ?_⟩
    rw [Machine.execCode_append, hdelivers, Result.error_bind, hsame, Failure.locate_fault]
    rfl
  | ok v =>
    rw [hev] at hdelivers
    show s.toMachine.execCode (value ++ [last]) = _
    rw [Machine.execCode_append, hdelivers, Result.ok_bind, Machine.execCode_singleton, ← hsame,
      hlast]
    simp [Progress.toMachine]

mutual

/-- **Statements.** The code of a statement follows the interpreter. -/
theorem follows_of_compile (hwatch : ∀ n, info.watch.canceled n = false) :
    ∀ (a : Action) {code : List Instr}, a.compile = .ok code → ∀ s : Progress,
      Follows s code (a.exec info s)
  | missing, _, h, _ => by cases h
  | assign span target rhs, _, h, s => by
    obtain ⟨value, hvalue, rfl⟩ := compile_assign_eq_ok.mp h
    rw [exec]
    exact follows_runStatement hwatch hvalue (fun v s => Machine.step_store target v s.toMachine) s
  | print span e, _, h, s => by
    obtain ⟨value, hvalue, rfl⟩ := compile_print_eq_ok.mp h
    rw [exec]
    exact follows_runStatement hwatch hvalue (fun v s => Machine.step_print v s.toMachine) s
  | seq _ as, _, h, s => by
    rw [exec]
    exact followsAll_of_compile hwatch as h s

/-- The code of statements follows the interpreter, one statement after the other. -/
theorem followsAll_of_compile (hwatch : ∀ n, info.watch.canceled n = false) :
    ∀ (as : List Action) {code : List Instr}, compileAll as = .ok code → ∀ s : Progress,
      Follows s code (execAll info as s)
  | [], _, h, s => by
    cases h
    rfl
  | a :: as, _, h, s => by
    obtain ⟨first, rest, hfirst, hrest, rfl⟩ := compileAll_cons_eq_ok.mp h
    have hhead := follows_of_compile hwatch a hfirst s
    rw [execAll]
    cases hexec : a.exec info s with
    | error halted =>
      rw [hexec] at hhead
      obtain ⟨stack, hhead⟩ := hhead
      refine ⟨stack, ?_⟩
      rw [Machine.execCode_append, hhead, Result.error_bind]
    | ok s' =>
      -- between the statements the stack is empty, so the rest runs as from the start
      rw [hexec] at hhead
      have htail := followsAll_of_compile hwatch as hrest s'
      have hsplit : s.toMachine.execCode (first ++ rest) = s'.toMachine.execCode rest := by
        rw [Machine.execCode_append, hhead, Result.ok_bind]
      show Follows s (first ++ rest) (execAll info as s')
      unfold Follows at htail ⊢
      rw [hsplit]
      exact htail

end

/-! ### Canceled runs -/

mutual

/-- In a canceled run a tree with code does nothing: it fails, unless it has no statements. -/
theorem exec_of_canceled (hwatch : ∀ n, info.watch.canceled n = true) :
    ∀ (a : Action) {code : List Instr}, a.compile = .ok code → ∀ s : Progress,
      a.exec info s = if code = [] then .ok s else .error ⟨s, .ofFault .canceled⟩
  | missing, _, h, _ => by cases h
  | assign span target rhs, _, h, s => by
    obtain ⟨value, -, rfl⟩ := compile_assign_eq_ok.mp h
    rw [exec, runStatement, hwatch, if_pos rfl, if_neg (by simp)]
  | print span e, _, h, s => by
    obtain ⟨value, -, rfl⟩ := compile_print_eq_ok.mp h
    rw [exec, runStatement, hwatch, if_pos rfl, if_neg (by simp)]
  | seq _ as, _, h, s => by
    rw [exec]
    exact execAll_of_canceled hwatch as h s

/-- In a canceled run trees with code do nothing. -/
theorem execAll_of_canceled (hwatch : ∀ n, info.watch.canceled n = true) :
    ∀ (as : List Action) {code : List Instr}, compileAll as = .ok code → ∀ s : Progress,
      execAll info as s = if code = [] then .ok s else .error ⟨s, .ofFault .canceled⟩
  | [], _, h, s => by
    cases h
    rfl
  | a :: as, _, h, s => by
    obtain ⟨first, rest, hfirst, hrest, rfl⟩ := compileAll_cons_eq_ok.mp h
    rw [execAll, exec_of_canceled hwatch a hfirst s]
    -- only a tree without statements has no code
    by_cases hnil : first = []
    · rw [if_pos hnil, hnil, List.nil_append]
      exact execAll_of_canceled hwatch as hrest s
    · rw [if_neg hnil, if_neg (by simp [hnil])]

end

end Action

/-! ### Whole runs -/

/-- Nothing that happens during the run changes whether it is canceled: it never is, or it was
before it started. -/
def Watch.IsSteady (watch : Watch) : Prop := watch.cancelAt = none ∨ watch.cancelAt = some 0

theorem Watch.IsSteady.canceled_eq {watch : Watch} (h : watch.IsSteady) :
    (∀ n, watch.canceled n = false) ∨ (∀ n, watch.canceled n = true) := by
  rcases h with h | h
  · left
    intro n
    rw [Watch.canceled, h]
  · right
    intro n
    rw [Watch.canceled, h]
    simp

/-- What both ways of running a program have in common. -/
structure SameEffect (x : Execution) (r : MachineRun) : Prop where
  succeeds : x.failure = none ↔ r.failure = none
  prints : x.progress.prints = r.machine.prints
  store : x.progress.store = r.machine.store
  fails : ∀ f g, x.failure = some f → r.failure = some g →
    f.code = g.code ∧ f.fault.message = g.fault.message ∧ f.fault.value? = g.fault.value?
  stack : r.failure = none → r.machine.stack = []

/-- A failure of the machine is one of the interpreter. -/
theorem SameEffect.exists_failure {x : Execution} {r : MachineRun} (h : SameEffect x r)
    {g : Failure} (hg : r.failure = some g) :
    ∃ f, x.failure = some f ∧ f.code = g.code ∧ f.fault.value? = g.fault.value? := by
  cases hx : x.failure with
  | none =>
    rw [h.succeeds.mp hx] at hg
    cases hg
  | some f =>
    obtain ⟨hcode, -, hvalue⟩ := h.fails f g hx hg
    exact ⟨f, rfl, hcode, hvalue⟩

/-- The interpreter's state at the end of a run is the one its statements left. -/
theorem execute_eq (info : RunInfo) (a : Action) (store : Store) :
    ∃ s : Progress, s.toMachine = (Progress.start store).toMachine ∧
      (execute info a store).failure = (Execution.ofExcept (a.exec info s)).failure ∧
      (execute info a store).progress.toMachine
        = (Execution.ofExcept (a.exec info s)).progress.toMachine := by
  refine ⟨(Progress.start store).report info .runStart a.span [], ?_, rfl, ?_⟩
  · simp [Progress.toMachine]
  · simp [execute, Progress.toMachine]

/-- Runs with the same fault, prints and table have the same effect. -/
theorem SameEffect.of_fault_eq {x : Execution} {r : MachineRun} (stack : List Int64)
    (hmachine : r.machine = { x.progress.toMachine with stack := stack })
    (hfault : x.failure.map Failure.fault = r.failure.map Failure.fault)
    (hstack : r.failure = none → stack = []) : SameEffect x r where
  succeeds := by
    rw [← Option.map_eq_none_iff, hfault, Option.map_eq_none_iff]
  prints := by rw [hmachine]; rfl
  store := by rw [hmachine]; rfl
  fails f g hf hg := by
    rw [hf, hg] at hfault
    have hfg : f.fault = g.fault := Option.some.inj hfault
    rw [Failure.code, Failure.code, hfg]
    exact ⟨rfl, rfl, rfl⟩
  stack h := by rw [hmachine]; exact hstack h

/-- A run of the machine that follows the interpreter has the same effect. -/
theorem SameEffect.of_follows {x : Execution} {r : MachineRun} {s : Progress} {code : List Instr}
    {result : Except Halted Progress} (hfollows : Follows s code result)
    (hending : r.ending = s.toMachine.execCode code)
    (hfailure : x.failure = (Execution.ofExcept result).failure)
    (hprogress : x.progress.toMachine = (Execution.ofExcept result).progress.toMachine) :
    SameEffect x r := by
  cases result with
  | ok s' =>
    obtain ⟨hmachine, hnone⟩ := MachineRun.ending_eq_ok.mp (hending.trans hfollows)
    refine of_fault_eq [] ?_ ?_ (fun _ => rfl)
    · rw [hmachine, hprogress]
      rfl
    · rw [hfailure, hnone]
      rfl
  | error halted =>
    obtain ⟨stack, hstuck⟩ := hfollows
    obtain ⟨hmachine, hsome⟩ := MachineRun.ending_eq_error.mp (hending.trans hstuck)
    refine of_fault_eq stack ?_ ?_ ?_
    · rw [hmachine, hprogress]
      rfl
    · rw [hfailure, hsome]
      rfl
    · intro hnone
      rw [hsome] at hnone
      cases hnone

/-- A steady run of a tree and one of its code have the same effect. -/
theorem sameEffect_of_compile {p : Program} {code : List Instr} (hcode : p.compile = .ok code)
    {watch : Watch} (hwatch : watch.IsSteady) (runId : Bytes) (reports : Nat) :
    SameEffect (execute ⟨watch, runId⟩ p.toAction .empty) (Machine.run watch reports code) := by
  generalize hinfo : RunInfo.mk watch runId = info
  have hsame : info.watch = watch := by rw [← hinfo]
  obtain ⟨s, hempty, hfailure, hprogress⟩ := execute_eq info p.toAction .empty
  rcases hwatch.canceled_eq with hfree | hcanceled
  · have hfollows : Follows s code (p.toAction.exec info s) :=
      Action.follows_of_compile (by rw [hsame]; exact hfree) p.toAction hcode s
    refine .of_follows hfollows ?_ hfailure hprogress
    rw [hempty]
    exact Machine.ending_runFrom hfree 0 reports code Machine.empty
  · have hexec := Action.exec_of_canceled (by rw [hsame]; exact hcanceled) p.toAction hcode s
    have hrun : Machine.run watch reports code = _ :=
      Machine.runFrom_of_canceled hcanceled 0 reports code Machine.empty
    rw [hexec] at hfailure hprogress
    refine .of_fault_eq [] ?_ ?_ (fun _ => rfl)
    · rw [hrun, hprogress]
      split <;> exact hempty.symm
    · rw [hrun, hfailure]
      split <;> rfl

/-- The verdict on a program with code is that both ways agree. -/
theorem Verdict.agree_of_sameEffect {x : Execution} {r : MachineRun} (h : SameEffect x r) :
    (Verdict.mk (.ofExecution x) (.ofMachineRun r)).agree = true := by
  have hcode : x.failure.map Failure.code = r.failure.map Failure.code := by
    cases hr : r.failure with
    | none => rw [h.succeeds.mpr hr]
    | some g =>
      obtain ⟨f, hf, hfg, -⟩ := h.exists_failure hr
      rw [hf, Option.map_some, Option.map_some, hfg]
  simp [agree, Outcome.ofExecution, Outcome.ofMachineRun, hcode, h.prints, h.store,
    NameMap.equal_self]

/-- **Both ways agree.** A tree that has code and its code, each run from the start on an empty
table, fail or succeed together, with the same prints, the same table and the same fault; code that
succeeds leaves nothing on the stack. So verification never fails on such a tree and always finds
agreement. -/
theorem execute_agrees_with_run {p : Program} {code : List Instr} (hcode : p.compile = .ok code)
    {watch : Watch} (hwatch : watch.IsSteady) (runId : Bytes) (reports : Nat) :
    SameEffect (execute ⟨watch, runId⟩ p.toAction .empty) (Machine.run watch reports code) ∧
      ∀ bench : Workbench, ∃ trail verdict,
        bench.verify watch p = (trail, .ok verdict) ∧ verdict.agree = true := by
  refine ⟨sameEffect_of_compile hcode hwatch runId reports, fun bench => ?_⟩
  rw [Workbench.verify, hcode]
  refine ⟨_, _, rfl, Verdict.agree_of_sameEffect ?_⟩
  exact sameEffect_of_compile hcode (by exact hwatch) [] 0

/-- A nested tree whose last statement divides by zero: both ways stop there, after one print. -/
theorem execute_agrees_with_run_division :
    let p : Program := ⟨.zero, [.seq .zero [.assign .zero "a" (.const .zero 7), .seq .zero []],
      .print .zero (.var .zero "a"),
      .print .zero (.binary .zero "//" (.var .zero "a") (.const .zero 0))]⟩
    let code : List Instr := [.push 7, .store "a", .load "a", .print, .load "a", .push 0,
      .plain (.binary .div), .print]
    p.compile = .ok code ∧
      SameEffect (execute ⟨.unwatched, []⟩ p.toAction .empty) (Machine.run .unwatched 0 code) ∧
      ∀ bench : Workbench, ∃ trail verdict,
        bench.verify .unwatched p = (trail, .ok verdict) ∧ verdict.agree = true :=
  ⟨rfl, execute_agrees_with_run rfl (.inl rfl) [] 0⟩

end Polish
