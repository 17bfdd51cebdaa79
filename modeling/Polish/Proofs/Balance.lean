import Polish.Proofs.Course
import Polish.Proofs.StackEffect

/-!
# Compiled code and the stack

The code of an expression adds one value to the stack and takes nothing from what it finds there;
the code of a statement leaves the stack as deep as it was. How deep the stack gets in between is
the number of operands that wait for each other, and can be told from the expression.

Code is measured from the start of its own stack, so that codes can be put one after the other: with
changes `c₁` and `c₂` and greatest heights `p₁` and `p₂` the whole has the change `c₁ + c₂` and the
greatest height `max p₁ (c₁ + p₂)`.

1. `draws`, `peak`: how far code reaches into the stack that it finds, and how much it piles on it.
2. `PutsOne`, `Expr.putsOne_of_compile`: the code of an expression, along the expression.
3. `Machine.step_onto`, `Machine.execCode_onto`: code that does not reach into the stack below does
   the same on any.
4. `Expr.code_has_one_effect`: what the code of an expression does to a machine.
5. `Action.shape_of_compileAll`, `Machine.foldl_max_depth`: the code of statements, and the depths
   that a run of it reports.
6. `Program.greatest_depth_is_need`: the depths in a run of a program.
-/

namespace Polish

/-! ### The shape of code -/

/-- How many of the values that it finds on the stack the code takes. -/
def draws : List Instr → Int
  | [] => 0
  | i :: rest => max i.pops (draws rest - i.change)

/-- By how much the stack is deeper, at most, than before the code. -/
def peak : List Instr → Int
  | [] => 0
  | i :: rest => max 0 (i.change + peak rest)

theorem draws_nonneg (code : List Instr) : 0 ≤ draws code := by
  cases code with
  | nil => exact Int.le_refl 0
  | cons i rest =>
    rw [draws]
    omega

theorem peak_nonneg (code : List Instr) : 0 ≤ peak code := by
  cases code with
  | nil => exact Int.le_refl 0
  | cons i rest =>
    rw [peak]
    omega

theorem draws_append (xs ys : List Instr) :
    draws (xs ++ ys) = max (draws xs) (draws ys - netChange xs) := by
  induction xs with
  | nil =>
    have hnonneg := draws_nonneg ys
    rw [List.nil_append, draws, netChange_nil]
    omega
  | cons i xs ih =>
    rw [List.cons_append, draws, draws, ih, netChange_cons]
    omega

theorem peak_append (xs ys : List Instr) :
    peak (xs ++ ys) = max (peak xs) (netChange xs + peak ys) := by
  induction xs with
  | nil =>
    have hnonneg := peak_nonneg ys
    rw [List.nil_append, peak, netChange_nil]
    omega
  | cons i xs ih =>
    rw [List.cons_append, peak, peak, ih, netChange_cons]
    omega

/-- An instruction finds its operands above the stack that the code found, if the code does not
reach into it. -/
theorem pops_le_of_draws {front back : List Instr} {i : Instr}
    (h : draws (front ++ i :: back) ≤ 0) : draws front ≤ 0 ∧ i.pops ≤ netChange front := by
  rw [draws_append, draws] at h
  omega

/-! ### The shape of compiled code -/

/-- How deep a stack it takes to evaluate the expression: while the right operand is evaluated, the
value of the left one waits. -/
def Expr.need : Expr → Nat
  | missing => 0
  | const _ _ | var _ _ => 1
  | unary _ _ e => e.need
  | binary _ _ l r => max l.need (1 + r.need)

/-- How deep a stack the expression of a statement takes. -/
def Action.need : Action → Nat
  | assign _ _ e | print _ e => e.need
  | missing | seq _ _ => 0

/-- The instruction neither changes the table nor prints. -/
def Instr.Calculates (i : Instr) : Prop :=
  i.operation? ≠ some .store ∧ i.operation? ≠ some .print

theorem Instr.operation?_plain (o : Operation) : (plain o).operation? = some o :=
  Operation.ofNumber?_number o

theorem Instr.calculates_plain {o : Operation} (hstore : o ≠ .store) (hprint : o ≠ .print) :
    (plain o).Calculates := by
  rw [Calculates, operation?_plain]
  exact ⟨fun h => hstore (Option.some.inj h), fun h => hprint (Option.some.inj h)⟩

/-- The shape of code that puts one value on the stack: it reaches into nothing, piles up this many
values, and does nothing but calculate. -/
structure PutsOne (code : List Instr) (height : Nat) : Prop where
  netChange : netChange code = 1
  draws : draws code = 0
  peak : peak code = height
  height_pos : 0 < height
  calculates : ∀ i ∈ code, i.Calculates

namespace PutsOne

/-- A single instruction that takes nothing. -/
theorem single {i : Instr} {o : Operation} (ho : i.operation? = some o) (hpops : o.pops = 0)
    (hchange : o.change = 1) (hstore : o ≠ .store) (hprint : o ≠ .print) : PutsOne [i] 1 := by
  obtain ⟨-, hpops', hchange'⟩ := Instr.spec_of_operation? ho
  rw [hpops] at hpops'
  rw [hchange] at hchange'
  constructor
  · rw [netChange_cons, hchange']
    rfl
  · rw [Polish.draws, hpops', hchange']
    rfl
  · rw [Polish.peak, hchange']
    rfl
  · exact Nat.one_pos
  · rw [List.forall_mem_singleton, Instr.Calculates, ho]
    exact ⟨fun h => hstore (Option.some.inj h), fun h => hprint (Option.some.inj h)⟩

/-- While the right operand is computed, the value of the left one waits below. -/
theorem binary {left right : List Instr} {j k : Nat} (hleft : PutsOne left j)
    (hright : PutsOne right k) (op : BinaryOp) :
    PutsOne (left ++ right ++ [.plain (.binary op)]) (max j (1 + k)) := by
  obtain ⟨-, hpops, hchange⟩ := Instr.spec_of_operation? (Instr.operation?_plain (.binary op))
  have hpops : (Instr.plain (.binary op)).pops = 2 := hpops
  have hchange : (Instr.plain (.binary op)).change = -1 := hchange
  have hpos := hright.height_pos
  constructor
  · rw [netChange_append, netChange_append, hleft.netChange, hright.netChange, netChange_cons,
      hchange]
    rfl
  · rw [draws_append, draws_append, netChange_append, hleft.draws, hright.draws, hleft.netChange,
      hright.netChange, Polish.draws, hpops, hchange]
    rfl
  · rw [peak_append, peak_append, netChange_append, hleft.peak, hright.peak, hleft.netChange,
      hright.netChange, Polish.peak, hchange, Polish.peak]
    omega
  · omega
  · refine List.forall_mem_append.mpr ⟨List.forall_mem_append.mpr
      ⟨hleft.calculates, hright.calculates⟩, ?_⟩
    exact List.forall_mem_singleton.mpr (Instr.calculates_plain nofun nofun)

theorem unary {operand : List Instr} {k : Nat} (h : PutsOne operand k) (op : UnaryOp) :
    PutsOne (operand ++ [.plain (.unary op)]) k := by
  obtain ⟨-, hpops, hchange⟩ := Instr.spec_of_operation? (Instr.operation?_plain (.unary op))
  have hpops : (Instr.plain (.unary op)).pops = 1 := hpops
  have hchange : (Instr.plain (.unary op)).change = 0 := hchange
  have hpos := h.height_pos
  constructor
  · rw [netChange_append, h.netChange, netChange_cons, hchange]
    rfl
  · rw [draws_append, h.draws, h.netChange, Polish.draws, hpops, hchange]
    rfl
  · rw [peak_append, h.peak, h.netChange, Polish.peak, hchange, Polish.peak]
    omega
  · exact hpos
  · exact List.forall_mem_append.mpr
      ⟨h.calculates, List.forall_mem_singleton.mpr (Instr.calculates_plain nofun nofun)⟩

/-- An instruction after it takes the value off the stack again. -/
theorem taken {code : List Instr} {k : Nat} (h : PutsOne code k) {last : Instr}
    (hlast : last.change = -1) :
    Polish.netChange (code ++ [last]) = 0 ∧ Polish.peak (code ++ [last]) = k := by
  have hpos := h.height_pos
  constructor
  · rw [netChange_append, h.netChange, netChange_cons, hlast]
    rfl
  · rw [peak_append, h.peak, h.netChange, Polish.peak, hlast, Polish.peak]
    omega

end PutsOne

/-- **Expressions.** Their code puts one value on the stack and piles up what the expression
needs. -/
theorem Expr.putsOne_of_compile {e : Expr} {code : List Instr} (h : e.compile = .ok code) :
    PutsOne code e.need := by
  induction e generalizing code with
  | missing => cases h
  | const span v =>
    cases h
    exact .single (o := .push) rfl rfl rfl nofun nofun
  | var span name =>
    cases h
    exact .single (o := .load) rfl rfl rfl nofun nofun
  | binary span symbol l r ihl ihr =>
    obtain ⟨op, left, right, -, hl, hr, rfl⟩ := compile_binary_eq_ok.mp h
    exact (ihl hl).binary (ihr hr) op
  | unary span symbol e ih =>
    obtain ⟨op, operand, -, he, rfl⟩ := compile_unary_eq_ok.mp h
    exact (ih he).unary op

/-! ### Code that does not reach into the stack below -/

namespace Machine

/-- The machine with its stack on top of other values. -/
def onto (below : List Int64) (m : Machine) : Machine := { m with stack := m.stack ++ below }

/-- A machine that goes on or is stuck, with its stack on top of other values. -/
def resultOnto (below : List Int64) : Except Stuck Machine → Except Stuck Machine
  | .ok m => .ok (m.onto below)
  | .error stuck => .error { stuck with machine := stuck.machine.onto below }

variable {below : List Int64} {m next : Machine} {i : Instr} {code : List Instr}

theorem finish_onto (m : Machine) (result : Except Fault Int64) :
    (m.onto below).finish result = resultOnto below (m.finish result) := by
  cases result <;> rfl

/-- An instruction that finds its operands does the same on any stack below them. -/
theorem step_onto (h : i.pops ≤ m.stack.length) :
    (m.onto below).step i = resultOnto below (m.step i) := by
  obtain ⟨stack, store, prints⟩ := m
  cases ho : i.operation? with
  | none => simp only [step, ho, resultOnto]
  | some o =>
    rw [(Instr.spec_of_operation? ho).2.1] at h
    -- as many operands as the operation takes
    match o, stack, h with
    | .push, _, _ | .store, v :: rest, _ | .print, v :: rest, _ =>
      simp only [step, ho]
      rfl
    | .load, _, _ =>
      simp only [step, ho]
      exact finish_onto _ _
    | .unary op, a :: rest, _ | .binary op, b :: a :: rest, _ =>
      simp only [step, ho]
      exact finish_onto ⟨rest, store, prints⟩ _

/-- Code that does not reach below the stack of a machine does the same on any stack below it. -/
theorem execCode_onto (h : draws code ≤ m.stack.length) :
    (m.onto below).execCode code = resultOnto below (m.execCode code) := by
  induction code generalizing m with
  | nil => rfl
  | cons i rest ih =>
    rw [draws] at h
    rw [execCode_cons, execCode_cons, step_onto (by omega)]
    cases hstep : m.step i with
    | error stuck => rfl
    | ok m₁ =>
      -- what the rest reaches into is what the instruction has left and put there
      have hlength := length_stack_of_step hstep
      exact ih (by omega)

/-- Instructions that only calculate leave the table and the prints as they are. -/
theorem keeps_of_calculates (hcalculates : ∀ i ∈ code, i.Calculates)
    (h : m.execCode code = .ok next) : next.store = m.store ∧ next.prints = m.prints := by
  induction code generalizing m with
  | nil =>
    cases h
    exact ⟨rfl, rfl⟩
  | cons i rest ih =>
    obtain ⟨hi, hrest⟩ := List.forall_mem_cons.mp hcalculates
    obtain ⟨m₁, hstep, hlater⟩ := Result.bind_eq_ok.mp (execCode_cons i rest m ▸ h)
    obtain ⟨hstore, hprints⟩ := ih hrest hlater
    have hexecutes := step_executes i m
    rw [hstep] at hexecutes
    cases hexecutes with
    | done _ _ _ hsame hquiet =>
      rw [hstore, hprints, hsame hi.1, hquiet hi.2]
      exact ⟨rfl, List.append_nil _⟩

/-- Code fails at its first instruction that cannot be executed. -/
theorem exists_of_execCode_error {stuck : Stuck} (h : m.execCode code = .error stuck) :
    ∃ front i back next, code = front ++ i :: back ∧ m.execCode front = .ok next ∧
      next.step i = .error stuck := by
  induction code generalizing m with
  | nil => cases h
  | cons i rest ih =>
    rw [execCode_cons] at h
    rcases Result.bind_eq_error.mp h with hstep | ⟨m₁, hstep, hrest⟩
    · exact ⟨[], i, rest, m, rfl, rfl, hstep⟩
    · obtain ⟨front, j, back, next, rfl, hfront, hj⟩ := ih hrest
      refine ⟨i :: front, j, back, next, rfl, ?_, hj⟩
      rw [execCode_cons, hstep]
      exact hfront

end Machine

/-- Before each instruction of such code the old stack is whole, and the instruction finds its
operands above it. -/
theorem PutsOne.above {code front back : List Instr} {height : Nat} {i : Instr}
    (h : PutsOne code height) (hcode : code = front ++ i :: back) {m next : Machine}
    (hnext : m.execCode front = .ok next) :
    ∃ above, next = { m with stack := above ++ m.stack } ∧ i.pops ≤ above.length ∧
      next.step i = Machine.resultOnto m.stack (Machine.step i { m with stack := above }) := by
  subst hcode
  obtain ⟨hdraws, hpops⟩ := pops_le_of_draws (Int.le_of_eq h.draws)
  -- run the front on nothing, and put the old stack below afterwards
  have honto : m.execCode front = Machine.resultOnto m.stack
      (Machine.execCode front { m with stack := [] }) :=
    Machine.execCode_onto (m := { m with stack := [] }) hdraws
  cases halone : Machine.execCode front { m with stack := [] } with
  | error stuck =>
    rw [honto, halone] at hnext
    cases hnext
  | ok base =>
    rw [honto, halone] at hnext
    cases hnext
    have hcalculates : ∀ j ∈ front, j.Calculates := (List.forall_mem_append.mp h.calculates).1
    obtain ⟨hstore, hprints⟩ := Machine.keeps_of_calculates hcalculates halone
    obtain ⟨above, store, prints⟩ := base
    obtain rfl : store = m.store := hstore
    obtain rfl : prints = m.prints := hprints
    have hlength : (above.length : Int) = 0 + Polish.netChange front :=
      Machine.length_stack_execCode halone
    have hdeep : i.pops ≤ above.length := by omega
    exact ⟨above, rfl, hdeep, Machine.step_onto hdeep⟩

/-- **Compiled expressions have one effect.** On any machine, the code of an expression

* puts the value of the expression on the stack, if it has one, and changes nothing else;
* stops at its first failing instruction exactly when the expression has no value, with the code,
  message and value of that failure, having changed nothing but what is above the old stack;
* before each of its instructions has the old stack whole; the instruction finds its operands above
  it and does to these what it would do without the old stack.

A machine writes a line for each printed value and nothing else, so the output is unchanged with the
prints. -/
theorem Expr.code_has_one_effect {e : Expr} {code : List Instr} (hcode : e.compile = .ok code)
    (m : Machine) :
    (∀ v, e.eval m.store = .ok v → m.execCode code = .ok { m with stack := v :: m.stack }) ∧
    ((∃ stuck, m.execCode code = .error stuck) ↔ ∃ f, e.eval m.store = .error f) ∧
    (∀ f, e.eval m.store = .error f → ∃ front i back next stuck above,
      code = front ++ i :: back ∧ m.execCode front = .ok next ∧ next.step i = .error stuck ∧
      m.execCode code = .error stuck ∧ stuck.failure.code = f.code ∧
      stuck.failure.fault.message = f.fault.message ∧
      stuck.failure.fault.value? = f.fault.value? ∧
      stuck.machine = { m with stack := above ++ m.stack }) ∧
    (∀ front i back next, code = front ++ i :: back → m.execCode front = .ok next →
      ∃ above, next = { m with stack := above ++ m.stack } ∧ i.pops ≤ above.length ∧
        next.step i = Machine.resultOnto m.stack (Machine.step i { m with stack := above })) := by
  have hdelivers := delivers_of_compile hcode m
  refine ⟨fun v hv => ?_, ⟨?_, ?_⟩, fun f hf => ?_, fun front i back next hsplit hnext => ?_⟩
  · rw [hv] at hdelivers
    exact hdelivers
  · rintro ⟨stuck, hstuck⟩
    cases hv : e.eval m.store with
    | error f => exact ⟨f, rfl⟩
    | ok v =>
      rw [hv] at hdelivers
      have hok : m.execCode code = .ok (m.push v) := hdelivers
      rw [hok] at hstuck
      cases hstuck
  · rintro ⟨f, hf⟩
    rw [hf] at hdelivers
    obtain ⟨above, hstuck⟩ := hdelivers
    exact ⟨_, hstuck⟩
  · rw [hf] at hdelivers
    obtain ⟨above, hstuck⟩ := hdelivers
    obtain ⟨front, i, back, next, hsplit, hnext, hstep⟩ := Machine.exists_of_execCode_error hstuck
    exact ⟨front, i, back, next, _, above, hsplit, hnext, hstep, hstuck, rfl, rfl, rfl, rfl⟩
  · exact (putsOne_of_compile hcode).above hsplit hnext

/-- A sum on a stack with an old value, whose right operand divides by zero: the value of the left
operand is left above the old one. -/
theorem Expr.code_has_one_effect_division :
    let e : Expr := .binary .zero "+" (.const .zero 1)
      (.binary .zero "//" (.var .zero "x") (.const .zero 0))
    let code : List Instr := [.push 1, .load "x", .push 0, .plain (.binary .div),
      .plain (.binary .add)]
    let m : Machine := ⟨[5], NameMap.empty.put "x" 7, [2]⟩
    e.compile = .ok code ∧ ∃ stuck above, m.execCode code = .error stuck ∧
      stuck.failure.code = .divZero ∧ stuck.machine = { m with stack := above ++ [5] } := by
  intro e code m
  have hcode : e.compile = .ok code := rfl
  obtain ⟨-, -, hfails, -⟩ := code_has_one_effect hcode m
  obtain ⟨-, -, -, -, stuck, above, -, -, -, hstuck, hkind, -, -, hmachine⟩ := hfails _ rfl
  exact ⟨hcode, stuck, above, hstuck, hkind, hmachine⟩

/-! ### Compiled programs -/

namespace Action

theorem compileAll_append_eq_ok {as bs : List Action} {code : List Instr} :
    compileAll (as ++ bs) = .ok code ↔
      ∃ front back, compileAll as = .ok front ∧ compileAll bs = .ok back ∧
        code = front ++ back := by
  induction as generalizing code with
  | nil => simp [compileAll]
  | cons a as ih =>
    rw [List.cons_append, compileAll_cons_eq_ok]
    constructor
    · rintro ⟨first, rest, hfirst, hrest, rfl⟩
      obtain ⟨front, back, hfront, hback, rfl⟩ := ih.mp hrest
      exact ⟨first ++ front, back, compileAll_cons_eq_ok.mpr ⟨first, front, hfirst, hfront, rfl⟩,
        hback, (List.append_assoc ..).symm⟩
    · rintro ⟨_, back, hfront, hback, rfl⟩
      obtain ⟨first, rest, hfirst, hrest, rfl⟩ := compileAll_cons_eq_ok.mp hfront
      exact ⟨first, rest ++ back, hfirst, ih.mpr ⟨rest, back, hrest, hback, rfl⟩,
        List.append_assoc ..⟩

theorem compileAll_singleton {a : Action} {code : List Instr} (h : a.compile = .ok code) :
    compileAll [a] = .ok code :=
  compileAll_cons_eq_ok.mpr ⟨code, [], h, rfl, (List.append_nil _).symm⟩

/-- The code of a tree is the code of its statements. -/
theorem compileAll_leaves {a : Action} {code : List Instr} (h : a.compile = .ok code) :
    compileAll a.leaves = .ok code := by
  induction a using tree_induction generalizing code with
  | missing => cases h
  | assign | print => exact compileAll_singleton h
  | seq span as ih =>
    show compileAll (leavesAll as) = .ok code
    replace h : compileAll as = .ok code := h
    -- the members have theirs by the induction on the tree; this one is on their list
    induction as generalizing code with
    | nil => exact h
    | cons a as ihs =>
      obtain ⟨first, rest, hfirst, hrest, rfl⟩ := compileAll_cons_eq_ok.mp h
      obtain ⟨ha, has⟩ := List.forall_mem_cons.mp ih
      exact compileAll_append_eq_ok.mpr ⟨first, rest, ha hfirst, ihs has hrest, rfl⟩

/-- The code of a statement leaves the stack as deep as it was. -/
theorem shape_of_compile {a : Action} (ha : a.IsStatement) {code : List Instr}
    (h : a.compile = .ok code) : netChange code = 0 ∧ peak code = a.need := by
  cases a with
  | missing | seq => exact ha.elim
  | assign span target e =>
    obtain ⟨value, hvalue, rfl⟩ := compile_assign_eq_ok.mp h
    exact (Expr.putsOne_of_compile hvalue).taken rfl
  | print span e =>
    obtain ⟨value, hvalue, rfl⟩ := compile_print_eq_ok.mp h
    exact (Expr.putsOne_of_compile hvalue).taken rfl

/-- A statement ends with an instruction of its own. -/
theorem ne_nil_of_compile {a : Action} (ha : a.IsStatement) {code : List Instr}
    (h : a.compile = .ok code) : code ≠ [] := by
  cases a with
  | missing | seq => exact ha.elim
  | assign span target e =>
    obtain ⟨value, -, rfl⟩ := compile_assign_eq_ok.mp h
    exact List.append_ne_nil_of_right_ne_nil _ (List.cons_ne_nil _ _)
  | print span e =>
    obtain ⟨value, -, rfl⟩ := compile_print_eq_ok.mp h
    exact List.append_ne_nil_of_right_ne_nil _ (List.cons_ne_nil _ _)

/-- The code of statements, one after the other, piles up what the neediest of them needs. -/
theorem shape_of_compileAll {as : List Action} (has : ∀ a ∈ as, a.IsStatement)
    {code : List Instr} (h : compileAll as = .ok code) :
    netChange code = 0 ∧
      ∀ b : Nat, ((as.map need).foldl max b : Nat) = max (b : Int) (peak code) := by
  induction as generalizing code with
  | nil =>
    cases h
    refine ⟨rfl, fun b => ?_⟩
    show (b : Int) = max (b : Int) 0
    omega
  | cons a as ih =>
    obtain ⟨first, rest, hfirst, hrest, rfl⟩ := compileAll_cons_eq_ok.mp h
    obtain ⟨ha, has⟩ := List.forall_mem_cons.mp has
    obtain ⟨hchange, hpeak⟩ := shape_of_compile ha hfirst
    obtain ⟨hchanges, hpeaks⟩ := ih has hrest
    constructor
    · rw [netChange_append, hchange, hchanges]
      rfl
    · intro b
      rw [List.map_cons, List.foldl_cons, hpeaks, peak_append, hchange, hpeak]
      omega

end Action

/-- A run that succeeds reports as depths what the code piles up. -/
theorem Machine.foldl_max_depth {watch : Watch} {pc reports : Nat} {code : List Instr}
    {m : Machine} (h : (runFrom watch pc reports code m).failure = none) {b : Nat}
    (hb : m.stack.length ≤ b) :
    (((runFrom watch pc reports code m).steps.map StepEvent.depth).foldl max b : Nat)
      = max (b : Int) (m.stack.length + peak code) := by
  -- `b` stands for the depths before the code, that of `m` among them
  induction code generalizing pc reports m b with
  | nil =>
    show (b : Int) = max (b : Int) (m.stack.length + 0)
    omega
  | cons i rest ih =>
    rw [runFrom] at h ⊢
    split at h
    · cases h
    · next hfree =>
      rw [if_neg hfree]
      cases hstep : m.step i with
      | error stuck =>
        rw [hstep] at h
        cases h
      | ok m₁ =>
        rw [hstep] at h
        have hlength := length_stack_of_step hstep
        have hnonneg := peak_nonneg rest
        have hrest := ih h (b := max b m₁.stack.length) (Nat.le_max_right _ _)
        rw [peak]
        refine hrest.trans ?_
        omega

/-- After code that leaves the stack as deep as it was, a run reports the depth 0. -/
theorem Machine.exists_step_of_netChange {watch : Watch} {reports : Nat} {front back : List Instr}
    (hend : (run watch reports (front ++ back)).failure = none) (hne : front ≠ [])
    (hchange : netChange front = 0) :
    ∃ e, front.getLast? = some e.instr ∧
      (run watch reports (front ++ back)).steps[front.length - 1]? = some e ∧ e.depth = 0 := by
  have hpos : 0 < front.length := List.length_pos_of_ne_nil hne
  have hlength : (run watch reports (front ++ back)).steps.length = (front ++ back).length :=
    length_steps_of_runFrom hend
  obtain ⟨e, he⟩ : ∃ e, (run watch reports (front ++ back)).steps[front.length - 1]? = some e :=
    ⟨_, List.getElem?_eq_getElem (by rw [hlength, List.length_append]; omega)⟩
  obtain ⟨-, hinstr, next, hnext, hdepth⟩ := getElem?_steps he
  refine ⟨e, ?_, he, ?_⟩
  · rw [List.getLast?_eq_getElem?, ← hinstr, List.getElem?_append_left (by omega)]
  · have hzero := depth_of_execCode hnext
    rw [Nat.sub_add_cancel hpos, List.take_left, hchange] at hzero
    omega

/-- **The greatest depth is what the expressions need.** If a program has code and the code runs to
its end, watched or not, then the greatest depth that is reported is the greatest need of the
expressions of its statements, wherever they stand in the tree; and after the last instruction of
each statement the depth is 0. -/
theorem Program.greatest_depth_is_need {p : Program} {code : List Instr}
    (hcode : p.compile = .ok code) {watch : Watch} {reports : Nat}
    (hend : (Machine.run watch reports code).failure = none) :
    let r := Machine.run watch reports code
    (r.steps.map StepEvent.depth).foldl max 0 = (p.toAction.leaves.map Action.need).foldl max 0 ∧
    ∀ before a after, p.toAction.leaves = before ++ a :: after →
      ∃ front back e, Action.compileAll (before ++ [a]) = .ok front ∧ code = front ++ back ∧
        front.getLast? = some e.instr ∧ r.steps[front.length - 1]? = some e ∧ e.depth = 0 := by
  intro r
  have hcode : p.toAction.compile = .ok code := hcode
  have hsound : p.toAction.IsSound := (Action.exists_compile_iff _).mp ⟨code, hcode⟩
  have hstatements : ∀ b ∈ p.toAction.leaves, b.IsStatement := fun b hb =>
    Action.isStatement_of_mem_leaves p.toAction hb (hsound.ne_missing b hb)
  have hleaves := Action.compileAll_leaves hcode
  constructor
  · have hdepth := Machine.foldl_max_depth hend (b := 0) (Nat.le_refl 0)
    have hneed := (Action.shape_of_compileAll hstatements hleaves).2 0
    have hstart : Machine.empty.stack.length = 0 := rfl
    rw [hstart] at hdepth
    apply Int.ofNat_inj.mp
    refine (hdepth.trans ?_).trans hneed.symm
    rw [Int.natCast_zero, Int.zero_add]
  · intro before a after hsplit
    rw [hsplit] at hleaves hstatements
    -- the code up to the statement, its own, and the code after it
    obtain ⟨first, later, hfirst, hlater, rfl⟩ := Action.compileAll_append_eq_ok.mp hleaves
    obtain ⟨own, back, hown, -, rfl⟩ := Action.compileAll_cons_eq_ok.mp hlater
    obtain ⟨hbefore, hafter⟩ := List.forall_mem_append.mp hstatements
    have ha : a.IsStatement := hafter a List.mem_cons_self
    have hchange : netChange (first ++ own) = 0 := by
      rw [netChange_append, (Action.shape_of_compileAll hbefore hfirst).1,
        (Action.shape_of_compile ha hown).1]
      rfl
    have hne : first ++ own ≠ [] :=
      List.append_ne_nil_of_right_ne_nil _ (Action.ne_nil_of_compile ha hown)
    have hfront : Action.compileAll (before ++ [a]) = .ok (first ++ own) :=
      Action.compileAll_append_eq_ok.mpr
        ⟨first, own, hfirst, Action.compileAll_singleton hown, rfl⟩
    rw [← List.append_assoc] at hend
    obtain ⟨e, hlast, he, hdepth⟩ := Machine.exists_step_of_netChange hend hne hchange
    rw [List.append_assoc] at he
    exact ⟨first ++ own, back, e, hfront, (List.append_assoc ..).symm, hlast, he, hdepth⟩

/-- A nested tree whose first statement needs four values at once, and whose other one needs one. -/
theorem Program.greatest_depth_is_need_nested :
    let c (v : Int64) : Expr := .const .zero v
    let p : Program := ⟨.zero, [.seq .zero [.assign .zero "a"
        (.binary .zero "-" (c 9) (.binary .zero "*" (c 2) (.binary .zero "+" (c 1) (c 1)))),
        .seq .zero []], .print .zero (.unary .zero "_" (.var .zero "a"))]⟩
    let code : List Instr := [.push 9, .push 2, .push 1, .push 1, .plain (.binary .add),
      .plain (.binary .mul), .plain (.binary .sub), .store "a", .load "a", .plain (.unary .neg),
      .print]
    let r := Machine.run ⟨true, none⟩ 0 code
    p.compile = .ok code ∧ r.failure = none ∧ p.toAction.leaves.map Action.need = [4, 1] ∧
      (r.steps.map StepEvent.depth).foldl max 0 = 4 := by
  intro c p code r
  have hcode : p.compile = .ok code := rfl
  have hend : r.failure = none := rfl
  exact ⟨hcode, hend, rfl, (greatest_depth_is_need hcode hend).1⟩

end Polish
