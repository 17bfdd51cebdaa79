import Polish.Proofs.Course
import Polish.Proofs.Kinds

/-!
# Malformed trees

A tree built by hand may lack nodes and spell operators that do not exist. The compiler looks at an
operator before its operands and the interpreter after them, and a run may fail for another reason
before it gets to the defect. So the two do not find a defect at the same place, but neither gets to
the end of a tree that has one.

* `Node.parts`, `Node.isFaulty`, `Node.isMalformed`: the nodes of a tree, and a tree with a defect.
* `Action.tree_induction`: induction on trees of statements, whose sequences are lists.
* `Expr.IsSound`, `Action.IsSound`: no node has a defect. This is what having code means
  (`Expr.exists_compile_iff`, `Action.exists_compile_iff`).
* `Expr.isSound_of_eval`, `Action.isSound_of_exec`: only a sound tree gets to its end.
* `Expr.failsWithin_eval_of_isSound`, `Action.haltsWithin_exec`: how a sound tree fails.
* `Node.exists_compile?_iff`, `Node.failsWithin_compile?`: a node has code exactly if it has no defect,
  and fails to compile for no other reason.
-/

namespace Polish

/-! ### Nodes and their defects -/

/-- The expression and all expressions in it; a missing operand counts as one. -/
def Expr.parts : Expr → List Expr
  | binary span op l r => binary span op l r :: (l.parts ++ r.parts)
  | unary span op e => unary span op e :: e.parts
  | missing => [missing]
  | const span v => [const span v]
  | var span name => [var span name]

/-- Is the expression missing, or its operator none of the language? -/
def Expr.isFaulty : Expr → Bool
  | missing => true
  | binary _ op _ _ => (BinaryOp.ofSymbol? op).isNone
  | unary _ op _ => (UnaryOp.ofSymbol? op).isNone
  | const _ _ | var _ _ => false

namespace Action

mutual

/-- The statement and everything in it; a missing statement or expression counts as a node. -/
def parts : Action → List Node
  | missing => [.action missing]
  | assign span target e => .action (assign span target e) :: e.parts.map .expr
  | print span e => .action (print span e) :: e.parts.map .expr
  | seq span as => .action (seq span as) :: partsAll as

/-- The statements and everything in them. -/
def partsAll : List Action → List Node
  | [] => []
  | a :: as => a.parts ++ partsAll as

end

/-- Is the statement missing? -/
def isFaulty : Action → Bool
  | missing => true
  | assign _ _ _ | print _ _ | seq _ _ => false

end Action

namespace Node

/-- The node and all nodes in it. -/
def parts : Node → List Node
  | expr e => e.parts.map .expr
  | action a => a.parts

/-- Is the node itself missing, or its operator none of the language? -/
def isFaulty : Node → Bool
  | expr e => e.isFaulty
  | action a => a.isFaulty

/-- Is some node of the tree missing, or some operator none of the language? No tree at all is a
missing node. -/
def isMalformed : Option Node → Bool
  | none => true
  | some n => n.parts.any isFaulty

end Node

/-! ### Trees without defects -/

/-- No node of the expression has a defect. -/
def Expr.IsSound (e : Expr) : Prop := ∀ x ∈ e.parts, x.isFaulty = false

/-- No node of the statement has a defect. -/
def Action.IsSound (a : Action) : Prop := ∀ n ∈ a.parts, n.isFaulty = false

namespace Expr

variable {span : Span} {symbol : Bytes} {l r e : Expr}

theorem not_isSound_missing : ¬ missing.IsSound := fun h =>
  Bool.noConfusion (h missing List.mem_cons_self)

theorem isSound_const (span : Span) (v : Int64) : (const span v).IsSound := by
  simp [IsSound, parts, isFaulty]

theorem isSound_var (span : Span) (name : Bytes) : (var span name).IsSound := by
  simp [IsSound, parts, isFaulty]

theorem isSound_binary : (binary span symbol l r).IsSound ↔
    (∃ op, BinaryOp.ofSymbol? symbol = some op) ∧ l.IsSound ∧ r.IsSound := by
  rw [← Option.isSome_iff_exists, ← Option.isNone_eq_false_iff]
  simp only [IsSound, parts, List.forall_mem_cons, List.forall_mem_append]
  rfl

theorem isSound_unary : (unary span symbol e).IsSound ↔
    (∃ op, UnaryOp.ofSymbol? symbol = some op) ∧ e.IsSound := by
  rw [← Option.isSome_iff_exists, ← Option.isNone_eq_false_iff]
  simp only [IsSound, parts, List.forall_mem_cons]
  rfl

end Expr

namespace Action

variable {span : Span} {target : Bytes} {e : Expr} {as : List Action}

theorem not_isSound_missing : ¬ missing.IsSound := fun h =>
  Bool.noConfusion (h (.action missing) List.mem_cons_self)

theorem isSound_assign : (assign span target e).IsSound ↔ e.IsSound := by
  simp [IsSound, Expr.IsSound, parts, Node.isFaulty, isFaulty]

theorem isSound_print : (print span e).IsSound ↔ e.IsSound := by
  simp [IsSound, Expr.IsSound, parts, Node.isFaulty, isFaulty]

theorem mem_partsAll {n : Node} : n ∈ partsAll as ↔ ∃ a ∈ as, n ∈ a.parts := by
  induction as with
  | nil => simp [partsAll]
  | cons a as ih => simp [partsAll, ih]

theorem isSound_seq : (seq span as).IsSound ↔ ∀ a ∈ as, a.IsSound := by
  simp only [IsSound, parts, List.forall_mem_cons, Node.isFaulty, isFaulty, true_and]
  constructor
  · intro h a ha n hn
    exact h n (mem_partsAll.mpr ⟨a, ha, hn⟩)
  · intro h n hn
    obtain ⟨a, ha, hn⟩ := mem_partsAll.mp hn
    exact h a ha n hn

/-- Induction on trees of statements: what holds of the members of a sequence holds of it. -/
@[elab_as_elim]
theorem tree_induction {motive : Action → Prop} (missing : motive .missing)
    (assign : ∀ span target e, motive (.assign span target e))
    (print : ∀ span e, motive (.print span e))
    (seq : ∀ span as, (∀ a ∈ as, motive a) → motive (.seq span as)) : ∀ a, motive a
  | .missing => missing
  | .assign span target e => assign span target e
  | .print span e => print span e
  | .seq span as => seq span as fun a _ => tree_induction missing assign print seq a

theorem mem_leavesAll {b : Action} : b ∈ leavesAll as ↔ ∃ a ∈ as, b ∈ a.leaves := by
  induction as with
  | nil => simp [leavesAll]
  | cons a as ih => simp [leavesAll, ih]

/-- The statements of a sound tree are sound. -/
theorem IsSound.of_mem_leaves {a : Action} (h : a.IsSound) : ∀ b ∈ a.leaves, b.IsSound := by
  induction a using tree_induction with
  | missing => exact (not_isSound_missing h).elim
  | assign | print => exact List.forall_mem_singleton.mpr h
  | seq span as ih =>
    intro b hb
    obtain ⟨a, ha, hb⟩ := mem_leavesAll.mp hb
    exact ih a ha (isSound_seq.mp h a ha) b hb

/-- The statements of a sound tree are all there. -/
theorem IsSound.ne_missing {a : Action} (h : a.IsSound) : ∀ b ∈ a.leaves, b ≠ missing := by
  rintro b hb rfl
  exact not_isSound_missing (h.of_mem_leaves missing hb)

end Action

theorem Node.isMalformed_expr_eq_false {e : Expr} :
    isMalformed (some (.expr e)) = false ↔ e.IsSound := by
  simp [isMalformed, parts, Expr.IsSound, isFaulty, Function.comp_def]

theorem Node.isMalformed_action_eq_false {a : Action} :
    isMalformed (some (.action a)) = false ↔ a.IsSound := by
  simp [isMalformed, parts, Action.IsSound]

/-! ### Trees with code -/

namespace Expr

/-- The expressions with code are the sound ones. -/
theorem exists_compile_iff (e : Expr) : (∃ code, e.compile = .ok code) ↔ e.IsSound := by
  induction e with
  | missing => exact iff_of_false (fun ⟨_, h⟩ => by cases h) not_isSound_missing
  | const span v => exact iff_of_true ⟨_, rfl⟩ (isSound_const span v)
  | var span name => exact iff_of_true ⟨_, rfl⟩ (isSound_var span name)
  | binary span symbol l r ihl ihr =>
    rw [isSound_binary, ← ihl, ← ihr]
    constructor
    · rintro ⟨code, h⟩
      obtain ⟨op, left, right, hop, hl, hr, -⟩ := compile_binary_eq_ok.mp h
      exact ⟨⟨op, hop⟩, ⟨left, hl⟩, ⟨right, hr⟩⟩
    · rintro ⟨⟨op, hop⟩, ⟨left, hl⟩, ⟨right, hr⟩⟩
      exact ⟨_, compile_binary_eq_ok.mpr ⟨op, left, right, hop, hl, hr, rfl⟩⟩
  | unary span symbol e ih =>
    rw [isSound_unary, ← ih]
    constructor
    · rintro ⟨code, h⟩
      obtain ⟨op, operand, hop, he, -⟩ := compile_unary_eq_ok.mp h
      exact ⟨⟨op, hop⟩, ⟨operand, he⟩⟩
    · rintro ⟨⟨op, hop⟩, ⟨operand, he⟩⟩
      exact ⟨_, compile_unary_eq_ok.mpr ⟨op, operand, hop, he, rfl⟩⟩

end Expr

namespace Action

theorem exists_compileAll_iff (as : List Action) :
    (∃ code, compileAll as = .ok code) ↔ ∀ a ∈ as, ∃ code, a.compile = .ok code := by
  induction as with
  | nil => exact iff_of_true ⟨[], rfl⟩ (by simp)
  | cons a as ih =>
    rw [List.forall_mem_cons, ← ih]
    constructor
    · rintro ⟨code, h⟩
      obtain ⟨first, rest, hfirst, hrest, -⟩ := compileAll_cons_eq_ok.mp h
      exact ⟨⟨first, hfirst⟩, ⟨rest, hrest⟩⟩
    · rintro ⟨⟨first, hfirst⟩, ⟨rest, hrest⟩⟩
      exact ⟨_, compileAll_cons_eq_ok.mpr ⟨first, rest, hfirst, hrest, rfl⟩⟩

/-- The trees with code are the sound ones. -/
theorem exists_compile_iff (a : Action) : (∃ code, a.compile = .ok code) ↔ a.IsSound := by
  induction a using tree_induction with
  | missing => exact iff_of_false (fun ⟨_, h⟩ => by cases h) not_isSound_missing
  | assign span target e =>
    rw [isSound_assign, ← Expr.exists_compile_iff]
    constructor
    · rintro ⟨code, h⟩
      obtain ⟨value, hvalue, -⟩ := compile_assign_eq_ok.mp h
      exact ⟨value, hvalue⟩
    · rintro ⟨value, hvalue⟩
      exact ⟨_, compile_assign_eq_ok.mpr ⟨value, hvalue, rfl⟩⟩
  | print span e =>
    rw [isSound_print, ← Expr.exists_compile_iff]
    constructor
    · rintro ⟨code, h⟩
      obtain ⟨value, hvalue, -⟩ := compile_print_eq_ok.mp h
      exact ⟨value, hvalue⟩
    · rintro ⟨value, hvalue⟩
      exact ⟨_, compile_print_eq_ok.mpr ⟨value, hvalue, rfl⟩⟩
  | seq span as ih =>
    rw [isSound_seq, compile, exists_compileAll_iff]
    exact forall₂_congr ih

end Action

/-! ### How compilation fails -/

theorem Expr.failsWithin_compile (e : Expr) : FailsWithin (· == .ast) e.compile := by
  induction e with
  | missing => exact .error rfl
  | const span v => exact .ok _
  | var span name => exact .ok _
  | binary span symbol l r ihl ihr =>
    rw [compile]
    split
    · exact .atSpan rfl
    · exact ihl.bind fun left => ihr.bind fun right => .ok _
  | unary span symbol e ih =>
    rw [compile]
    split
    · exact .atSpan rfl
    · exact ih.bind fun operand => .ok _

namespace Action

theorem failsWithin_compileAll {as : List Action}
    (h : ∀ a ∈ as, FailsWithin (· == .ast) a.compile) :
    FailsWithin (· == .ast) (compileAll as) := by
  induction as with
  | nil => exact .ok []
  | cons a as ih =>
    obtain ⟨ha, has⟩ := List.forall_mem_cons.mp h
    exact ha.bind fun first => (ih has).bind fun rest => .ok _

theorem failsWithin_compile (a : Action) : FailsWithin (· == .ast) a.compile := by
  induction a using tree_induction with
  | missing => exact .error rfl
  | assign span target e => exact (Expr.failsWithin_compile e).bind fun value => .ok _
  | print span e => exact (Expr.failsWithin_compile e).bind fun value => .ok _
  | seq span as ih => exact failsWithin_compileAll ih

end Action

/-! ### Evaluation -/

/-- A place added later does not change the kind either. -/
theorem FailsWithin.locate {kinds : Code → Bool} {α : Type} {x : Except Failure α}
    (h : FailsWithin kinds x) {span : Span} : FailsWithin kinds (x.mapError (·.locate span)) := by
  cases x with
  | ok a => exact .ok a
  | error f =>
    refine .error ?_
    rw [Failure.code, Failure.locate_fault]
    exact h f rfl

/-- The kinds of failure of a sound expression. -/
def Code.isRuntime : Code → Bool
  | .unbound | .divZero | .negSqrt => true
  | _ => false

namespace Expr

variable {store : Store} {e : Expr}

/-- Only a sound expression has a value: its operators are looked up, late, but they are. -/
theorem isSound_of_eval {v : Int64} (h : e.eval store = .ok v) : e.IsSound := by
  induction e generalizing v with
  | missing => cases h
  | const span w => exact isSound_const span w
  | var span name => exact isSound_var span name
  | binary span symbol l r ihl ihr =>
    obtain ⟨a, ha, h⟩ := Result.bind_eq_ok.mp h
    obtain ⟨b, hb, h⟩ := Result.bind_eq_ok.mp h
    refine isSound_binary.mpr ⟨?_, ihl ha, ihr hb⟩
    cases hop : BinaryOp.ofSymbol? symbol with
    | some op => exact ⟨op, rfl⟩
    | none =>
      rw [applyBinary, hop] at h
      cases h
  | unary span symbol e ih =>
    obtain ⟨a, ha, h⟩ := Result.bind_eq_ok.mp h
    refine isSound_unary.mpr ⟨?_, ih ha⟩
    cases hop : UnaryOp.ofSymbol? symbol with
    | some op => exact ⟨op, rfl⟩
    | none =>
      rw [applyUnary, hop] at h
      cases h

/-- A sound expression fails because of an unbound name, a zero divisor or a negative number under a
root. -/
theorem failsWithin_eval_of_isSound (h : e.IsSound) :
    FailsWithin Code.isRuntime (e.eval store) := by
  induction e with
  | missing => exact (not_isSound_missing h).elim
  | const span v => exact .ok v
  | var span name =>
    refine .mapError fun f hf => ?_
    rw [Store.get] at hf
    split at hf
    · cases hf
    · cases hf
      rfl
  | binary span symbol l r ihl ihr =>
    obtain ⟨⟨op, hop⟩, hl, hr⟩ := isSound_binary.mp h
    refine (ihl hl).bind fun a => (ihr hr).bind fun b => .mapError fun f hf => ?_
    rcases applyBinary_eq_error hf with ⟨-, -, rfl⟩ | ⟨hnone, -⟩
    · rfl
    · rw [hop] at hnone
      cases hnone
  | unary span symbol e ih =>
    obtain ⟨⟨op, hop⟩, he⟩ := isSound_unary.mp h
    refine (ih he).bind fun a => .mapError fun f hf => ?_
    rcases applyUnary_eq_error hf with rfl | ⟨hnone, -⟩
    · rfl
    · rw [hop] at hnone
      cases hnone

end Expr

/-! ### Runs -/

/-- If the run stops, its failure is of one of these kinds. -/
def HaltsWithin (kinds : Code → Bool) (x : Except Halted Progress) : Prop :=
  ∀ halted, x = .error halted → kinds halted.failure.code = true

/-- The kinds of failure of a sound run. -/
def Code.isRun : Code → Bool
  | .canceled => true
  | c => c.isRuntime

theorem Code.isRun_of_isRuntime {c : Code} (h : c.isRuntime = true) : c.isRun = true := by
  revert h
  cases c <;> decide

namespace Action

variable {info : RunInfo}

/-- A statement completes only if it has a value. -/
theorem value_of_exec {a : Action} (ha : a.IsStatement) {s s' : Progress}
    (h : a.exec info s = .ok s') : ∃ v, a.value s.store = .ok v := by
  rw [exec_statement ha] at h
  split at h
  · cases h
  · cases hvalue : a.value s.store with
    | error f =>
      rw [hvalue] at h
      cases h
    | ok v => exact ⟨v, rfl⟩

/-- The value of an expression does not depend on where a failure would be placed. -/
theorem eval_of_mapError {e : Expr} {store : Store} {place : Failure → Failure} {v : Int64}
    (h : (e.eval store).mapError place = .ok v) : e.eval store = .ok v := by
  cases hev : e.eval store with
  | error f =>
    rw [hev] at h
    cases h
  | ok w =>
    rw [hev] at h
    exact h

/-- Statements complete only if each of them does, from some state. -/
theorem exec_of_execAll {as : List Action} {s s' : Progress} (h : execAll info as s = .ok s') :
    ∀ a ∈ as, ∃ t t', a.exec info t = .ok t' := by
  induction as generalizing s with
  | nil => simp
  | cons a as ih =>
    rw [execAll] at h
    cases hexec : a.exec info s with
    | error halted =>
      rw [hexec] at h
      cases h
    | ok t =>
      rw [hexec] at h
      exact List.forall_mem_cons.mpr ⟨⟨s, t, hexec⟩, ih h⟩

/-- Only a sound tree gets to its end. -/
theorem isSound_of_exec {a : Action} {s s' : Progress} (h : a.exec info s = .ok s') :
    a.IsSound := by
  induction a using tree_induction generalizing s s' with
  | missing => cases h
  | assign span target e =>
    obtain ⟨v, hv⟩ := value_of_exec (by trivial) h
    exact isSound_assign.mpr (Expr.isSound_of_eval (eval_of_mapError hv))
  | print span e =>
    obtain ⟨v, hv⟩ := value_of_exec (by trivial) h
    exact isSound_print.mpr (Expr.isSound_of_eval (eval_of_mapError hv))
  | seq span as ih =>
    rw [exec] at h
    refine isSound_seq.mpr fun a ha => ?_
    obtain ⟨t, t', ht⟩ := exec_of_execAll h a ha
    exact ih a ha ht

/-- A statement stops with its own failure, or because it is canceled. -/
theorem haltsWithin_statement {a : Action} (ha : a.IsStatement) {s : Progress}
    (hvalue : FailsWithin Code.isRuntime (a.value s.store)) :
    HaltsWithin Code.isRun (a.exec info s) := by
  intro halted h
  rw [exec_statement ha] at h
  split at h
  · cases h
    rfl
  · cases hv : a.value s.store with
    | error f =>
      rw [hv] at h
      cases h
      exact Code.isRun_of_isRuntime (hvalue f hv)
    | ok v =>
      rw [hv] at h
      cases h

theorem haltsWithin_execAll {kinds : Code → Bool} {as : List Action}
    (h : ∀ a ∈ as, ∀ s, HaltsWithin kinds (a.exec info s)) (s : Progress) :
    HaltsWithin kinds (execAll info as s) := by
  induction as generalizing s with
  | nil => rintro _ ⟨⟩
  | cons a as ih =>
    obtain ⟨ha, has⟩ := List.forall_mem_cons.mp h
    rw [execAll]
    cases hexec : a.exec info s with
    | error halted =>
      rintro _ ⟨⟩
      exact ha s halted hexec
    | ok t => exact ih has t

/-- A sound tree stops with the failure of an expression, or because it is canceled. -/
theorem haltsWithin_exec {a : Action} (h : a.IsSound) (s : Progress) :
    HaltsWithin Code.isRun (a.exec info s) := by
  induction a using tree_induction generalizing s with
  | missing => exact (not_isSound_missing h).elim
  | assign span target e =>
    have he := isSound_assign.mp h
    exact haltsWithin_statement (by trivial) (Expr.failsWithin_eval_of_isSound he).locate
  | print span e =>
    have he := isSound_print.mp h
    exact haltsWithin_statement (by trivial) (Expr.failsWithin_eval_of_isSound he).locate
  | seq span as ih =>
    rw [exec]
    exact haltsWithin_execAll (fun a ha => ih a ha (isSound_seq.mp h a ha)) s

end Action

/-- A run that succeeds is one of a sound tree. -/
theorem isSound_of_execute {info : RunInfo} {a : Action} {store : Store}
    (h : (execute info a store).failure = none) : a.IsSound := by
  obtain ⟨s, -, hfailure, -⟩ := execute_eq info a store
  rw [hfailure] at h
  cases hexec : a.exec info s with
  | error halted =>
    rw [hexec] at h
    cases h
  | ok t => exact Action.isSound_of_exec hexec

/-- How a run of a sound tree fails. -/
theorem isRun_of_execute {info : RunInfo} {a : Action} (ha : a.IsSound) {store : Store}
    {f : Failure} (hf : (execute info a store).failure = some f) : f.code.isRun = true := by
  obtain ⟨s, -, hfailure, -⟩ := execute_eq info a store
  rw [hfailure] at hf
  cases hexec : a.exec info s with
  | error halted =>
    rw [hexec] at hf
    cases hf
    exact Action.haltsWithin_exec ha s halted hexec
  | ok t =>
    rw [hexec] at hf
    cases hf

/-! ### Any node -/

theorem Node.failsWithin_compile? (n : Option Node) :
    FailsWithin (· == .ast) (compile? n) := by
  match n with
  | none => exact .error rfl
  | some (.expr e) => exact Expr.failsWithin_compile e
  | some (.action a) => exact Action.failsWithin_compile a

/-- A tree has code exactly if it has no defect. -/
theorem Node.exists_compile?_iff (n : Option Node) :
    (∃ code, compile? n = .ok code) ↔ isMalformed n = false := by
  match n with
  | none => exact iff_of_false (fun ⟨_, h⟩ => by cases h) (by decide)
  | some (.expr e) => exact (Expr.exists_compile_iff e).trans isMalformed_expr_eq_false.symm
  | some (.action a) => exact (Action.exists_compile_iff a).trans isMalformed_action_eq_false.symm

end Polish
