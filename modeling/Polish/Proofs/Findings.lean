import Polish.Proofs.FailingNode
import Polish.Proofs.Influence

/-!
# What the static checks report

The checks fold constants as they walk through a program: they carry the value of a subexpression as
long as it is known, and lose it at a name or at a failure. What they report can be said without
that. A node is reported on its own account, by the names that earlier statements assign and by what
the evaluation of its operand gives, and the reports come in the order of evaluation.

* `Expr.constant?`: the value of an expression that reads no names; `constant?_binary` and
  `constant?_unary` follow the evaluation through an operation.
* `Expr.Deserves`, `Expr.report`: what is reported at a node, as a relation and as a function.
* `Expr.check_eq`: the checks of an expression. The induction carries that the value they know is
  `constant?`.
* `Action.checkAll_eq`: the checks of statements. The induction carries the statements before them.
* `Program.check_reports_what_nodes_deserve`: the checks of a program.
-/

namespace Polish

namespace Expr

variable {span : Span} {symbol : Bytes} {l r e : Expr} {names : List Bytes}

/-! ### Constant expressions -/

/-- The value of an expression that reads no names, if it has one. -/
def constant? (e : Expr) : Option Int64 :=
  if e.vars = [] then (e.eval .empty).toOption else none

/-- Without names it does not matter which table an expression is evaluated on. -/
theorem constant?_eq_some {v : Int64} :
    e.constant? = some v ↔ e.vars = [] ∧ ∀ store, e.eval store = .ok v := by
  unfold constant?
  by_cases hvars : e.vars = []
  · have hsame : ∀ store, e.eval store = e.eval .empty := fun store =>
      eval_congr (by simp [hvars])
    simp only [hvars, if_true, true_and, hsame, forall_const]
    cases e.eval .empty <;> simp [Except.toOption]
  · simp [hvars]

/-- A binary operation is constant if both operands are and the operator has a value there. -/
theorem constant?_binary :
    (binary span symbol l r).constant? = l.constant?.bind fun a => r.constant?.bind fun b =>
      (applyBinary symbol a b).toOption := by
  unfold constant?
  by_cases hl : l.vars = []
  · by_cases hr : r.vars = []
    · simp only [vars, hl, hr, List.append_nil, if_true, eval]
      cases l.eval .empty with
      | error f => rfl
      | ok a =>
        cases r.eval .empty with
        | error f => rfl
        | ok b =>
          show ((applyBinary symbol a b).mapError _).toOption = (applyBinary symbol a b).toOption
          cases applyBinary symbol a b <;> rfl
    · simp [vars, hl, hr]
  · simp [vars, hl]

theorem constant?_unary :
    (unary span symbol e).constant? = e.constant?.bind fun a => (applyUnary symbol a).toOption := by
  unfold constant?
  by_cases he : e.vars = []
  · simp only [vars, he, if_true, eval]
    cases e.eval .empty with
    | error f => rfl
    | ok a =>
      show ((applyUnary symbol a).mapError _).toOption = (applyUnary symbol a).toOption
      cases applyUnary symbol a <;> rfl
  · simp [vars, he]

/-! ### Single nodes -/

/-- What is to be reported at a node where these names have been assigned, by its code and value: a
name that is not among them, a division by an operand that reads no names and is zero, and a root of
an operand that reads no names and is negative. -/
inductive Deserves (names : List Bytes) : Expr → Code → Option Value → Prop where
  | unassigned {span : Span} {name : Bytes} (hname : name ∉ names) :
      Deserves names (.var span name) .unbound (some (.text name))
  | zeroDivisor {span : Span} {l r : Expr} (hvars : r.vars = [])
      (hr : ∀ store, r.eval store = .ok 0) :
      Deserves names (.binary span BinaryOp.div.symbol l r) .divZero none
  | negativeOperand {span : Span} {e : Expr} {a : Int64} (hvars : e.vars = [])
      (he : ∀ store, e.eval store = .ok a) (ha : a < 0) :
      Deserves names (.unary span UnaryOp.sqrt.symbol e) .negSqrt (some (.number a))

/-- What is wrong with a node on its own account, where these names have been assigned. -/
def ownFault (names : List Bytes) : Expr → Option Fault
  | missing | const _ _ => none
  | var _ name => if names.contains name then none else some (.readBeforeAssigned name)
  -- the divisor decides, even if the dividend is not known or fails itself
  | binary _ symbol _ r =>
    if symbol = BinaryOp.div.symbol ∧ r.constant? = some 0 then some .constantZeroDivisor else none
  | unary _ symbol e =>
    match e.constant? with
    | some a => if symbol = UnaryOp.sqrt.symbol ∧ a < 0 then some (.negativeRoot a) else none
    | none => none

/-- What is reported at a node: its fault, at its place if it has one. -/
def report (names : List Bytes) (x : Expr) : Option Failure :=
  (x.ownFault names).map (.atSpan · x.span)

theorem deserves_of_ownFault {fault : Fault} (h : e.ownFault names = some fault) :
    e.Deserves names fault.code fault.value? := by
  cases e with
  | missing | const => cases h
  | var span name =>
    rw [ownFault] at h
    split at h
    · cases h
    · next hname =>
      cases h
      exact .unassigned fun hmem => hname (List.contains_iff_mem.mpr hmem)
  | binary span symbol l r =>
    rw [ownFault] at h
    split at h
    · next hdiv =>
      obtain ⟨rfl, hzero⟩ := hdiv
      obtain ⟨hvars, hr⟩ := constant?_eq_some.mp hzero
      cases h
      exact .zeroDivisor hvars hr
    · cases h
  | unary span symbol e =>
    rw [ownFault] at h
    split at h
    · next a hconstant =>
      split at h
      · next hroot =>
        obtain ⟨rfl, ha⟩ := hroot
        obtain ⟨hvars, he⟩ := constant?_eq_some.mp hconstant
        cases h
        exact .negativeOperand hvars he ha
      · cases h
    · cases h

theorem Deserves.exists_ownFault {c : Code} {v : Option Value} (h : e.Deserves names c v) :
    ∃ fault, e.ownFault names = some fault ∧ fault.code = c ∧ fault.value? = v := by
  cases h with
  | @unassigned span name hname =>
    exact ⟨.readBeforeAssigned name, by simp [ownFault, hname], rfl, rfl⟩
  | @zeroDivisor span l r hvars hr =>
    have hconstant := constant?_eq_some.mpr ⟨hvars, hr⟩
    exact ⟨.constantZeroDivisor, by simp [ownFault, hconstant], rfl, rfl⟩
  | @negativeOperand span e a hvars he ha =>
    have hconstant := constant?_eq_some.mpr ⟨hvars, he⟩
    exact ⟨.negativeRoot a, by simp [ownFault, hconstant, ha], rfl, rfl⟩

/-- **Single nodes.** A report says what its node deserves, and where the node is. -/
theorem deserves_iff {c : Code} {v : Option Value} :
    e.Deserves names c v ↔ ∃ f, e.report names = some f ∧
      f.code = c ∧ f.fault.value? = v ∧ f.span = e.span.toOption := by
  constructor
  · intro h
    obtain ⟨fault, hfault, hcode, hvalue⟩ := h.exists_ownFault
    refine ⟨.atSpan fault e.span, ?_, hcode, hvalue, rfl⟩
    rw [report, hfault, Option.map_some]
  · rintro ⟨f, hf, rfl, rfl, -⟩
    obtain ⟨fault, hfault, rfl⟩ := Option.map_eq_some_iff.mp hf
    exact deserves_of_ownFault hfault

/-- Which names have been assigned counts, not in which order. -/
theorem report_congr {names' : List Bytes} (h : ∀ name, name ∈ names ↔ name ∈ names') :
    report names = report names' := by
  funext x
  cases x with
  | missing | const | binary | unary => rfl
  | var span name => simp only [report, ownFault, List.contains_iff_mem, h name]

/-! ### Expressions -/

/-- **Expressions.** The checks of a sound expression report its nodes in the order of evaluation,
and the value they know is that of a constant expression. -/
theorem check_eq (hsound : e.IsSound) (names : List Bytes) :
    e.check names = ⟨e.evaluated.filterMap (report names), e.constant?⟩ := by
  induction e with
  | missing => exact (not_isSound_missing hsound).elim
  | const span v => rfl
  | var span name =>
    have hconstant : (var span name).constant? = none := rfl
    rw [check, hconstant, evaluated]
    by_cases hname : name ∈ names <;> simp [report, ownFault, hname, Expr.span]
  | binary span symbol l r ihl ihr =>
    obtain ⟨-, hl, hr⟩ := isSound_binary.mp hsound
    rw [check, ihl hl, ihr hr, constant?_binary, evaluated, List.filterMap_append,
      List.filterMap_append]
    by_cases hdiv : symbol = BinaryOp.div.symbol ∧ r.constant? = some 0
    · -- the operator has no value at zero, so no value is known above the division
      obtain ⟨rfl, hzero⟩ := hdiv
      have hvalue : (l.constant?.bind fun a => (BinaryOp.div.apply a 0).toOption) = none :=
        Option.bind_eq_none_iff.mpr fun a _ => rfl
      simp [hzero, hvalue, report, ownFault, Expr.span]
    · have hown : report names (binary span symbol l r) = none := by
        simp only [report, ownFault, hdiv, if_false, Option.map_none]
      simp only [hdiv, if_false, List.filterMap_cons, hown, List.filterMap_nil, List.append_nil]
      cases l.constant? with
      | none => rfl
      | some a => cases r.constant? <;> rfl
  | unary span symbol e ih =>
    obtain ⟨⟨op, hop⟩, he⟩ := isSound_unary.mp hsound
    obtain rfl := UnaryOp.symbol_of_ofSymbol? hop
    rw [check, ih he, constant?_unary, evaluated, List.filterMap_append]
    cases hconstant : e.constant? with
    | none =>
      -- a name below or a failure below, which has been reported there
      simp [report, ownFault, hconstant]
    | some a =>
      cases op with
      | neg =>
        have hsymbol : UnaryOp.neg.symbol ≠ UnaryOp.sqrt.symbol := by decide
        simp [report, ownFault, hconstant, hsymbol, UnaryOp.apply, Except.toOption]
      | sqrt =>
        by_cases ha : a < 0 <;>
          simp [report, ownFault, hconstant, ha, UnaryOp.apply, Except.toOption, Expr.span]

end Expr

namespace Action

/-! ### Statements -/

variable {a : Action} {as : List Action}

/-- The checks of a sound statement. -/
theorem check_eq (ha : a.IsStatement) (hsound : a.IsSound) (names : List Bytes) :
    a.check names = (a.evaluated.filterMap (Expr.report names), a.assigned ++ names) := by
  cases a with
  | missing | seq => exact ha.elim
  | assign span target e =>
    rw [check, Expr.check_eq (isSound_assign.mp hsound)]
    rfl
  | print span e =>
    rw [check, Expr.check_eq (isSound_print.mp hsound)]
    rfl

/-- **Statements.** The checks of statements that come after others report the nodes of each, where
the names that all statements before it assign have been assigned. -/
theorem checkAll_eq (has : ∀ a ∈ as, a.IsStatement ∧ a.IsSound) (front : List Action)
    {names : List Bytes} (hnames : ∀ name, name ∈ names ↔ name ∈ front.flatMap assigned) :
    (checkAll names as).1 = (as.zipIdx front.length).flatMap fun (a, i) =>
      a.evaluated.filterMap (Expr.report (((front ++ as).take i).flatMap assigned)) := by
  induction as generalizing front names with
  | nil => rfl
  | cons a as ih =>
    obtain ⟨⟨ha, hsound⟩, has⟩ := List.forall_mem_cons.mp has
    have hmore : ∀ name, name ∈ a.assigned ++ names ↔ name ∈ (front ++ [a]).flatMap assigned := by
      intro name
      simp [hnames name, or_comm]
    have hrest := ih has (front ++ [a]) hmore
    rw [List.length_append, List.length_singleton, List.append_assoc, List.singleton_append] at hrest
    have hfirst : Expr.report names =
        Expr.report (((front ++ a :: as).take front.length).flatMap assigned) := by
      rw [List.take_left, Expr.report_congr hnames]
    rw [checkAll_cons, check_eq ha hsound, hrest, hfirst, List.zipIdx_cons, List.flatMap_cons]

end Action

namespace Program

variable {p : Program}

/-- **The checks report what the nodes deserve.** The checks of a sound program report, statement
after statement and each in the order of evaluation, the nodes that deserve it where the names that
the statements before assign have been assigned, and nothing else. A report has the code and the
value that its node deserves, and the place of the node if it has one. -/
theorem check_reports_what_nodes_deserve (hsound : p.toAction.IsSound) :
    (p.check = p.toAction.leaves.zipIdx.flatMap fun (a, i) =>
      a.evaluated.filterMap (Expr.report ((p.toAction.leaves.take i).flatMap Action.assigned))) ∧
    ∀ (names : List Bytes) (x : Expr) (c : Code) (v : Option Value),
      x.Deserves names c v ↔ ∃ f, x.report names = some f ∧
        f.code = c ∧ f.fault.value? = v ∧ f.span = x.span.toOption := by
  refine ⟨?_, fun names x c v => Expr.deserves_iff⟩
  have hleaves : ∀ a ∈ p.toAction.leaves, a.IsStatement ∧ a.IsSound := fun a ha =>
    ⟨Action.isStatement_of_mem_leaves _ ha (hsound.ne_missing a ha), hsound.of_mem_leaves a ha⟩
  calc p.check = (p.toAction.check []).1 := rfl
    _ = (Action.checkAll [] p.toAction.leaves).1 := by rw [Action.checkAll_leaves]
    _ = _ := Action.checkAll_eq hleaves [] fun name => Iff.rfl

/-- The assignment, in a sequence of its own, has three findings: the root of `-4`, which has no
place, the name `x`, which is being assigned, and the division by `2 - 2`. Nothing is known of the
quotient, so its root is no finding; nor is the division by `x` after the assignment. -/
theorem check_reports_what_nodes_deserve_nested :
    let place (first last : Int) : Span := ⟨"p", 1, first, 1, last⟩
    let root : Expr := .unary .zero "#" (.unary (place 14 17) "_" (.const (place 16 17) 4))
    let sum : Expr := .binary (place 12 21) "+" root (.var (place 20 21) "x")
    let zero : Expr :=
      .binary (place 22 27) "-" (.const (place 24 25) 2) (.const (place 26 27) 2)
    let quotient : Expr := .binary (place 8 27) "//" sum zero
    let p : Program := ⟨.zero, [
      .seq .zero [.assign (place 1 27) "x" (.unary (place 6 27) "#" quotient)],
      .print (place 28 36)
        (.binary (place 30 36) "//" (.const (place 33 34) 1) (.var (place 35 36) "x"))]⟩
    p.toAction.IsSound ∧
      p.check = [⟨.negativeRoot (-4), none⟩, ⟨.readBeforeAssigned "x", some (place 20 21)⟩,
        ⟨.constantZeroDivisor, some (place 8 27)⟩] ∧
      quotient.Deserves [] .divZero none := by
  intro place root sum zero quotient p
  have hsound : p.toAction.IsSound := Node.isMalformed_action_eq_false.mp rfl
  obtain ⟨hcheck, hdeserves⟩ := check_reports_what_nodes_deserve hsound
  have hquotient := (hdeserves [] quotient .divZero none).mpr ⟨_, rfl, rfl, rfl, rfl⟩
  exact ⟨hsound, hcheck.trans rfl, hquotient⟩

end Program

end Polish
