import Polish.Dangling
import Polish.Proofs.Malformed

/-!
# Where compiler and interpreter disagree

On trees whose slots hold nodes or are empty, compiler and interpreter agree on what is malformed. A
dangling slot is as good as an empty one to a walk that looks behind its mark, and crashes any other.
So a walk over slots is told by the walk over the tree with all dangling slots made empty: both go the
same way up to the first slot without a node. If they get there, what that slot is decides how the
walk over slots ends.

1. `Vacancy`, `ExprSlot.vacancies`, `ActionSlot.vacancies`: the slots without a node, in the order of
   the walks.
2. `Walk`, `Mirrors`: a walk over slots told by one over the blank tree. The first vacancy counts
   (`Mirrors.bind`), since a walk that passes a part has met none in it.
3. `ExprSlot.mirrors_compile`, `ExprSlot.mirrors_eval`, `ActionSlot.mirrors_compile`,
   `ActionSlot.mirrors_exec`: so it is of every walk.
4. `ActionSlot.execute_eq`: how a run ends for its caller.
5. `Node.compile_slot`, `Expr.eval_slot`, `Action.execute_slot`: without dangling slots, the walks are
   those over the tree.
6. `walks_disagree_only_at_dangling`: what is left of the agreement, and where it fails.
-/

namespace Polish

/-! ### Slots without a node -/

/-- A slot without a node. -/
inductive Vacancy where
  | empty
  /-- The dangling place of an expression. -/
  | dangling
  /-- The dangling place of a statement. -/
  | danglingAction (sort : ActionSort)
deriving DecidableEq, Repr

/-- Does the slot dangle? -/
def Vacancy.isDangling : Vacancy → Bool
  | empty => false
  | dangling | danglingAction _ => true

/-- The slots without a node, from left to right. -/
def ExprSlot.vacancies : ExprSlot → List Vacancy
  | empty => [.empty]
  | dangling => [.dangling]
  | const _ _ | var _ _ => []
  | binary _ _ l r => l.vacancies ++ r.vacancies
  | unary _ _ e => e.vacancies

namespace ActionSlot

mutual

/-- The slots without a node, in the order of the statements. -/
def vacancies : ActionSlot → List Vacancy
  | empty => [.empty]
  | dangling sort => [.danglingAction sort]
  | assign _ _ e | print _ e => e.vacancies
  | seq _ as => vacanciesAll as

/-- The slots without a node, in the order of the statements. -/
def vacanciesAll : List ActionSlot → List Vacancy
  | [] => []
  | a :: as => a.vacancies ++ vacanciesAll as

end

/-- Induction on slots of statements: what holds of the members of a sequence holds of it. -/
@[elab_as_elim]
theorem slot_induction {motive : ActionSlot → Prop} (empty : motive .empty)
    (dangling : ∀ sort, motive (.dangling sort))
    (assign : ∀ span target e, motive (.assign span target e))
    (print : ∀ span e, motive (.print span e))
    (seq : ∀ span as, (∀ a ∈ as, motive a) → motive (.seq span as)) : ∀ a, motive a
  | .empty => empty
  | .dangling sort => dangling sort
  | .assign span target e => assign span target e
  | .print span e => print span e
  | .seq span as => seq span as fun a _ => slot_induction empty dangling assign print seq a

end ActionSlot

/-- The slots without a node, in the order of the statements. -/
def NodeSlot.vacancies : NodeSlot → List Vacancy
  | expr e => e.vacancies
  | action a => a.vacancies

/-- Is the fault that a node is not there? -/
def Fault.isVacancy : Fault → Bool
  | missingExpression | missingStatement | noExpressionCode | noStatementCode | noNode => true
  | _ => false

/-! ### A walk told by another -/

/-- A walk over slots as it is told by the walk over the blank tree. -/
structure Walk (η σ : Type) where
  /-- The fault for which the walk over the blank tree ends. -/
  fault : η → Fault
  /-- How the walk over slots ends instead at a slot without a node. -/
  onVacancy : Vacancy → η → σ
  /-- How it ends at a node. -/
  onNode : η → σ

namespace Walk

variable {η σ : Type}

/-- How the walk over slots ends, if the other one fails like this. -/
def ending (w : Walk η σ) (vs : List Vacancy) (e : η) : σ :=
  match vs with
  | [] => w.onNode e
  | v :: _ => if (w.fault e).isVacancy then w.onVacancy v e else w.onNode e

theorem ending_of_not_isVacancy {w : Walk η σ} {e : η} (h : (w.fault e).isVacancy = false)
    (vs : List Vacancy) : w.ending vs e = w.onNode e := by
  cases vs with
  | nil => rfl
  | cons v vs => rw [ending, if_neg (by simp [h])]

/-- Only the first slot without a node matters, if the walk gets there. -/
theorem ending_append {w : Walk η σ} {e : η} {vs : List Vacancy}
    (h : (w.fault e).isVacancy = true → vs ≠ []) (ws : List Vacancy) :
    w.ending (vs ++ ws) e = w.ending vs e := by
  cases hfault : (w.fault e).isVacancy with
  | false => rw [ending_of_not_isVacancy hfault, ending_of_not_isVacancy hfault]
  | true =>
    obtain ⟨v, vs, rfl⟩ := List.exists_cons_of_ne_nil (h hfault)
    rfl

/-- A walk that breaks off, and repeats a failure at a node. -/
def breaking (onVacancy : Vacancy → Failure → Breakdown) : Walk Failure Breakdown :=
  ⟨Failure.fault, onVacancy, .failed⟩

/-- The compiler reports a dangling statement, and crashes at a dangling expression. -/
def compiling : Walk Failure Breakdown :=
  breaking fun
    | .empty, f => .failed f
    | .dangling, _ => .crashed
    | .danglingAction sort, _ => .failed (.ofFault sort.fault)

/-- Evaluation crashes at a dangling slot, and so does what it is part of. -/
def evaluating : Walk Failure Breakdown :=
  breaking fun v f => if v.isDangling then .crashed else .failed f

/-- A run leaves the same state as the one over the blank tree. -/
def running : Walk Halted BrokenOff where
  fault h := h.failure.fault
  onVacancy v h := ⟨h.progress, evaluating.onVacancy v h.failure⟩
  onNode h := ⟨h.progress, .failed h.failure⟩

theorem fault_locate (f : Failure) (span : Span) :
    evaluating.fault (f.locate span) = evaluating.fault f := f.locate_fault span

/-- The place that a statement adds does not change how its evaluation ended. -/
theorem locate_ending (vs : List Vacancy) (f : Failure) (span : Span) :
    (evaluating.ending vs f).locate span = evaluating.ending vs (f.locate span) := by
  cases vs with
  | nil => rfl
  | cons v vs =>
    rw [ending, ending, fault_locate]
    split
    · cases v <;> rfl
    · rfl

theorem running_ending (vs : List Vacancy) (h : Halted) :
    running.ending vs h = ⟨h.progress, evaluating.ending vs h.failure⟩ := by
  cases vs with
  | nil => rfl
  | cons v vs =>
    have hfault : running.fault h = evaluating.fault h.failure := rfl
    rw [ending, ending, hfault]
    split <;> rfl

end Walk

/-- The walk over slots `x` goes the way of the walk over the blank tree `y`, up to the first of the
slots `vs`. If `y` gets to its end there is no such slot; if it ends at a slot without a node, there is
one. -/
structure Mirrors {η σ α : Type} (w : Walk η σ) (vs : List Vacancy) (x : Except σ α)
    (y : Except η α) : Prop where
  eq : x = y.mapError (w.ending vs)
  eq_nil : ∀ a, y = .ok a → vs = []
  ne_nil : ∀ e, y = .error e → (w.fault e).isVacancy = true → vs ≠ []

namespace Mirrors

variable {η σ α β : Type} {w : Walk η σ} {vs ws : List Vacancy} {x : Except σ α} {y : Except η α}

theorem ok (a : α) : Mirrors w [] (.ok a) (.ok a) :=
  ⟨rfl, fun _ _ => rfl, nofun⟩

/-- Both walks end at a node. -/
theorem failed {e : η} (h : (w.fault e).isVacancy = false) (vs : List Vacancy) :
    Mirrors w vs (.error (w.onNode e) : Except σ α) (.error e) := by
  refine ⟨?_, nofun, ?_⟩
  · exact congrArg Except.error (Walk.ending_of_not_isVacancy h vs).symm
  · rintro _ ⟨⟩ hfault
    rw [h] at hfault
    cases hfault

/-- Both walks end at a slot without a node. -/
theorem vacant {v : Vacancy} {e : η} (h : (w.fault e).isVacancy = true) :
    Mirrors w [v] (.error (w.onVacancy v e) : Except σ α) (.error e) :=
  ⟨congrArg Except.error (if_pos h).symm, nofun, fun _ _ _ => List.cons_ne_nil v []⟩

/-- One part of a walk after the other. The second part is walked only if the first has all its
nodes. -/
theorem bind {f : α → Except σ β} {g : α → Except η β} (hx : Mirrors w vs x y)
    (hf : ∀ a, Mirrors w ws (f a) (g a)) : Mirrors w (vs ++ ws) (x >>= f) (y >>= g) := by
  obtain ⟨rfl, hnil, hne⟩ := hx
  cases y with
  | ok a =>
    rw [hnil a rfl]
    exact hf a
  | error e =>
    refine ⟨?_, nofun, ?_⟩
    · exact congrArg Except.error (Walk.ending_append (hne e rfl) ws).symm
    · rintro _ ⟨⟩ hfault happend
      exact hne e rfl hfault (List.append_eq_nil_iff.mp happend).1

/-- A walk whose result is only changed. -/
theorem map (hx : Mirrors w vs x y) (f : α → β) :
    Mirrors w vs (x >>= fun a => pure (f a)) (y >>= fun a => pure (f a)) := by
  rw [← List.append_nil vs]
  exact hx.bind fun a => .ok (f a)

theorem eq_ok_iff (hx : Mirrors w vs x y) {a : α} : x = .ok a ↔ y = .ok a := by
  rw [hx.eq]
  cases y <;> simp [Except.mapError]

theorem eq_error_iff (hx : Mirrors w vs x y) {b : σ} :
    x = .error b ↔ ∃ e, y = .error e ∧ b = w.ending vs e := by
  rw [hx.eq, Result.mapError_eq_error]

end Mirrors

/-! ### The walks -/

namespace ExprSlot

theorem mirrors_compile (e : ExprSlot) :
    Mirrors .compiling e.vacancies e.compile e.blank.compile := by
  induction e with
  | empty | dangling => exact .vacant rfl
  | const | var => exact .ok _
  | binary span op l r ihl ihr =>
    rw [compile, blank, Expr.compile]
    cases Operation.ofBinary? op with
    | none => exact .failed rfl _
    | some o => exact ihl.bind fun left => ihr.map fun right => left ++ right ++ [.plain o]
  | unary span op e ih =>
    rw [compile, blank, Expr.compile]
    cases Operation.ofUnary? op with
    | none => exact .failed rfl _
    | some o => exact ih.map fun operand => operand ++ [.plain o]

/-- The faults of an operator or a look-up are faults of a node. -/
theorem mirrors_mapError {α : Type} {result : Except Fault α} {span : Span}
    (h : ∀ f, result = .error f → f.isVacancy = false) :
    Mirrors .evaluating [] (result.mapError fun f => .failed (.atSpan f span))
      (result.mapError (.atSpan · span)) := by
  cases result with
  | ok a => exact .ok a
  | error f => exact .failed (h f rfl) []

theorem mirrors_eval (store : Store) (e : ExprSlot) :
    Mirrors .evaluating e.vacancies (e.eval store) (e.blank.eval store) := by
  induction e with
  | empty | dangling => exact .vacant rfl
  | const _ v => exact .ok v
  | var span name =>
    refine mirrors_mapError fun f hf => ?_
    rw [Store.get] at hf
    split at hf
    · cases hf
    · cases hf
      rfl
  | binary span op l r ihl ihr =>
    refine ihl.bind fun a => ?_
    rw [← List.append_nil r.vacancies]
    refine ihr.bind fun b => mirrors_mapError fun f hf => ?_
    rcases applyBinary_eq_error hf with ⟨-, -, rfl⟩ | ⟨-, rfl⟩ <;> rfl
  | unary span op e ih =>
    show Mirrors .evaluating e.vacancies _ _
    rw [← List.append_nil e.vacancies]
    refine ih.bind fun a => mirrors_mapError fun f hf => ?_
    rcases applyUnary_eq_error hf with rfl | ⟨-, rfl⟩ <;> rfl

end ExprSlot

namespace ActionSlot

theorem mirrors_compileAll {as : List ActionSlot}
    (h : ∀ a ∈ as, Mirrors .compiling a.vacancies a.compile a.blank.compile) :
    Mirrors .compiling (vacanciesAll as) (compileAll as) (Action.compileAll (blankAll as)) := by
  induction as with
  | nil => exact .ok []
  | cons a as ih =>
    obtain ⟨ha, has⟩ := List.forall_mem_cons.mp h
    exact ha.bind fun first => (ih has).map fun rest => first ++ rest

theorem mirrors_compile (a : ActionSlot) :
    Mirrors .compiling a.vacancies a.compile a.blank.compile := by
  induction a using slot_induction with
  | empty | dangling => exact .vacant rfl
  | assign span target e => exact e.mirrors_compile.map fun value => value ++ [.store target]
  | print span e => exact e.mirrors_compile.map fun value => value ++ [.print]
  | seq span as ih => exact mirrors_compileAll ih

end ActionSlot

theorem NodeSlot.mirrors_compile (n : NodeSlot) :
    Mirrors .compiling n.vacancies n.compile (Node.compile? n.blank) := by
  cases n with
  | expr e =>
    cases e with
    | empty | dangling => exact .vacant rfl
    | const | var | binary | unary => exact ExprSlot.mirrors_compile _
  | action a =>
    cases a with
    | empty | dangling => exact .vacant rfl
    | assign | print | seq => exact ActionSlot.mirrors_compile _

/-- A statement whose expression is evaluated in the same way runs in the same way. -/
theorem mirrors_runSlot {info : RunInfo} {sort : Bytes} {span : Span} {e : ExprSlot}
    {effect : Int64 → Progress → Progress} {data : Int64 → List (Bytes × Bytes)} (s : Progress) :
    Mirrors .running e.vacancies (runSlot info sort span e effect data s)
      (runStatement info sort span e.blank effect data s) := by
  rw [runSlot, runStatement]
  cases info.watch.canceled s.events.length with
  | true =>
    have hfault : (Walk.running.fault ⟨s, .ofFault .canceled⟩).isVacancy = false := rfl
    exact .failed hfault e.vacancies
  | false =>
    simp only [Bool.false_eq_true, if_false]
    generalize s.report info .stmtStart span [("kind", sort)] = started
    obtain ⟨heq, hnil, hne⟩ := e.mirrors_eval started.store
    rw [heq]
    cases hvalue : e.blank.eval started.store with
    | ok v =>
      rw [hnil v hvalue]
      exact .ok _
    | error f =>
      refine ⟨?_, nofun, ?_⟩
      · refine congrArg Except.error ?_
        rw [Walk.running_ending, Walk.locate_ending]
      · rintro _ ⟨⟩ hfault
        have hsame : Walk.running.fault ⟨started, f.locate span⟩ = Walk.evaluating.fault f :=
          Walk.fault_locate f span
        rw [hsame] at hfault
        exact hne f hvalue hfault

namespace ActionSlot

variable {info : RunInfo}

theorem mirrors_execAll {as : List ActionSlot}
    (h : ∀ a ∈ as, ∀ s, Mirrors .running a.vacancies (a.exec info s) (a.blank.exec info s))
    (s : Progress) :
    Mirrors .running (vacanciesAll as) (execAll info as s)
      (Action.execAll info (blankAll as) s) := by
  induction as generalizing s with
  | nil => exact .ok s
  | cons a as ih =>
    obtain ⟨ha, has⟩ := List.forall_mem_cons.mp h
    have hslots : execAll info (a :: as) s = (a.exec info s >>= execAll info as) := by
      rw [execAll]
      cases a.exec info s <;> rfl
    have hblank : Action.execAll info (blankAll (a :: as)) s
        = (a.blank.exec info s >>= Action.execAll info (blankAll as)) := by
      rw [blankAll, Action.execAll]
      cases a.blank.exec info s <;> rfl
    rw [hslots, hblank]
    exact (ha s).bind fun t => ih has t

theorem mem_vacanciesAll {v : Vacancy} {as : List ActionSlot} :
    v ∈ vacanciesAll as ↔ ∃ a ∈ as, v ∈ a.vacancies := by
  induction as with
  | nil => simp [vacanciesAll]
  | cons a as ih => simp [vacanciesAll, ih]

/-- Nobody cancels the run, or no slot dangles. A canceled run does not ask a dangling statement for
its place. -/
def IsPlain (info : RunInfo) (a : ActionSlot) : Prop :=
  info.watch.cancelAt = none ∨ ∀ v ∈ a.vacancies, v.isDangling = false

theorem mirrors_exec {a : ActionSlot} (h : a.IsPlain info) (s : Progress) :
    Mirrors .running a.vacancies (a.exec info s) (a.blank.exec info s) := by
  have hmissing (s : Progress) :
      (Walk.running.fault ⟨s, .ofFault .missingStatement⟩).isVacancy = true := rfl
  induction a using slot_induction generalizing s with
  | empty => exact .vacant (hmissing s)
  | dangling sort =>
    have hfree : info.watch.cancelAt = none :=
      h.resolve_right fun hnot => Bool.noConfusion (hnot _ List.mem_cons_self)
    have hgoes : info.watch.canceled s.events.length = false := by
      rw [Watch.canceled, hfree]
    cases sort with
    | seq => exact .vacant (hmissing s)
    | assign | print =>
      rw [exec, if_neg (by simp [hgoes])]
      exact .vacant (hmissing s)
  | assign | print => exact mirrors_runSlot s
  | seq span as ih =>
    refine mirrors_execAll (fun a ha t => ih a ha ?_ t) s
    exact h.imp_right fun hnot v hv => hnot v (mem_vacanciesAll.mpr ⟨a, ha, hv⟩)

end ActionSlot

/-! ### Crashes -/

/-- Why a result is none. -/
def failure? {α : Type} : Except Failure α → Option Failure
  | .ok _ => none
  | .error f => some f

/-- Does a walk over the blank tree that ends like this end at a slot without a node, and is the first
of these slots such a one? -/
def stopsAt (p : Vacancy → Bool) (vs : List Vacancy) (failure : Option Failure) : Bool :=
  vs.head?.any p && failure.any fun f => f.fault.isVacancy

theorem Walk.breaking_ending_eq_crashed {onVacancy : Vacancy → Failure → Breakdown}
    {p : Vacancy → Bool} (hp : ∀ v f, onVacancy v f = .crashed ↔ p v = true) {vs : List Vacancy}
    {f : Failure} : (breaking onVacancy).ending vs f = .crashed ↔ stopsAt p vs (some f) = true := by
  cases vs with
  | nil => simp [ending, breaking, stopsAt]
  | cons v vs =>
    rw [ending]
    cases hfault : f.fault.isVacancy <;> simp [breaking, stopsAt, hfault, hp]

namespace Mirrors

variable {α : Type} {onVacancy : Vacancy → Failure → Breakdown} {p : Vacancy → Bool}
  {vs : List Vacancy} {x : Except Breakdown α} {y : Except Failure α}

theorem eq_crashed_iff (hx : Mirrors (.breaking onVacancy) vs x y)
    (hp : ∀ v f, onVacancy v f = .crashed ↔ p v = true) :
    x = .error .crashed ↔ stopsAt p vs (failure? y) = true := by
  rw [hx.eq]
  cases y with
  | ok a => simp [Except.mapError, failure?, stopsAt]
  | error f =>
    rw [failure?, ← Walk.breaking_ending_eq_crashed hp]
    simp [Except.mapError]

/-- A walk that is not completed fails, unless it crashes. -/
theorem exists_failed_iff (hx : Mirrors (.breaking onVacancy) vs x y)
    (hp : ∀ v f, onVacancy v f = .crashed ↔ p v = true) :
    (∃ f, x = .error (.failed f)) ↔
      (¬ ∃ a, x = .ok a) ∧ stopsAt p vs (failure? y) = false := by
  rw [← Bool.not_eq_true, ← hx.eq_crashed_iff hp]
  rcases x with (_ | _) | _ <;> simp

end Mirrors

theorem Walk.evaluating_ending (vs : List Vacancy) (f : Failure) :
    evaluating.ending vs f
      = if stopsAt Vacancy.isDangling vs (some f) then .crashed else .failed f := by
  cases vs with
  | nil => rfl
  | cons v vs =>
    rw [ending]
    cases hfault : f.fault.isVacancy <;> simp [evaluating, breaking, stopsAt, hfault]

namespace ActionSlot

/-- Does a run from this table get to a dangling slot? It does if the run over the blank tree stops at
a slot without a node, and the first of these slots dangles. -/
def meetsDangling (info : RunInfo) (store : Store) (a : ActionSlot) : Bool :=
  stopsAt Vacancy.isDangling a.atRoot.vacancies (Polish.execute info a.blank store).failure

variable {info : RunInfo} {a : ActionSlot}

theorem blank_atRoot (a : ActionSlot) : a.atRoot.blank = a.blank := by
  cases a with
  | dangling sort => cases sort <;> rfl
  | empty | assign | print | seq => rfl

theorem span_blank {span : Span} (h : a.span? = some span) : a.blank.span = span := by
  cases a with
  | dangling sort => cases h
  | empty | assign | print | seq => exact Option.some.inj h

/-- The root has no place only if it dangles. -/
theorem exists_dangling_of_span? (h : a.atRoot.span? = none) :
    ∃ sort, a = .dangling sort ∧ a.atRoot.vacancies = [.danglingAction sort] := by
  cases a with
  | dangling sort =>
    cases sort with
    | assign | print => exact ⟨_, rfl, rfl⟩
    | seq => cases h
  | empty | assign | print | seq => cases h

/-- How a run ends for its caller. -/
theorem execute_eq (store : Store) (h : a.atRoot.IsPlain info) :
    if a.meetsDangling info store then ∃ left, a.execute info store = .crashed left
    else a.execute info store = .returned (Polish.execute info a.blank store) := by
  cases hspan : a.atRoot.span? with
  | none =>
    obtain ⟨sort, rfl, hvacancies⟩ := exists_dangling_of_span? hspan
    have hmeets : meetsDangling info store (.dangling sort) = true := by
      rw [meetsDangling, hvacancies]
      rfl
    rw [if_pos hmeets, execute, hspan]
    exact ⟨_, rfl⟩
  | some span =>
    have hblank := span_blank hspan
    rw [blank_atRoot] at hblank
    have hmirrors := mirrors_exec h ((Progress.start store).report info .runStart span [])
    rw [blank_atRoot] at hmirrors
    simp only [meetsDangling, execute, hspan, hmirrors.eq, Polish.execute, hblank]
    cases a.blank.exec info ((Progress.start store).report info .runStart span []) with
    | ok s => simp [Except.mapError, Execution.ofExcept, stopsAt]
    | error halted =>
      simp only [Except.mapError, Walk.running_ending, Walk.evaluating_ending, Execution.ofExcept]
      cases stopsAt Vacancy.isDangling a.atRoot.vacancies (some halted.failure) with
      | true => exact ⟨_, rfl⟩
      | false => rfl

end ActionSlot

/-- Does the evaluation get to a dangling slot? -/
def ExprSlot.meetsDangling (store : Store) (e : ExprSlot) : Bool :=
  stopsAt Vacancy.isDangling e.vacancies (failure? (e.blank.eval store))

/-- Does the compiler get to the dangling slot of an expression? -/
def NodeSlot.meetsDangling (n : NodeSlot) : Bool :=
  stopsAt (· == .dangling) n.vacancies (failure? (Node.compile? n.blank))

theorem Walk.compiling_crashed_iff {v : Vacancy} {f : Failure} :
    compiling.onVacancy v f = .crashed ↔ (v == .dangling) = true := by
  cases v <;> simp [compiling, breaking]

theorem Walk.evaluating_crashed_iff {v : Vacancy} {f : Failure} :
    evaluating.onVacancy v f = .crashed ↔ v.isDangling = true := by
  simp [evaluating, breaking]

/-- What the compiler reports at a dangling statement is of the same kind as at an empty slot. -/
theorem Walk.code_of_compiling_ending {vs : List Vacancy} {f g : Failure} (hf : f.code = .ast)
    (h : compiling.ending vs f = .failed g) : g.code = .ast := by
  cases vs with
  | nil =>
    cases h
    exact hf
  | cons v vs =>
    rw [ending] at h
    split at h
    · cases v with
      | empty =>
        cases h
        exact hf
      | dangling => cases h
      | danglingAction sort =>
        cases h
        cases sort <;> rfl
    · cases h
      exact hf

/-! ### Trees without dangling slots -/

/-- A walk that meets no dangling slot is the one over the blank tree. -/
theorem Mirrors.eq_of_not_dangling {α : Type} {onVacancy : Vacancy → Failure → Breakdown}
    {vs : List Vacancy} {x : Except Breakdown α} {y : Except Failure α}
    (hx : Mirrors (.breaking onVacancy) vs x y) (hempty : ∀ f, onVacancy .empty f = .failed f)
    (h : ∀ v ∈ vs, v.isDangling = false) : x = y.mapError .failed := by
  rw [hx.eq]
  cases y with
  | ok a => rfl
  | error f =>
    refine congrArg Except.error ?_
    cases vs with
    | nil => rfl
    | cons v vs =>
      cases v with
      | empty => simp [Walk.ending, Walk.breaking, hempty]
      | dangling | danglingAction => cases h _ List.mem_cons_self

namespace Expr

@[simp] theorem blank_slot (e : Expr) : e.slot.blank = e := by
  induction e with
  | missing | const | var => rfl
  | binary span op l r ihl ihr => rw [slot, ExprSlot.blank, ihl, ihr]
  | unary span op e ih => rw [slot, ExprSlot.blank, ih]

theorem not_dangling_slot (e : Expr) : ∀ v ∈ e.slot.vacancies, v.isDangling = false := by
  induction e with
  | missing => simp [slot, ExprSlot.vacancies, Vacancy.isDangling]
  | const | var => simp [slot, ExprSlot.vacancies]
  | binary span op l r ihl ihr => exact List.forall_mem_append.mpr ⟨ihl, ihr⟩
  | unary span op e ih => exact ih

theorem eval_slot (store : Store) (e : Expr) :
    e.slot.eval store = (e.eval store).mapError .failed := by
  have hmirrors := e.slot.mirrors_eval store
  rw [blank_slot] at hmirrors
  exact hmirrors.eq_of_not_dangling (fun _ => rfl) e.not_dangling_slot

end Expr

namespace Action

theorem blankAll_slotAll {as : List Action} (h : ∀ a ∈ as, a.slot.blank = a) :
    ActionSlot.blankAll (slotAll as) = as := by
  induction as with
  | nil => rfl
  | cons a as ih =>
    obtain ⟨ha, has⟩ := List.forall_mem_cons.mp h
    rw [slotAll, ActionSlot.blankAll, ha, ih has]

@[simp] theorem blank_slot (a : Action) : a.slot.blank = a := by
  induction a using tree_induction with
  | missing => rfl
  | assign span target e => rw [slot, ActionSlot.blank, Expr.blank_slot]
  | print span e => rw [slot, ActionSlot.blank, Expr.blank_slot]
  | seq span as ih => rw [slot, ActionSlot.blank, blankAll_slotAll ih]

theorem not_dangling_slot (a : Action) : ∀ v ∈ a.slot.vacancies, v.isDangling = false := by
  induction a using tree_induction with
  | missing => simp [slot, ActionSlot.vacancies, Vacancy.isDangling]
  | assign span target e => exact e.not_dangling_slot
  | print span e => exact e.not_dangling_slot
  | seq span as ih =>
    show ∀ v ∈ ActionSlot.vacanciesAll (slotAll as), v.isDangling = false
    induction as with
    | nil => simp [slotAll, ActionSlot.vacanciesAll]
    | cons a as ihs =>
      obtain ⟨ha, has⟩ := List.forall_mem_cons.mp ih
      exact List.forall_mem_append.mpr ⟨ha, ihs has⟩

/-- Without dangling slots, a run is that of the tree. -/
theorem execute_slot (info : RunInfo) (a : Action) (store : Store) :
    a.slot.execute info store = .returned (execute info a store) := by
  have hroot : a.slot.atRoot = a.slot := by cases a <;> rfl
  have hplain : a.slot.atRoot.IsPlain info := by
    rw [hroot]
    exact .inr a.not_dangling_slot
  have hmeets : a.slot.meetsDangling info store = false := by
    have hnot := a.not_dangling_slot
    rw [ActionSlot.meetsDangling, hroot, stopsAt]
    cases hvacancies : a.slot.vacancies with
    | nil => rfl
    | cons v vs =>
      rw [hvacancies] at hnot
      rw [List.head?_cons, Option.any_some, hnot v List.mem_cons_self, Bool.false_and]
  have hrun := ActionSlot.execute_eq store hplain
  rwa [if_neg (by simp [hmeets]), blank_slot] at hrun

end Action

/-- Without dangling slots, the code of a node is that of the tree. -/
theorem Node.compile_slot (n : Node) :
    n.slot.compile = (compile? n.slot.blank).mapError .failed := by
  refine n.slot.mirrors_compile.eq_of_not_dangling (fun _ => rfl) ?_
  cases n with
  | expr e => exact e.not_dangling_slot
  | action a => exact a.not_dangling_slot

/-! ### The agreement, as far as it goes -/

namespace NodeSlot

variable {code : List Instr}

theorem exists_compile_iff (n : NodeSlot) :
    (∃ code, n.compile = .ok code) ↔ Node.isMalformed n.blank = false := by
  rw [← Node.exists_compile?_iff]
  exact exists_congr fun code => n.mirrors_compile.eq_ok_iff

theorem compile_action_eq_ok {a : ActionSlot} :
    (action a).compile = .ok code ↔ a.blank.compile = .ok code := by
  rw [← a.mirrors_compile.eq_ok_iff]
  cases a with
  | empty => simp [compile, ActionSlot.compile]
  | dangling | assign | print | seq => rfl

theorem compile_expr_eq_ok {e : ExprSlot} :
    (expr e).compile = .ok code ↔ e.blank.compile = .ok code := by
  rw [← e.mirrors_compile.eq_ok_iff]
  cases e with
  | empty => simp [compile, ExprSlot.compile]
  | dangling | const | var | binary | unary => rfl

end NodeSlot

namespace ActionSlot

variable {info : RunInfo} {a : ActionSlot} {store : Store}

/-- A run of a tree without code does not succeed. -/
theorem execute_of_no_code (ha : ¬ ∃ code, a.blank.compile = .ok code)
    (hfree : info.watch.cancelAt = none) :
    ((∃ x f, a.execute info store = .returned x ∧ x.failure = some f) ↔
        a.meetsDangling info store = false) ∧
      ((∃ left, a.execute info store = .crashed left) ↔ a.meetsDangling info store = true) := by
  have hfails : (Polish.execute info a.blank store).failure ≠ none := fun hnone =>
    ha ((Action.exists_compile_iff a.blank).mpr (isSound_of_execute hnone))
  obtain ⟨f, hf⟩ := Option.ne_none_iff_exists'.mp hfails
  have hplain : a.atRoot.IsPlain info := .inl hfree
  have hrun := execute_eq store hplain
  cases hmeets : a.meetsDangling info store with
  | true =>
    obtain ⟨left, hleft⟩ : ∃ left, a.execute info store = .crashed left := by
      rwa [if_pos hmeets] at hrun
    simp [hleft]
  | false =>
    rw [if_neg (by simp [hmeets])] at hrun
    simp [hrun, hf]

theorem vacancies_atRoot (h : a.vacancies = []) : a.atRoot.vacancies = [] := by
  cases a with
  | dangling sort => cases h
  | empty | assign | print | seq => exact h

/-- A run of a tree with code returns, and does not blame the tree. -/
theorem execute_of_code {code : List Instr} (ha : a.blank.compile = .ok code) :
    ∃ x, a.execute info store = .returned x ∧ ∀ f, x.failure = some f → f.code ≠ .ast := by
  have hnil := vacancies_atRoot (a.mirrors_compile.eq_nil code ha)
  have hmeets : a.meetsDangling info store = false := by
    rw [meetsDangling, hnil]
    rfl
  have hplain : a.atRoot.IsPlain info := .inr (by simp [hnil])
  have hrun := execute_eq store hplain
  rw [if_neg (by simp [hmeets])] at hrun
  refine ⟨_, hrun, fun f hf hast => ?_⟩
  have hkind := isRun_of_execute ((Action.exists_compile_iff a.blank).mp ⟨code, ha⟩) hf
  rw [hast] at hkind
  cases hkind

end ActionSlot

namespace ExprSlot

variable {e : ExprSlot} {store : Store}

theorem eval_of_no_code (he : ¬ ∃ code, e.blank.compile = .ok code) :
    ((∃ f, e.eval store = .error (.failed f)) ↔ e.meetsDangling store = false) ∧
      (e.eval store = .error .crashed ↔ e.meetsDangling store = true) := by
  have hmirrors := e.mirrors_eval store
  have hnone : ¬ ∃ v, e.eval store = .ok v := by
    rintro ⟨v, hv⟩
    exact he ((Expr.exists_compile_iff e.blank).mpr
      (Expr.isSound_of_eval (hmirrors.eq_ok_iff.mp hv)))
  refine ⟨?_, hmirrors.eq_crashed_iff fun _ _ => Walk.evaluating_crashed_iff⟩
  rw [hmirrors.exists_failed_iff fun _ _ => Walk.evaluating_crashed_iff]
  exact and_iff_right hnone

theorem eval_of_code {code : List Instr} (he : e.blank.compile = .ok code) :
    ∀ b, e.eval store = .error b → ∃ f, b = .failed f ∧ f.code ≠ .ast := by
  intro b hb
  have hnil := e.mirrors_compile.eq_nil code he
  obtain ⟨f, hf, rfl⟩ := (e.mirrors_eval store).eq_error_iff.mp hb
  refine ⟨f, by rw [hnil]; rfl, fun hast => ?_⟩
  have hsound := (Expr.exists_compile_iff e.blank).mp ⟨code, he⟩
  have hkind := Expr.failsWithin_eval_of_isSound hsound f hf
  rw [hast] at hkind
  cases hkind

end ExprSlot

/-- **Compiler and interpreter disagree only at dangling slots.** A tree has code exactly if no slot
is without a node and no operator is unknown. If it has none, the compiler fails, and always for that
reason, unless it gets to the dangling slot of an expression; then it crashes. Without code, a run that
nobody cancels fails, from every table, unless it gets to a dangling slot; then it crashes, also where
the compiler fails. With code, every run returns, and none reports a defect of the tree. The same
holds of the evaluation of expressions. -/
theorem walks_disagree_only_at_dangling (n : NodeSlot) (a : ActionSlot) (e : ExprSlot)
    (traced : Bool) (runId : Bytes) (watch : Watch) (store : Store) :
    let info : RunInfo := ⟨⟨traced, none⟩, runId⟩
    (((∃ code, n.compile = .ok code) ↔ Node.isMalformed n.blank = false) ∧
      ((∃ f, n.compile = .error (.failed f)) ↔
        Node.isMalformed n.blank = true ∧ n.meetsDangling = false) ∧
      ∀ f, n.compile = .error (.failed f) → f.code = .ast) ∧
    (((¬ ∃ code, (NodeSlot.action a).compile = .ok code) →
        ((∃ x f, a.execute info store = .returned x ∧ x.failure = some f) ↔
          a.meetsDangling info store = false) ∧
        ((∃ left, a.execute info store = .crashed left) ↔ a.meetsDangling info store = true)) ∧
      ((∃ code, (NodeSlot.action a).compile = .ok code) →
        ∃ x, a.execute ⟨watch, runId⟩ store = .returned x ∧
          ∀ f, x.failure = some f → f.code ≠ .ast)) ∧
    (((¬ ∃ code, (NodeSlot.expr e).compile = .ok code) →
        ((∃ f, e.eval store = .error (.failed f)) ↔ e.meetsDangling store = false) ∧
        (e.eval store = .error .crashed ↔ e.meetsDangling store = true)) ∧
      ((∃ code, (NodeSlot.expr e).compile = .ok code) →
        ∀ b, e.eval store = .error b → ∃ f, b = .failed f ∧ f.code ≠ .ast)) := by
  intro info
  refine ⟨⟨n.exists_compile_iff, ?_, ?_⟩, ⟨?_, ?_⟩, ?_, ?_⟩
  · rw [n.mirrors_compile.exists_failed_iff fun _ _ => Walk.compiling_crashed_iff,
      n.exists_compile_iff, Bool.not_eq_false]
    rfl
  · intro f hf
    obtain ⟨g, hg, hending⟩ := n.mirrors_compile.eq_error_iff.mp hf
    have hcode := beq_iff_eq.mp (Node.failsWithin_compile? n.blank g hg)
    exact Walk.code_of_compiling_ending hcode hending.symm
  · simp only [NodeSlot.compile_action_eq_ok]
    exact fun hcode => ActionSlot.execute_of_no_code hcode rfl
  · rintro ⟨code, hcode⟩
    exact ActionSlot.execute_of_code (NodeSlot.compile_action_eq_ok.mp hcode)
  · simp only [NodeSlot.compile_expr_eq_ok]
    exact fun hcode => ExprSlot.eval_of_no_code hcode
  · rintro ⟨code, hcode⟩
    exact ExprSlot.eval_of_code (NodeSlot.compile_expr_eq_ok.mp hcode)

/-- A dangling assignment at the root: the compiler reports a missing statement, and every run crashes
where it should report one. -/
theorem walks_disagree_only_at_dangling_assignment :
    let a : ActionSlot := .dangling .assign
    (NodeSlot.action a).compile = .error (.failed (.ofFault .missingStatement)) ∧
      ∀ store, (∃ left, a.execute ⟨.unwatched, []⟩ store = .crashed left) ∧
        ¬ ∃ x f, a.execute ⟨.unwatched, []⟩ store = .returned x ∧ x.failure = some f := by
  intro a
  refine ⟨rfl, fun store => ?_⟩
  obtain ⟨-, ⟨hruns, -⟩, -⟩ :=
    walks_disagree_only_at_dangling (.action a) a .empty false [] .unwatched store
  have hcode : ¬ ∃ code, (NodeSlot.action a).compile = .ok code := fun ⟨_, h⟩ => by cases h
  obtain ⟨hreturns, hcrashes⟩ := hruns hcode
  have hmeets : a.meetsDangling ⟨.unwatched, []⟩ store = true := rfl
  exact ⟨hcrashes.mpr hmeets, fun h => Bool.noConfusion (hmeets.symm.trans (hreturns.mp h))⟩

end Polish
