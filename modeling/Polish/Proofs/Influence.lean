import Polish.Proofs.Effect
import Polish.Proofs.Malformed
import Polish.Proofs.Places

/-!
# What a run takes from its table

A run reads a name that an earlier statement has assigned, or one that the static checks report as
read before it is assigned. Only the latter can tell it something about the table it was started on.
So two runs of one program on tables that agree on the reported names go the same way, statement by
statement, and end with tables that differ only where the first tables did.

1. `Program.openNames`: the names that the checks report as unbound.
2. `Action.ReadsWithin`, `Action.readsWithin_checkAll`: each statement reads names that are reported
   or assigned before it.
3. `Action.course_congr`, `Action.ne_unbound_of_course`: what this says of runs. The invariant is
   that the tables agree on, or bind, the names known so far; an assignment adds its name to them.
4. `Program.execute_depends_on_openNames`: two runs compared.
-/

namespace Polish

/-! ### Names reported as unbound -/

/-- The name in a report that a name is unbound. -/
def Failure.unboundName? (f : Failure) : Option Bytes :=
  match f.code, f.fault.value? with
  | .unbound, some (.text name) => some name
  | _, _ => none

/-- The names in the reports of unbound names. -/
def unboundNames (found : List Failure) : List Bytes := found.filterMap Failure.unboundName?

/-- The names that the static checks report as unbound. -/
def Program.openNames (p : Program) : List Bytes := unboundNames p.check

theorem unboundNames_append (xs ys : List Failure) :
    unboundNames (xs ++ ys) = unboundNames xs ++ unboundNames ys :=
  List.filterMap_append

/-- The checks of an expression report the names it reads, apart from the assigned ones. -/
theorem Expr.unboundNames_check (e : Expr) (assigned : List Bytes) :
    unboundNames (e.check assigned).failures = e.vars.filter fun name => name ∉ assigned := by
  induction e with
  | missing => rfl
  | const span v => rfl
  | var span name =>
    rw [check, vars]
    by_cases hmem : name ∈ assigned
    · simp [hmem, unboundNames]
    · simp only [hmem, if_false, not_false_eq_true, decide_true, List.filter_cons_of_pos,
        List.filter_nil]
      rfl
  | binary span symbol l r ihl ihr =>
    -- a divisor that is zero is no unbound name
    have hown : unboundNames [.atSpan .constantZeroDivisor span] = [] := rfl
    rw [check, vars, List.filter_append, ← ihl, ← ihr]
    split
    · rw [unboundNames_append, unboundNames_append, hown, List.append_nil]
    · split <;> exact unboundNames_append _ _
  | unary span symbol e ih =>
    rw [check, vars, ← ih]
    split
    · rfl
    · split
      · rfl
      · next f happly =>
        have hown : unboundNames [.atSpan f span] = [] := by
          rcases applyUnary_eq_error happly with rfl | ⟨-, rfl⟩ <;> rfl
        rw [unboundNames_append, hown, List.append_nil]

namespace Action

/-! ### The checks of a tree are those of its statements -/

theorem checkAll_cons (assigned : List Bytes) (a : Action) (as : List Action) :
    checkAll assigned (a :: as) = ((check assigned a).1 ++ (checkAll (check assigned a).2 as).1,
      (checkAll (check assigned a).2 as).2) := rfl

theorem checkAll_append_snd (assigned : List Bytes) (as bs : List Action) :
    (checkAll assigned (as ++ bs)).2 = (checkAll (checkAll assigned as).2 bs).2 := by
  induction as generalizing assigned with
  | nil => rfl
  | cons a as ih => exact ih (check assigned a).2

theorem checkAll_singleton (assigned : List Bytes) (a : Action) :
    checkAll assigned [a] = check assigned a := by
  rw [checkAll_cons, checkAll, List.append_nil]

/-- The checks of a tree are those of the list of its statements. -/
theorem checkAll_leaves (a : Action) (assigned : List Bytes) :
    checkAll assigned a.leaves = check assigned a := by
  induction a using tree_induction generalizing assigned with
  | missing => exact checkAll_singleton assigned _
  | assign span target e => exact checkAll_singleton assigned _
  | print span e => exact checkAll_singleton assigned _
  | seq span as ih =>
    rw [leaves, check]
    induction as generalizing assigned with
    | nil => rfl
    | cons a as ihs =>
      obtain ⟨ha, has⟩ := List.forall_mem_cons.mp ih
      rw [leavesAll, checkAll_cons]
      refine Prod.ext ?_ ?_
      · rw [checkAll_append, ha, ihs has]
      · rw [checkAll_append_snd, ha, ihs has]

/-! ### The names that statements read and assign -/

/-- The name that a statement assigns, if it assigns one. -/
def assigned : Action → List Bytes
  | assign _ target _ => [target]
  | print _ _ | missing | seq _ _ => []

/-- Each statement reads names that are known or that a statement before it assigns. -/
def ReadsWithin (known : Bytes → Prop) : List Action → Prop
  | [] => True
  | a :: as =>
    (∀ name ∈ a.vars, known name) ∧ ReadsWithin (fun name => known name ∨ name ∈ a.assigned) as

theorem ReadsWithin.mono {known known' : Bytes → Prop} {as : List Action}
    (h : ReadsWithin known as) (himp : ∀ name, known name → known' name) :
    ReadsWithin known' as := by
  induction as generalizing known known' with
  | nil => trivial
  | cons a as ih =>
    obtain ⟨hvars, hrest⟩ := h
    exact ⟨fun name hname => himp name (hvars name hname),
      ih hrest fun name hname => hname.imp_left (himp name)⟩

variable {a : Action} {as : List Action}

/-- The checks of a statement report the names it reads, apart from the assigned ones, and then have
one more assigned name if it is an assignment. -/
theorem check_statement (ha : a.IsStatement) (names : List Bytes) :
    unboundNames (a.check names).1 = (a.vars.filter fun name => name ∉ names) ∧
      (a.check names).2 = a.assigned ++ names := by
  cases a with
  | missing | seq => exact ha.elim
  | assign span target e => exact ⟨Expr.unboundNames_check e names, rfl⟩
  | print span e => exact ⟨Expr.unboundNames_check e names, rfl⟩

/-- **The scope of statements.** What statements read has been assigned before or is reported. -/
theorem readsWithin_checkAll (has : ∀ a ∈ as, a.IsStatement) (names : List Bytes) :
    ReadsWithin (fun name => name ∈ names ∨ name ∈ unboundNames (checkAll names as).1) as := by
  induction as generalizing names with
  | nil => trivial
  | cons a as ih =>
    obtain ⟨ha, has⟩ := List.forall_mem_cons.mp has
    obtain ⟨hreported, hassigned⟩ := check_statement ha names
    have hrest := ih has (a.check names).2
    rw [checkAll_cons, unboundNames_append, hreported]
    rw [hassigned] at hrest ⊢
    refine ⟨fun name hname => ?_, hrest.mono fun name hname => ?_⟩
    · by_cases hmem : name ∈ names
      · exact .inl hmem
      · exact .inr (List.mem_append_left _ (List.mem_filter.mpr ⟨hname, by simpa using hmem⟩))
    · rcases hname with hname | hname
      · rcases List.mem_append.mp hname with hname | hname
        · exact .inr hname
        · exact .inl (.inl hname)
      · exact .inl (.inr (List.mem_append_right _ hname))

end Action

/-! ### Values and tables -/

/-- An expression has the same value on tables that agree on the names it reads. -/
theorem Expr.eval_congr {e : Expr} {store other : Store}
    (h : ∀ name ∈ e.vars, store.get? name = other.get? name) : e.eval store = e.eval other := by
  induction e with
  | missing => rfl
  | const span v => rfl
  | var span name => rw [eval, eval, Store.get, Store.get, h name List.mem_cons_self]
  | binary span symbol l r ihl ihr =>
    obtain ⟨hl, hr⟩ := List.forall_mem_append.mp h
    rw [eval, eval, ihl hl, ihr hr]
  | unary span symbol e ih => rw [eval, eval, ih h]

/-- An expression whose names are all bound fails for another reason. -/
theorem Expr.ne_unbound_of_eval {e : Expr} {store : Store}
    (h : ∀ name ∈ e.vars, (store.get? name).isSome = true) :
    FailsWithin (· != .unbound) (e.eval store) := by
  induction e with
  | missing => exact .error rfl
  | const span v => exact .ok v
  | var span name =>
    obtain ⟨v, hv⟩ := Option.isSome_iff_exists.mp (h name List.mem_cons_self)
    rw [eval, Store.get, hv]
    exact .ok v
  | binary span symbol l r ihl ihr =>
    obtain ⟨hl, hr⟩ := List.forall_mem_append.mp h
    refine (ihl hl).bind fun a => (ihr hr).bind fun b => .mapError fun f hf => ?_
    rcases applyBinary_eq_error hf with ⟨-, -, rfl⟩ | ⟨-, rfl⟩ <;> rfl
  | unary span symbol e ih =>
    refine (ih h).bind fun a => .mapError fun f hf => ?_
    rcases applyUnary_eq_error hf with rfl | ⟨-, rfl⟩ <;> rfl

namespace Action

variable {a : Action} {as : List Action} {store other : Store} {known : Bytes → Prop}

theorem value_congr (h : ∀ name ∈ a.vars, store.get? name = other.get? name) :
    a.value store = a.value other := by
  cases a with
  | missing | seq => rfl
  | assign span target e | print span e => rw [value, value, Expr.eval_congr h]

theorem ne_unbound_of_value (h : ∀ name ∈ a.vars, (store.get? name).isSome = true) :
    FailsWithin (· != .unbound) (a.value store) := by
  cases a with
  | missing | seq => exact .error rfl
  | assign span target e | print span e => exact (Expr.ne_unbound_of_eval h).locate

/-- A statement changes the name that it assigns, and no other. -/
theorem get?_settle (a : Action) (v : Int64) (store : Store) (name : Bytes) :
    (a.settle v store).get? name = if name ∈ a.assigned then some v else store.get? name := by
  cases a with
  | missing | print | seq => rfl
  | assign span target e => simp only [settle, assigned, NameMap.get?_put, List.mem_singleton]

/-! ### Runs -/

/-- **Two runs.** Statements that read known names go the same way on tables that agree on these. -/
theorem course_congr (h : ReadsWithin known as)
    (hagree : ∀ name, known name → store.get? name = other.get? name) :
    course store as = course other as := by
  induction as generalizing known store other with
  | nil => rfl
  | cons a as ih =>
    obtain ⟨hvars, hrest⟩ := h
    have hvalue : a.value store = a.value other := value_congr fun name hname =>
      hagree name (hvars name hname)
    cases hright : a.value other with
    | error f => rw [course_cons_of_error hright, course_cons_of_error (hvalue.trans hright)]
    | ok v =>
      -- the statement adds one name, with the same value in both tables
      have hagree' : ∀ name, known name ∨ name ∈ a.assigned →
          (a.settle v store).get? name = (a.settle v other).get? name := by
        intro name hname
        rw [get?_settle, get?_settle]
        split
        · rfl
        · next hother => exact hagree name (hname.resolve_right hother)
      rw [course_cons_of_ok hright, course_cons_of_ok (hvalue.trans hright), ih hrest hagree']

/-- Statements that read known names do not fail at an unbound name if these are bound. -/
theorem ne_unbound_of_course (h : ReadsWithin known as)
    (hbound : ∀ name, known name → (store.get? name).isSome = true) {f : Failure}
    (hf : (course store as).failure = some f) : f.code ≠ .unbound := by
  induction as generalizing known store with
  | nil => cases hf
  | cons a as ih =>
    obtain ⟨hvars, hrest⟩ := h
    cases hvalue : a.value store with
    | error g =>
      rw [course_cons_of_error hvalue] at hf
      cases hf
      exact bne_iff_ne.mp (ne_unbound_of_value (fun name hname => hbound name (hvars name hname))
        _ hvalue)
    | ok v =>
      rw [course_cons_of_ok hvalue] at hf
      refine ih hrest (fun name hname => ?_) hf
      rw [get?_settle]
      split
      · rfl
      · next hother => exact hbound name (hname.resolve_right hother)

/-- The completed statements are those that come with a value. -/
theorem map_fst_zip_values (store : Store) (as : List Action) :
    (as.zip (course store as).values).map Prod.fst = as.take (course store as).values.length := by
  have hle := length_values_le store as
  rw [List.zip_eq_zip_take_min, Nat.min_eq_right hle, List.map_fst_zip]
  rw [List.length_take, List.length_take]
  omega

end Action

namespace Steps

/-- A name that no completed statement assigns keeps its value. -/
theorem get?_settle_of_notMem {steps : Steps} {name : Bytes}
    (h : name ∉ (steps.map Prod.fst).flatMap Action.assigned) (store : Store) :
    (steps.settle store).get? name = store.get? name := by
  induction steps generalizing store with
  | nil => rfl
  | cons step steps ih =>
    rw [List.map_cons, List.flatMap_cons, List.mem_append, not_or] at h
    show (settle steps (step.1.settle step.2 store)).get? name = _
    rw [ih h.2, Action.get?_settle, if_neg h.1]

/-- A name that a completed statement assigns has a value that does not depend on the table. -/
theorem exists_get?_settle {steps : Steps} {name : Bytes}
    (h : name ∈ (steps.map Prod.fst).flatMap Action.assigned) :
    ∃ v, ∀ store, (steps.settle store).get? name = some v := by
  induction steps with
  | nil => cases h
  | cons step steps ih =>
    by_cases hrest : name ∈ (steps.map Prod.fst).flatMap Action.assigned
    · obtain ⟨v, hv⟩ := ih hrest
      exact ⟨v, fun store => hv (step.1.settle step.2 store)⟩
    · -- this is the last statement that assigns the name
      rw [List.map_cons, List.flatMap_cons, List.mem_append] at h
      refine ⟨step.2, fun store => ?_⟩
      show (settle steps (step.1.settle step.2 store)).get? name = _
      rw [get?_settle_of_notMem hrest, Action.get?_settle, if_pos (h.resolve_right hrest)]

end Steps

/-! ### Two runs of a program -/

theorem Program.readsWithin_openNames {p : Program} (h : ∀ b ∈ p.toAction.leaves, b ≠ .missing) :
    Action.ReadsWithin (· ∈ p.openNames) p.toAction.leaves := by
  have hstatements : ∀ b ∈ p.toAction.leaves, b.IsStatement := fun b hb =>
    Action.isStatement_of_mem_leaves p.toAction hb (h b hb)
  refine (Action.readsWithin_checkAll hstatements []).mono fun name hname => ?_
  rw [Action.checkAll_leaves] at hname
  exact hname.resolve_left List.not_mem_nil

/-- **A run depends on its table only through the names it reads before assigning them.** Take a
program tree without defects, and two tables that agree on the names which the static checks report
as unbound. Two runs that nobody stops, one on each table, print the same values, write the same
text and succeed alike or fail alike. They complete the same statements: on the names which these
assign the final tables agree, and every other name is as it was at first. If the first table binds
all reported names, the run does not fail at an unbound name. -/
theorem Program.execute_depends_on_openNames {p : Program}
    (hp : Node.isMalformed (some (.action p.toAction)) = false) {store other : Store}
    (hagree : ∀ name ∈ p.openNames, store.get? name = other.get? name) {info : RunInfo}
    (hwatch : info.watch.cancelAt = none) :
    let x := execute info p.toAction store
    let y := execute info p.toAction other
    let done := (execute ⟨⟨true, none⟩, info.runId⟩ p.toAction store).completed
    let assigned := (p.toAction.leaves.take done).flatMap Action.assigned
    (x.progress.prints = y.progress.prints ∧ x.output = y.output ∧ x.failure = y.failure) ∧
    (execute ⟨⟨true, none⟩, info.runId⟩ p.toAction other).completed = done ∧
    (∀ name ∈ assigned, ∃ v,
      x.progress.store.get? name = some v ∧ y.progress.store.get? name = some v) ∧
    (∀ name ∉ assigned, x.progress.store.get? name = store.get? name ∧
      y.progress.store.get? name = other.get? name) ∧
    ((∀ name ∈ p.openNames, (store.get? name).isSome = true) →
      ∀ f, x.failure = some f → f.code ≠ .unbound) := by
  intro x y done assigned
  have hleaves : ∀ b ∈ p.toAction.leaves, b ≠ .missing :=
    (Node.isMalformed_action_eq_false.mp hp).ne_missing
  have hreads := readsWithin_openNames hleaves
  have hcourse := Action.course_congr hreads hagree
  obtain ⟨hxstore, hxprints, hxfailure⟩ := execute_eq_course hwatch hleaves store
  obtain ⟨hystore, hyprints, hyfailure⟩ := execute_eq_course hwatch hleaves other
  have hdone : done = (Action.course store p.toAction.leaves).values.length :=
    completed_eq_length_values info.runId hleaves store
  have hprints : x.progress.prints = y.progress.prints := by rw [hxprints, hyprints, hcourse]
  have hsteps : assigned = ((p.toAction.leaves.zip
      (Action.course store p.toAction.leaves).values).map Prod.fst).flatMap Action.assigned := by
    rw [Action.map_fst_zip_values, ← hdone]
  refine ⟨⟨hprints, ?_, ?_⟩, ?_, fun name hname => ?_, fun name hname => ?_, fun hbound f hf => ?_⟩
  · rw [Execution.output, hprints, Execution.output]
  · rw [hxfailure, hyfailure, hcourse]
  · rw [completed_eq_length_values info.runId hleaves other, ← hcourse, hdone]
  · rw [hsteps] at hname
    obtain ⟨v, hv⟩ := Steps.exists_get?_settle hname
    refine ⟨v, ?_, ?_⟩
    · rw [hxstore, hv]
    · rw [hystore, ← hcourse, hv]
  · rw [hsteps] at hname
    refine ⟨?_, ?_⟩
    · rw [hxstore, Steps.get?_settle_of_notMem hname]
    · rw [hystore, ← hcourse, Steps.get?_settle_of_notMem hname]
  · rw [hxfailure] at hf
    exact Action.ne_unbound_of_course hreads hbound hf

/-- A tree with a nested sequence that assigns `y` and then fails at the unbound `z`, on two tables
that agree on `x` and `z` only: both runs print 4, and leave 4 as the value of `y`. -/
theorem Program.execute_depends_on_openNames_nested :
    let x : Expr := .var .zero "x"
    let y : Expr := .var .zero "y"
    let p : Program := ⟨.zero, [.assign .zero "y" (.binary .zero "+" x (.const .zero 1)),
      .seq .zero [.print .zero y, .print .zero (.binary .zero "//" y (.var .zero "z"))]]⟩
    let store : Store := .ofList [("x", 3), ("y", 9), ("w", 5)]
    let other : Store := .ofList [("x", 3), ("y", 100)]
    let first := execute ⟨.unwatched, []⟩ p.toAction store
    let second := execute ⟨.unwatched, []⟩ p.toAction other
    Node.isMalformed (some (.action p.toAction)) = false ∧
      p.openNames = (["x", "z"] : List Bytes) ∧
      (∀ name ∈ p.openNames, store.get? name = other.get? name) ∧
      second.progress.prints = [4] ∧ second.failure = some (.ofFault (.unbound "z")) ∧
      first.progress.prints = second.progress.prints ∧ first.failure = second.failure ∧
      (∃ v, first.progress.store.get? "y" = some v ∧ second.progress.store.get? "y" = some v) ∧
      first.progress.store.get? "w" = some 5 := by
  intro x y p store other first second
  have hp : Node.isMalformed (some (.action p.toAction)) = false := rfl
  have hopen : p.openNames = (["x", "z"] : List Bytes) := rfl
  have hagree : ∀ name ∈ p.openNames, store.get? name = other.get? name := by
    rw [hopen]
    intro name hname
    simp only [List.mem_cons, List.not_mem_nil, or_false] at hname
    rcases hname with rfl | rfl <;> rfl
  have hwatch : (RunInfo.mk .unwatched []).watch.cancelAt = none := rfl
  obtain ⟨⟨hprints, -, hfailure⟩, -, hassigned, hother, -⟩ :=
    execute_depends_on_openNames hp hagree hwatch
  exact ⟨hp, hopen, hagree, rfl, rfl, hprints, hfailure, hassigned "y" (by decide),
    (hother "w" (by decide)).1⟩

end Polish
