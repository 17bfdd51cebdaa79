import Polish.Proofs.Alarms

/-!
# What a run leaves

If nobody stops a run, what it leaves follows from the statements it completes and from nothing
else: not from who watches, and not from how the statements are grouped into sequences. So runs can
be put one after the other, and the places in a tree matter for the place of a failure only.

* `execute_eq_course`: what a run leaves if nobody stops it.
* `Effect`: the table, the printed values and the fault that a run leaves; the place of the fault is
  left out.
* `Action.effect_append`: statements after others leave what they leave on the table of these.
* `Action.effect_congr`: places have no part in the effect.
-/

namespace Polish

/-! ### Runs that nobody stops -/

/-- If nobody stops a run, it leaves the work of the statements that complete, and fails as the
first one that does not. -/
theorem execute_eq_course {info : RunInfo} (hwatch : info.watch.cancelAt = none) {a : Action}
    (ha : ∀ b ∈ a.leaves, b ≠ .missing) (store : Store) :
    let course := Action.course store a.leaves
    let x := execute info a store
    x.progress.store = Steps.settle (a.leaves.zip course.values) store ∧
      x.progress.prints = Steps.printed (a.leaves.zip course.values) ∧
      x.failure = course.failure := by
  intro course x
  obtain ⟨result, hstops, hx⟩ := execute_stops (.inr (.inl hwatch)) ha store
  have hx : x = _ := hx
  rw [hx]
  cases hstops with
  | canceled hcancel =>
    rw [hwatch] at hcancel
    cases hcancel
  | failed hf => exact ⟨rfl, rfl, hf.symm⟩
  | completed hnone => exact ⟨rfl, rfl, hnone.symm⟩

/-- A watcher of a run that nobody stops sees the statements complete. -/
theorem completed_eq_length_values (runId : Bytes) {a : Action} (ha : ∀ b ∈ a.leaves, b ≠ .missing)
    (store : Store) :
    (execute ⟨⟨true, none⟩, runId⟩ a store).completed
      = (Action.course store a.leaves).values.length := by
  rw [execute_completed rfl ha]
  exact Nat.min_eq_left (Action.length_values_le store a.leaves)

/-! ### Effects -/

/-- What a run leaves. -/
structure Effect where
  store : Store
  prints : List Int64
  /-- Why the run failed, if it did; not where. -/
  fault : Option Fault
deriving DecidableEq

namespace Effect

/-- The text that is written. -/
def output (x : Effect) : Bytes := x.prints.flatMap Execution.printLine

/-- What is left when these values were printed before. -/
def after (prints : List Int64) (x : Effect) : Effect := { x with prints := prints ++ x.prints }

theorem output_after (prints : List Int64) (x : Effect) :
    (x.after prints).output = prints.flatMap Execution.printLine ++ x.output :=
  List.flatMap_append

/-- What is left when the next run follows on the table of this one, unless this one failed. -/
def andThen (x : Effect) (next : Store → Effect) : Effect :=
  match x.fault with
  | some _ => x
  | none => (next x.store).after x.prints

theorem andThen_of_fault {x : Effect} {f : Fault} (h : x.fault = some f) (next : Store → Effect) :
    x.andThen next = x := by
  rw [andThen, h]

theorem andThen_of_none {x : Effect} (h : x.fault = none) (next : Store → Effect) :
    x.andThen next = (next x.store).after x.prints := by
  rw [andThen, h]

theorem after_andThen (prints : List Int64) (x : Effect) (next : Store → Effect) :
    (x.after prints).andThen next = (x.andThen next).after prints := by
  cases hfault : x.fault with
  | some f => rw [andThen_of_fault hfault, andThen_of_fault (x := x.after prints) hfault]
  | none =>
    rw [andThen_of_none hfault, andThen_of_none (x := x.after prints) hfault]
    simp only [after, List.append_assoc]

end Effect

/-- What the run left. -/
def Execution.effect (x : Execution) : Effect :=
  ⟨x.progress.store, x.progress.prints, x.failure.map Failure.fault⟩

namespace Action

variable {store : Store} {a : Action} {as : List Action}

/-- What statements leave if nobody stops them. -/
def effect (store : Store) (as : List Action) : Effect :=
  let steps : Steps := as.zip (course store as).values
  ⟨steps.settle store, steps.printed, (course store as).failure.map Failure.fault⟩

theorem effect_cons_of_error {f : Failure} (h : a.value store = .error f) :
    effect store (a :: as) = ⟨store, [], some f.fault⟩ := by
  rw [effect, course_cons_of_error h]
  rfl

theorem effect_cons_of_ok {v : Int64} (h : a.value store = .ok v) :
    effect store (a :: as) = (effect (a.settle v store) as).after (a.printed v) := by
  rw [effect, course_cons_of_ok h]
  rfl

/-- Statements after others leave what they leave on the table of these. -/
theorem effect_append (store : Store) (as bs : List Action) :
    effect store (as ++ bs) = (effect store as).andThen fun store => effect store bs := by
  induction as generalizing store with
  | nil => rfl
  | cons a as ih =>
    rw [List.cons_append]
    cases hvalue : a.value store with
    | error f =>
      rw [effect_cons_of_error hvalue, effect_cons_of_error hvalue]
      rfl
    | ok v => rw [effect_cons_of_ok hvalue, effect_cons_of_ok hvalue, ih, Effect.after_andThen]

end Action

theorem effect_execute {info : RunInfo} (hwatch : info.watch.cancelAt = none) {a : Action}
    (ha : ∀ b ∈ a.leaves, b ≠ .missing) (store : Store) :
    (execute info a store).effect = Action.effect store a.leaves := by
  obtain ⟨hstore, hprints, hfailure⟩ := execute_eq_course hwatch ha store
  rw [Execution.effect, hstore, hprints, hfailure]
  rfl

theorem Program.effect_execute {info : RunInfo} (hwatch : info.watch.cancelAt = none) {p : Program}
    (hp : p.IsWritten) (store : Store) :
    (execute info p.toAction store).effect = Action.effect store p.actions := by
  rw [Polish.effect_execute hwatch (ne_missing_of_mem_leaves hp), leaves_toAction hp]

/-! ### Places have no part in the effect -/

theorem Result.mapError_bind {α β ε δ : Type} (place : ε → δ) (x : Except ε α)
    (f : α → Except ε β) :
    (x >>= f).mapError place = (x.mapError place >>= fun a => (f a).mapError place) := by
  cases x <;> rfl

/-- A fault that was given a place is still that fault. -/
theorem Failure.fault_mapError_atSpan {α : Type} (x : Except Fault α) (span : Span) :
    (x.mapError (atSpan · span)).mapError fault = x := by
  cases x <;> rfl

theorem Failure.fault_mapError_locate {α : Type} (x : Except Failure α) (span : Span) :
    (x.mapError (·.locate span)).mapError fault = x.mapError fault := by
  cases x with
  | ok a => rfl
  | error f => exact congrArg Except.error (locate_fault span f)

/-- Without its places an expression has the same value or the same fault. -/
theorem Expr.eval_erase (e : Expr) (store : Store) :
    (e.erase.eval store).mapError Failure.fault = (e.eval store).mapError Failure.fault := by
  induction e with
  | missing => rfl
  | const span v => rfl
  | var span name =>
    rw [erase, eval, eval, Failure.fault_mapError_atSpan, Failure.fault_mapError_atSpan]
  | binary span symbol l r ihl ihr =>
    simp only [erase, eval, Result.mapError_bind, Failure.fault_mapError_atSpan, ihl, ihr]
  | unary span symbol e ih =>
    simp only [erase, eval, Result.mapError_bind, Failure.fault_mapError_atSpan, ih]

namespace Action

variable {a : Action} {as : List Action}

theorem value_erase (ha : a.IsStatement) (store : Store) :
    (a.erase.value store).mapError Failure.fault = (a.value store).mapError Failure.fault := by
  cases a with
  | missing | seq => exact ha.elim
  | assign span target e | print span e =>
    rw [erase, value, value, Failure.fault_mapError_locate, Failure.fault_mapError_locate]
    exact Expr.eval_erase e store

/-- Without their places statements leave the same. -/
theorem effect_eraseAll (has : ∀ a ∈ as, a.IsStatement) (store : Store) :
    effect store (eraseAll as) = effect store as := by
  induction as generalizing store with
  | nil => rfl
  | cons a as ih =>
    obtain ⟨ha, has⟩ := List.forall_mem_cons.mp has
    have hsame := value_erase ha store
    have hsettle : ∀ v, a.erase.settle v store = a.settle v store := by
      cases a <;> exact fun _ => rfl
    have hprinted : ∀ v, a.erase.printed v = a.printed v := by
      cases a <;> exact fun _ => rfl
    rw [eraseAll]
    cases hvalue : a.value store with
    | error f =>
      cases herase : a.erase.value store with
      | ok v =>
        rw [hvalue, herase] at hsame
        cases hsame
      | error g =>
        rw [hvalue, herase] at hsame
        rw [effect_cons_of_error hvalue, effect_cons_of_error herase, Except.error.inj hsame]
    | ok v =>
      cases herase : a.erase.value store with
      | error g =>
        rw [hvalue, herase] at hsame
        cases hsame
      | ok w =>
        rw [hvalue, herase] at hsame
        obtain rfl : w = v := Except.ok.inj hsame
        rw [effect_cons_of_ok hvalue, effect_cons_of_ok herase, hsettle, hprinted, ih has]

/-- Statements that differ in their places only leave the same. -/
theorem effect_congr {bs : List Action} (has : ∀ a ∈ as, a.IsStatement)
    (hbs : ∀ b ∈ bs, b.IsStatement) (h : eraseAll as = eraseAll bs) (store : Store) :
    effect store as = effect store bs := by
  rw [← effect_eraseAll has, h, effect_eraseAll hbs]

end Action

end Polish
