/-!
# Results that may be failures

Evaluation, compilation, the machine and the readers all return a value or the first failure. These
are the few facts by which such a computation is taken apart.

* `bind_eq_ok`, `bind_eq_error`: how a computation in two parts succeeds and fails.
* `mapM_eq_ok_cons`: a list of computations succeeds member by member.
* `exists_of_mapM_error`: it fails at the first member that does.
* `mapM_mapError`: it does not matter whether failures are changed one by one or in the end.
-/

namespace Polish.Result

variable {ε α β : Type}

@[simp] theorem ok_bind (a : α) (f : α → Except ε β) : (Except.ok a >>= f) = f a := rfl

@[simp] theorem error_bind (e : ε) (f : α → Except ε β) :
    ((Except.error e : Except ε α) >>= f) = .error e := rfl

/-- A computation in two parts succeeds when both parts do. -/
theorem bind_eq_ok {x : Except ε α} {f : α → Except ε β} {b : β} :
    (x >>= f) = .ok b ↔ ∃ a, x = .ok a ∧ f a = .ok b := by
  cases x with
  | ok a => simp
  | error e => simp

/-- A computation whose result is only changed succeeds when it does. -/
theorem map_eq_ok {x : Except ε α} {f : α → β} {b : β} :
    x.map f = .ok b ↔ ∃ a, x = .ok a ∧ b = f a := by
  cases x with
  | ok a => simp [Except.map, eq_comm]
  | error e => simp [Except.map]

theorem bind_pure_eq_ok {x : Except ε α} {f : α → β} {b : β} :
    (x >>= fun a => pure (f a)) = .ok b ↔ ∃ a, x = .ok a ∧ b = f a :=
  map_eq_ok

/-- A computation in two parts fails when the first part does, or the second after the first. -/
theorem bind_eq_error {x : Except ε α} {f : α → Except ε β} {e : ε} :
    (x >>= f) = .error e ↔ x = .error e ∨ ∃ a, x = .ok a ∧ f a = .error e := by
  cases x with
  | ok a => simp
  | error e => simp

/-- A computation whose failure is only changed fails when it does. -/
theorem mapError_eq_error {δ : Type} {x : Except ε α} {place : ε → δ} {d : δ} :
    x.mapError place = .error d ↔ ∃ e, x = .error e ∧ d = place e := by
  constructor
  · intro h
    cases x with
    | ok a => cases h
    | error e =>
      cases h
      exact ⟨e, rfl, rfl⟩
  · rintro ⟨e, rfl, rfl⟩
    rfl

/-- A list of computations succeeds when the first one and the remaining ones do. -/
theorem mapM_eq_ok_cons {f : α → Except ε β} {a : α} {as : List α} {bs : List β} :
    (a :: as).mapM f = .ok bs ↔
      ∃ b rest, bs = b :: rest ∧ f a = .ok b ∧ as.mapM f = .ok rest := by
  rw [List.mapM_cons, bind_eq_ok]
  constructor
  · rintro ⟨b, hb, h⟩
    obtain ⟨rest, hrest, h⟩ := bind_eq_ok.mp h
    cases h
    exact ⟨b, rest, rfl, hb, hrest⟩
  · rintro ⟨b, rest, rfl, hb, hrest⟩
    exact ⟨b, hb, bind_eq_ok.mpr ⟨rest, hrest, rfl⟩⟩

/-- A list of computations fails as the first one that fails, after those before it succeeded. -/
theorem exists_of_mapM_error {f : α → Except ε β} {as : List α} {e : ε}
    (h : as.mapM f = .error e) :
    ∃ done a rest bs, as = done ++ a :: rest ∧ done.mapM f = .ok bs ∧ f a = .error e := by
  induction as with
  | nil => cases h
  | cons a as ih =>
    rw [List.mapM_cons] at h
    cases ha : f a with
    | error e' =>
      rw [ha, error_bind] at h
      cases h
      exact ⟨[], a, as, [], rfl, rfl, ha⟩
    | ok b =>
      rw [ha, ok_bind] at h
      cases hrest : as.mapM f with
      | ok bs =>
        rw [hrest] at h
        cases h
      | error e' =>
        rw [hrest] at h
        cases h
        obtain ⟨done, c, rest, bs, rfl, hdone, hc⟩ := ih hrest
        exact ⟨a :: done, c, rest, b :: bs, rfl, mapM_eq_ok_cons.mpr ⟨b, bs, rfl, ha, hdone⟩, hc⟩

/-- Each result of a list of computations is the result of one of them. -/
theorem exists_mem_of_mapM {f : α → Except ε β} {as : List α} {bs : List β}
    (h : as.mapM f = .ok bs) : ∀ b ∈ bs, ∃ a ∈ as, f a = .ok b := by
  induction as generalizing bs with
  | nil =>
    cases h
    simp
  | cons a as ih =>
    obtain ⟨b, rest, rfl, hb, hrest⟩ := mapM_eq_ok_cons.mp h
    intro c hc
    rcases List.mem_cons.mp hc with rfl | hc
    · exact ⟨a, List.mem_cons_self, hb⟩
    · obtain ⟨a', ha', h'⟩ := ih hrest c hc
      exact ⟨a', List.mem_cons_of_mem a ha', h'⟩

/-- Failures changed member by member are the failure of the list, changed. -/
theorem mapM_mapError {δ : Type} (f : α → Except ε β) (place : ε → δ) (as : List α) :
    as.mapM (fun a => (f a).mapError place) = (as.mapM f).mapError place := by
  induction as with
  | nil => rfl
  | cons a as ih =>
    rw [List.mapM_cons, List.mapM_cons, ih]
    cases f a with
    | error e => rfl
    | ok b => cases as.mapM f <;> rfl

end Polish.Result
