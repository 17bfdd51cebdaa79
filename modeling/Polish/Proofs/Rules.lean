import Mathlib.Data.List.Forall2
import Polish.Toml.Rule

/-!
# What grammar rules read

What a rule reads is told by the text in front of it alone: neither where in the text it stands nor
how far reading came before matters. So there is one lemma for each way to build a rule, which says
what the whole reads if its parts read what they should, or that the whole fits nowhere because a
part does not.

* `Toml.Rule.Reads`: with some characters in front of it, the rule reads the first of them.
* `Toml.Rule.Refuses`: the rule does not fit.
* `Toml.Rule.Reads.bind`, `Toml.Rule.Refuses.orElse_reads`: rules one after the other, and choice.
* `Toml.Rule.ReadsEach.many`: repetition.
-/

namespace Polish.Toml

namespace Place

variable (p : Place)

@[simp] theorem after_nil : p.after [] = p := rfl

@[simp] theorem after_append (xs ys : List Char) : (p.after xs).after ys = p.after (xs ++ ys) := by
  simp [after, Nat.add_assoc]

theorem rest_after {xs ys : List Char} (h : p.rest = xs ++ ys) : (p.after xs).rest = ys := by
  simp [after, h]

theorem rest_length_after {xs ys : List Char} (h : p.rest = xs ++ ys)
    (hsize : p.rest.length ≤ p.size) : (p.after xs).rest.length ≤ (p.after xs).size := by
  rw [h, List.length_append] at hsize
  rw [p.rest_after h]
  exact Nat.le_trans (Nat.le_add_left _ _) hsize

end Place

namespace Rule

variable {α β : Type}

/-! ### Outcomes -/

/-- What a rule gives at a place, and how far reading came then. -/
def outcome (r : Rule α) (p : Place) (reached : Nat) : Option (α × Place) × Nat :=
  (r.run p).run.run reached

theorem outcome_bind (r : Rule α) (f : α → Rule β) (p : Place) (reached : Nat) :
    outcome (r >>= f) p reached = match outcome r p reached with
      | (some (x, q), reached) => outcome (f x) q reached
      | (none, reached) => (none, reached) := by
  unfold outcome
  rw [StateT.run_bind, OptionT.run_bind, Option.elimM, StateT.run_bind]
  rcases (r.run p).run.run reached with ⟨_ | x, reached⟩ <;> rfl

theorem outcome_orElse (r s : Rule α) (p : Place) (reached : Nat) :
    outcome (r <|> s) p reached = match outcome r p reached with
      | (some x, reached) => (some x, reached)
      | (none, reached) => outcome s p reached := by
  have hrun : (r <|> s).run p = (r.run p <|> s.run p) := rfl
  unfold outcome
  rw [hrun, OptionT.run_orElse, Option.elimM, StateT.run_bind]
  rcases (r.run p).run.run reached with ⟨_ | x, reached⟩ <;> rfl

/-! ### Reading and refusing -/

/-- With `taken` and then `ahead` in front of it, the rule reads `taken`, and what it gives has a
property. -/
def Reads (r : Rule α) (taken ahead : List Char) (P : α → Prop) : Prop :=
  ∀ (p : Place) (reached : Nat), p.rest = taken ++ ahead → p.rest.length ≤ p.size →
    ∃ x reached', outcome r p reached = (some (x, p.after taken), reached') ∧ P x

/-- The rule does not fit what is in front of it. -/
def Refuses (r : Rule α) (ahead : List Char) : Prop :=
  ∀ (p : Place) (reached : Nat), p.rest = ahead → p.rest.length ≤ p.size →
    ∃ reached', outcome r p reached = (none, reached')

section Rules

variable {r s : Rule α} {f : α → Rule β} {P : α → Prop} {Q : β → Prop}
  {xs ys ahead : List Char}

theorem Reads.mono (h : Reads r xs ahead P) {P' : α → Prop} (hP : ∀ x, P x → P' x) :
    Reads r xs ahead P' := by
  intro p reached hrest hsize
  obtain ⟨x, reached', houtcome, hx⟩ := h p reached hrest hsize
  exact ⟨x, reached', houtcome, hP x hx⟩

theorem reads_pure {x : α} (h : P x) : Reads (pure x) [] ahead P :=
  fun _ reached _ _ => ⟨x, reached, rfl, h⟩

/-! #### One after the other -/

/-- One rule after the other. -/
theorem Reads.bind (hr : Reads r xs (ys ++ ahead) P) (hf : ∀ x, P x → Reads (f x) ys ahead Q) :
    Reads (r >>= f) (xs ++ ys) ahead Q := by
  intro p reached hrest hsize
  rw [List.append_assoc] at hrest
  obtain ⟨x, reached', houtcome, hx⟩ := hr p reached hrest hsize
  obtain ⟨y, reached'', houtcome', hy⟩ :=
    hf x hx (p.after xs) reached' (p.rest_after hrest) (p.rest_length_after hrest hsize)
  refine ⟨y, reached'', ?_, hy⟩
  rw [outcome_bind, houtcome]
  dsimp only
  rw [houtcome', p.after_append]

/-- The second rule reads nothing. -/
theorem Reads.bind_nil (hr : Reads r xs ahead P) (hf : ∀ x, P x → Reads (f x) [] ahead Q) :
    Reads (r >>= f) xs ahead Q := by
  have hnil : Reads r xs ([] ++ ahead) P := hr
  have hboth := hnil.bind hf
  rwa [List.append_nil] at hboth

/-- The first rule reads nothing. -/
theorem Reads.nil_bind (hr : Reads r [] (ys ++ ahead) P)
    (hf : ∀ x, P x → Reads (f x) ys ahead Q) : Reads (r >>= f) ys ahead Q := hr.bind hf

theorem Refuses.bind (hr : Refuses r ahead) : Refuses (r >>= f) ahead := by
  intro p reached hrest hsize
  obtain ⟨reached', houtcome⟩ := hr p reached hrest hsize
  refine ⟨reached', ?_⟩
  rw [outcome_bind, houtcome]

/-- The second rule does not fit after the first. -/
theorem Reads.bind_refuses (hr : Reads r xs ahead P) (hf : ∀ x, P x → Refuses (f x) ahead) :
    Refuses (r >>= f) (xs ++ ahead) := by
  intro p reached hrest hsize
  obtain ⟨x, reached', houtcome, hx⟩ := hr p reached hrest hsize
  obtain ⟨reached'', houtcome'⟩ :=
    hf x hx (p.after xs) reached' (p.rest_after hrest) (p.rest_length_after hrest hsize)
  refine ⟨reached'', ?_⟩
  rw [outcome_bind, houtcome]
  exact houtcome'

/-- A rule that depends on where it is applied. -/
theorem reads_get {f : Place → Rule β} (h : ∀ p, Reads (f p) xs ahead Q) :
    Reads (get >>= f) xs ahead Q := fun p reached hrest hsize => h p p reached hrest hsize

theorem refuses_get {f : Place → Rule β} (h : ∀ p, Refuses (f p) ahead) :
    Refuses (get >>= f) ahead := fun p reached hrest hsize => h p p reached hrest hsize

/-! #### Choice -/

theorem Reads.orElse (h : Reads r xs ahead P) : Reads (r <|> s) xs ahead P := by
  intro p reached hrest hsize
  obtain ⟨x, reached', houtcome, hx⟩ := h p reached hrest hsize
  refine ⟨x, reached', ?_, hx⟩
  rw [outcome_orElse, houtcome]

/-- The first rule does not fit, and the second reads. -/
theorem Refuses.orElse_reads (hr : Refuses r (xs ++ ahead)) (hs : Reads s xs ahead P) :
    Reads (r <|> s) xs ahead P := by
  intro p reached hrest hsize
  obtain ⟨reached', houtcome⟩ := hr p reached hrest hsize
  obtain ⟨x, reached'', houtcome', hx⟩ := hs p reached' hrest hsize
  refine ⟨x, reached'', ?_, hx⟩
  rw [outcome_orElse, houtcome]
  exact houtcome'

/-- Neither rule fits. -/
theorem Refuses.orElse (hr : Refuses r ahead) (hs : Refuses s ahead) :
    Refuses (r <|> s) ahead := by
  intro p reached hrest hsize
  obtain ⟨reached', houtcome⟩ := hr p reached hrest hsize
  obtain ⟨reached'', houtcome'⟩ := hs p reached' hrest hsize
  refine ⟨reached'', ?_⟩
  rw [outcome_orElse, houtcome]
  exact houtcome'

theorem Reads.optional? (h : Reads r xs ahead P) :
    Reads (optional? r) xs ahead fun found => ∃ x, found = some x ∧ P x := by
  have hsome : Reads (some <$> r) xs ahead fun found => ∃ x, found = some x ∧ P x := by
    rw [map_eq_pure_bind]
    exact h.bind_nil fun x hx => reads_pure ⟨x, rfl, hx⟩
  exact hsome.orElse

theorem Refuses.optional? (h : Refuses r ahead) : Reads (optional? r) [] ahead (· = none) := by
  have hsome : Refuses (some <$> r) ahead := by
    rw [map_eq_pure_bind]
    exact h.bind
  exact hsome.orElse_reads (reads_pure rfl)

/-! #### Parts of the grammar -/

/-- How far reading came is changed, and nothing else. -/
theorem reads_modifyThe (g : Nat → Nat) : Reads (modifyThe Nat g) [] ahead fun _ => True :=
  fun _ reached _ _ => ⟨(), g reached, rfl, trivial⟩

theorem Reads.part (h : Reads r xs ahead P) : Reads (part r) xs ahead P := by
  refine reads_get fun before => h.bind_nil fun x hx => reads_get fun after => ?_
  dsimp only
  split
  · exact (reads_modifyThe _).bind_nil fun _ _ => reads_pure hx
  · exact reads_pure hx

theorem Refuses.part (h : Refuses r ahead) : Refuses (part r) ahead :=
  refuses_get fun _ => h.bind

theorem Reads.textOf (h : Reads r xs ahead P) : Reads (textOf r) xs ahead (· = xs) := by
  intro p reached hrest hsize
  obtain ⟨x, reached', houtcome, -⟩ := h p reached hrest hsize
  have hbind : outcome (Rule.textOf r) p reached = outcome (r >>= fun _ => get >>= fun after =>
      pure (p.rest.take (after.index - p.index))) p reached := rfl
  refine ⟨xs, reached', ?_, rfl⟩
  rw [hbind, outcome_bind, houtcome]
  have hlength : (p.after xs).index - p.index = xs.length := Nat.add_sub_cancel_left _ _
  have htext : p.rest.take ((p.after xs).index - p.index) = xs := by
    rw [hlength, hrest, List.take_left]
  exact congrArg (fun text => (some (text, p.after xs), reached')) htext

theorem Refuses.textOf (h : Refuses r ahead) : Refuses (textOf r) ahead :=
  refuses_get fun _ => h.bind

end Rules

/-! ### Single characters and words -/

section Characters

variable {c : Char → Bool} {taken ahead : List Char}

theorem reads_here : Reads here [] ahead fun _ => True :=
  fun p reached _ _ => ⟨p.line, reached, rfl, trivial⟩

theorem outcome_one (p : Place) (reached : Nat) :
    outcome (one c) p reached = match p.rest with
      | x :: _ => if c x then (some (x, p.after [x]), reached) else (none, reached)
      | [] => (none, reached) := by
  have hsteps : outcome (one c) p reached = outcome (match p.rest with
      | x :: _ => if c x then (do set (p.after [x]); return x) else failure
      | [] => failure) p reached := rfl
  rw [hsteps]
  cases p.rest with
  | nil => rfl
  | cons x rest =>
    dsimp only
    split <;> rfl

theorem reads_one {x : Char} (h : c x = true) : Reads (one c) [x] ahead (· = x) := by
  intro p reached hrest _
  refine ⟨x, reached, ?_, rfl⟩
  rw [outcome_one, hrest]
  exact if_pos h

theorem refuses_one (h : ∀ x ∈ ahead.head?, c x = false) : Refuses (one c) ahead := by
  intro p reached hrest _
  refine ⟨reached, ?_⟩
  rw [outcome_one, hrest]
  cases ahead with
  | nil => rfl
  | cons x ahead => exact if_neg (by rw [h x rfl]; decide)

theorem reads_mark (x : Char) : Reads (mark x) [x] ahead fun _ => True :=
  (reads_one (decide_eq_true rfl)).bind_nil fun _ _ => reads_pure trivial

theorem refuses_mark {x : Char} (h : ∀ y ∈ ahead.head?, y ≠ x) : Refuses (mark x) ahead :=
  (refuses_one fun y hy => decide_eq_false (h y hy)).bind

/-- A stretch ends where a character is not of the class. -/
theorem reads_stretch (htaken : ∀ x ∈ taken, c x = true) (hahead : ∀ x ∈ ahead.head?, c x = false) :
    Reads (stretch c) taken ahead (· = taken) := by
  intro p reached hrest _
  have htake : p.rest.takeWhile c = taken := by
    rw [hrest, List.takeWhile_append_of_pos htaken]
    cases ahead with
    | nil => rw [List.takeWhile_nil, List.append_nil]
    | cons x ahead =>
      rw [List.takeWhile_cons_of_neg (by rw [hahead x rfl]; decide), List.append_nil]
  have hsteps : outcome (stretch c) p reached
      = (some (p.rest.takeWhile c, p.after (p.rest.takeWhile c)), reached) := rfl
  exact ⟨taken, reached, by rw [hsteps, htake], rfl⟩

theorem outcome_word (w : List Char) (p : Place) (reached : Nat) :
    outcome (word w) p reached
      = if w.isPrefixOf p.rest then (some ((), p.after w), reached) else (none, reached) := by
  have hsteps : outcome (word w) p reached
      = outcome (if w.isPrefixOf p.rest then set (p.after w) else failure) p reached := rfl
  rw [hsteps]
  split <;> rfl

theorem reads_word (w : List Char) : Reads (word w) w ahead fun _ => True := by
  intro p reached hrest _
  refine ⟨(), reached, ?_, trivial⟩
  rw [outcome_word, hrest, if_pos (List.isPrefixOf_iff_prefix.mpr (List.prefix_append w ahead))]

theorem refuses_word {w : List Char} (h : ¬ w <+: ahead) : Refuses (word w) ahead := by
  intro p reached hrest _
  refine ⟨reached, ?_⟩
  rw [outcome_word, hrest, if_neg (mt List.isPrefixOf_iff_prefix.mp h)]

theorem outcome_finished (p : Place) (reached : Nat) :
    outcome finished p reached
      = if p.rest.isEmpty then (some ((), p), reached) else (none, reached) := by
  have hsteps : outcome finished p reached
      = outcome (if p.rest.isEmpty then return else failure) p reached := rfl
  rw [hsteps]
  split <;> rfl

theorem reads_finished : Reads finished [] [] fun _ => True := by
  intro p reached hrest _
  refine ⟨(), reached, ?_, trivial⟩
  rw [outcome_finished, hrest]
  rfl

theorem refuses_finished (h : ahead ≠ []) : Refuses finished ahead := by
  intro p reached hrest _
  refine ⟨reached, ?_⟩
  rw [outcome_finished, hrest, if_neg (by rwa [List.isEmpty_iff])]

end Characters

/-! ### Repetition -/

section Repetition

variable {ι : Type} {r : Rule α} {piece : ι → List Char} {P : ι → α → Prop} {ahead : List Char}

/-- Applied again and again, the rule reads the pieces, and then it does not fit. -/
def ReadsEach (r : Rule α) (piece : ι → List Char) (P : ι → α → Prop) (ahead : List Char) :
    List ι → Prop
  | [] => Refuses r ahead
  | i :: rest => piece i ≠ [] ∧ Reads r (piece i) (rest.flatMap piece ++ ahead) (P i)
    ∧ ReadsEach r piece P ahead rest

/-- The pieces can be read whatever follows them. -/
theorem readsEach_of_forall {items : List ι} (hne : ∀ i ∈ items, piece i ≠ [])
    (hreads : ∀ i ∈ items, ∀ ahead, Reads r (piece i) ahead (P i)) (hahead : Refuses r ahead) :
    ReadsEach r piece P ahead items := by
  induction items with
  | nil => exact hahead
  | cons i items ih =>
    rw [List.forall_mem_cons] at hne hreads
    exact ⟨hne.1, hreads.1 _, ih hne.2 hreads.2⟩

/-- The induction is on the pieces; there are fewer of them than applications are allowed. -/
theorem ReadsEach.upTo {items : List ι} (h : ReadsEach r piece P ahead items) {fuel : Nat}
    (hfuel : items.length ≤ fuel) (done : List α) :
    Reads (upTo r fuel done) (items.flatMap piece) ahead fun all =>
      ∃ xs, all = done.reverse ++ xs ∧ List.Forall₂ P items xs := by
  induction items generalizing fuel done with
  | nil =>
    have hdone : Reads (pure done.reverse) [] ahead fun all =>
        ∃ xs, all = done.reverse ++ xs ∧ List.Forall₂ P [] xs :=
      reads_pure ⟨[], (List.append_nil _).symm, .nil⟩
    cases fuel with
    | zero => exact hdone
    | succ fuel =>
      refine (Refuses.optional? h).bind_nil fun found hfound => ?_
      subst hfound
      exact hdone
  | cons i items ih =>
    obtain ⟨fuel, rfl⟩ := Nat.exists_eq_add_of_lt hfuel
    obtain ⟨-, hi, hrest⟩ := h
    rw [List.length_cons] at hfuel
    rw [List.flatMap_cons, show items.length + fuel + 1 = (items.length + fuel) + 1 from rfl]
    refine hi.optional?.bind fun found hfound => ?_
    obtain ⟨x, rfl, hx⟩ := hfound
    refine (ih hrest (Nat.le_add_right _ _) (x :: done)).mono ?_
    rintro all ⟨xs, rfl, hxs⟩
    exact ⟨x :: xs, by rw [List.reverse_cons, List.append_assoc]; rfl, .cons hx hxs⟩

/-- **Repetition** reads the pieces. Each of them takes at least a character, so their number is
within bounds. -/
theorem ReadsEach.many {items : List ι} (h : ReadsEach r piece P ahead items) :
    Reads (many r) (items.flatMap piece) ahead (List.Forall₂ P items) := by
  intro p reached hrest hsize
  have hlength : items.length ≤ (items.flatMap piece).length := by
    clear hrest hsize
    induction items with
    | nil => exact Nat.zero_le _
    | cons i items ih =>
      have hpos := List.length_pos_iff.mpr h.1
      have hrest := ih h.2.2
      rw [List.length_cons, List.flatMap_cons, List.length_append]
      omega
  have hfuel : items.length ≤ p.size + 1 := by
    rw [hrest, List.length_append] at hsize
    omega
  obtain ⟨all, reached', houtcome, xs, hall, hxs⟩ := h.upTo hfuel [] p reached hrest hsize
  exact ⟨all, reached', houtcome, hall ▸ hxs⟩

/-- At least one piece is read. -/
theorem ReadsEach.many1 {i : ι} {items : List ι} (h : ReadsEach r piece P ahead (i :: items)) :
    Reads (many1 r) ((i :: items).flatMap piece) ahead (List.Forall₂ P (i :: items)) := by
  rw [List.flatMap_cons]
  refine h.2.1.bind fun x hx => (ReadsEach.many h.2.2).bind_nil fun xs hxs => ?_
  exact reads_pure (.cons hx hxs)

theorem Refuses.many1 (h : Refuses r ahead) : Refuses (many1 r) ahead := h.bind

end Repetition

/-! ### Whole texts -/

section Texts

variable {r : Rule α} {text : List Char}

theorem runOn_eq (r : Rule α) (text : List Char) :
    r.runOn text = match outcome r (.start text) 0 with
      | (some (x, _), _) => .ok x
      | (none, reached) => .error reached := rfl

theorem Reads.runOn {P : α → Prop} (h : Reads r text [] P) : ∃ x, r.runOn text = .ok x ∧ P x := by
  obtain ⟨x, reached, houtcome, hx⟩ :=
    h (.start text) 0 (List.append_nil text).symm (Nat.le_refl _)
  exact ⟨x, by rw [runOn_eq, houtcome], hx⟩

theorem Refuses.runOn (h : Refuses r text) : ∃ reached, r.runOn text = .error reached := by
  obtain ⟨reached, houtcome⟩ := h (.start text) 0 rfl (Nat.le_refl _)
  exact ⟨reached, by rw [runOn_eq, houtcome]⟩

end Texts

end Rule

end Polish.Toml
