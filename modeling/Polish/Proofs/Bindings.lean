import Mathlib.Data.List.Dedup
import Mathlib.Data.List.Perm.Subperm
import Polish.Store.Dump

/-!
# Equal symbol tables

Two tables are compared by counting their names and by looking up the bindings of the first one in
the second. Neither the order of the bindings nor a look-up in the other direction takes part. That
the answer says that both tables bind the same names to the same values is a matter of counting:
names that are pairwise different, all of them among equally many names, are these names.

A table has no memory of how it was made. Its names are those that were bound at some time, each of
them once, and they ascend; so equal tables are shown in the same way.

* `NameMap.get?_eq_some`, `NameMap.ext_get?`: a map is what is looked up in it.
* `NameMap.equal_iff_get?`: maps that are found equal answer alike.
* `NameMap.mem_names_put`, `NameMap.mem_names_ofList`: the names of a map after one binding, and after
  any number of them.
* `Store.rows_eq`: what is shown of a table follows from its names and their values.
* `Store.equality_is_extensional`: what equality of tables says, whatever was bound before.
-/

namespace Polish

namespace NameMap

variable {α : Type}

/-! ### A map is what is looked up in it -/

theorem pairwise_names (m : NameMap α) : m.names.Pairwise (· < ·) :=
  List.pairwise_map.mpr m.ascending

theorem nodup_names (m : NameMap α) : m.names.Nodup := by
  refine List.Pairwise.imp ?_ m.pairwise_names
  rintro name _ h rfl
  exact List.lt_irrefl name h

theorem size_eq_length_names (m : NameMap α) : m.size = m.names.length := by
  rw [size, names, List.length_map]

/-- Where every name stands once, a look-up finds the entry with the name. -/
theorem findEntry_eq_some {es : List (Bytes × α)} (hes : (es.map (·.1)).Nodup) {name : Bytes}
    {value : α} : findEntry name es = some value ↔ (name, value) ∈ es := by
  induction es with
  | nil => simp [findEntry]
  | cons e es ih =>
    obtain ⟨first, bound⟩ := e
    obtain ⟨hhead, htail⟩ := List.nodup_cons.mp hes
    rw [findEntry, List.mem_cons, Prod.mk.injEq]
    by_cases h : name = first
    · subst h
      have hnot : (name, value) ∉ es := fun hmem => hhead (List.mem_map.mpr ⟨_, hmem, rfl⟩)
      simp [hnot, eq_comm]
    · simp [h, ih htail]

theorem get?_eq_some {m : NameMap α} {name : Bytes} {value : α} :
    m.get? name = some value ↔ (name, value) ∈ m.entries :=
  findEntry_eq_some m.nodup_names

theorem mem_names_iff {m : NameMap α} {name : Bytes} :
    name ∈ m.names ↔ ∃ value, m.get? name = some value := by
  simp [names, get?_eq_some]

theorem get?_eq_none {m : NameMap α} {name : Bytes} : m.get? name = none ↔ name ∉ m.names := by
  rw [mem_names_iff, Option.eq_none_iff_forall_ne_some, not_exists]

/-- Maps in which every name has the same value are the same map: they have the same entries, and
there is one ascending order of them. -/
theorem ext_get? {a b : NameMap α} (h : ∀ name, a.get? name = b.get? name) : a = b := by
  -- the same entries in some order, and both orders ascend
  have hperm : a.entries.Perm b.entries := by
    refine (List.perm_ext_iff_of_nodup (.of_map _ a.nodup_names) (.of_map _ b.nodup_names)).mpr ?_
    rintro ⟨name, value⟩
    rw [← get?_eq_some, ← get?_eq_some, h]
  refine ext (hperm.eq_of_pairwise ?_ a.ascending b.ascending)
  exact fun x y _ _ hxy hyx => absurd (List.lt_trans hxy hyx) (List.lt_irrefl _)

/-! ### Comparing -/

variable [BEq α] [LawfulBEq α]

theorem equal_eq_true {a b : NameMap α} :
    a.equal b = true ↔
      a.size = b.size ∧ ∀ name value, a.get? name = some value → b.get? name = some value := by
  simp [equal, get?_eq_some]

/-- Names that are pairwise different, all of them bound in a map with equally many names, are the
names of that map. -/
theorem names_subset_of_equal {a b : NameMap α} (h : a.equal b = true) : b.names ⊆ a.names := by
  obtain ⟨hsize, hbound⟩ := equal_eq_true.mp h
  have hsub : a.names ⊆ b.names := by
    intro name hname
    obtain ⟨value, hvalue⟩ := mem_names_iff.mp hname
    exact mem_names_iff.mpr ⟨value, hbound name value hvalue⟩
  -- as many names as `b` has, all of them in `b`, leave none of `b` out
  rw [size_eq_length_names, size_eq_length_names] at hsize
  exact ((List.subperm_of_subset a.nodup_names hsub).perm_of_length_le (Nat.le_of_eq hsize.symm)).symm.subset

/-- **Equality is extensional.** Two maps are found equal exactly when every name has the same value
in both, or no value in both. -/
theorem equal_iff_get? {a b : NameMap α} :
    a.equal b = true ↔ ∀ name, a.get? name = b.get? name := by
  constructor
  · intro h name
    cases hname : a.get? name with
    | some value => exact ((equal_eq_true.mp h).2 name value hname).symm
    | none =>
      have hnot : name ∉ b.names := fun hb => get?_eq_none.mp hname (names_subset_of_equal h hb)
      exact (get?_eq_none.mpr hnot).symm
  · intro h
    refine equal_eq_true.mpr ⟨congrArg size (ext_get? h), fun name value hvalue => ?_⟩
    rw [← h, hvalue]

theorem equal_self (m : NameMap α) : m.equal m = true := equal_iff_get?.mpr fun _ => rfl

omit [BEq α] [LawfulBEq α]

/-! ### The names of a map -/

/-- One binding adds its name, if that is new. -/
theorem mem_names_put {m : NameMap α} {name other : Bytes} {value : α} :
    other ∈ (m.put name value).names ↔ other = name ∨ other ∈ m.names := by
  rw [mem_names_iff, mem_names_iff, get?_put]
  by_cases h : other = name <;> simp [h]

theorem mem_names_foldl_put {m : NameMap α} {bindings : List (Bytes × α)} {name : Bytes} :
    name ∈ (bindings.foldl (fun m b => m.put b.1 b.2) m).names ↔
      name ∈ bindings.map Prod.fst ∨ name ∈ m.names := by
  induction bindings generalizing m with
  | nil => simp
  | cons b bindings ih =>
    rw [List.foldl_cons, ih, mem_names_put, List.map_cons, List.mem_cons]
    tauto

/-- **Names.** The names of a map are those that were bound, fresh or not. -/
theorem mem_names_ofList {bindings : List (Bytes × α)} {name : Bytes} :
    name ∈ (ofList bindings).names ↔ name ∈ bindings.map Prod.fst := by
  rw [ofList, mem_names_foldl_put]
  simp [names, empty]

/-- Each of them counts once. -/
theorem size_ofList (bindings : List (Bytes × α)) :
    (ofList bindings).size = (bindings.map Prod.fst).dedup.length := by
  have hperm : (ofList bindings).names.Perm (bindings.map Prod.fst).dedup := by
    refine (List.perm_ext_iff_of_nodup (nodup_names _) (List.nodup_dedup _)).mpr fun name => ?_
    rw [mem_names_ofList, List.mem_dedup]
  rw [size_eq_length_names, hperm.length_eq]

end NameMap

namespace Store

open NameMap

/-! ### Reading a table -/

theorem get_eq_ok {s : Store} {name : Bytes} {v : Int64} :
    s.get name = .ok v ↔ s.get? name = some v := by
  rw [get]
  cases s.get? name <;> simp

theorem get_eq_unbound {s : Store} {name : Bytes} :
    s.get name = .error (.unbound name) ↔ s.get? name = none := by
  rw [get]
  cases s.get? name <;> simp

/-- Both tables have the same value for the name, or both have none. -/
def AnswerAlike (a b : Store) (name : Bytes) : Prop :=
  (∃ v, a.get name = .ok v ∧ b.get name = .ok v) ∨
    a.get name = .error (.unbound name) ∧ b.get name = .error (.unbound name)

theorem answerAlike_iff {a b : Store} {name : Bytes} :
    a.AnswerAlike b name ↔ a.get? name = b.get? name := by
  simp only [AnswerAlike, get_eq_ok, get_eq_unbound]
  cases a.get? name <;> cases b.get? name <;> simp [eq_comm]

/-- The same names, and the same answer for each of them, are the same answers for all names. -/
theorem names_and_values_iff {a b : Store} :
    (a.names = b.names ∧ ∀ name ∈ a.names, ∃ v, a.get name = .ok v ∧ b.get name = .ok v) ↔
      ∀ name, a.get? name = b.get? name := by
  constructor
  · rintro ⟨hnames, hvalues⟩ name
    by_cases hname : name ∈ a.names
    · obtain ⟨v, ha, hb⟩ := hvalues name hname
      rw [get_eq_ok.mp ha, get_eq_ok.mp hb]
    · rw [get?_eq_none.mpr hname, get?_eq_none.mpr (hnames ▸ hname)]
  · intro h
    refine ⟨by rw [ext_get? h], fun name hname => ?_⟩
    obtain ⟨v, hv⟩ := mem_names_iff.mp hname
    exact ⟨v, get_eq_ok.mpr hv, get_eq_ok.mpr (h name ▸ hv)⟩

/-! ### Showing a table -/

/-- The rows follow from the names and their values. -/
theorem rows_eq (s : Store) :
    s.rows = s.names.map fun name => [name, ((s.get? name).map Decimal.ofInt64).getD []] := by
  rw [rows, names, List.map_map]
  refine List.map_congr_left fun e he => ?_
  rw [Function.comp_apply, get?_eq_some.mpr he]
  rfl

theorem dumpWith_congr {a b : Store} (h : ∀ name, a.get? name = b.get? name)
    (draw : List (List Bytes) → Bytes) : a.dumpWith draw = b.dumpWith draw := by
  have hnames : a.names = b.names := (names_and_values_iff.mpr h).1
  have hrows : a.rows = b.rows := by simp only [rows_eq, hnames, h]
  have hsize : a.size = b.size := by
    rw [size_eq_length_names, size_eq_length_names, hnames]
  rw [dumpWith, dumpWith, hrows, hsize]

/-- **Equality of tables.** Take tables made by binding names in any order, fresh names and bound
ones. Two of them are found equal exactly when they answer alike for every name, and exactly when
they have the same names with the same values. Equality is symmetric and transitive. A table has as
many names as different names were bound; its names are these, in ascending order. Equal tables are
shown alike, however the boxes are drawn. -/
theorem equality_is_extensional (as bs cs : List (Bytes × Int64)) :
    let a : Store := ofList as
    let b : Store := ofList bs
    let c : Store := ofList cs
    ((a.equal b = true ↔ ∀ name, a.AnswerAlike b name) ∧
      (a.equal b = true ↔
        a.names = b.names ∧ ∀ name ∈ a.names, ∃ v, a.get name = .ok v ∧ b.get name = .ok v)) ∧
    (a.equal b = b.equal a ∧ (a.equal b = true → b.equal c = true → a.equal c = true)) ∧
    (a.size = (as.map Prod.fst).dedup.length ∧ a.names.Pairwise (· < ·) ∧
      ∀ name, name ∈ a.names ↔ name ∈ as.map Prod.fst) ∧
    (a.equal b = true → (∀ draw, a.dumpWith draw = b.dumpWith draw) ∧ a.dump = b.dump) := by
  intro a b c
  refine ⟨⟨?_, ?_⟩, ⟨?_, ?_⟩, ⟨size_ofList as, pairwise_names a, fun _ => mem_names_ofList⟩, ?_⟩
  · simp only [equal_iff_get?, answerAlike_iff]
  · rw [names_and_values_iff, equal_iff_get?]
  · rw [Bool.eq_iff_iff, equal_iff_get?, equal_iff_get?]
    exact forall_congr' fun name => eq_comm
  · rw [equal_iff_get?, equal_iff_get?, equal_iff_get?]
    exact fun hab hbc name => (hab name).trans (hbc name)
  · intro h
    have hdraw := dumpWith_congr (equal_iff_get?.mp h)
    exact ⟨hdraw, hdraw _⟩

end Store

end Polish
