import Polish.Bytes

/-!
# Maps from names

A map binds names to values, each name once. Its entries are kept in the order of the names' bytes,
so two maps with the same bindings are the same map whatever the order in which they were made.

* `NameMap`, `NameMap.empty`, `NameMap.ofList`
* `NameMap.get?`, `NameMap.put`: look up and bind.
* `NameMap.names`, `NameMap.size`: the bound names in ascending order.
* `NameMap.equal`: do two maps bind the same names to the same values?
* `NameMap.get?_put`: binding a name changes that name only.
-/

namespace Polish

/-- Bindings of names to values, ascending by the bytes of the names. -/
structure NameMap (α : Type) where
  entries : List (Bytes × α)
  ascending : entries.Pairwise (fun a b => a.1 < b.1)
deriving Repr

namespace NameMap

variable {α : Type}

theorem ext {a b : NameMap α} (h : a.entries = b.entries) : a = b := by
  cases a; cases b; cases h; rfl

instance [DecidableEq α] : DecidableEq (NameMap α) := fun a b =>
  if h : a.entries = b.entries then isTrue (ext h)
  else isFalse fun hab => h (congrArg entries hab)

/-- The map without bindings. -/
def empty : NameMap α := ⟨[], .nil⟩

instance : Inhabited (NameMap α) := ⟨empty⟩

/-! ### Look-up -/

/-- The value of a name in a list of entries. -/
def findEntry (name : Bytes) : List (Bytes × α) → Option α
  | [] => none
  | e :: rest => if name = e.1 then some e.2 else findEntry name rest

/-- The value of a name. -/
def get? (m : NameMap α) (name : Bytes) : Option α := findEntry name m.entries

/-- Does the name have a value? -/
def has (m : NameMap α) (name : Bytes) : Bool := (m.get? name).isSome

/-- The number of bound names. -/
def size (m : NameMap α) : Nat := m.entries.length

/-- The bound names, ascending by their bytes. -/
def names (m : NameMap α) : List Bytes := m.entries.map (·.1)

@[simp] theorem get?_empty (name : Bytes) : (empty : NameMap α).get? name = none := rfl

/-! ### Binding -/

/-- Adds or replaces an entry in an ascending list. -/
def insertEntry (name : Bytes) (value : α) : List (Bytes × α) → List (Bytes × α)
  | [] => [(name, value)]
  | e :: rest =>
    if name = e.1 then (name, value) :: rest
    else if name < e.1 then (name, value) :: e :: rest
    else e :: insertEntry name value rest

theorem mem_insertEntry {name : Bytes} {value : α} {es : List (Bytes × α)}
    {x : Bytes × α} (h : x ∈ insertEntry name value es) : x = (name, value) ∨ x ∈ es := by
  induction es with
  | nil => simpa [insertEntry] using h
  | cons e rest ih =>
    unfold insertEntry at h
    split at h
    · grind
    · split at h <;> grind

theorem lt_of_ne_of_not_lt {a b : Bytes} (hne : a ≠ b) (hlt : ¬ a < b) : b < a := by
  apply Classical.byContradiction
  intro h
  exact hne (List.le_antisymm h hlt)

theorem pairwise_insertEntry (name : Bytes) (value : α) {es : List (Bytes × α)}
    (h : es.Pairwise (fun a b => a.1 < b.1)) :
    (insertEntry name value es).Pairwise (fun a b => a.1 < b.1) := by
  induction es with
  | nil => simp [insertEntry]
  | cons e rest ih =>
    obtain ⟨hhead, htail⟩ := List.pairwise_cons.1 h
    unfold insertEntry
    split
    · next heq => exact List.pairwise_cons.2 ⟨fun x hx => by rw [heq]; exact hhead x hx, htail⟩
    · next hne =>
      split
      · next hlt =>
        refine List.pairwise_cons.2 ⟨fun x hx => ?_, h⟩
        rcases List.mem_cons.1 hx with rfl | hx
        · exact hlt
        · exact List.lt_trans hlt (hhead x hx)
      · next hnlt =>
        refine List.pairwise_cons.2 ⟨fun x hx => ?_, ih htail⟩
        rcases mem_insertEntry hx with rfl | hx
        · exact lt_of_ne_of_not_lt hne hnlt
        · exact hhead x hx

/-- Binds a name; an earlier value of the name is forgotten. -/
def put (m : NameMap α) (name : Bytes) (value : α) : NameMap α :=
  ⟨insertEntry name value m.entries, pairwise_insertEntry name value m.ascending⟩

theorem findEntry_insertEntry (name : Bytes) (value : α) (es : List (Bytes × α))
    (other : Bytes) :
    findEntry other (insertEntry name value es)
      = if other = name then some value else findEntry other es := by
  induction es with
  | nil => simp [insertEntry, findEntry]
  | cons e rest ih =>
    unfold insertEntry
    split
    · next heq => by_cases h : other = name <;> simp [findEntry, h, ← heq]
    · next hne =>
      split
      · simp [findEntry]
      · by_cases h : other = e.1
        · simp [findEntry, h, Ne.symm hne]
        · simp [findEntry, h, ih]

/-- Binding a name changes that name's value and no other. -/
theorem get?_put (m : NameMap α) (name : Bytes) (value : α) (other : Bytes) :
    (m.put name value).get? other = if other = name then some value else m.get? other :=
  findEntry_insertEntry name value m.entries other

@[simp] theorem get?_put_self (m : NameMap α) (name : Bytes) (value : α) :
    (m.put name value).get? name = some value := by
  simp [get?_put]

/-! ### Comparing -/

/-- Do both maps hold the same bindings? They bind equally many names, and what the first one binds
the second one binds to the same value. -/
def equal [BEq α] (a b : NameMap α) : Bool :=
  a.size == b.size && a.entries.all fun e => b.get? e.1 == some e.2

/-! ### Many bindings -/

/-- The map of a list of bindings, later ones replacing earlier ones. -/
def ofList (bindings : List (Bytes × α)) : NameMap α :=
  bindings.foldl (fun m b => m.put b.1 b.2) empty

end NameMap

end Polish
