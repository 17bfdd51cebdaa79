import Mathlib.Data.List.Basic
import Polish.Proofs.Prefixes
import Polish.Tree.Cursor

/-!
# The only cut at the markers

Four rules say what a division of tokens into statements is: nothing is lost, no group is empty, no
group holds a marker after its first token, and every group but the first starts with one. Only one
division keeps them, since a group has to end before the next marker and must not end earlier. So two
ways to cut are the same once both keep the rules, and what is known of one is known of the other.

The cut in one pass holds complete groups and an open one. The open group is empty only before the
first token; so a token that is no marker has a group to join, unless it is the very first.

* `IsCut`: the rules.
* `IsCut.append`, `IsCut.extend`: a cut grows by a cut that starts with a marker, or by one token that
  is no marker.
* `IsCut.eq_splitStatements`: there is one cut.
* `Cutting.Cuts`, `Cutting.cuts_take`, `Cutting.cuts_foldl`: what the pass has reached, after one token
  and after all of them.
* `splitStatements_append_of_startsStatement`: tokens put behind others are cut by themselves.
-/

namespace Polish

/-- The groups are a division of the tokens into statements. -/
structure IsCut (ts : List Token) (groups : List (List Token)) : Prop where
  flatten_eq : groups.flatten = ts
  ne_nil : ∀ g ∈ groups, g ≠ []
  unmarked : ∀ g ∈ groups, ∀ t ∈ g.tail, t.isMarker = false
  marked : ∀ g ∈ groups.tail, ∃ t rest, g = t :: rest ∧ t.isMarker = true

theorem Clause.toList_injective : Function.Injective Clause.toList := by
  rintro ⟨first, rest⟩ ⟨first', rest'⟩ h
  obtain ⟨rfl, rfl⟩ := List.cons.inj h
  rfl

namespace IsCut

variable {ts us : List Token} {groups others : List (List Token)} {g : List Token} {t : Token}

theorem nil : IsCut [] [] :=
  ⟨rfl, by simp, by simp, by simp⟩

theorem singleton (t : Token) : IsCut [t] [[t]] :=
  ⟨rfl, by simp, by simp, by simp⟩

/-! ### How a cut grows -/

/-- The groups of tokens that start with a marker all start with one. -/
theorem marked_of_startsStatement (h : IsCut ts groups) (hts : StartsStatement ts) :
    ∀ g ∈ groups, ∃ t rest, g = t :: rest ∧ t.isMarker = true := by
  cases groups with
  | nil => simp
  | cons first groups =>
    refine List.forall_mem_cons.mpr ⟨?_, h.marked⟩
    obtain ⟨t, rest, rfl⟩ := List.exists_cons_of_ne_nil (h.ne_nil first List.mem_cons_self)
    rw [← h.flatten_eq] at hts
    exact ⟨t, rest, rfl, hts⟩

/-- A cut goes on with a cut of tokens that start with a marker. -/
theorem append (h : IsCut ts groups) (h' : IsCut us others) (hus : StartsStatement us) :
    IsCut (ts ++ us) (groups ++ others) where
  flatten_eq := by rw [List.flatten_append, h.flatten_eq, h'.flatten_eq]
  ne_nil := List.forall_mem_append.mpr ⟨h.ne_nil, h'.ne_nil⟩
  unmarked := List.forall_mem_append.mpr ⟨h.unmarked, h'.unmarked⟩
  marked := by
    cases groups with
    | nil =>
      -- nothing is in front, so the first of the others is the first of all
      exact h'.marked
    | cons first groups =>
      exact List.forall_mem_append.mpr ⟨h.marked, h'.marked_of_startsStatement hus⟩

/-- The last group of a cut goes on with a token that is no marker. -/
theorem extend (h : IsCut ts (groups ++ [g])) (ht : t.isMarker = false) :
    IsCut (ts ++ [t]) (groups ++ [g ++ [t]]) := by
  obtain ⟨hgroups, hg⟩ := List.forall_mem_append.mp h.ne_nil
  obtain ⟨hrest, hlast⟩ := List.forall_mem_append.mp h.unmarked
  obtain ⟨first, rest, rfl⟩ := List.exists_cons_of_ne_nil (hg g List.mem_cons_self)
  refine ⟨?_, ?_, ?_, ?_⟩
  · rw [← h.flatten_eq]
    simp
  · exact List.forall_mem_append.mpr ⟨hgroups, by simp⟩
  · refine List.forall_mem_append.mpr ⟨hrest, List.forall_mem_singleton.mpr ?_⟩
    show ∀ u ∈ rest ++ [t], u.isMarker = false
    have hold : ∀ u ∈ rest, u.isMarker = false := List.forall_mem_singleton.mp hlast
    exact List.forall_mem_append.mpr ⟨hold, List.forall_mem_singleton.mpr ht⟩
  · -- the extended group is the first one, or keeps the marker it starts with
    have hmarked := h.marked
    cases groups with
    | nil => simp
    | cons head groups =>
      obtain ⟨hgroups, hlast⟩ := List.forall_mem_append.mp hmarked
      refine List.forall_mem_append.mpr ⟨hgroups, List.forall_mem_singleton.mpr ?_⟩
      obtain ⟨m, ms, hms, hm⟩ := List.forall_mem_singleton.mp hlast
      exact ⟨m, ms ++ [t], by rw [hms, List.cons_append], hm⟩

/-! ### There is one cut -/

/-- Each group of a cut is cut off whole by the reader. -/
theorem eq_splitStatements (h : IsCut ts groups) :
    groups = (splitStatements ts).map Clause.toList := by
  induction groups generalizing ts with
  | nil =>
    rw [← h.flatten_eq]
    rfl
  | cons g groups ih =>
    obtain ⟨hg, hgroups⟩ := List.forall_mem_cons.mp h.ne_nil
    obtain ⟨hfirst, hrest⟩ := List.forall_mem_cons.mp h.unmarked
    have htail : IsCut groups.flatten groups :=
      ⟨rfl, hgroups, hrest, fun g hg => h.marked g (List.mem_of_mem_tail hg)⟩
    have hstarts : StartsStatement groups.flatten := by
      cases groups with
      | nil => trivial
      | cons next groups =>
        obtain ⟨t, rest, rfl, ht⟩ := h.marked next List.mem_cons_self
        exact ht
    obtain ⟨t, rest, rfl⟩ := List.exists_cons_of_ne_nil hg
    have hwhole : splitStatements (t :: rest ++ groups.flatten)
        = ⟨t, rest⟩ :: splitStatements groups.flatten := splitStatements_append hfirst hstarts
    rw [← h.flatten_eq, List.flatten_cons, hwhole, List.map_cons, ← ih htail]
    rfl

end IsCut

/-- The reader keeps the rules. -/
theorem isCut_splitStatements (ts : List Token) :
    IsCut ts ((splitStatements ts).map Clause.toList) := by
  obtain ⟨hunmarked, hmarked⟩ := splitStatements_unmarked ts
  refine ⟨?_, ?_, ?_, ?_⟩
  · rw [← List.flatMap_def, flatMap_splitStatements]
  · exact List.forall_mem_map.mpr fun c _ => List.cons_ne_nil c.first c.rest
  · exact List.forall_mem_map.mpr hunmarked
  · rw [← List.map_tail]
    exact List.forall_mem_map.mpr fun c hc => ⟨c.first, c.rest, rfl, hmarked c hc⟩

/-- Tokens behind others, the first of them a marker, are cut by themselves. -/
theorem splitStatements_append_of_startsStatement (ts : List Token) {us : List Token}
    (hus : StartsStatement us) :
    splitStatements (ts ++ us) = splitStatements ts ++ splitStatements us := by
  apply List.map_injective_iff.mpr Clause.toList_injective
  rw [List.map_append]
  exact ((isCut_splitStatements ts).append (isCut_splitStatements us) hus).eq_splitStatements.symm

/-! ### The cut in one pass -/

namespace Cutting

/-- The pass has cut these tokens. Its open group is empty only if nothing is cut. -/
structure Cuts (c : Cutting) (ts : List Token) : Prop where
  isCut : IsCut ts c.finish
  groups_eq_nil : c.pending = [] → c.groups = []

theorem finish_of_ne_nil {c : Cutting} (h : c.pending ≠ []) :
    c.finish = c.groups ++ [c.pending] := by
  rw [finish, if_neg (by simpa using h)]

theorem cuts_start : start.Cuts [] := ⟨.nil, fun _ => rfl⟩

/-- **One token.** A marker starts a group of its own, every other token joins the open group. -/
theorem cuts_take {c : Cutting} {ts : List Token} (h : c.Cuts ts) (t : Token) :
    (c.take t).Cuts (ts ++ [t]) := by
  by_cases hpending : c.pending = []
  · -- nothing is cut yet, and the token starts the first group whatever it is
    have hgroups := h.groups_eq_nil hpending
    have hts : ts = [] := by
      have hflatten := h.isCut.flatten_eq
      rw [finish, hpending, hgroups] at hflatten
      exact hflatten.symm
    have htake : c.take t = ⟨[], [t]⟩ := by
      rw [take, hpending, hgroups]
      simp
    rw [htake, hts]
    exact ⟨.singleton t, fun _ => rfl⟩
  · have hcut := h.isCut
    rw [finish_of_ne_nil hpending] at hcut
    -- the open group has a token: it is complete before a marker, and goes on otherwise
    cases ht : t.isMarker with
    | true =>
      have htake : c.take t = ⟨c.groups ++ [c.pending], [t]⟩ := by
        rw [take, if_pos (by simpa [ht] using hpending)]
      rw [htake]
      refine ⟨?_, fun hnil => absurd hnil (List.cons_ne_nil t [])⟩
      exact hcut.append (.singleton t) ht
    | false =>
      have htake : c.take t = ⟨c.groups, c.pending ++ [t]⟩ := by
        rw [take, if_neg (by simp [ht])]
      have hopen : c.pending ++ [t] ≠ [] := List.append_ne_nil_of_right_ne_nil _ (by simp)
      rw [htake]
      refine ⟨?_, fun hnil => absurd hnil hopen⟩
      rw [finish_of_ne_nil hopen]
      exact hcut.extend ht

/-- **All tokens.** -/
theorem cuts_foldl {c : Cutting} {ts : List Token} (h : c.Cuts ts) (us : List Token) :
    (us.foldl take c).Cuts (ts ++ us) := by
  induction us generalizing c ts with
  | nil =>
    rw [List.append_nil]
    exact h
  | cons t us ih =>
    rw [List.append_cons]
    exact ih (cuts_take h t)

end Cutting

/-- The pass keeps the rules, so it cuts as the reader does. -/
theorem cutAtMarkers_eq (ts : List Token) :
    cutAtMarkers ts = (splitStatements ts).map Clause.toList :=
  (Cutting.cuts_foldl Cutting.cuts_start ts).isCut.eq_splitStatements

/-- What stands in front of the first marker is a group, and so is a marker alone. -/
example : (cutAtMarkers (Token.ofTexts ["x", ":=", "a", "1", "@", "@", "a"])).map Token.texts
    = ([["x"], [":=", "a", "1"], ["@"], ["@", "a"]] : List (List Bytes)) := by decide

end Polish
