import Mathlib.Data.List.DropRight
import Polish.Text.Blank
import Polish.Token.Scanner
import Polish.Proofs.Utf8

/-!
# Words of a line

A line of a listing is a mnemonic, a tab and an operand. White space of any script separates the
words of a line, but the scanner of programs knows ASCII blanks only. So an operand that came from a
source is one word of its line exactly when it holds no white space at all.

* `Bytes.isSolid`, `Bytes.StartsSolid`: the text holds no white space, or does not start with it.
* `Bytes.trim_ofChars`, `Bytes.fields_ofChars`: trimming and splitting, in characters.
* `Bytes.fields_of_isSolid`, `Bytes.fields_of_not_isSolid`: the words of an operand.
* `Bytes.trim_line`, `Bytes.fields_line`: what trimming and splitting do to a line.
-/

namespace Polish.Bytes

open Text (isBlank)

/-- Does the text hold no white space? -/
def isSolid (text : Bytes) : Bool := text.runes.all fun r => !r.isBlank

/-! ### In characters -/

theorem ofRunes_map_char (cs : List Char) : ofRunes (cs.map .char) = ofChars cs := by
  rw [ofRunes, ofChars, List.flatMap_map]
  rfl

theorem isSolid_ofChars {cs : List Char} :
    (ofChars cs).isSolid = true ↔ ∀ c ∈ cs, isBlank c = false := by
  rw [isSolid, runes_ofChars, List.all_map, List.all_eq_true]
  simp only [Function.comp_apply, Rune.isBlank, Bool.not_eq_true']

theorem trim_ofChars (cs : List Char) :
    (ofChars cs).trim = ofChars ((cs.dropWhile isBlank).rdropWhile isBlank) := by
  have hblank : Rune.isBlank ∘ Rune.char = isBlank := rfl
  rw [trim, runes_ofChars, List.dropWhile_map, ← List.map_reverse, List.dropWhile_map,
    ← List.map_reverse, ofRunes_map_char, hblank, List.rdropWhile]

theorem splitOnP_map {α β : Type} (f : α → β) (p : β → Bool) (xs : List α) :
    (xs.map f).splitOnP p = (xs.splitOnP (p ∘ f)).map (List.map f) := by
  induction xs with
  | nil => rfl
  | cons x xs ih =>
    rw [List.map_cons, List.splitOnP_cons_eq_if_modifyHead, List.splitOnP_cons_eq_if_modifyHead, ih]
    by_cases hx : p (f x) = true
    · rw [if_pos hx, if_pos (by exact hx), List.map_cons, List.map_nil]
    · rw [if_neg hx, if_neg (by exact hx)]
      cases xs.splitOnP (p ∘ f) <;> rfl

theorem fields_ofChars (cs : List Char) :
    (ofChars cs).fields
      = ((cs.splitOnP isBlank).filter fun w => !w.isEmpty).map ofChars := by
  have hblank : Rune.isBlank ∘ Rune.char = isBlank := rfl
  have hempty : (fun w : List Rune => !w.isEmpty) ∘ List.map Rune.char = fun w => !w.isEmpty := by
    funext w
    simp
  have hbytes : ofRunes ∘ List.map Rune.char = ofChars := funext ofRunes_map_char
  rw [fields, runes_ofChars, splitOnP_map, hblank, List.filter_map, hempty, List.map_map, hbytes]

/-- The character of an ASCII byte. -/
theorem runes_cons_ascii {b : UInt8} (h : b < 0x80) (t : Bytes) :
    runes (b :: t) = .char (Char.ofNat b.toNat) :: runes t := by
  have hform := single_iff.mp ⟨h, rfl⟩
  rw [← List.singleton_append, ← hform, runes_encode_append]

/-! ### ASCII words -/

/-- The blanks among the ASCII characters are the bytes that separate words of a source. -/
theorem isBlank_ofNat_of_ascii {b : UInt8} (h : b < 0x80) :
    isBlank (Char.ofNat b.toNat) = isGapByte b := by
  have hlt : b.toNat < 128 := UInt8.lt_iff_toNat_lt.mp h
  revert h
  rw [← UInt8.ofNat_toNat (x := b)]
  generalize b.toNat = n at hlt
  revert n
  decide

/-! ### Texts that start with no blank -/

/-- The text is well-formed, and its first character is no blank. -/
def StartsSolid (t : Bytes) : Prop := ∃ c cs, t = ofChars (c :: cs) ∧ isBlank c = false

/-- A well-formed text that starts with an ASCII byte of a word. -/
theorem startsSolid_of_isWellFormed {b : UInt8} {t : Bytes} (hb : b < 0x80)
    (hgap : isGapByte b = false) (h : isWellFormed (b :: t) = true) : StartsSolid (b :: t) := by
  obtain ⟨cs, hcs⟩ := exists_ofChars h
  have hread := runes_cons_ascii hb t
  rw [hcs, runes_ofChars] at hread
  cases cs with
  | nil => cases hread
  | cons c cs =>
    refine ⟨c, cs, hcs, ?_⟩
    rw [Rune.char.inj (List.cons.inj hread).1, isBlank_ofNat_of_ascii hb, hgap]

/-- A word of ASCII bytes. -/
theorem startsSolid_of_ascii {t : Bytes} (hne : t ≠ [])
    (h : ∀ b ∈ t, b < 0x80 ∧ isGapByte b = false) : StartsSolid t ∧ t.isSolid = true := by
  have hrunes : t.runes = t.map fun b => .char (Char.ofNat b.toNat) := by
    clear hne
    induction t with
    | nil => rfl
    | cons b t ih =>
      rw [runes_cons_ascii (h b List.mem_cons_self).1,
        ih fun x hx => h x (List.mem_cons_of_mem b hx), List.map_cons]
  obtain ⟨b, t, rfl⟩ := List.exists_cons_of_ne_nil hne
  obtain ⟨hb, hgap⟩ := h b List.mem_cons_self
  have hformed : isWellFormed (b :: t) = true := by
    rw [isWellFormed, hrunes, List.all_map]
    exact List.all_eq_true.mpr fun x _ => rfl
  refine ⟨startsSolid_of_isWellFormed hb hgap hformed, ?_⟩
  rw [isSolid, hrunes, List.all_map, List.all_eq_true]
  intro x hx
  obtain ⟨hx, hgap⟩ := h x hx
  simp only [Function.comp_apply, Rune.isBlank, isBlank_ofNat_of_ascii hx, hgap, Bool.not_false]

/-! ### The end of a text -/

/-- Trimming a text that starts with no blank trims its end. -/
theorem trim_ofChars_cons {c : Char} (hc : isBlank c = false) (cs : List Char) :
    (ofChars (c :: cs)).trim = ofChars ((c :: cs).rdropWhile isBlank) := by
  rw [trim_ofChars, List.dropWhile_cons_of_neg (by rw [hc]; decide)]

/-- What has a character that is no blank keeps it, so only its own end is trimmed. -/
theorem rdropWhile_append {xs ys : List Char} (h : ∃ c ∈ ys, isBlank c = false) :
    (xs ++ ys).rdropWhile isBlank = xs ++ ys.rdropWhile isBlank := by
  have hrest : (ys.reverse.dropWhile isBlank).isEmpty = false := by
    rw [Bool.eq_false_iff]
    intro hempty
    obtain ⟨c, hc, hblank⟩ := h
    have hall := List.dropWhile_eq_nil_iff.mp (List.isEmpty_iff.mp hempty)
    rw [hall c (List.mem_reverse.mpr hc)] at hblank
    cases hblank
  rw [List.rdropWhile, List.reverse_append, List.dropWhile_append, hrest, if_neg (by decide),
    List.reverse_append, List.reverse_reverse, List.rdropWhile]

/-- A trimmed text still starts with its first character, and ends with no blank. -/
theorem rdropWhile_cons {c : Char} (hc : isBlank c = false) (cs : List Char) :
    ∃ ds, (c :: cs).rdropWhile isBlank = c :: ds ∧
      isBlank ((c :: ds).getLast (by simp)) = false := by
  have hne : (c :: cs).rdropWhile isBlank ≠ [] := by
    intro hnil
    have hall := List.rdropWhile_eq_nil_iff.mp hnil c List.mem_cons_self
    rw [hall] at hc
    cases hc
  have hlast := List.rdropWhile_last_not isBlank (c :: cs) hne
  obtain ⟨d, ds, hds⟩ := List.exists_cons_of_ne_nil hne
  have hprefix := List.rdropWhile_prefix isBlank (c :: cs)
  rw [hds] at hprefix
  obtain rfl : d = c := by
    obtain ⟨rest, hrest⟩ := hprefix
    exact (List.cons.inj hrest).1
  refine ⟨ds, hds, ?_⟩
  simp only [hds] at hlast
  exact Bool.eq_false_iff.mpr hlast

theorem trim_of_isSolid {t : Bytes} (ht : StartsSolid t) (h : t.isSolid = true) : t.trim = t := by
  obtain ⟨c, cs, rfl, hc⟩ := ht
  rw [trim_ofChars_cons hc, List.rdropWhile_eq_self_iff.mpr]
  intro hne
  rw [isSolid_ofChars.mp h _ (List.getLast_mem hne)]
  decide

/-- Trimming twice is trimming once. -/
theorem trim_trim {t : Bytes} (ht : StartsSolid t) : t.trim.trim = t.trim := by
  obtain ⟨c, cs, rfl, hc⟩ := ht
  obtain ⟨ds, hds, -⟩ := rdropWhile_cons hc cs
  have hagain := List.rdropWhile_idempotent isBlank (c :: cs)
  rw [hds] at hagain
  rw [trim_ofChars_cons hc, hds, trim_ofChars_cons hc, hagain]

theorem StartsSolid.trim {t : Bytes} (ht : StartsSolid t) : StartsSolid t.trim := by
  obtain ⟨c, cs, rfl, hc⟩ := ht
  obtain ⟨ds, hds, -⟩ := rdropWhile_cons hc cs
  exact ⟨c, ds, by rw [trim_ofChars_cons hc, hds], hc⟩

/-! ### Words -/

/-- A text that starts with no blank and holds none is one word. -/
theorem fields_of_isSolid {t : Bytes} (ht : StartsSolid t) (h : t.isSolid = true) :
    t.fields = [t] := by
  obtain ⟨c, cs, rfl, hc⟩ := ht
  rw [fields_ofChars, List.splitOnP_eq_singleton (isSolid_ofChars.mp h),
    List.filter_cons_of_pos (by simp), List.filter_nil, List.map_singleton]

theorem filter_splitOnP_ne_nil {cs : List Char} (h : ∃ c ∈ cs, isBlank c = false) :
    (cs.splitOnP isBlank).filter (fun w => !w.isEmpty) ≠ [] := by
  induction cs with
  | nil =>
    obtain ⟨c, hc, -⟩ := h
    cases hc
  | cons x cs ih =>
    rw [List.splitOnP_cons_eq_if_modifyHead]
    by_cases hx : isBlank x = true
    · rw [if_pos hx, List.filter_cons_of_neg (by simp)]
      obtain ⟨c, hc, hblank⟩ := h
      rcases List.mem_cons.mp hc with rfl | hc
      · rw [hx] at hblank
        cases hblank
      · exact ih ⟨c, hc, hblank⟩
    · rw [if_neg hx]
      cases hsplit : cs.splitOnP isBlank with
      | nil => exact absurd hsplit (List.splitOnP_ne_nil isBlank cs)
      | cons first rest =>
        rw [List.modifyHead_cons, List.filter_cons_of_pos (by simp)]
        exact List.cons_ne_nil _ _

/-- A trimmed text that still holds a blank is more than one word. -/
theorem fields_of_not_isSolid {t : Bytes} (ht : StartsSolid t) (h : t.trim.isSolid = false) :
    ∃ a b rest, t.trim.fields = a :: b :: rest := by
  obtain ⟨c, cs, rfl, hc⟩ := ht
  obtain ⟨ds, hds, hlast⟩ := rdropWhile_cons hc cs
  rw [trim_ofChars_cons hc, hds] at h ⊢
  have hblank : ∃ x ∈ c :: ds, isBlank x = true := by
    by_contra hnone
    have hall : ∀ x ∈ c :: ds, isBlank x = false := fun x hx =>
      Bool.eq_false_iff.mpr fun hx' => hnone ⟨x, hx, hx'⟩
    rw [isSolid_ofChars.mpr hall] at h
    cases h
  -- cut at the first blank: what is before it is a word, and what is after it holds one
  obtain ⟨x, hx⟩ := Option.isSome_iff_exists.mp (List.find?_isSome.mpr hblank)
  obtain ⟨hxblank, before, after, hcut, hbefore⟩ := List.find?_eq_some_iff_append.mp hx
  have hbefore : ∀ y ∈ before, isBlank y = false := fun y hy => by simpa using hbefore y hy
  have hne : before ≠ [] := by
    rintro rfl
    rw [(List.cons.inj hcut).1, hxblank] at hc
    cases hc
  have hafter : ∃ y ∈ after, isBlank y = false := by
    cases after using List.reverseRecOn with
    | nil =>
      have hend : (c :: ds).getLast (by simp) = x := by simp [hcut]
      rw [hend, hxblank] at hlast
      cases hlast
    | append_singleton after y =>
      have hend : (c :: ds).getLast (by simp) = y := by simp [hcut]
      rw [hend] at hlast
      exact ⟨y, by simp, hlast⟩
  rw [fields_ofChars, hcut, List.splitOnP_append_cons_of_forall_mem hbefore x hxblank,
    List.filter_cons_of_pos (by simp [hne]), List.map_cons]
  cases hrest : (after.splitOnP isBlank).filter (fun w => !w.isEmpty) with
  | nil => exact absurd hrest (filter_splitOnP_ne_nil hafter)
  | cons b rest => exact ⟨_, _, _, rfl⟩

/-! ### A word, a tab and an operand -/

theorem isBlank_tab : isBlank '\t' = true := by decide

theorem line_ofChars (ms ws : List Char) :
    ofChars ms ++ "\t" ++ ofChars ws = ofChars (ms ++ '\t' :: ws) := by
  rw [List.append_cons, ofChars_append, ofChars_append]
  rfl

/-- Trimming a line trims its operand. -/
theorem trim_line {m w : Bytes} (hm : StartsSolid m) (hw : StartsSolid w) :
    (m ++ "\t" ++ w).trim = m ++ "\t" ++ w.trim := by
  obtain ⟨c, cs, rfl, hc⟩ := hm
  obtain ⟨d, ds, rfl, hd⟩ := hw
  rw [line_ofChars, List.cons_append, trim_ofChars_cons hc, ← List.cons_append, List.append_cons,
    rdropWhile_append ⟨d, List.mem_cons_self, hd⟩, ← List.append_cons, ← line_ofChars,
    trim_ofChars_cons hd]

/-- The words of a line are its first word and the words of its operand. -/
theorem fields_line {m w : Bytes} (hm : StartsSolid m) (hsolid : m.isSolid = true)
    (hw : StartsSolid w) : (m ++ "\t" ++ w).fields = m :: w.fields := by
  obtain ⟨c, cs, rfl, hc⟩ := hm
  obtain ⟨d, ds, rfl, hd⟩ := hw
  rw [line_ofChars, fields_ofChars, fields_ofChars,
    List.splitOnP_append_cons_of_forall_mem (isSolid_ofChars.mp hsolid) '\t' isBlank_tab,
    List.filter_cons_of_pos (by simp), List.map_cons]

end Polish.Bytes
