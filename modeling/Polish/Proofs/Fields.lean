import Polish.Text.Line
import Polish.Proofs.Lines
import Polish.Proofs.Words

/-!
# Words of any text

A line of a listing may hold any bytes. A byte outside any character is no white space and belongs
to the word around it. What is cut out of a line at white space is read as it was read in the line,
so a word holds no white space, is never empty, and is not longer than its line leaves room for.

* `Bytes.runes_ofRunes`: a stretch of a reading is the reading of its bytes.
* `Bytes.runes_append_cons`: an ASCII byte belongs to no longer character, so a text can be read in
  two parts there.
* `Bytes.mem_fields`, `Bytes.length_flatMap_fields_le`: the words of a line, and their lengths.
* `Bytes.trim_eq_self`, `Bytes.fields_pair`: a line made of two words is split into them again.
* `Bytes.trim_chomp`: a carriage return at the end of a line is trimmed with the rest.
-/

namespace Polish

theorem Rune.bytes_ne_nil (r : Rune) : r.bytes ≠ [] := by
  cases r with
  | char c => exact String.utf8EncodeChar_ne_nil
  | stray b => exact List.cons_ne_nil b []

namespace Bytes

open String (utf8EncodeChar)

/-! ### Stretches of a reading -/

theorem ofRunes_cons (r : Rune) (rs : List Rune) : ofRunes (r :: rs) = r.bytes ++ ofRunes rs :=
  List.flatMap_cons

theorem ofRunes_append (rs ss : List Rune) : ofRunes (rs ++ ss) = ofRunes rs ++ ofRunes ss :=
  List.flatMap_append

theorem ofRunes_eq_nil {rs : List Rune} : ofRunes rs = [] ↔ rs = [] := by
  cases rs with
  | nil => simp [ofRunes]
  | cons r rs => simp [ofRunes_cons, r.bytes_ne_nil]

/-- A byte that starts no character stands alone. -/
theorem runes_stray {b : UInt8} {text : Bytes} (h : front? (b :: text) = none) :
    runes (b :: text) = .stray b :: runes text := by
  rw [runes, runesFrom, h]
  rfl

/-- The first rune of a reading takes its bytes, and the others are the reading of the rest. -/
theorem exists_of_runes_cons {text : Bytes} {r : Rune} {rs : List Rune} (h : text.runes = r :: rs) :
    ∃ rest, text = r.bytes ++ rest ∧ rest.runes = rs := by
  cases text with
  | nil => cases h
  | cons b tail =>
    cases hread : front? (b :: tail) with
    | none =>
      rw [runes_stray hread] at h
      cases h
      exact ⟨tail, rfl, rfl⟩
    | some found =>
      obtain ⟨-, rest, hrest⟩ := encoded_of_front? hread
      rw [hrest, runes_encode_append] at h
      cases h
      exact ⟨rest, hrest, rfl⟩

theorem runes_eq_nil {text : Bytes} (h : text.runes = []) : text = [] := by
  cases text with
  | nil => rfl
  | cons b tail =>
    rw [runes, runesFrom] at h
    split at h <;> cases h

/-- The bytes of a reading are the text that was read. -/
theorem ofRunes_runes (text : Bytes) : ofRunes text.runes = text := by
  generalize hrs : text.runes = rs
  induction rs generalizing text with
  | nil => rw [runes_eq_nil hrs, ofRunes, List.flatMap_nil]
  | cons r rs ih =>
    obtain ⟨rest, rfl, hrest⟩ := exists_of_runes_cons hrs
    rw [ofRunes_cons, ih rest hrest]

/-- A byte that is read alone starts no character, also if the text is cut off after it. -/
theorem front?_of_runes_stray {b : UInt8} {xs ys : Bytes} {rs : List Rune}
    (h : runes (b :: (xs ++ ys)) = .stray b :: rs) : front? (b :: xs) = none := by
  rw [Option.eq_none_iff_forall_ne_some]
  intro found hfound
  obtain ⟨-, rest, hrest⟩ := encoded_of_front? hfound
  rw [← List.cons_append, hrest, List.append_assoc, runes_encode_append] at h
  cases h

/-- The front of a reading is the reading of its bytes. -/
theorem runes_ofRunes_of_append {text : Bytes} {rs ss : List Rune} (h : text.runes = rs ++ ss) :
    runes (ofRunes rs) = rs := by
  induction rs generalizing text with
  | nil => rfl
  | cons r rs ih =>
    obtain ⟨rest, rfl, hrest⟩ := exists_of_runes_cons h
    have hrest : rest.runes = rs ++ ss := hrest
    rw [ofRunes_cons]
    cases r with
    | char c => rw [Rune.bytes, runes_encode_append, ih hrest]
    | stray b =>
      have hbytes : rest = ofRunes rs ++ ofRunes ss := by
        rw [← ofRunes_append, ← hrest, ofRunes_runes]
      rw [hbytes] at h
      have hfront : front? (b :: ofRunes rs) = none := front?_of_runes_stray h
      show runes (b :: ofRunes rs) = _
      rw [runes_stray hfront, ih hrest]

/-- **A stretch of a reading** is the reading of its bytes. -/
theorem runes_ofRunes {text : Bytes} {rs : List Rune} (h : rs <:+: text.runes) :
    runes (ofRunes rs) = rs := by
  obtain ⟨before, after, h⟩ := h
  induction before generalizing text with
  | nil => exact runes_ofRunes_of_append h.symm
  | cons r before ih =>
    obtain ⟨rest, -, hrest⟩ := exists_of_runes_cons h.symm
    exact ih hrest.symm

/-! ### ASCII bytes -/

/-- An ASCII byte is part of no longer form. -/
theorem encode_eq_of_mem {c : Char} {b : UInt8} (hb : b < 0x80) (h : b ∈ utf8EncodeChar c) :
    utf8EncodeChar c = [b] := by
  have hlt : b.toNat < 128 := UInt8.lt_iff_toNat_lt.mp hb
  rcases exists_form c with ⟨x, hform⟩ | ⟨x, y, hform⟩ | ⟨x, y, z, hform⟩ | ⟨x, y, z, w, hform⟩
  · rw [hform] at h ⊢
    rw [List.mem_singleton.mp h]
  · have hrange := (pair?_eq_some.mp (pair?_iff.mpr hform)).1
    rw [hform] at h
    simp only [List.mem_cons, List.not_mem_nil, or_false] at h
    rcases h with rfl | rfl <;> omega
  · have hrange := (triple?_eq_some.mp (triple?_iff.mpr hform)).1
    rw [hform] at h
    simp only [List.mem_cons, List.not_mem_nil, or_false] at h
    rcases h with rfl | rfl | rfl <;> omega
  · have hrange := (quad?_eq_some.mp (quad?_iff.mpr hform)).1
    rw [hform] at h
    simp only [List.mem_cons, List.not_mem_nil, or_false] at h
    rcases h with rfl | rfl | rfl | rfl <;> omega

/-- What stands alone before an ASCII byte does so whatever follows. -/
theorem front?_append_cons {x : UInt8} {xs ys : Bytes} {b : UInt8} (hb : b < 0x80)
    (h : front? (x :: xs) = none) : front? (x :: xs ++ b :: ys) = none := by
  rw [Option.eq_none_iff_forall_ne_some]
  intro found hfound
  obtain ⟨-, rest, hrest⟩ := encoded_of_front? hfound
  rcases List.append_eq_append_iff.mp hrest with ⟨more, hform, htail⟩ | ⟨more, hform, -⟩
  · -- the form ends after the byte, which is then all of it
    cases more with
    | nil =>
      rw [List.append_nil] at hform
      rw [← hform, ← List.append_nil (utf8EncodeChar _), front?_encode] at h
      cases h
    | cons y more =>
      obtain rfl : b = y := (List.cons.inj htail).1
      have hmem : b ∈ utf8EncodeChar found.1 := by
        rw [hform]
        simp
      rw [encode_eq_of_mem hb hmem] at hform
      simp at hform
  · rw [hform, front?_encode] at h
    cases h

/-- A text can be read in two parts at an ASCII byte. The induction is on the length, since a
character takes several bytes. -/
theorem runes_append_cons {b : UInt8} (hb : b < 0x80) (xs ys : Bytes) :
    runes (xs ++ b :: ys) = runes xs ++ runes (b :: ys) := by
  induction hn : xs.length using Nat.strongRecOn generalizing xs with
  | ind n ih =>
    cases xs with
    | nil => rfl
    | cons x xs =>
      cases hread : front? (x :: xs) with
      | none =>
        have hrest : runes (xs ++ b :: ys) = runes xs ++ runes (b :: ys) :=
          ih xs.length (by rw [← hn, List.length_cons]; omega) xs rfl
        have hfront : front? (x :: (xs ++ b :: ys)) = none := front?_append_cons hb hread
        rw [List.cons_append, runes_stray hfront, hrest, runes_stray hread, List.cons_append]
      | some found =>
        obtain ⟨-, rest, hrest⟩ := encoded_of_front? hread
        have hpos := List.length_pos_iff.mpr (String.utf8EncodeChar_ne_nil (c := found.1))
        have hlength := congrArg List.length hrest
        rw [List.length_append] at hlength
        rw [hrest, List.append_assoc, runes_encode_append, runes_encode_append,
          ih rest.length (by omega) rest rfl, List.cons_append]

/-! ### The words of a text -/

/-- The pieces between cuts are stretches of the list without cuts. -/
theorem mem_splitOnP {α : Type} {p : α → Bool} {xs piece : List α} (h : piece ∈ xs.splitOnP p) :
    piece <:+: xs ∧ ∀ x ∈ piece, p x = false := by
  induction xs using cut_induction (p := p) with
  | last xs hxs =>
    rw [List.splitOnP_eq_singleton hxs, List.mem_singleton] at h
    rw [h]
    exact ⟨List.infix_rfl, hxs⟩
  | cut front x rest hfront hx ih =>
    rw [List.splitOnP_append_cons_of_forall_mem hfront x hx] at h
    rcases List.mem_cons.mp h with rfl | h
    · exact ⟨⟨[], x :: rest, rfl⟩, hfront⟩
    · obtain ⟨hpiece, hcuts⟩ := ih h
      exact ⟨hpiece.trans ⟨front ++ [x], [], by simp⟩, hcuts⟩

theorem isSolid_iff {text : Bytes} :
    text.isSolid = true ↔ ∀ r ∈ text.runes, r.isBlank = false := by
  simp [isSolid]

/-- A word of a text is not empty and holds no white space. -/
theorem mem_fields {text w : Bytes} (h : w ∈ text.fields) : w ≠ [] ∧ w.isSolid = true := by
  obtain ⟨rs, hrs, rfl⟩ := List.mem_map.mp h
  obtain ⟨hpiece, hne⟩ := List.mem_filter.mp hrs
  obtain ⟨hpart, hsolid⟩ := mem_splitOnP hpiece
  constructor
  · rw [Ne, ofRunes_eq_nil]
    simpa using hne
  · rw [isSolid_iff, runes_ofRunes hpart]
    exact hsolid

/-- A text without white space has no byte of white space. -/
theorem notMem_of_isSolid {text : Bytes} (h : text.isSolid = true) {b : UInt8} (hb : b < 0x80)
    (hgap : isGapByte b = true) : b ∉ text := by
  intro hmem
  obtain ⟨xs, ys, rfl⟩ := List.append_of_mem hmem
  have hblank : Rune.isBlank (.char (Char.ofNat b.toNat)) = true :=
    (isBlank_ofNat_of_ascii hb).trans hgap
  have hsolid := isSolid_iff.mp h (.char (Char.ofNat b.toNat)) (by
    rw [runes_append_cons hb, runes_cons_ascii hb]
    simp)
  rw [hblank] at hsolid
  cases hsolid

/-- Between two words of a text there is at least a byte. -/
theorem length_flatMap_fields_le (text : Bytes) (gap : UInt8) :
    (text.fields.flatMap (· ++ [gap])).length ≤ text.length + 1 := by
  have hpieces : ∀ rs : List Rune,
      (((rs.splitOnP Rune.isBlank).filter fun w => !w.isEmpty).flatMap
        fun w => ofRunes w ++ [gap]).length ≤ (ofRunes rs).length + 1 := by
    intro rs
    induction rs using cut_induction (p := Rune.isBlank) with
    | last piece hpiece =>
      rw [List.splitOnP_eq_singleton hpiece]
      cases piece with
      | nil => simp
      | cons r piece => simp
    | cut piece r rest hpiece hr ih =>
      have hpos := List.length_pos_iff.mpr r.bytes_ne_nil
      have hlength : (ofRunes (piece ++ r :: rest)).length
          = (ofRunes piece).length + r.bytes.length + (ofRunes rest).length := by
        rw [ofRunes_append, ofRunes_cons, List.length_append, List.length_append, Nat.add_assoc]
      rw [List.splitOnP_append_cons_of_forall_mem hpiece r hr, hlength]
      cases piece with
      | nil =>
        rw [List.filter_cons_of_neg (by simp)]
        omega
      | cons x piece =>
        rw [List.filter_cons_of_pos (by simp), List.flatMap_cons, List.length_append,
          List.length_append, List.length_singleton]
        omega
  have hfields := hpieces text.runes
  rw [ofRunes_runes] at hfields
  rw [fields, List.flatMap_map]
  exact hfields

/-! ### Trimming -/

theorem length_trim_le (text : Bytes) : text.trim.length ≤ text.length := by
  have hpart : (text.runes.dropWhile Rune.isBlank).rdropWhile Rune.isBlank <:+: text.runes :=
    (List.rdropWhile_prefix _ _).isInfix.trans (List.dropWhile_suffix _).isInfix
  obtain ⟨before, after, h⟩ := hpart
  have hbytes := congrArg (fun rs => (ofRunes rs).length) h
  simp only [ofRunes_append, ofRunes_runes, List.length_append] at hbytes
  have htrim : text.trim
      = ofRunes ((text.runes.dropWhile Rune.isBlank).rdropWhile Rune.isBlank) := rfl
  rw [htrim]
  omega

/-- A text without white space at its ends is not changed by trimming. -/
theorem trim_eq_self {text : Bytes} (hfirst : ∀ r ∈ text.runes.head?, r.isBlank = false)
    (hlast : ∀ r ∈ text.runes.getLast?, r.isBlank = false) : text.trim = text := by
  have hdrop : ∀ {rs : List Rune}, (∀ r ∈ rs.head?, r.isBlank = false) →
      rs.dropWhile Rune.isBlank = rs := by
    intro rs hrs
    cases rs with
    | nil => rfl
    | cons r rs => exact List.dropWhile_cons_of_neg (by rw [hrs r rfl]; decide)
  rw [trim, hdrop hfirst, hdrop (by rwa [List.head?_reverse]), List.reverse_reverse, ofRunes_runes]

/-- Trimming looks at the first and the last characters that are no white space, so white space at
the end of a text can be removed before. -/
theorem trim_append_cons {b : UInt8} (hb : b < 0x80) (hgap : isGapByte b = true) (xs : Bytes) :
    (xs ++ [b]).trim = xs.trim := by
  have hread : runes (xs ++ [b]) = xs.runes ++ [.char (Char.ofNat b.toNat)] := by
    rw [runes_append_cons hb, runes_cons_ascii hb]
    rfl
  have hblank : Rune.isBlank (.char (Char.ofNat b.toNat)) = true :=
    (isBlank_ofNat_of_ascii hb).trans hgap
  rw [trim, trim, hread, List.dropWhile_append]
  split
  · next hempty =>
    rw [List.isEmpty_iff.mp hempty, List.dropWhile_cons_of_pos hblank]
    rfl
  · rw [List.reverse_append, List.reverse_singleton, List.singleton_append,
      List.dropWhile_cons_of_pos hblank]

/-- Of white space nothing is left. -/
theorem trim_eq_nil {text : Bytes} (h : ∀ r ∈ text.runes, r.isBlank = true) : text.trim = [] := by
  rw [trim, List.dropWhile_eq_nil_iff.mpr h]
  rfl

/-- The carriage return that is dropped at the end of a line is white space. -/
theorem trim_chomp (line : Bytes) : (Line.chomp line).trim = line.trim := by
  rw [Line.chomp]
  split
  · next hlast =>
    obtain ⟨front, rfl⟩ := List.getLast?_eq_some_iff.mp hlast
    rw [List.dropLast_concat, trim_append_cons (by decide) (by decide)]
  · rfl

/-! ### A line of one or two words -/

section Pair

variable {m w : Bytes}

theorem runes_ne_nil (h : w ≠ []) : w.runes ≠ [] := fun hnil => h (runes_eq_nil hnil)

theorem length_pair (m w : Bytes) : (m ++ "\t" ++ w).length = m.length + 1 + w.length := by
  rw [List.length_append, List.length_append]
  rfl

theorem runes_pair (m w : Bytes) :
    runes (m ++ "\t" ++ w) = m.runes ++ .char '\t' :: w.runes := by
  rw [List.append_assoc]
  exact (runes_append_cons (b := 0x09) (by decide) m w).trans
    (congrArg (m.runes ++ ·) (runes_cons_ascii (by decide) w))

theorem trim_pair (hm : m ≠ []) (hmsolid : m.isSolid = true) (hw : w ≠ [])
    (hwsolid : w.isSolid = true) : (m ++ "\t" ++ w).trim = m ++ "\t" ++ w := by
  obtain ⟨r, rs, hrs⟩ := List.exists_cons_of_ne_nil (runes_ne_nil hm)
  refine trim_eq_self (fun x hx => ?_) fun x hx => ?_
  · rw [runes_pair, hrs] at hx
    obtain rfl : r = x := Option.some.inj hx
    exact isSolid_iff.mp hmsolid r (by rw [hrs]; exact List.mem_cons_self)
  · rw [runes_pair, List.getLast?_append_of_ne_nil _ (List.cons_ne_nil _ _),
      List.getLast?_cons_of_ne_nil (runes_ne_nil hw)] at hx
    exact isSolid_iff.mp hwsolid x (List.mem_of_getLast? hx)

/-- A line made of two words and a tab has these words. -/
theorem fields_pair (hm : m ≠ []) (hmsolid : m.isSolid = true) (hw : w ≠ [])
    (hwsolid : w.isSolid = true) : (m ++ "\t" ++ w).fields = [m, w] := by
  have htab : Rune.isBlank (.char '\t') = true := isBlank_tab
  rw [fields, runes_pair,
    List.splitOnP_append_cons_of_forall_mem (isSolid_iff.mp hmsolid) _ htab,
    List.splitOnP_eq_singleton (isSolid_iff.mp hwsolid),
    List.filter_cons_of_pos (by simp [runes_ne_nil hm]),
    List.filter_cons_of_pos (by simp [runes_ne_nil hw]), List.filter_nil, List.map_cons,
    List.map_singleton, ofRunes_runes, ofRunes_runes]

end Pair

end Bytes

end Polish
