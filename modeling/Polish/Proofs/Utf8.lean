import Polish.Text.Rune

/-!
# Reading UTF-8

The reading of a byte string and the encoding of characters are inverse to each other. So the
well-formed byte strings are exactly the encodings of lists of characters, and what is said of their
readings can be said of characters.

* `Bytes.pair?_iff`, `Bytes.triple?_iff`, `Bytes.quad?_iff`: the forms of a character, by length.
* `Bytes.encoded_of_front?`, `Bytes.front?_encode`: a character is read at the front of a text
  exactly when the text starts with its encoding.
* `Bytes.runes_ofChars`: the reading of an encoding.
* `Bytes.exists_ofChars`: a well-formed text is an encoding.
-/

namespace Polish.Bytes

open String (utf8EncodeChar)

/-! ### The forms of a character -/

theorem isTail_iff {b : UInt8} : isTail b = true ↔ 0x80 ≤ b.toNat ∧ b.toNat ≤ 0xBF := by
  simp only [isTail, Bool.and_eq_true, decide_eq_true_eq, UInt8.le_iff_toNat_le]
  rfl

/-- The number of a byte that is made from a small number. -/
theorem toNat_eq_of_ofNat {n : Nat} {b : UInt8} (h : UInt8.ofNat n = b) (hn : n < 256) :
    b.toNat = n := by
  rw [← h, UInt8.toNat_ofNat']
  exact Nat.mod_eq_of_lt hn

theorem ofNat_eq_of_toNat {n : Nat} {b : UInt8} (h : n = b.toNat) : UInt8.ofNat n = b := by
  rw [h, UInt8.ofNat_toNat]

theorem toNat_char_ofNat {n : Nat} (h : n.isValidChar) : (Char.ofNat n).toNat = n := by
  rw [Char.ofNat, dif_pos h]
  rfl

/-- The encoding of a character, by its number. -/
theorem utf8EncodeChar_eq (c : Char) :
    utf8EncodeChar c =
      if c.toNat ≤ 0x7F then [UInt8.ofNat c.toNat]
      else if c.toNat ≤ 0x7FF then
        [UInt8.ofNat (c.toNat / 64 % 0x20 + 0xC0), UInt8.ofNat (c.toNat % 0x40 + 0x80)]
      else if c.toNat ≤ 0xFFFF then
        [UInt8.ofNat (c.toNat / 4096 % 0x10 + 0xE0), UInt8.ofNat (c.toNat / 64 % 0x40 + 0x80),
          UInt8.ofNat (c.toNat % 0x40 + 0x80)]
      else
        [UInt8.ofNat (c.toNat / 262144 % 0x08 + 0xF0), UInt8.ofNat (c.toNat / 4096 % 0x40 + 0x80),
          UInt8.ofNat (c.toNat / 64 % 0x40 + 0x80), UInt8.ofNat (c.toNat % 0x40 + 0x80)] := rfl

/-- One byte is the form of the characters below U+0080. -/
theorem single_iff {a : UInt8} {c : Char} :
    (a < 0x80 ∧ Char.ofNat a.toNat = c) ↔ utf8EncodeChar c = [a] := by
  rw [UInt8.lt_iff_toNat_lt]
  constructor
  · rintro ⟨ha, rfl⟩
    have ha : a.toNat < 128 := ha
    rw [utf8EncodeChar_eq, toNat_char_ofNat (.inl (by omega)), if_pos (by omega), UInt8.ofNat_toNat]
  · intro h
    rw [utf8EncodeChar_eq] at h
    split at h
    · next hc =>
      have hnat : a.toNat = c.toNat := toNat_eq_of_ofNat (List.cons.inj h).1 (by omega)
      refine ⟨?_, by rw [hnat, Char.ofNat_toNat]⟩
      show a.toNat < 128
      omega
    · split at h
      · cases h
      · split at h <;> cases h

/-- A form of several bytes, by its condition and its number. -/
theorem form_iff {p q : Prop} [Decidable p] {n : Nat} {c : Char} (hpq : p ↔ q)
    (hvalid : q → n.isValidChar) :
    (if p then some (Char.ofNat n) else none) = some c ↔ q ∧ c.toNat = n := by
  rw [Option.ite_none_right_eq_some, Option.some_inj, hpq]
  refine and_congr_right fun hq => ?_
  constructor
  · rintro rfl
    exact toNat_char_ofNat (hvalid hq)
  · rintro rfl
    exact Char.ofNat_toNat c

/-- The two-byte form, in numbers. -/
theorem pair?_eq_some {a b : UInt8} {c : Char} :
    pair? a b = some c ↔
      (0xC2 ≤ a.toNat ∧ a.toNat ≤ 0xDF ∧ 0x80 ≤ b.toNat ∧ b.toNat ≤ 0xBF) ∧
      c.toNat = (a.toNat - 0xC0) * 0x40 + (b.toNat - 0x80) := by
  refine form_iff ?_ ?_
  · simp only [Bool.and_eq_true, decide_eq_true_eq, UInt8.le_iff_toNat_le, isTail_iff, and_assoc]
    rfl
  · intro h
    unfold Nat.isValidChar
    omega

theorem pair?_iff {a b : UInt8} {c : Char} : pair? a b = some c ↔ utf8EncodeChar c = [a, b] := by
  rw [pair?_eq_some, utf8EncodeChar_eq]
  constructor
  · rintro ⟨hform, hc⟩
    rw [if_neg (by omega), if_pos (by omega), ofNat_eq_of_toNat (b := a) (by omega),
      ofNat_eq_of_toNat (b := b) (by omega)]
  · intro h
    split at h
    · cases h
    · split at h
      · have ha := toNat_eq_of_ofNat (List.cons.inj h).1 (by omega)
        have hb := toNat_eq_of_ofNat (List.cons.inj (List.cons.inj h).2).1 (by omega)
        omega
      · split at h <;> cases h

theorem pair?_eq_none {a b : UInt8} (h : 0xE0 ≤ a.toNat) : pair? a b = none := by
  rw [Option.eq_none_iff_forall_ne_some]
  intro c hc
  have hrange := (pair?_eq_some.mp hc).1
  omega

/-- The three-byte form, in numbers. -/
theorem triple?_eq_some {a b d : UInt8} {c : Char} :
    triple? a b d = some c ↔
      (0xE0 ≤ a.toNat ∧ a.toNat ≤ 0xEF ∧ (0x80 ≤ b.toNat ∧ b.toNat ≤ 0xBF) ∧
        (0x80 ≤ d.toNat ∧ d.toNat ≤ 0xBF) ∧ (a.toNat = 0xE0 → 0xA0 ≤ b.toNat) ∧
        (a.toNat = 0xED → b.toNat ≤ 0x9F)) ∧
      c.toNat = (a.toNat - 0xE0) * 0x1000 + (b.toNat - 0x80) * 0x40 + (d.toNat - 0x80) := by
  refine form_iff ?_ ?_
  · simp only [Bool.and_eq_true, decide_eq_true_eq, UInt8.le_iff_toNat_le, UInt8.lt_iff_toNat_lt,
      isTail_iff, and_assoc, Bool.not_eq_true', Bool.and_eq_false_imp, beq_iff_eq,
      decide_eq_false_iff_not, ← UInt8.toNat_inj, Nat.not_lt]
    rfl
  · intro h
    unfold Nat.isValidChar
    omega

theorem triple?_iff {a b d : UInt8} {c : Char} :
    triple? a b d = some c ↔ utf8EncodeChar c = [a, b, d] := by
  rw [triple?_eq_some, utf8EncodeChar_eq]
  constructor
  · rintro ⟨hform, hc⟩
    rw [if_neg (by omega), if_neg (by omega), if_pos (by omega),
      ofNat_eq_of_toNat (b := a) (by omega), ofNat_eq_of_toNat (b := b) (by omega),
      ofNat_eq_of_toNat (b := d) (by omega)]
  · intro h
    have hvalid : c.toNat.isValidChar := c.valid
    unfold Nat.isValidChar at hvalid
    split at h
    · cases h
    · split at h
      · cases h
      · split at h
        · have ha := toNat_eq_of_ofNat (List.cons.inj h).1 (by omega)
          have h := (List.cons.inj h).2
          have hb := toNat_eq_of_ofNat (List.cons.inj h).1 (by omega)
          have hd := toNat_eq_of_ofNat (List.cons.inj (List.cons.inj h).2).1 (by omega)
          omega
        · cases h

theorem triple?_eq_none {a b d : UInt8} (h : 0xF0 ≤ a.toNat) : triple? a b d = none := by
  rw [Option.eq_none_iff_forall_ne_some]
  intro c hc
  have hrange := (triple?_eq_some.mp hc).1
  omega

/-- The four-byte form, in numbers. -/
theorem quad?_eq_some {a b d e : UInt8} {c : Char} :
    quad? a b d e = some c ↔
      (0xF0 ≤ a.toNat ∧ a.toNat ≤ 0xF4 ∧ (0x80 ≤ b.toNat ∧ b.toNat ≤ 0xBF) ∧
        (0x80 ≤ d.toNat ∧ d.toNat ≤ 0xBF) ∧ (0x80 ≤ e.toNat ∧ e.toNat ≤ 0xBF) ∧
        (a.toNat = 0xF0 → 0x90 ≤ b.toNat) ∧ (a.toNat = 0xF4 → b.toNat ≤ 0x8F)) ∧
      c.toNat = (a.toNat - 0xF0) * 0x40000 + (b.toNat - 0x80) * 0x1000 + (d.toNat - 0x80) * 0x40
        + (e.toNat - 0x80) := by
  refine form_iff ?_ ?_
  · simp only [Bool.and_eq_true, decide_eq_true_eq, UInt8.le_iff_toNat_le, UInt8.lt_iff_toNat_lt,
      isTail_iff, and_assoc, Bool.not_eq_true', Bool.and_eq_false_imp, beq_iff_eq,
      decide_eq_false_iff_not, ← UInt8.toNat_inj, Nat.not_lt]
    rfl
  · intro h
    unfold Nat.isValidChar
    omega

theorem quad?_iff {a b d e : UInt8} {c : Char} :
    quad? a b d e = some c ↔ utf8EncodeChar c = [a, b, d, e] := by
  rw [quad?_eq_some, utf8EncodeChar_eq]
  constructor
  · rintro ⟨hform, hc⟩
    rw [if_neg (by omega), if_neg (by omega), if_neg (by omega),
      ofNat_eq_of_toNat (b := a) (by omega), ofNat_eq_of_toNat (b := b) (by omega),
      ofNat_eq_of_toNat (b := d) (by omega), ofNat_eq_of_toNat (b := e) (by omega)]
  · intro h
    have hvalid : c.toNat.isValidChar := c.valid
    unfold Nat.isValidChar at hvalid
    split at h
    · cases h
    · split at h
      · cases h
      · split at h
        · cases h
        · have ha := toNat_eq_of_ofNat (List.cons.inj h).1 (by omega)
          have h := (List.cons.inj h).2
          have hb := toNat_eq_of_ofNat (List.cons.inj h).1 (by omega)
          have h := (List.cons.inj h).2
          have hd := toNat_eq_of_ofNat (List.cons.inj h).1 (by omega)
          have he := toNat_eq_of_ofNat (List.cons.inj (List.cons.inj h).2).1 (by omega)
          omega

/-- The encoding of a character has one of the four forms. -/
theorem exists_form (c : Char) :
    (∃ a, utf8EncodeChar c = [a]) ∨ (∃ a b, utf8EncodeChar c = [a, b]) ∨
      (∃ a b d, utf8EncodeChar c = [a, b, d]) ∨ ∃ a b d e, utf8EncodeChar c = [a, b, d, e] := by
  rw [utf8EncodeChar_eq]
  split
  · exact .inl ⟨_, rfl⟩
  · split
    · exact .inr (.inl ⟨_, _, rfl⟩)
    · split
      · exact .inr (.inr (.inl ⟨_, _, _, rfl⟩))
      · exact .inr (.inr (.inr ⟨_, _, _, _, rfl⟩))

/-! ### Reading -/

/-- What is read at the front of a text is encoded there. -/
theorem encoded_of_front? {t : Bytes} {c : Char} {n : Nat} (h : front? t = some (c, n)) :
    n = (utf8EncodeChar c).length ∧ ∃ rest, t = utf8EncodeChar c ++ rest := by
  have hform : ∀ {form rest : Bytes} {c' : Char}, utf8EncodeChar c' = form →
      some (c', form.length) = some (c, n) →
      n = (utf8EncodeChar c).length ∧ ∃ rest', form ++ rest = utf8EncodeChar c ++ rest' := by
    rintro form rest c' rfl heq
    cases heq
    exact ⟨rfl, rest, rfl⟩
  unfold front? at h
  split at h
  · cases h
  · split at h
    · next a rest ha => exact hform (single_iff.mp ⟨ha, rfl⟩) h
    · split at h
      · cases h
      · split at h
        · next hpair => exact hform (pair?_iff.mp hpair) h
        · split at h
          · cases h
          · split at h
            · next htriple => exact hform (triple?_iff.mp htriple) h
            · split at h
              · cases h
              · obtain ⟨x, hquad, h⟩ := Option.map_eq_some_iff.mp h
                exact hform (quad?_iff.mp hquad) (congrArg some h)

/-- A character whose encoding starts a text is read there: the first byte tells the form. -/
theorem front?_encode (c : Char) (rest : Bytes) :
    front? (utf8EncodeChar c ++ rest) = some (c, (utf8EncodeChar c).length) := by
  have hlead : ∀ {a : UInt8}, 0x80 ≤ a.toNat → ¬ a < 0x80 := by
    intro a ha hlt
    have hlt : a.toNat < 0x80 := UInt8.lt_iff_toNat_lt.mp hlt
    omega
  -- each form starts where the shorter ones end, so no shorter one is read in its place
  rcases exists_form c with ⟨a, h⟩ | ⟨a, b, h⟩ | ⟨a, b, d, h⟩ | ⟨a, b, d, e, h⟩
  · obtain ⟨ha, hc⟩ := single_iff.mpr h
    rw [h]
    simp only [List.cons_append, List.nil_append, front?, if_pos ha, hc, List.length_singleton]
  · have hread := pair?_iff.mpr h
    have hrange := (pair?_eq_some.mp hread).1
    rw [h]
    simp only [List.cons_append, List.nil_append, front?, if_neg (hlead (a := a) (by omega)), hread,
      List.length_cons, List.length_nil]
  · have hread := triple?_iff.mpr h
    have hrange := (triple?_eq_some.mp hread).1
    rw [h]
    simp only [List.cons_append, List.nil_append, front?, if_neg (hlead (a := a) (by omega)),
      pair?_eq_none (a := a) (b := b) (by omega), hread, List.length_cons, List.length_nil]
  · have hread := quad?_iff.mpr h
    have hrange := (quad?_eq_some.mp hread).1
    rw [h]
    simp only [List.cons_append, List.nil_append, front?, if_neg (hlead (a := a) (by omega)),
      pair?_eq_none (a := a) (b := b) (by omega),
      triple?_eq_none (a := a) (b := b) (d := d) (by omega), hread, Option.map_some,
      List.length_cons, List.length_nil]

theorem runesFrom_eq_drop (skip : Nat) (t : Bytes) : runesFrom skip t = runes (t.drop skip) := by
  induction t generalizing skip with
  | nil => cases skip <;> rfl
  | cons b t ih =>
    cases skip with
    | zero => rfl
    | succ skip => exact ih skip

/-- The character whose encoding starts a text is the first of the reading. -/
theorem runes_encode_append (c : Char) (rest : Bytes) :
    runes (utf8EncodeChar c ++ rest) = .char c :: runes rest := by
  have hread := front?_encode c rest
  cases hform : utf8EncodeChar c with
  | nil => exact absurd hform String.utf8EncodeChar_ne_nil
  | cons b tail =>
    rw [hform] at hread
    rw [List.cons_append] at hread ⊢
    rw [runes, runesFrom, hread]
    simp only [List.length_cons, Nat.add_sub_cancel, runesFrom_eq_drop, List.drop_left]

/-- The reading of an encoding. -/
@[simp] theorem runes_ofChars (cs : List Char) : runes (ofChars cs) = cs.map .char := by
  induction cs with
  | nil => rfl
  | cons c cs ih =>
    show runes (utf8EncodeChar c ++ ofChars cs) = _
    rw [runes_encode_append, ih, List.map_cons]

/-- A well-formed text is the encoding of characters. The induction is on the length, since a
character takes several bytes. -/
theorem exists_ofChars {t : Bytes} (h : t.isWellFormed = true) : ∃ cs, t = ofChars cs := by
  induction hn : t.length using Nat.strongRecOn generalizing t with
  | ind n ih =>
    cases t with
    | nil => exact ⟨[], rfl⟩
    | cons b tail =>
      cases hread : front? (b :: tail) with
      | none =>
        -- the first byte stands alone
        rw [isWellFormed, runes, runesFrom, hread] at h
        cases h
      | some found =>
        obtain ⟨-, rest, hrest⟩ := encoded_of_front? hread
        have hpos := List.length_pos_iff.mpr (String.utf8EncodeChar_ne_nil (c := found.1))
        have hlength := congrArg List.length hrest
        rw [List.length_append] at hlength
        rw [hrest, isWellFormed, runes_encode_append, List.all_cons] at h
        obtain ⟨cs, hcs⟩ := ih rest.length (by omega) (Bool.and_eq_true_iff.mp h).2 rfl
        refine ⟨found.1 :: cs, ?_⟩
        rw [hrest, hcs]
        rfl

end Polish.Bytes
