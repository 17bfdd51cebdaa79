import Polish.Text.Decimal

/-!
# Numerals

A number is written with the fewest digits; a reader also takes leading zeros. So reading a written
number gives the number back, and writing a number that was read gives the numeral without its
leading zeros.

* `Decimal.stripZeros`: a numeral without leading zeros; the last digit stays.
* `Decimal.value_ofNat`, `Decimal.readInt64?_ofInt64`: reading what was written.
* `Decimal.ofNat_value`, `Decimal.length_ofInt64_le`: writing what was read.
* `Decimal.readInt64?_numeral`: a run of digits is a 64-bit number when its value is small enough.
-/

namespace Polish.Decimal

/-- The numeral without its leading zeros. One digit always stays. -/
def stripZeros : Bytes → Bytes
  | 0x30 :: d :: ds => stripZeros (d :: ds)
  | ds => ds

/-- The largest number of 64 bits. -/
def maxConstant : Nat := 9223372036854775807

/-! ### Digits -/

/-- One more digit at the end of a number. -/
def addDigit (n : Nat) (d : UInt8) : Nat := 10 * n + (d.toNat - 0x30)

theorem value_eq_foldl (ds : Bytes) : value ds = ds.foldl addDigit 0 := rfl

theorem isDigit_iff {b : UInt8} : isDigit b = true ↔ 48 ≤ b.toNat ∧ b.toNat ≤ 57 := by
  simp [isDigit, UInt8.le_iff_toNat_le]

theorem isNumeral_iff {w : Bytes} : isNumeral w = true ↔ w ≠ [] ∧ ∀ b ∈ w, isDigit b = true := by
  simp [isNumeral]

theorem isNumeral_cons {b : UInt8} {ds : Bytes} :
    isNumeral (b :: ds) = true ↔ isDigit b = true ∧ ∀ d ∈ ds, isDigit d = true := by
  simp [isNumeral]

/-- The byte of a digit is the digit's number above the byte of zero. -/
theorem toNat_ascii_digitChar {n : Nat} (h : n < 10) :
    (Bytes.ascii n.digitChar).toNat = 48 + n := by
  rw [Bytes.ascii, Nat.toNat_digitChar_of_lt_ten h]
  show (48 + n) % 256 = 48 + n
  omega

/-- A digit is written as its own byte. -/
theorem ofNat_digit {b : UInt8} (h : isDigit b = true) : ofNat (b.toNat - 0x30) = [b] := by
  have hb := isDigit_iff.mp h
  have hlt : b.toNat - 0x30 < 10 := by omega
  rw [ofNat, Nat.toDigits_of_lt_base hlt, List.map_singleton]
  congr 1
  apply UInt8.toNat_inj.mp
  rw [toNat_ascii_digitChar hlt]
  omega

/-- A digit after a positive number is one more digit of the text. -/
theorem ofNat_addDigit {n : Nat} {b : UInt8} (hn : 0 < n) (h : isDigit b = true) :
    ofNat (addDigit n b) = ofNat n ++ [b] := by
  have hb := isDigit_iff.mp h
  have hlt : b.toNat - 0x30 < 10 := by omega
  rw [← ofNat_digit h]
  unfold ofNat addDigit
  rw [← Nat.toDigits_append_toDigits (by decide) hn hlt, List.map_append]

/-- Digits after a positive number are the further digits of the text. -/
theorem ofNat_foldl_addDigit {n : Nat} {ds : Bytes} (hn : 0 < n)
    (h : ∀ d ∈ ds, isDigit d = true) : ofNat (ds.foldl addDigit n) = ofNat n ++ ds := by
  induction ds generalizing n with
  | nil => rw [List.foldl_nil, List.append_nil]
  | cons d ds ih =>
    have hd : isDigit d = true := h d List.mem_cons_self
    have hpos : 0 < addDigit n d := by
      unfold addDigit
      omega
    rw [List.foldl_cons, ih hpos (fun x hx => h x (List.mem_cons_of_mem d hx)),
      ofNat_addDigit hn hd, List.append_assoc, List.singleton_append]

/-! ### Writing what was read -/

/-- Writing the value of a numeral drops its leading zeros and nothing else. -/
theorem ofNat_value {w : Bytes} (h : isNumeral w = true) : ofNat (value w) = stripZeros w := by
  induction w with
  | nil => simp [isNumeral] at h
  | cons b ds ih =>
    obtain ⟨hb, hds⟩ := isNumeral_cons.mp h
    have hvalue : value (b :: ds) = ds.foldl addDigit (b.toNat - 0x30) := by
      rw [value_eq_foldl, List.foldl_cons, addDigit, Nat.mul_zero, Nat.zero_add]
    cases ds with
    | nil =>
      rw [hvalue, List.foldl_nil, ofNat_digit hb]
      simp [stripZeros]
    | cons d ds =>
      by_cases hzero : b = 0x30
      · -- a leading zero changes nothing, and a numeral is left
        subst hzero
        rw [stripZeros, ← ih (isNumeral_cons.mpr ⟨hds d List.mem_cons_self,
          fun x hx => hds x (List.mem_cons_of_mem d hx)⟩)]
        rfl
      · have hpos : 0 < b.toNat - 0x30 := by
          have hrange := isDigit_iff.mp hb
          have hne : b.toNat ≠ 48 := fun heq => hzero (UInt8.toNat_inj.mp heq)
          omega
        rw [hvalue, ofNat_foldl_addDigit hpos hds, ofNat_digit hb]
        simp [stripZeros, hzero]

theorem length_stripZeros_le (w : Bytes) : (stripZeros w).length ≤ w.length := by
  fun_induction stripZeros w with
  | case1 d ds ih => exact Nat.le_succ_of_le ih
  | case2 ds => exact Nat.le_refl _

/-- A numeral is not longer than the text it was read from. -/
theorem length_ofNat_le {w : Bytes} {n : Nat} (h : readNat? w = some n) :
    (ofNat n).length ≤ w.length := by
  unfold readNat? at h
  split at h
  · next hnumeral =>
    cases h
    rw [ofNat_value hnumeral]
    exact length_stripZeros_le w
  · cases h

/-- A number that was read is written in no more bytes: a plus sign, leading zeros and the sign of
zero are dropped. -/
theorem length_ofInt_le {w : Bytes} {n : Int} (h : readInt? w = some n) :
    (ofInt n).length ≤ w.length := by
  unfold readInt? at h
  split at h
  · next digits =>
    obtain ⟨k, hk, rfl⟩ := Option.map_eq_some_iff.mp h
    exact Nat.le_succ_of_le (length_ofNat_le hk)
  · next digits =>
    obtain ⟨_, hread, rfl⟩ := Option.map_eq_some_iff.mp h
    obtain ⟨k, hk, hcast⟩ := Option.bind_eq_some_iff.mp hread
    cases hcast
    have hlength := length_ofNat_le hk
    cases k with
    | zero => exact Nat.le_succ_of_le hlength
    | succ k => exact Nat.succ_le_succ hlength
  · obtain ⟨k, hk, rfl⟩ := Option.map_eq_some_iff.mp h
    exact length_ofNat_le hk

theorem length_ofInt64_le {w : Bytes} {v : Int64} (h : readInt64? w = some v) :
    (ofInt64 v).length ≤ w.length := by
  obtain ⟨n, hn, h⟩ := Option.bind_eq_some_iff.mp h
  split at h
  · next hfits =>
    cases h
    simp only [fitsInt64, Bool.and_eq_true, decide_eq_true_eq] at hfits
    rw [ofInt64, Int64.toInt_ofInt_of_le (by simpa using hfits.1) (by simp; omega)]
    exact length_ofInt_le hn
  · cases h

/-! ### Reading what was written -/

theorem value_append_digit (ds : Bytes) (d : UInt8) :
    value (ds ++ [d]) = addDigit (value ds) d := by
  rw [value_eq_foldl, List.foldl_append, ← value_eq_foldl]
  rfl

/-- A number has one digit, or the digits of its tenth and one more. -/
theorem ofNat_eq_append {n : Nat} (h : 10 ≤ n) :
    ofNat n = ofNat (n / 10) ++ [Bytes.ascii (n % 10).digitChar] := by
  unfold ofNat
  rw [Nat.toDigits_of_base_le (by decide) h, List.map_append, List.map_singleton]

theorem isDigit_ascii_digitChar {n : Nat} (h : n < 10) :
    isDigit (Bytes.ascii n.digitChar) = true := by
  rw [isDigit_iff, toNat_ascii_digitChar h]
  omega

/-- Written numbers are numerals of the same value. -/
theorem isNumeral_ofNat (n : Nat) : isNumeral (ofNat n) = true ∧ value (ofNat n) = n := by
  induction n using Nat.strongRecOn with
  | ind n ih =>
    by_cases hlt : n < 10
    · have hn : ofNat n = [Bytes.ascii n.digitChar] := by
        rw [ofNat, Nat.toDigits_of_lt_base hlt, List.map_singleton]
      rw [hn]
      refine ⟨isNumeral_cons.mpr ⟨isDigit_ascii_digitChar hlt, by simp⟩, ?_⟩
      rw [value_eq_foldl, List.foldl_cons, List.foldl_nil, addDigit, toNat_ascii_digitChar hlt]
      omega
    · have hmod : n % 10 < 10 := Nat.mod_lt n (by decide)
      obtain ⟨hnumeral, hvalue⟩ := ih (n / 10) (by omega)
      obtain ⟨hne, hdigits⟩ := isNumeral_iff.mp hnumeral
      rw [ofNat_eq_append (by omega)]
      constructor
      · refine isNumeral_iff.mpr ⟨by simp, fun b hb => ?_⟩
        rcases List.mem_append.mp hb with hb | hb
        · exact hdigits b hb
        · rw [List.mem_singleton.mp hb]
          exact isDigit_ascii_digitChar hmod
      · rw [value_append_digit, hvalue, addDigit, toNat_ascii_digitChar hmod]
        omega

/-- A numeral has no sign, so it is read as the number its digits stand for. -/
theorem readInt?_numeral {w : Bytes} (h : isNumeral w = true) :
    readInt? w = some (Int.ofNat (value w)) := by
  unfold readInt?
  split
  · simp [isNumeral, isDigit] at h
  · simp [isNumeral, isDigit] at h
  · rw [readNat?, if_pos h, Option.map_some]

/-- A numeral is a 64-bit number when its value is at most the largest one. -/
theorem readInt64?_numeral {w : Bytes} (h : isNumeral w = true) :
    readInt64? w = if value w ≤ maxConstant then some (Int64.ofInt (value w)) else none := by
  rw [readInt64?, readInt?_numeral h, Option.bind_some]
  by_cases hle : value w ≤ maxConstant
  · rw [if_pos hle, if_pos]
    · rfl
    · simp only [fitsInt64, Bool.and_eq_true, decide_eq_true_eq, Int.ofNat_eq_natCast]
      unfold maxConstant at hle
      omega
  · rw [if_neg hle, if_neg]
    simp only [fitsInt64, Bool.and_eq_true, decide_eq_true_eq, Int.ofNat_eq_natCast]
    unfold maxConstant at hle
    omega

theorem readInt?_ofInt (n : Int) : readInt? (ofInt n) = some n := by
  cases n with
  | ofNat n =>
    obtain ⟨hnumeral, hvalue⟩ := isNumeral_ofNat n
    rw [ofInt, readInt?_numeral hnumeral, hvalue]
  | negSucc n =>
    obtain ⟨hnumeral, hvalue⟩ := isNumeral_ofNat (n + 1)
    show (readNat? (ofNat (n + 1))).map (fun n => -(n : Int)) = _
    rw [readNat?, if_pos hnumeral, hvalue]
    rfl

/-- Every 64-bit number is read back from its text. -/
theorem readInt64?_ofInt64 (v : Int64) : readInt64? (ofInt64 v) = some v := by
  have hlow := v.le_toInt
  have hhigh := v.toInt_lt
  rw [readInt64?, ofInt64, readInt?_ofInt, Option.bind_some, if_pos, Int64.ofInt_toInt]
  simp only [fitsInt64, Bool.and_eq_true, decide_eq_true_eq]
  omega

end Polish.Decimal
