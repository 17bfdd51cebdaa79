import Polish.Arith

/-!
# Square roots are exact

The floor of a square root is found from an estimate. The estimate is lowered while it is more than
the quotient of the number by it, and then raised while the next number is not. Quotients stand for
squares here because a square may need more than 64 bits; a number exceeds the quotient by it exactly
if its square exceeds the dividend.

The first loop ends with a number whose square is not too large, and the second keeps that. It also
keeps the numbers below the root of the largest word, so the next number never wraps around to the
smallest word, and no divisor is zero.

* `div_lt_self_iff`, `le_div_self_iff`: what the tests of the loops say about squares.
* `LowersTo`, `RaisesTo`: a loop comes to its end, and each of its turns can be computed.
* `IsRoot`, `IsRoot.mono`: the floor of a square root, and that it grows with the number.
* `lowersTo_lowerRoot`, `raisesTo_raiseRoot`: what the loops do.
* `root_is_exact_from_any_estimate`: the two together.
-/

namespace Polish

/-! ### Quotients and squares -/

variable {a b r s : Int64}

/-- A number exceeds the quotient by it if its square exceeds the dividend. -/
theorem div_lt_self_iff (ha : 0 ≤ a) (hr : 0 < r) :
    a / r < r ↔ a.toInt < r.toInt * r.toInt := by
  have ha' : 0 ≤ a.toInt := Int64.le_iff_toInt_le.mp ha
  have hr' : 0 < r.toInt := Int64.lt_iff_toInt_lt.mp hr
  have hne : r ≠ -1 := by
    rintro rfl
    exact absurd hr (by decide)
  rw [Int64.lt_iff_toInt_lt, Int64.toInt_div_of_ne_right a r hne,
    Int.tdiv_eq_ediv_of_nonneg ha', Int.ediv_lt_iff_lt_mul hr']

/-- A number is at most the quotient by it if its square is at most the dividend. -/
theorem le_div_self_iff (ha : 0 ≤ a) (hr : 0 < r) :
    r ≤ a / r ↔ r.toInt * r.toInt ≤ a.toInt := by
  rw [← Int64.not_lt, div_lt_self_iff ha hr, Int.not_lt]

/-- A number whose square fits in a word is at most the root of the largest word. -/
theorem le_of_square_le {n : Int} (h : n * n ≤ a.toInt) : n ≤ 3037000499 := by
  apply Int.le_of_not_gt
  intro hlt
  have hsquare : (3037000500 : Int) * 3037000500 ≤ n * n :=
    Int.mul_self_le_mul_self (by decide) hlt
  have ha := a.toInt_lt
  omega

/-! ### Loops that come to their end -/

/-- Lowering an estimate for the root of `a` from `r` comes to its end at `s`. No divisor is zero,
since a quotient is formed for positive numbers only. -/
inductive LowersTo (a : Int64) : Int64 → Int64 → Prop where
  | notPositive {r : Int64} (hr : ¬ 0 < r) : LowersTo a r r
  | stop {r : Int64} (hr : 0 < r) (htest : ¬ a / r < r) : LowersTo a r r
  | turn {r s : Int64} (hr : 0 < r) (htest : a / r < r) (hrest : LowersTo a (r - 1) s) :
      LowersTo a r s

/-- Raising an estimate for the root of `a` from `r` comes to its end at `s`. At each turn the next
number does not wrap around and can be a divisor. -/
inductive RaisesTo (a : Int64) : Int64 → Int64 → Prop where
  | stop {r : Int64} (hnext : (r + 1).toInt = r.toInt + 1) (hdivisor : r + 1 ≠ 0)
      (htest : ¬ r + 1 ≤ a / (r + 1)) : RaisesTo a r r
  | turn {r s : Int64} (hnext : (r + 1).toInt = r.toInt + 1) (hdivisor : r + 1 ≠ 0)
      (htest : r + 1 ≤ a / (r + 1)) (hrest : RaisesTo a (r + 1) s) : RaisesTo a r s

/-- The word is the floor of the square root of another. -/
structure IsRoot (a r : Int64) : Prop where
  nonneg : 0 ≤ r.toInt
  square_le : r.toInt * r.toInt ≤ a.toInt
  lt_square : a.toInt < (r.toInt + 1) * (r.toInt + 1)

/-- A larger number has no smaller root. -/
theorem IsRoot.mono (hr : IsRoot a r) (hs : IsRoot b s) (h : a ≤ b) : r ≤ s := by
  rw [Int64.le_iff_toInt_le] at h ⊢
  apply Int.le_of_not_gt
  intro hlt
  -- the square above the root of `b` would be at most `a`
  have hsquare : (s.toInt + 1) * (s.toInt + 1) ≤ r.toInt * r.toInt :=
    Int.mul_self_le_mul_self (by have hnonneg := hs.nonneg; omega) hlt
  have hlow := hr.square_le
  have hhigh := hs.lt_square
  omega

theorem IsRoot.unique (hr : IsRoot a r) (hs : IsRoot a s) : r = s :=
  Int64.le_antisymm (hr.mono hs (Int64.le_refl a)) (hs.mono hr (Int64.le_refl a))

/-! ### The loops -/

/-- Lowering ends at a number whose square is not too large. -/
theorem lowersTo_lowerRoot (ha : 0 ≤ a) (hr : 0 ≤ r.toInt) :
    LowersTo a r (lowerRoot a r) ∧ 0 ≤ (lowerRoot a r).toInt ∧
      (lowerRoot a r).toInt * (lowerRoot a r).toInt ≤ a.toInt := by
  fun_induction lowerRoot a r with
  | case1 r htest ih =>
    obtain ⟨hpos, htest⟩ := htest
    have hpos' : 0 < r.toInt := Int64.lt_iff_toInt_lt.mp hpos
    have hpred : 0 ≤ (r - 1).toInt := by
      rw [toInt_pred hpos]
      omega
    obtain ⟨hrest, hnonneg, hsquare⟩ := ih hpred
    exact ⟨.turn hpos htest hrest, hnonneg, hsquare⟩
  | case2 r htest =>
    by_cases hpos : 0 < r
    · have hstop : ¬ a / r < r := fun h => htest ⟨hpos, h⟩
      refine ⟨.stop hpos hstop, hr, ?_⟩
      rw [div_lt_self_iff ha hpos] at hstop
      omega
    · -- the estimate is zero, and so is its square
      have hzero : r.toInt = 0 := by
        rw [Int64.lt_iff_toInt_lt, Int64.toInt_zero] at hpos
        omega
      refine ⟨.notPositive hpos, hr, ?_⟩
      rw [hzero]
      exact Int64.le_iff_toInt_le.mp ha

/-- The number after one whose square fits in a word. -/
theorem next_of_square_le (hr : 0 ≤ r.toInt) (hsquare : r.toInt * r.toInt ≤ a.toInt) :
    (r + 1).toInt = r.toInt + 1 ∧ 0 < r + 1 := by
  have hle := le_of_square_le hsquare
  have hmax : r < Int64.maxValue := by
    rw [Int64.lt_iff_toInt_lt, Int64.toInt_maxValue]
    omega
  have hnext := toInt_succ hmax
  refine ⟨hnext, ?_⟩
  rw [Int64.lt_iff_toInt_lt, hnext, Int64.toInt_zero]
  omega

/-- Raising a number whose square is not too large ends at the root. -/
theorem raisesTo_raiseRoot (ha : 0 ≤ a) (hr : 0 ≤ r.toInt)
    (hsquare : r.toInt * r.toInt ≤ a.toInt) :
    RaisesTo a r (raiseRoot a r) ∧ IsRoot a (raiseRoot a r) := by
  fun_induction raiseRoot a r with
  | case1 r htest ih =>
    obtain ⟨hnext, hpos⟩ := next_of_square_le hr hsquare
    have hdivisor : r + 1 ≠ 0 := (Int64.ne_of_lt hpos).symm
    obtain ⟨hrest, hroot⟩ := ih (by omega) ((le_div_self_iff ha hpos).mp htest)
    exact ⟨.turn hnext hdivisor htest hrest, hroot⟩
  | case2 r htest =>
    obtain ⟨hnext, hpos⟩ := next_of_square_le hr hsquare
    have hdivisor : r + 1 ≠ 0 := (Int64.ne_of_lt hpos).symm
    refine ⟨.stop hnext hdivisor htest, hr, hsquare, ?_⟩
    rw [le_div_self_iff ha hpos, hnext] at htest
    omega

/-- From any estimate that is not negative, the correction ends at the root. -/
theorem isRoot_rootFrom (ha : 0 ≤ a) {estimate : Int64} (hestimate : 0 ≤ estimate) :
    LowersTo a estimate (lowerRoot a estimate) ∧
      RaisesTo a (lowerRoot a estimate) (rootFrom estimate a) ∧ IsRoot a (rootFrom estimate a) := by
  obtain ⟨hlowers, hnonneg, hsquare⟩ := lowersTo_lowerRoot ha (Int64.le_iff_toInt_le.mp hestimate)
  exact ⟨hlowers, raisesTo_raiseRoot ha hnonneg hsquare⟩

theorem isRoot_isqrt (ha : 0 ≤ a) : IsRoot a (isqrt a) := by
  have hmax : ∀ r : Int64, 0 ≤ max 0 r := by
    intro r
    show 0 ≤ if 0 ≤ r then r else 0
    split
    · next hr => exact hr
    · exact Int64.le_refl 0
  exact (isRoot_rootFrom ha (hmax _)).2.2

/-- The operator gives the root. -/
theorem applyUnary_sqrt (ha : 0 ≤ a) : applyUnary UnaryOp.sqrt.symbol a = .ok (isqrt a) := by
  rw [applyUnary_symbol, UnaryOp.apply, if_neg (Int64.not_lt.mpr ha)]

/-- **Square roots are exact, whatever the estimate.** From any estimate that is not negative both
loops come to their end without a zero divisor and without wrapping around, and they end at the
floor of the root, which is at most the root of the largest word. So the operator gives that number
however the estimate is rounded, and larger operands do not have smaller roots. -/
theorem root_is_exact_from_any_estimate :
    (∀ a estimate : Int64, 0 ≤ a → 0 ≤ estimate →
      LowersTo a estimate (lowerRoot a estimate) ∧
      RaisesTo a (lowerRoot a estimate) (rootFrom estimate a) ∧
      IsRoot a (rootFrom estimate a) ∧ (rootFrom estimate a).toInt ≤ 3037000499 ∧
      applyUnary UnaryOp.sqrt.symbol a = .ok (rootFrom estimate a)) ∧
    ∀ a b : Int64, 0 ≤ a → a ≤ b →
      ∃ r s, applyUnary UnaryOp.sqrt.symbol a = .ok r ∧ applyUnary UnaryOp.sqrt.symbol b = .ok s ∧
        r ≤ s := by
  constructor
  · intro a estimate ha hestimate
    obtain ⟨hlowers, hraises, hroot⟩ := isRoot_rootFrom ha hestimate
    refine ⟨hlowers, hraises, hroot, le_of_square_le hroot.square_le, ?_⟩
    rw [applyUnary_sqrt ha, (isRoot_isqrt ha).unique hroot]
  · intro a b ha hab
    have hb : 0 ≤ b := Int64.le_trans ha hab
    exact ⟨isqrt a, isqrt b, applyUnary_sqrt ha, applyUnary_sqrt hb,
      (isRoot_isqrt ha).mono (isRoot_isqrt hb) hab⟩

/-- The largest word, with an estimate that was rounded up: its square does not fit in a word, and it
is lowered by one. The root is not smaller than that of four. -/
theorem root_is_exact_from_any_estimate_largest :
    let a : Int64 := 9223372036854775807
    let estimate : Int64 := 3037000500
    0 ≤ a ∧ 0 ≤ estimate ∧ rootFrom estimate a = 3037000499 ∧
      applyUnary UnaryOp.sqrt.symbol a = .ok 3037000499 ∧
      ∃ r, applyUnary UnaryOp.sqrt.symbol 4 = .ok r ∧ r ≤ 3037000499 := by
  intro a estimate
  have ha : 0 ≤ a := by decide
  have hestimate : 0 ≤ estimate := by decide
  obtain ⟨hexact, hmono⟩ := root_is_exact_from_any_estimate
  obtain ⟨-, -, hroot, -, happly⟩ := hexact a estimate ha hestimate
  have hvalue : rootFrom estimate a = 3037000499 :=
    hroot.unique ⟨by decide, by decide, by decide⟩
  rw [hvalue] at happly
  obtain ⟨r, s, hr, hs, hle⟩ := hmono 4 a (by decide) (by decide)
  rw [happly] at hs
  cases hs
  exact ⟨ha, hestimate, hvalue, happly, r, hr, hle⟩

end Polish
