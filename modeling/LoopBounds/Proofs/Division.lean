import LoopBounds.Proofs.Interval

/-!
# Division rounded down

A quotient of words is rounded to the integer below it, and it is a word for every divisor but
zero, with one exception.  The remainder that belongs to it is a word without exception.  It is
found by taking a multiple of the divisor off the dividend, though, and that multiple may be
further from zero than the dividend: near the ends of the range of words the remainder is missed.
-/

namespace LoopBounds

namespace Word

variable {a b q r : Int64}

/-- The rational quotient rounded down. -/
def quotient (a b : Int64) : Int := ⌊(a.toInt : ℚ) / b.toInt⌋

/-- What is left of the dividend. -/
def remainder (a b : Int64) : Int := a.toInt - b.toInt * quotient a b

instance (n : Int) : Decidable (Fits n) := inferInstanceAs (Decidable (_ ∧ _))

theorem checked_eq_none_iff {n : Int} : checked n = none ↔ ¬ Fits n := by
  rw [checked, ite_eq_right_iff]
  simp [Fits]

theorem quotient_eq (a b : Int64) : quotient a b = a.toInt.fdiv b.toInt := by
  have hnonneg : ∀ x y : Int, 0 ≤ y → ⌊(x : ℚ) / y⌋ = x.fdiv y := by
    intro x y hy
    lift y to ℕ using hy
    rw [Int.fdiv_eq_ediv_of_nonneg x (Int.natCast_nonneg y)]
    exact Rat.floor_intCast_div_natCast x y
  rcases le_total 0 b.toInt with hb | hb
  · exact hnonneg _ _ hb
  · have h := hnonneg (-a.toInt) (-b.toInt) (neg_nonneg.2 hb)
    rwa [Int.cast_neg, Int.cast_neg, neg_div_neg_eq, Int.neg_fdiv_neg] at h

theorem remainder_eq (a b : Int64) : remainder a b = a.toInt.fmod b.toInt := by
  rw [remainder, quotient_eq, Int.fmod_def]

/-! ## Signs -/

theorem remainder_of_pos (a : Int64) (hb : 0 < b) :
    0 ≤ remainder a b ∧ remainder a b < b.toInt := by
  have hpos : 0 < b.toInt := Int64.lt_iff_toInt_lt.1 hb
  rw [remainder_eq]
  exact ⟨Int.fmod_nonneg_of_pos _ hpos, Int.fmod_lt_of_pos _ hpos⟩

theorem remainder_of_neg (a : Int64) (hb : b < 0) :
    b.toInt < remainder a b ∧ remainder a b ≤ 0 := by
  rw [remainder_eq]
  exact Interval.fmod_neg_bounds _ (Int64.lt_iff_toInt_lt.1 hb)

theorem fits_remainder (a : Int64) (hb : b ≠ 0) : Fits (remainder a b) := by
  have hfits := fits_toInt b
  simp only [Fits, Int64.toInt_minValue, Int64.toInt_maxValue] at hfits ⊢
  rcases lt_or_gt_of_ne (mt (toInt_eq_zero_iff b).1 hb) with hneg | hpos
  · have := remainder_of_neg a (Int64.lt_iff_toInt_lt.2 hneg)
    omega
  · have := remainder_of_pos a (Int64.lt_iff_toInt_lt.2 hpos)
    omega

/-! ## Over words -/

/-- Of all quotients by words other than zero a single one is no word. -/
theorem floorDiv_eq_none_iff : floorDiv a b = none ↔ b = 0 ∨ a = Int64.minValue ∧ b = -1 := by
  by_cases hb : b = 0
  · simp [floorDiv, hb]
  · rw [floorDiv, if_neg hb, Option.bind_eq_bind, Option.bind_eq_none_iff, truncDiv]
    split_ifs with h <;> simp [h]

theorem fits_quotient_iff (hb : b ≠ 0) :
    Fits (quotient a b) ↔ ¬(a = Int64.minValue ∧ b = -1) := by
  have hnone : floorDiv a b = none ↔ a = Int64.minValue ∧ b = -1 := by
    rw [floorDiv_eq_none_iff, or_iff_right hb]
  rw [← hnone, floorDiv_eq, if_neg hb, checked_eq_none_iff, not_not, quotient_eq]

/-- The remainder is missed where the quotient or the multiple of the divisor is no word. -/
theorem floorMod_eq_ite (hb : b ≠ 0) (hr : r.toInt = remainder a b) :
    floorMod a b =
      if Fits (quotient a b) ∧ Fits (b.toInt * quotient a b) then some r else none := by
  rw [quotient_eq, Int.mul_comm]
  split_ifs with hfits
  · exact floorMod_eq_some_iff.2 ⟨hb, hfits.1, hfits.2, hr.trans (remainder_eq a b)⟩
  · refine Option.eq_none_iff_forall_ne_some.2 fun w hw => hfits ?_
    obtain ⟨-, hquotient, hmultiple, -⟩ := floorMod_eq_some_iff.1 hw
    exact ⟨hquotient, hmultiple⟩

/-- Division by a word other than zero.  The quotient is found wherever it is a word, which is
everywhere but at the least word by -1.  The remainder has the sign of the divisor, is smaller
than it, and is always a word; it is found wherever the quotient and the multiple of the divisor
that belongs to it are words. -/
theorem floorDiv_floorMod (hb : b ≠ 0) :
    (∀ q, floorDiv a b = some q ↔ q.toInt = quotient a b) ∧
    (floorDiv a b = none ↔ a = Int64.minValue ∧ b = -1) ∧
    ∃ r : Int64, r.toInt = a.toInt - b.toInt * quotient a b ∧
      (0 < b → 0 ≤ r ∧ r < b) ∧ (b < 0 → b < r ∧ r ≤ 0) ∧
      floorMod a b =
        if (a = Int64.minValue ∧ b = -1) ∨ ¬ Fits (b.toInt * quotient a b) then none
        else some r := by
  have hr := toInt_ofInt (fits_remainder a hb)
  refine ⟨fun q => ?_, ?_, Int64.ofInt (remainder a b), hr, ?_, ?_, ?_⟩
  · rw [floorDiv_eq_some_iff, and_iff_right hb, quotient_eq]
  · rw [floorDiv_eq_none_iff, or_iff_right hb]
  · intro hpos
    rw [Int64.le_iff_toInt_le, Int64.lt_iff_toInt_lt, hr, Int64.toInt_zero]
    exact remainder_of_pos a hpos
  · intro hneg
    rw [Int64.le_iff_toInt_le, Int64.lt_iff_toInt_lt, hr, Int64.toInt_zero]
    exact remainder_of_neg a hneg
  · have hfound : Fits (quotient a b) ∧ Fits (b.toInt * quotient a b) ↔
        ¬((a = Int64.minValue ∧ b = -1) ∨ ¬ Fits (b.toInt * quotient a b)) := by
      rw [fits_quotient_iff hb, not_or, not_not]
    rw [floorMod_eq_ite hb hr]
    simp only [hfound, ite_not]

/-- Four above the least word there is still room for the multiple of three. -/
theorem floorDiv_floorMod_fourAboveLeast :
    (3 : Int64) ≠ 0 ∧
    floorDiv (-9223372036854775804) 3 = some (-3074457345618258602) ∧
    (-3074457345618258602 : Int64).toInt = quotient (-9223372036854775804) 3 ∧
    floorMod (-9223372036854775804) 3 = some 2 := by
  obtain ⟨hquotient, -, r, hr, -, -, hmod⟩ :=
    floorDiv_floorMod (a := -9223372036854775804) (b := 3) (by decide)
  have hq : floorDiv (-9223372036854775804) 3 = some (-3074457345618258602) := by decide +kernel
  have hq' := (hquotient _).1 hq
  refine ⟨by decide, hq, hq', ?_⟩
  rw [← hq'] at hr hmod
  have htwo : r = 2 := Int64.toInt_inj.1 (hr.trans (by decide))
  rw [hmod, if_neg (by decide), htwo]

/-- One above the least word there is none, though the remainder is 2. -/
theorem floorMod_oneAboveLeast_loses_value :
    (3 : Int64) ≠ 0 ∧
    (2 : Int64).toInt =
      (-9223372036854775807 : Int64).toInt - (3 : Int64).toInt * quotient (-9223372036854775807) 3 ∧
    floorMod (-9223372036854775807) 3 = none := by
  refine ⟨by decide, ?_, by decide +kernel⟩
  rw [quotient_eq]
  decide +kernel

end Word

end LoopBounds
