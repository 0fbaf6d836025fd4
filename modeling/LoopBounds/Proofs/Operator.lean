import Mathlib
import LoopBounds.Operator

/-!
# Exact operators

The operators over the unbounded integers, and how the operators of words follow them.  Division
rounds towards minus infinity.  A remainder of words is computed as `a - (a div b) * b`, so it
needs the multiple of the divisor to fit the word, although the remainder itself always does.
-/

namespace LoopBounds

namespace Word

/-- The integer is a word. -/
def Fits (n : Int) : Prop := Int64.minValue.toInt ≤ n ∧ n ≤ Int64.maxValue.toInt

/-- The integer is a word other than the least and the greatest. -/
def Inside (n : Int) : Prop := Int64.minValue.toInt < n ∧ n < Int64.maxValue.toInt

theorem Inside.fits {n : Int} (h : Inside n) : Fits n := ⟨h.1.le, h.2.le⟩

theorem fits_toInt (w : Int64) : Fits w.toInt := ⟨Int64.minValue_le_toInt w, Int64.toInt_le w⟩

theorem toInt_ofInt {n : Int} (h : Fits n) : (Int64.ofInt n).toInt = n :=
  toInt_of_checked (if_pos h)

theorem exists_checked {n : Int} (h : Fits n) : ∃ w, checked n = some w ∧ w.toInt = n :=
  ⟨Int64.ofInt n, if_pos h, toInt_ofInt h⟩

theorem toInt_eq_zero_iff (w : Int64) : w.toInt = 0 ↔ w = 0 := by
  rw [← Int64.toInt_zero, Int64.toInt_inj]

theorem toInt_min (a b : Int64) : (min a b).toInt = min a.toInt b.toInt := by
  simp only [Int.min_def, ← Int64.le_iff_toInt_le]
  change (if a ≤ b then a else b).toInt = _
  split <;> rfl

theorem toInt_max (a b : Int64) : (max a b).toInt = max a.toInt b.toInt := by
  simp only [Int.max_def, ← Int64.le_iff_toInt_le]
  change (if a ≤ b then b else a).toInt = _
  split <;> rfl

theorem toInt_sub_one {w : Int64} (h : Int64.minValue.toInt < w.toInt) :
    (w - 1).toInt = w.toInt - 1 := by
  have hfit := fits_toInt w
  simp only [Fits, Int64.toInt_minValue, Int64.toInt_maxValue] at h hfit
  rw [Int64.toInt_sub, Int64.toInt_one]
  exact Int.bmod_eq_of_le (by omega) (by omega)

/-! ### Rounding a quotient down -/

theorem truncDiv_eq {a b : Int64} (hb : b ≠ 0) :
    truncDiv a b = checked (a.toInt.tdiv b.toInt) := by
  by_cases h : a = Int64.minValue ∧ b = -1
  · obtain ⟨rfl, rfl⟩ := h
    decide +kernel
  · have hdiv : (a / b).toInt = a.toInt.tdiv b.toInt := by
      rcases not_and_or.1 h with ha | hb
      · exact Int64.toInt_div_of_ne_left a b ha
      · exact Int64.toInt_div_of_ne_right a b hb
    rw [truncDiv, if_neg (not_or.2 ⟨hb, h⟩), ← hdiv, checked_toInt]

/-- Rounding down goes one below rounding towards zero where a rest is left and the signs differ. -/
theorem fdiv_eq_tdiv_sub {x y : Int} (hy : y ≠ 0) :
    x.fdiv y = x.tdiv y - if x.tmod y ≠ 0 ∧ ¬(x < 0 ↔ y < 0) then 1 else 0 := by
  have hdvd : y ∣ x ↔ x.tmod y = 0 := Int.dvd_iff_tmod_eq_zero
  rw [Int.fdiv_eq_tdiv]
  rcases lt_or_gt_of_ne hy with hneg | hpos
  · rw [Int.sign_eq_neg_one_of_neg hneg]
    split_ifs <;> omega
  · rw [Int.sign_eq_one_of_pos hpos]
    split_ifs <;> omega

/-- The quotient over words is the exact one, wherever that is a word. -/
theorem floorDiv_eq (a b : Int64) :
    floorDiv a b = if b = 0 then none else checked (a.toInt.fdiv b.toInt) := by
  by_cases hb : b = 0
  · rw [floorDiv, if_pos hb, if_pos hb]
  have hfdiv := fdiv_eq_tdiv_sub (x := a.toInt) (mt (toInt_eq_zero_iff b).1 hb)
  have hcorrect : (a % b ≠ 0 ∧ ¬(a < 0 ↔ b < 0)) ↔
      a.toInt.tmod b.toInt ≠ 0 ∧ ¬(a.toInt < 0 ↔ b.toInt < 0) := by
    rw [ne_eq, ← toInt_eq_zero_iff, Int64.toInt_mod, Int64.lt_iff_toInt_lt, Int64.lt_iff_toInt_lt,
      Int64.toInt_zero]
  rw [floorDiv, if_neg hb, if_neg hb, truncDiv_eq hb]
  simp only [hcorrect]
  split_ifs at hfdiv ⊢ with h
  · -- A rest is left, so the divisor is not -1 and the truncated quotient is a word.
    have hone : b ≠ -1 := by
      rintro rfl
      exact h.1 (Int.tmod_neg _ 1 ▸ Int.tmod_one _)
    rw [← Int64.toInt_div_of_ne_right a b hone] at hfdiv ⊢
    have hmin : Int64.minValue.toInt < (a / b).toInt := by
      have habs := Int.natAbs_fdiv_le_natAbs a.toInt b.toInt
      have ha := fits_toInt a
      simp only [Fits, Int64.toInt_minValue, Int64.toInt_maxValue] at ha ⊢
      omega
    rw [checked_toInt, hfdiv, ← toInt_sub_one hmin, checked_toInt]
    rfl
  · rw [hfdiv, sub_zero]
    exact bind_pure _

theorem fits_fdiv {a : Int64} (ha : a ≠ Int64.minValue) (b : Int64) :
    Fits (a.toInt.fdiv b.toInt) := by
  have habs := Int.natAbs_fdiv_le_natAbs a.toInt b.toInt
  have hfits := fits_toInt a
  have hmin : a.toInt ≠ Int64.minValue.toInt := mt Int64.toInt_inj.1 ha
  simp only [Fits, Int64.toInt_minValue, Int64.toInt_maxValue] at hfits hmin ⊢
  omega

theorem floorDiv_eq_some_iff {a b q : Int64} :
    floorDiv a b = some q ↔ b ≠ 0 ∧ q.toInt = a.toInt.fdiv b.toInt := by
  rw [floorDiv_eq]
  split_ifs with hb
  · simp [hb]
  · rw [checked_eq_some_iff, and_iff_right hb]

/-- A remainder is found where the quotient and the multiple that is taken off are words. -/
theorem floorMod_eq_some_iff {a b r : Int64} :
    floorMod a b = some r ↔ b ≠ 0 ∧ Fits (a.toInt.fdiv b.toInt) ∧
      Fits (a.toInt.fdiv b.toInt * b.toInt) ∧ r.toInt = a.toInt.fmod b.toInt := by
  simp only [floorMod, mul, sub, Option.bind_eq_bind, Option.bind_eq_some_iff,
    floorDiv_eq_some_iff, checked_eq_some_iff]
  rw [Int.fmod_def, Int.mul_comm b.toInt]
  constructor
  · rintro ⟨q, ⟨hb, hq⟩, m, hm, hr⟩
    rw [← hq, ← hm]
    exact ⟨hb, fits_toInt q, fits_toInt m, hr⟩
  · rintro ⟨hb, hquotient, hmultiple, hr⟩
    have hq := toInt_ofInt hquotient
    have hm := toInt_ofInt hmultiple
    exact ⟨_, ⟨hb, hq⟩, _, by rw [hm, hq], by rw [hr, hm]⟩

end Word

theorem toInt_truth (b : Bool) : (truth b).toInt = b.toInt := by
  cases b <;> rfl

namespace Comparison

/-- The comparison of exact values. -/
def exact : Comparison → Int → Int → Bool
  | lt, a, b => a < b
  | le, a, b => a ≤ b
  | gt, a, b => b < a
  | ge, a, b => b ≤ a
  | eq, a, b => a = b
  | ne, a, b => a ≠ b

theorem holds_eq_exact (op : Comparison) (a b : Int64) :
    op.holds a b = op.exact a.toInt b.toInt := by
  cases op <;> simp [holds, exact, Int64.lt_iff_toInt_lt, Int64.le_iff_toInt_le,
    ← Int64.toInt_inj]

theorem exact_negate (op : Comparison) (x y : Int) : op.negate.exact x y = !op.exact x y := by
  cases op <;> rw [Bool.eq_iff_iff] <;> simp [negate, exact]

theorem exact_self (op : Comparison) (x : Int) : op.exact x x = op.isReflexive := by
  cases op <;> simp [isReflexive, exact]

end Comparison

namespace Arith

/-- The exact value of an operator; none for a zero divisor. -/
def exact : Arith → Int → Int → Option Int
  | add, a, b => some (a + b)
  | sub, a, b => some (a - b)
  | mul, a, b => some (a * b)
  | floorDiv, a, b => if b = 0 then none else some (a.fdiv b)
  | floorMod, a, b => if b = 0 then none else some (a.fmod b)
  | min, a, b => some (Min.min a b)
  | max, a, b => some (Max.max a b)

theorem exact_comm {op : Arith} (h : op.isCommutative) (x y : Int) :
    op.exact x y = op.exact y x := by
  cases op <;> simp_all [isCommutative, exact, Int.add_comm, Int.mul_comm, min_comm, max_comm]

/-- A value over words is the exact value. -/
theorem exact_of_apply {op : Arith} {a b c : Int64} (h : op.apply a b = some c) :
    op.exact a.toInt b.toInt = some c.toInt := by
  cases op with
  | add | sub | mul => exact congrArg some (Word.toInt_of_checked h).symm
  | floorDiv =>
      obtain ⟨hb, hc⟩ := Word.floorDiv_eq_some_iff.1 h
      simp [exact, Word.toInt_eq_zero_iff, hb, hc]
  | floorMod =>
      obtain ⟨hb, -, -, hc⟩ := Word.floorMod_eq_some_iff.1 h
      simp [exact, Word.toInt_eq_zero_iff, hb, hc]
  | min => cases h; exact congrArg some (Word.toInt_min a b).symm
  | max => cases h; exact congrArg some (Word.toInt_max a b).symm

/-- What an operator needs beside a value that fits: for a remainder, that the multiple of the
divisor fits as well. -/
def StepsFit (op : Arith) (x y : Int) : Prop :=
  op = floorMod → Word.Fits (x.fdiv y * y)

theorem stepsFit_of_apply {op : Arith} {a b c : Int64} (h : op.apply a b = some c) :
    op.StepsFit a.toInt b.toInt := by
  rintro rfl
  exact (Word.floorMod_eq_some_iff.1 h).2.2.1

/-- The result lies in a given range, and so do the steps to a remainder. -/
def Within (op : Arith) (fits : Int → Prop) (x y z : Int) : Prop :=
  fits z ∧ (op = .floorMod → fits (x.fdiv y) ∧ fits (x.fdiv y * y))

/-- Words have the result that integers have, where it is a word. -/
theorem exists_apply_of_within {op : Arith} {a b : Int64} {z : Int}
    (h : op.exact a.toInt b.toInt = some z) (hfits : op.Within Word.Fits a.toInt b.toInt z) :
    ∃ w, op.apply a b = some w ∧ w.toInt = z := by
  obtain ⟨hz, hsteps⟩ := hfits
  have hword := Word.toInt_ofInt hz
  cases op with
  | add | sub | mul =>
      cases h
      exact Word.exists_checked hz
  | floorDiv =>
      simp only [exact, Word.toInt_eq_zero_iff] at h
      split at h
      · cases h
      next hb =>
      cases h
      exact ⟨_, Word.floorDiv_eq_some_iff.2 ⟨hb, hword⟩, hword⟩
  | floorMod =>
      simp only [exact, Word.toInt_eq_zero_iff] at h
      split at h
      · cases h
      next hb =>
      cases h
      obtain ⟨hquotient, hmultiple⟩ := hsteps rfl
      exact ⟨_, Word.floorMod_eq_some_iff.2 ⟨hb, hquotient, hmultiple, hword⟩, hword⟩
  | min =>
      cases h
      exact ⟨_, rfl, Word.toInt_min a b⟩
  | max =>
      cases h
      exact ⟨_, rfl, Word.toInt_max a b⟩

/-- An exact value that fits is a value over words when the steps fit. -/
theorem exists_apply {op : Arith} {a b : Int64} {z : Int} (ha : Word.Inside a.toInt)
    (h : op.exact a.toInt b.toInt = some z) (hz : Word.Fits z)
    (hsteps : op.StepsFit a.toInt b.toInt) : ∃ c, op.apply a b = some c := by
  have hmin : a ≠ Int64.minValue := by
    rintro rfl
    exact lt_irrefl _ ha.1
  obtain ⟨c, hc, -⟩ :=
    exists_apply_of_within h ⟨hz, fun hop => ⟨Word.fits_fdiv hmin b, hsteps hop⟩⟩
  exact ⟨c, hc⟩

end Arith

end LoopBounds
