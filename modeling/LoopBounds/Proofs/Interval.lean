import LoopBounds.Analyzer.Simplify
import LoopBounds.Proofs.Operator

/-!
# Soundness of intervals

An interval holds the values between its ends.  Values are strictly between the least and the
greatest word, so an end that is one of these excludes nothing, and an end that has saturated
only widens the interval.  Each operation on intervals holds the exact results over the values
of its operands.
-/

namespace LoopBounds

namespace Word

theorem saturate_le {n x : Int} (h : n ≤ x) (hx : Int64.minValue.toInt ≤ x) :
    (saturate n).toInt ≤ x := by
  unfold saturate
  split_ifs with hmin hmax
  · exact hx
  · exact hmax.trans h
  · rwa [toInt_ofInt ⟨(not_le.1 hmin).le, (not_le.1 hmax).le⟩]

theorem le_saturate {n x : Int} (h : x ≤ n) (hx : x ≤ Int64.maxValue.toInt) :
    x ≤ (saturate n).toInt := by
  unfold saturate
  split_ifs with hmin hmax
  · exact h.trans hmin
  · exact hx
  · rwa [toInt_ofInt ⟨(not_le.1 hmin).le, (not_le.1 hmax).le⟩]

theorem toInt_of_floorDiv {a b q : Int64} (h : floorDiv a b = some q) :
    q.toInt = a.toInt.fdiv b.toInt :=
  (floorDiv_eq_some_iff.1 h).2

theorem toInt_of_floorMod {a b r : Int64} (h : floorMod a b = some r) :
    r.toInt = a.toInt.fmod b.toInt :=
  (floorMod_eq_some_iff.1 h).2.2.2

/-- A word other than the least has a quotient by every word but zero. -/
theorem exists_floorDiv {a b : Int64} (ha : a ≠ Int64.minValue) (hb : b ≠ 0) :
    ∃ q, floorDiv a b = some q ∧ q.toInt = a.toInt.fdiv b.toInt := by
  have hq := toInt_ofInt (fits_fdiv ha b)
  exact ⟨_, floorDiv_eq_some_iff.2 ⟨hb, hq⟩, hq⟩

end Word

namespace Interval

/-- The value lies between the ends. -/
def Contains (i : Interval) (x : Int) : Prop := i.lo.toInt ≤ x ∧ x ≤ i.hi.toInt

variable {i j : Interval} {x y z : Int} {c w : Int64}

theorem contains_point (w : Int64) : (point w).Contains w.toInt := ⟨le_rfl, le_rfl⟩

theorem contains_everything (h : Word.Fits x) : everything.Contains x := h

theorem Contains.eq_of_isConst (h : i.Contains x) (hc : i.isConst) : x = i.lo.toInt := by
  obtain ⟨heq, -⟩ := of_decide_eq_true hc
  have hhi := h.2
  rw [← heq] at hhi
  exact le_antisymm hhi h.1

theorem Contains.intersect (hi : i.Contains x) (hj : j.Contains x) :
    (i.intersect j).Contains x := by
  simp only [Contains, Interval.intersect, Word.toInt_max, Word.toInt_min]
  exact ⟨max_le hi.1 hj.1, le_min hi.2 hj.2⟩

/-- The ends that stand for infinity cannot be on the wrong side of a value. -/
theorem Contains.lo_ne (h : i.Contains x) (hx : Word.Inside x) : i.lo ≠ posInf := by
  intro heq
  have hlo := h.1
  rw [heq] at hlo
  exact absurd hlo (not_le.2 hx.2)

theorem Contains.hi_ne (h : i.Contains x) (hx : Word.Inside x) : i.hi ≠ negInf := by
  intro heq
  have hhi := h.2
  rw [heq] at hhi
  exact absurd hhi (not_le.2 hx.1)

/-! ## Sums and differences -/

theorem add_lo_le (hx : i.lo.toInt ≤ x) (hy : j.lo.toInt ≤ y) (hz : x + y ≤ z)
    (hmin : Int64.minValue.toInt ≤ z) : (i.add j).lo.toInt ≤ z := by
  unfold add
  dsimp only
  split_ifs with h
  · exact hmin
  · exact Word.saturate_le ((add_le_add hx hy).trans hz) hmin

theorem le_add_hi (hx : x ≤ i.hi.toInt) (hy : y ≤ j.hi.toInt) (hz : z ≤ x + y)
    (hmax : z ≤ Int64.maxValue.toInt) : z ≤ (i.add j).hi.toInt := by
  unfold add
  dsimp only
  split_ifs with h
  · exact hmax
  · exact Word.le_saturate (hz.trans (add_le_add hx hy)) hmax

theorem Contains.add (hx : i.Contains x) (hy : j.Contains y) (hz : Word.Fits (x + y)) :
    (i.add j).Contains (x + y) :=
  ⟨add_lo_le hx.1 hy.1 le_rfl hz.1, le_add_hi hx.2 hy.2 le_rfl hz.2⟩

theorem fits_neg (hx : Word.Inside x) : Word.Fits (-x) := by
  simp only [Word.Inside, Word.Fits, Int64.toInt_minValue, Int64.toInt_maxValue] at hx ⊢
  omega

theorem Contains.neg (hx : i.Contains x) (hin : Word.Inside x) : i.neg.Contains (-x) := by
  have hneg := fits_neg hin
  unfold Interval.neg negEnd
  constructor
  · dsimp only
    rw [if_neg (hx.hi_ne hin)]
    split_ifs
    · exact hneg.1
    · exact Word.saturate_le (neg_le_neg hx.2) hneg.1
  · dsimp only
    split_ifs with hlo hlo'
    · exact hneg.2
    · exact absurd hlo' (hx.lo_ne hin)
    · exact Word.le_saturate (neg_le_neg hx.1) hneg.2

theorem Contains.sub (hx : i.Contains x) (hy : j.Contains y) (hin : Word.Inside y)
    (hz : Word.Fits (x - y)) : (i.sub j).Contains (x - y) := by
  rw [sub_eq_add_neg] at hz ⊢
  exact hx.add (hy.neg hin) hz

/-! ## Products -/

theorem scaleEnd_le (hc : 0 < c.toInt) (hw : w.toInt ≤ x) (hne : w ≠ posInf)
    (hz : Int64.minValue.toInt ≤ x * c.toInt) : (scaleEnd c w).toInt ≤ x * c.toInt := by
  unfold scaleEnd
  have hpos : 0 < c := Int64.lt_iff_toInt_lt.2 hc
  rw [if_pos hpos, if_neg hne]
  split_ifs
  · exact hz
  · exact Word.saturate_le (by nlinarith) hz

theorem le_scaleEnd (hc : 0 < c.toInt) (hw : x ≤ w.toInt) (hne : w ≠ negInf)
    (hz : x * c.toInt ≤ Int64.maxValue.toInt) : x * c.toInt ≤ (scaleEnd c w).toInt := by
  unfold scaleEnd
  have hpos : 0 < c := Int64.lt_iff_toInt_lt.2 hc
  rw [if_neg hne, if_pos hpos]
  split_ifs
  · exact hz
  · exact Word.le_saturate (by nlinarith) hz

theorem scaleEnd_le_of_neg (hc : c.toInt < 0) (hw : x ≤ w.toInt) (hne : w ≠ negInf)
    (hz : Int64.minValue.toInt ≤ x * c.toInt) : (scaleEnd c w).toInt ≤ x * c.toInt := by
  unfold scaleEnd
  have hpos : ¬ 0 < c := fun h => absurd (Int64.lt_iff_toInt_lt.1 h) (not_lt.2 hc.le)
  rw [if_neg hne, if_neg hpos]
  split_ifs
  · exact hz
  · exact Word.saturate_le (by nlinarith) hz

theorem le_scaleEnd_of_neg (hc : c.toInt < 0) (hw : w.toInt ≤ x) (hne : w ≠ posInf)
    (hz : x * c.toInt ≤ Int64.maxValue.toInt) : x * c.toInt ≤ (scaleEnd c w).toInt := by
  unfold scaleEnd
  have hpos : ¬ 0 < c := fun h => absurd (Int64.lt_iff_toInt_lt.1 h) (not_lt.2 hc.le)
  rw [if_neg hpos, if_neg hne]
  split_ifs
  · exact hz
  · exact Word.le_saturate (by nlinarith) hz

theorem Contains.scale (hx : i.Contains x) (hin : Word.Inside x)
    (hz : Word.Fits (x * c.toInt)) : (i.scale c).Contains (x * c.toInt) := by
  unfold Interval.scale
  split_ifs with h0 hpos
  · subst h0
    rw [Int64.toInt_zero, mul_zero]
    exact contains_point 0
  · have hc : 0 < c.toInt := Int64.lt_iff_toInt_lt.1 hpos
    exact ⟨scaleEnd_le hc hx.1 (hx.lo_ne hin) hz.1, le_scaleEnd hc hx.2 (hx.hi_ne hin) hz.2⟩
  · have hc : c.toInt < 0 := by
      have h0' := mt (Word.toInt_eq_zero_iff c).1 h0
      have hpos' := mt Int64.lt_iff_toInt_lt.2 hpos
      rw [Int64.toInt_zero] at hpos'
      omega
    exact ⟨scaleEnd_le_of_neg hc hx.2 (hx.hi_ne hin) hz.1,
      le_scaleEnd_of_neg hc hx.1 (hx.lo_ne hin) hz.2⟩

/-- A product with a factor between two numbers lies between the products with these. -/
theorem mul_between {a b : Int} (ha : a ≤ x) (hb : x ≤ b) (y : Int) :
    min (a * y) (b * y) ≤ x * y ∧ x * y ≤ max (a * y) (b * y) := by
  rcases le_total 0 y with hy | hy
  · exact ⟨min_le_of_left_le (mul_le_mul_of_nonneg_right ha hy),
      le_max_of_le_right (mul_le_mul_of_nonneg_right hb hy)⟩
  · exact ⟨min_le_of_right_le (mul_le_mul_of_nonpos_right hb hy),
      le_max_of_le_left (mul_le_mul_of_nonpos_right ha hy)⟩

theorem Contains.mul (hx : i.Contains x) (hy : j.Contains y) (hinx : Word.Inside x)
    (hiny : Word.Inside y) (hz : Word.Fits (x * y)) : (i.mul j).Contains (x * y) := by
  unfold Interval.mul
  split_ifs with hj hi hfin
  · rw [hy.eq_of_isConst hj] at hz ⊢
    exact hx.scale hinx hz
  · rw [hx.eq_of_isConst hi, mul_comm] at hz ⊢
    exact hy.scale hiny hz
  · exact contains_everything hz
  · have hxy := mul_between hx.1 hx.2 y
    have hlo := mul_between hy.1 hy.2 i.lo.toInt
    have hhi := mul_between hy.1 hy.2 i.hi.toInt
    simp only [mul_comm _ i.lo.toInt, mul_comm _ i.hi.toInt] at hlo hhi
    refine ⟨Word.saturate_le ?_ hz.1, Word.le_saturate ?_ hz.2⟩
    · exact (min_le_min hlo.1 hhi.1).trans hxy.1
    · exact hxy.2.trans (max_le_max hlo.2 hhi.2)

/-! ## Quotients -/

theorem fdiv_mono {a b : Int} (h : a ≤ b) {c : Int} (hc : 0 < c) : a.fdiv c ≤ b.fdiv c := by
  rw [Int.fdiv_eq_ediv_of_nonneg _ hc.le, Int.fdiv_eq_ediv_of_nonneg _ hc.le]
  exact Int.ediv_le_ediv hc h

theorem fdiv_anti {a b : Int} (h : a ≤ b) {c : Int} (hc : c < 0) : b.fdiv c ≤ a.fdiv c := by
  rw [← Int.neg_fdiv_neg b c, ← Int.neg_fdiv_neg a c]
  exact fdiv_mono (neg_le_neg h) (neg_pos.2 hc)

theorem divEnd_of_finite (hw : ¬ isInf w) (hc : c ≠ 0) :
    (divEnd c w).toInt = w.toInt.fdiv c.toInt := by
  have hmin : w ≠ Int64.minValue := fun h => hw (decide_eq_true (.inl h))
  obtain ⟨q, hq, hval⟩ := Word.exists_floorDiv hmin hc
  rw [divEnd, if_neg hw, hq, Option.getD_some, hval]

/-- An infinite end that a negative number turns around stays on its side. -/
theorem divEnd_of_ne {far near : Int64} (hends : near = negInf ∧ far = posInf ∨
    near = posInf ∧ far = negInf) (hc : c ≠ 0) (hne : w ≠ if 0 < c then far else near) :
    divEnd c w = near ∨ (divEnd c w).toInt = w.toInt.fdiv c.toInt := by
  by_cases hw : isInf w
  · left
    have hinf : w = negInf ∨ w = posInf := of_decide_eq_true hw
    have hne' : negInf ≠ posInf := by decide
    rw [divEnd, if_pos hw]
    rcases hends with ⟨rfl, rfl⟩ | ⟨rfl, rfl⟩ <;> split at hne <;>
      rcases hinf with rfl | rfl <;> simp_all
  · exact .inr (divEnd_of_finite hw hc)

/-- A lower end by a positive number, or an upper end by a negative one. -/
theorem divEnd_le (hc : c ≠ 0) (hne : w ≠ if 0 < c then posInf else negInf)
    (hw : w.toInt.fdiv c.toInt ≤ z) (hz : Word.Fits z) : (divEnd c w).toInt ≤ z := by
  rcases divEnd_of_ne (.inl ⟨rfl, rfl⟩) hc hne with h | h
  · rw [h]
    exact hz.1
  · rwa [h]

/-- An upper end by a positive number, or a lower end by a negative one. -/
theorem le_divEnd (hc : c ≠ 0) (hne : w ≠ if 0 < c then negInf else posInf)
    (hw : z ≤ w.toInt.fdiv c.toInt) (hz : Word.Fits z) : z ≤ (divEnd c w).toInt := by
  rcases divEnd_of_ne (.inr ⟨rfl, rfl⟩) hc hne with h | h
  · rw [h]
    exact hz.2
  · rwa [h]

theorem ediv_le_ediv_left {a b : Int} (hx : 0 ≤ x) (ha : 0 < a) (hab : a ≤ b) :
    x / b ≤ x / a := by
  have hq : 0 ≤ x / b := Int.ediv_nonneg hx (ha.le.trans hab)
  rw [Int.le_ediv_iff_mul_le ha]
  calc x / b * a ≤ x / b * b := mul_le_mul_of_nonneg_left hab hq
    _ ≤ x := Int.ediv_mul_le x (ha.trans_le hab).ne'

theorem ediv_le_ediv_left_of_nonpos {a b : Int} (hx : x ≤ 0) (ha : 0 < a) (hab : a ≤ b) :
    x / a ≤ x / b := by
  have hq : x / a ≤ 0 := Int.ediv_nonpos_of_nonpos_of_neg hx ha
  rw [Int.le_ediv_iff_mul_le (ha.trans_le hab)]
  calc x / a * b ≤ x / a * a := mul_le_mul_of_nonpos_left hab hq
    _ ≤ x := Int.ediv_mul_le x ha.ne'

/-- Quotients by positive numbers lie between those of the ends. -/
theorem fdiv_between {a b d : Int} (hd : 0 < d) (ha : d ≤ a) (hb : a ≤ b) (x : Int) :
    min (x.fdiv d) (x.fdiv b) ≤ x.fdiv a ∧ x.fdiv a ≤ max (x.fdiv d) (x.fdiv b) := by
  have hapos : 0 < a := hd.trans_le ha
  have hbpos : 0 < b := hapos.trans_le hb
  simp only [Int.fdiv_eq_ediv_of_nonneg _ hd.le, Int.fdiv_eq_ediv_of_nonneg _ hapos.le,
    Int.fdiv_eq_ediv_of_nonneg _ hbpos.le]
  rcases le_total 0 x with hx | hx
  · exact ⟨min_le_of_right_le (ediv_le_ediv_left hx hapos hb),
      le_max_of_le_left (ediv_le_ediv_left hx hd ha)⟩
  · exact ⟨min_le_of_left_le (ediv_le_ediv_left_of_nonpos hx hd ha),
      le_max_of_le_right (ediv_le_ediv_left_of_nonpos hx hapos hb)⟩

theorem Contains.floorDiv (hx : i.Contains x) (hy : j.Contains y) (hinx : Word.Inside x)
    (hz : Word.Fits (x.fdiv y)) : (i.floorDiv j).Contains (x.fdiv y) := by
  unfold Interval.floorDiv
  split_ifs with hj hpos hfin
  · rw [hy.eq_of_isConst hj.1] at hz ⊢
    have hc := Int64.lt_iff_toInt_lt.1 hpos
    exact ⟨divEnd_le hj.2 (by simpa [hpos] using hx.lo_ne hinx) (fdiv_mono hx.1 hc) hz,
      le_divEnd hj.2 (by simpa [hpos] using hx.hi_ne hinx) (fdiv_mono hx.2 hc) hz⟩
  · rw [hy.eq_of_isConst hj.1] at hz ⊢
    have hc : j.lo.toInt < 0 := by
      have h0 := mt (Word.toInt_eq_zero_iff j.lo).1 hj.2
      have hpos' := mt Int64.lt_iff_toInt_lt.2 hpos
      rw [Int64.toInt_zero] at hpos'
      omega
    exact ⟨divEnd_le hj.2 (by simpa [hpos] using hx.hi_ne hinx) (fdiv_anti hx.2 hc) hz,
      le_divEnd hj.2 (by simpa [hpos] using hx.lo_ne hinx) (fdiv_anti hx.1 hc) hz⟩
  · obtain ⟨hfi, hfj⟩ : i.isFinite ∧ j.isFinite := ⟨hfin.2.1, hfin.2.2⟩
    have hlo : 0 < j.lo.toInt := Int64.lt_iff_toInt_lt.1 hfin.1
    have hhi : 0 < j.hi.toInt := hlo.trans_le (hy.1.trans hy.2)
    have finite : ∀ w : Int64, isInf w = false → ∀ c : Int64, 0 < c.toInt →
        ∃ q, Word.floorDiv w c = some q ∧ q.toInt = w.toInt.fdiv c.toInt := by
      intro w hw c hc
      refine Word.exists_floorDiv (fun h => of_decide_eq_false hw (.inl h)) ?_
      rintro rfl
      exact absurd hc (lt_irrefl _)
    have hloi : isInf i.lo = false := by simpa using (of_decide_eq_true hfi).1
    have hhii : isInf i.hi = false := by simpa using (of_decide_eq_true hfi).2
    obtain ⟨p, hp, hp'⟩ := finite i.lo hloi j.lo hlo
    obtain ⟨q, hq, hq'⟩ := finite i.lo hloi j.hi hhi
    obtain ⟨r, hr, hr'⟩ := finite i.hi hhii j.lo hlo
    obtain ⟨s, hs, hs'⟩ := finite i.hi hhii j.hi hhi
    have hy0 : 0 < y := hlo.trans_le hy.1
    have hleft := fdiv_between hlo hy.1 hy.2 i.lo.toInt
    have hright := fdiv_between hlo hy.1 hy.2 i.hi.toInt
    have hxlo := fdiv_mono hx.1 hy0
    have hxhi := fdiv_mono hx.2 hy0
    simp only [hp, hq, hr, hs, List.filterMap_cons, id, List.filterMap_nil, List.foldl_cons,
      List.foldl_nil, Contains, Word.toInt_min, Word.toInt_max, hp', hq', hr', hs']
    constructor
    · exact (min_le_left _ _).trans ((min_le_left _ _).trans (hleft.1.trans hxlo))
    · exact hxhi.trans (hright.2.trans (max_le_max_right _ (le_max_right _ _)))
  · exact contains_everything hz

/-! ## Remainders -/

theorem Contains.floorModBlock {block : Interval} (hx : i.Contains x) (hc : 0 < c.toInt)
    (hblock : i.floorModBlock? c = some block) : block.Contains (x.fmod c.toInt) := by
  unfold floorModBlock? at hblock
  split at hblock
  · next hq =>
    obtain ⟨a, ha, hblock⟩ := Option.bind_eq_some_iff.1 hblock
    obtain ⟨b, hb, hblock⟩ := Option.bind_eq_some_iff.1 hblock
    cases hblock
    obtain ⟨q, hqlo, -⟩ := Option.bind_eq_some_iff.1 ha
    have hlo := Word.toInt_of_floorDiv hqlo
    have hhi := Word.toInt_of_floorDiv (hq ▸ hqlo)
    have hxq : x.fdiv c.toInt = q.toInt :=
      le_antisymm (hhi ▸ fdiv_mono hx.2 hc) (hlo ▸ fdiv_mono hx.1 hc)
    rw [Contains, Word.toInt_of_floorMod ha, Word.toInt_of_floorMod hb, Int.fmod_def, Int.fmod_def,
      Int.fmod_def, ← hlo, ← hhi, hxq]
    exact ⟨sub_le_sub_right hx.1 _, sub_le_sub_right hx.2 _⟩
  · cases hblock

theorem toInt_add_one (h : w.toInt < Int64.maxValue.toInt) : (w + 1).toInt = w.toInt + 1 := by
  have hfit := Word.fits_toInt w
  simp only [Word.Fits, Int64.toInt_minValue, Int64.toInt_maxValue] at h hfit
  rw [Int64.toInt_add, Int64.toInt_one]
  exact Int.bmod_eq_of_le (by omega) (by omega)

theorem fmod_neg_bounds (x : Int) (hy : y < 0) : y < x.fmod y ∧ x.fmod y ≤ 0 := by
  have hmod := Int.neg_fmod_neg (-x) (-y)
  rw [neg_neg, neg_neg] at hmod
  have hlo := Int.fmod_nonneg_of_pos (-x) (neg_pos.2 hy)
  have hhi := Int.fmod_lt_of_pos (-x) (neg_pos.2 hy)
  omega

/-- Remainders by positive numbers lie from zero up to the greatest divisor less one. -/
theorem contains_remainders (hy : y ≤ w.toInt) (hiny : Word.Inside y) (hy0 : 0 < y) (x : Int) :
    Contains ⟨0, if w = posInf then posInf else w - 1⟩ (x.fmod y) := by
  have hmod := Int.fmod_nonneg_of_pos x hy0
  have hmod' := Int.fmod_lt_of_pos x hy0
  refine ⟨hmod, ?_⟩
  dsimp only
  split_ifs with hinf
  · exact (hmod'.trans hiny.2).le
  · rw [Word.toInt_sub_one (hiny.1.trans_le hy)]
    omega

theorem Contains.floorMod (hx : i.Contains x) (hy : j.Contains y) (hiny : Word.Inside y)
    (hz : Word.Fits (x.fmod y)) : (i.floorMod j).Contains (x.fmod y) := by
  unfold Interval.floorMod
  by_cases hpos : 0 < j.lo
  · have hlo : 0 < j.lo.toInt := Int64.lt_iff_toInt_lt.1 hpos
    have hy0 : 0 < y := hlo.trans_le hy.1
    rw [if_pos hpos]
    split
    · next block hblock =>
      obtain ⟨hfin, hblock⟩ := Option.ite_none_right_eq_some.1 hblock
      rw [hy.eq_of_isConst hfin.1]
      exact hx.floorModBlock hlo hblock
    · split
      · next hsmall =>
        have hxlo : 0 ≤ x := (Int64.le_iff_toInt_le.1 hsmall.1).trans hx.1
        have hxhi : x < y := (hx.2.trans_lt (Int64.lt_iff_toInt_lt.1 hsmall.2)).trans_le hy.1
        rwa [Int.fmod_eq_of_lt hxlo hxhi]
      · exact contains_remainders hy.2 hiny hy0 x
  · rw [if_neg hpos]
    split
    · next hneg =>
      have hy0 : y < 0 := hy.2.trans_lt (Int64.lt_iff_toInt_lt.1 hneg)
      obtain ⟨hmod, hmod'⟩ := fmod_neg_bounds x hy0
      refine ⟨?_, hmod'⟩
      dsimp only
      split_ifs with hinf
      · exact (hiny.1.trans hmod).le
      · rw [toInt_add_one (hy.1.trans_lt hiny.2)]
        exact (add_le_add_left hy.1 1).trans hmod
    · exact contains_everything hz

theorem contains_image {op : Arith} (hx : i.Contains x) (hy : j.Contains y)
    (hinx : Word.Inside x) (hiny : Word.Inside y) (hz : op.exact x y = some z)
    (hinz : Word.Inside z) : (op.image i j).Contains z := by
  cases op with
  | add =>
      cases hz
      exact hx.add hy hinz.fits
  | sub =>
      cases hz
      exact hx.sub hy hiny hinz.fits
  | mul =>
      cases hz
      exact hx.mul hy hinx hiny hinz.fits
  | floorDiv =>
      simp only [Arith.exact] at hz
      split at hz
      · cases hz
      · cases hz
        exact hx.floorDiv hy hinx hinz.fits
  | floorMod =>
      simp only [Arith.exact] at hz
      split at hz
      · cases hz
      · cases hz
        exact hx.floorMod hy hiny hinz.fits
  | min =>
      cases hz
      simp only [Contains, Arith.image, minWith, Word.toInt_min]
      exact ⟨min_le_min hx.1 hy.1, min_le_min hx.2 hy.2⟩
  | max =>
      cases hz
      simp only [Contains, Arith.image, maxWith, Word.toInt_max]
      exact ⟨max_le_max hx.1 hy.1, max_le_max hx.2 hy.2⟩

/-- The quotient that all values of an interval share. -/
theorem fdiv_of_block? {k : Int64} (hx : i.Contains x) (hc : 0 < c.toInt)
    (hk : i.block? c = some k) : x.fdiv c.toInt = k.toInt := by
  unfold block? at hk
  split at hk
  · next h =>
    have hlo := Word.toInt_of_floorDiv hk
    have hhi := Word.toInt_of_floorDiv (h.2 ▸ hk)
    exact le_antisymm (hhi ▸ fdiv_mono hx.2 hc) (hlo ▸ fdiv_mono hx.1 hc)
  · cases hk

end Interval

/-- The values of a domain lie within its bounds. -/
theorem Domain.contains_bound {d : Domain} {boundOf : ExprId → Interval} {m n x : Int}
    (hm : (boundOf d.min).Contains m) (hn : (boundOf d.extent).Contains n) (hmx : m ≤ x)
    (hxn : x < m + n) (hin : Word.Inside x) : (d.bound boundOf).Contains x := by
  refine ⟨hm.1.trans hmx, ?_⟩
  have hsum : x + 1 ≤ ((boundOf d.min).add (boundOf d.extent)).hi.toInt :=
    Interval.le_add_hi hm.2 hn.2 (Int.add_one_le_of_lt hxn) (Int.add_one_le_of_lt hin.2)
  exact Interval.le_add_hi (y := -1) hsum (le_refl (-1)) (by omega) hin.2.le

/-- A comparison that the bounds of the difference decide. -/
theorem Comparison.exact_of_decideWithin {op : Comparison} {diff : Interval} {x y : Int}
    {b : Bool} (hdiff : diff.Contains (x - y)) (h : op.decideWithin diff = some b) :
    op.exact x y = b := by
  obtain ⟨hlo, hhi⟩ := hdiff
  have hzero : diff.isConst ∧ diff.lo = 0 → x = y := by
    rintro ⟨hc, h0⟩
    have hval := Interval.Contains.eq_of_isConst ⟨hlo, hhi⟩ hc
    rw [h0, Int64.toInt_zero] at hval
    omega
  cases op <;> simp only [decideWithin, Int64.lt_iff_toInt_lt, Int64.le_iff_toInt_le,
    Int64.toInt_zero] at h <;> split_ifs at h with h1 h2 <;> cases h <;>
    simp only [exact, decide_eq_true_eq, decide_eq_false_iff_not, ne_eq, not_not]
  all_goals first
    | exact hzero h1
    | omega

end LoopBounds
