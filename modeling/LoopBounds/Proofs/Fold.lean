import LoopBounds.Expr.Build
import LoopBounds.Proofs.Assignment

/-!
# Folds

What an operator folds to depends on its literal operands and on whether the operands are the
same.  Each folding rule keeps the exact value; the rules for connectives read their operands as
truth values, so they keep the value only of operands that are zero or one.
-/

namespace LoopBounds

/-- What a fold sees of operands with values `x?` and `y?`. -/
structure Fold.Sees (l? r? : Option Int64) (same : Bool) (x? y? : Option Int) : Prop where
  lhs : ∀ v, l? = some v → x? = some v.toInt
  rhs : ∀ v, r? = some v → y? = some v.toInt
  same : same = true → x? = y?

/-- The fold is right for operands with values `x?` and `y?` and a result with value `z`. -/
def Fold.Gives (f : Fold) (x? y? : Option Int) (z : Int) : Prop :=
  match f with
  | .literal v => z = v.toInt
  | .lhs => x? = some z
  | .rhs => y? = some z
  | .node => True

variable {l? r? : Option Int64} {same : Bool} {x? y? : Option Int} {z : Int}

theorem Arith.foldUnit_gives {op : Arith} {x y : Int} (h : Fold.Sees l? r? same (some x) (some y))
    (hz : op.exact x y = some z) : (op.foldUnit l? r? same).Gives (some x) (some y) z := by
  have hlit : ∀ {o? : Option Int64} {u : Int} {c : Int64},
      (∀ v, o? = some v → some u = some v.toInt) → o? = some c → u = c.toInt :=
    fun h hc => Option.some_inj.1 (h _ hc)
  cases op with
  | add =>
      cases hz
      simp only [foldUnit]
      split_ifs with h0 h1
      · simp [Fold.Gives, hlit h.rhs h0]
      · simp [Fold.Gives, hlit h.lhs h1]
      · trivial
  | sub =>
      cases hz
      simp only [foldUnit]
      split_ifs with h0 h1
      · simp [Fold.Gives, hlit h.rhs h0]
      · simp [Fold.Gives, Option.some_inj.1 (h.same h1)]
      · trivial
  | mul =>
      cases hz
      simp only [foldUnit]
      split_ifs with h0 h1 h2
      · simp [Fold.Gives, hlit h.rhs h0]
      · simp [Fold.Gives, hlit h.lhs h1]
      · rcases h2 with h2 | h2
        · simp [Fold.Gives, hlit h.lhs h2]
        · simp [Fold.Gives, hlit h.rhs h2]
      · trivial
  | floorDiv =>
      simp only [foldUnit]
      split_ifs with h0
      · have hy : y = 1 := hlit h.rhs h0
        subst hy
        cases hz
        simp [Fold.Gives]
      · trivial
  | floorMod =>
      simp only [foldUnit]
      split_ifs with h0
      · have hy : y = 1 := hlit h.rhs h0
        subst hy
        cases hz
        simp [Fold.Gives]
      · trivial
  | min | max =>
      cases hz
      simp only [foldUnit]
      split_ifs with h0
      · simp [Fold.Gives, Option.some_inj.1 (h.same h0)]
      · trivial

theorem Arith.fold_gives {op : Arith} (h : Fold.Sees l? r? same x? y?)
    (hz : (x?.bind fun x => y?.bind (op.exact x)) = some z) :
    (op.fold l? r? same).Gives x? y? z := by
  obtain ⟨x, rfl, hyz⟩ := Option.bind_eq_some_iff.1 hz
  obtain ⟨y, rfl, hxy⟩ := Option.bind_eq_some_iff.1 hyz
  unfold fold
  split
  · next v w =>
    split
    · next u hu =>
      have hx := Option.some_inj.1 (h.lhs v rfl)
      have hy := Option.some_inj.1 (h.rhs w rfl)
      rw [hx, hy, exact_of_apply hu] at hxy
      exact (Option.some_inj.1 hxy).symm
    · exact foldUnit_gives h hxy
  · exact foldUnit_gives h hxy

theorem Comparison.fold_gives {op : Comparison} (h : Fold.Sees l? r? same x? y?)
    (hz : (x?.bind fun x => y?.map fun y => (op.exact x y).toInt) = some z) :
    (op.fold l? r? same).Gives x? y? z := by
  obtain ⟨x, rfl, hz⟩ := Option.bind_eq_some_iff.1 hz
  obtain ⟨y, rfl, rfl⟩ := Option.map_eq_some_iff.1 hz
  unfold fold
  split
  · next v w =>
    rw [Option.some_inj.1 (h.lhs v rfl), Option.some_inj.1 (h.rhs w rfl), Fold.Gives,
      toInt_truth, holds_eq_exact]
  · split_ifs with hs
    · rw [Option.some_inj.1 (h.same hs), Fold.Gives, toInt_truth, exact_self]
    · trivial

/-- The conjunction of truth values, the second of which is only looked at where the first is
true. -/
def Conjoins (x? y? : Option Int) (z : Int) : Prop :=
  (x? = some 0 ∧ z = 0) ∨ (x? = some 1 ∧ y? = some z ∧ IsBit z)

/-- The disjunction of truth values, the second of which is only looked at where the first is
false. -/
def Disjoins (x? y? : Option Int) (z : Int) : Prop :=
  (x? = some 1 ∧ z = 1) ∨ (x? = some 0 ∧ y? = some z ∧ IsBit z)

theorem conjoins_of_value (hx : ∀ x, x? = some x → IsBit x) (hy : ∀ y, y? = some y → IsBit y)
    (hz : (x?.bind fun x => if x = 0 then some 0 else y?.map fun y => (decide (y ≠ 0)).toInt) =
      some z) : Conjoins x? y? z := by
  obtain ⟨x, rfl, hz⟩ := Option.bind_eq_some_iff.1 hz
  rcases hx x rfl with rfl | rfl
  · exact .inl ⟨rfl, (Option.some_inj.1 hz).symm⟩
  · obtain ⟨y, rfl, hyz⟩ := Option.map_eq_some_iff.1 hz
    rw [(hy y rfl).toInt_ne_zero] at hyz
    exact .inr ⟨rfl, congrArg some hyz, hyz ▸ hy y rfl⟩

theorem Conjoins.value (h : Conjoins x? y? z) :
    (x?.bind fun x => if x = 0 then some 0 else y?.map fun y => (decide (y ≠ 0)).toInt) =
      some z := by
  rcases h with ⟨rfl, rfl⟩ | ⟨rfl, rfl, hz⟩
  · rfl
  · exact congrArg some hz.toInt_ne_zero

theorem Conjoins.mono {u? v? : Option Int} (h : Conjoins x? y? z)
    (hx : ∀ x, x? = some x → u? = some x) (hy : ∀ y, y? = some y → v? = some y) :
    Conjoins u? v? z :=
  h.imp (fun ⟨h0, hz⟩ => ⟨hx 0 h0, hz⟩) fun ⟨h1, hz, hbit⟩ => ⟨hx 1 h1, hy z hz, hbit⟩

theorem disjoins_of_value (hx : ∀ x, x? = some x → IsBit x) (hy : ∀ y, y? = some y → IsBit y)
    (hz : (x?.bind fun x => if x = 0 then y?.map fun y => (decide (y ≠ 0)).toInt else some 1) =
      some z) : Disjoins x? y? z := by
  obtain ⟨x, rfl, hz⟩ := Option.bind_eq_some_iff.1 hz
  rcases hx x rfl with rfl | rfl
  · obtain ⟨y, rfl, hyz⟩ := Option.map_eq_some_iff.1 hz
    rw [(hy y rfl).toInt_ne_zero] at hyz
    exact .inr ⟨rfl, congrArg some hyz, hyz ▸ hy y rfl⟩
  · exact .inl ⟨rfl, (Option.some_inj.1 hz).symm⟩

theorem Disjoins.value (h : Disjoins x? y? z) :
    (x?.bind fun x => if x = 0 then y?.map fun y => (decide (y ≠ 0)).toInt else some 1) =
      some z := by
  rcases h with ⟨rfl, rfl⟩ | ⟨rfl, rfl, hz⟩
  · rfl
  · exact congrArg some hz.toInt_ne_zero

theorem Disjoins.mono {u? v? : Option Int} (h : Disjoins x? y? z)
    (hx : ∀ x, x? = some x → u? = some x) (hy : ∀ y, y? = some y → v? = some y) :
    Disjoins u? v? z :=
  h.imp (fun ⟨h1, hz⟩ => ⟨hx 1 h1, hz⟩) fun ⟨h0, hz, hbit⟩ => ⟨hx 0 h0, hy z hz, hbit⟩

theorem foldAnd_gives (h : Fold.Sees l? r? same x? y?) (hz : Conjoins x? y? z) :
    (foldAnd l? r? same).Gives x? y? z := by
  unfold foldAnd
  split_ifs with h0 h1 h2
  · rcases h0 with h0 | h0
    · have hx0 := h.lhs 0 h0
      rcases hz with ⟨-, rfl⟩ | ⟨hx1, -⟩
      · rfl
      · cases hx0.symm.trans hx1
    · rcases hz with ⟨-, rfl⟩ | ⟨-, hy1, -⟩
      · rfl
      · exact Option.some_inj.1 (hy1.symm.trans (h.rhs 0 h0))
  · obtain ⟨v, rfl⟩ := Option.isSome_iff_exists.1 h1
    rcases hz with ⟨hx0, -⟩ | ⟨-, hy1, -⟩
    · have hv := Option.some_inj.1 ((h.lhs v rfl).symm.trans hx0)
      rw [Word.toInt_eq_zero_iff] at hv
      exact absurd (.inl (by rw [hv])) h0
    · exact hy1
  · rcases hz with ⟨hx0, rfl⟩ | ⟨hx1, hy1, hbit⟩
    · exact hx0
    · rcases h2 with h2 | h2
      · obtain ⟨v, rfl⟩ := Option.isSome_iff_exists.1 h2
        have hv := Option.some_inj.1 ((h.rhs v rfl).symm.trans hy1)
        rcases hbit with rfl | rfl
        · rw [Word.toInt_eq_zero_iff] at hv
          exact absurd (.inr (by rw [hv])) h0
        · exact hx1
      · exact (h.same h2).trans hy1
  · trivial

theorem foldOr_gives (h : Fold.Sees l? r? same x? y?) (hz : Disjoins x? y? z) :
    (foldOr l? r? same).Gives x? y? z := by
  have hzero : ∀ {o? : Option Int64} {v : Int64}, o? = some v → ¬ o?.any (· ≠ 0) → v = 0 := by
    intro o? v hv hany
    simpa [hv] using hany
  have hnonzero : ∀ {o? : Option Int64}, o?.any (· ≠ 0) → ∃ v, o? = some v ∧ v.toInt ≠ 0 := by
    intro o? hany
    obtain ⟨v, hv, h0⟩ := (Option.any_eq_true _ _).1 hany
    exact ⟨v, hv, mt (Word.toInt_eq_zero_iff v).1 (of_decide_eq_true h0)⟩
  unfold foldOr
  split_ifs with h0 h1 h2
  · rcases h0 with h0 | h0
    · obtain ⟨v, rfl, hv⟩ := hnonzero h0
      rcases hz with ⟨-, rfl⟩ | ⟨hx0, -⟩
      · rfl
      · exact absurd (Option.some_inj.1 ((h.lhs v rfl).symm.trans hx0)) hv
    · obtain ⟨v, rfl, hv⟩ := hnonzero h0
      rcases hz with ⟨-, rfl⟩ | ⟨-, hy1, hbit⟩
      · rfl
      · have hzv := Option.some_inj.1 (hy1.symm.trans (h.rhs v rfl))
        exact hbit.resolve_left (hzv ▸ hv)
  · obtain ⟨v, rfl⟩ := Option.isSome_iff_exists.1 h1
    have hv := hzero rfl (mt .inl h0)
    subst hv
    rcases hz with ⟨hx1, -⟩ | ⟨-, hy1, -⟩
    · cases (h.lhs 0 rfl).symm.trans hx1
    · exact hy1
  · rcases hz with ⟨hx1, rfl⟩ | ⟨hx0, hy1, -⟩
    · exact hx1
    · rcases h2 with h2 | h2
      · obtain ⟨v, rfl⟩ := Option.isSome_iff_exists.1 h2
        have hv := hzero rfl (mt .inr h0)
        subst hv
        have hz0 : z = 0 := Option.some_inj.1 (hy1.symm.trans (h.rhs 0 rfl))
        exact hz0 ▸ hx0
      · exact (h.same h2).trans hy1
  · trivial

namespace Valuation

variable {ν : Valuation} {known : Env Domain} {e a b : ExprId}

theorem Admits.conjoins (h : ν.Admits known) (hn : ν.ctx.node e = .and a b)
    (hz : ν.value e = some z) : Conjoins (ν.value a) (ν.value b) z := by
  rw [value_and hn] at hz
  refine conjoins_of_value (h.isBit e a ?_) (h.isBit e b ?_) hz
  · simp [hn, Node.conditions]
  · simp [hn, Node.conditions]

theorem Admits.disjoins (h : ν.Admits known) (hn : ν.ctx.node e = .or a b)
    (hz : ν.value e = some z) : Disjoins (ν.value a) (ν.value b) z := by
  rw [value_or hn] at hz
  refine disjoins_of_value (h.isBit e a ?_) (h.isBit e b ?_) hz
  · simp [hn, Node.conditions]
  · simp [hn, Node.conditions]

end Valuation

end LoopBounds
