import LoopBounds.Proofs.Soundness
import LoopBounds.Proofs.ValueSet

/-!
# Values and their sets

The set that is found for an expression holds its value at every admissible assignment of words
that keeps the variables within their sets.  The ends of the set have exact values on the right
side of it; over words they evaluate to these wherever the remainders that they meet can be
computed.
-/

namespace LoopBounds

/-- Each end that is present evaluates to a bound on its side. -/
def Context.Holds (ctx : Context) (env : Env Int64) (set : ValueSet) (z : Int) : Prop :=
  (∀ e, set.lo? = some e → ∃ w, ctx.EvalsTo env e w ∧ w.toInt ≤ z) ∧
    ∀ e, set.hi? = some e → ∃ w, ctx.EvalsTo env e w ∧ z ≤ w.toInt

theorem Valuation.Holds.evaluated {ctx : Context} {env : Env Int64} {known : Env Domain}
    {set : ValueSet} {z : Int} (h : (ctx.valuation env).Holds set z)
    (hadmits : (ctx.valuation env).Admits known) : ctx.Holds env set z := by
  refine ⟨fun e he => ?_, fun e he => ?_⟩
  · obtain ⟨y, hy, hle⟩ := h.1 e he
    obtain ⟨w, hw, rfl⟩ := Context.exists_evalsTo hadmits hy
    exact ⟨w, hw, hle⟩
  · obtain ⟨y, hy, hle⟩ := h.2 e he
    obtain ⟨w, hw, rfl⟩ := Context.exists_evalsTo hadmits hy
    exact ⟨w, hw, hle⟩

/-- The only value of a set is the one that the set holds. -/
theorem Context.Holds.evalsTo_point {ctx : Context} {env : Env Int64} {set : ValueSet} {v : Int64}
    (h : ctx.Holds env set v.toInt) {p : ExprId} (hp : set.point? = some p) :
    ctx.EvalsTo env p v := by
  rw [ValueSet.point?] at hp
  split at hp
  · next heq =>
    obtain ⟨w, hw, hle⟩ := h.1 p hp
    obtain ⟨w', hw', hge⟩ := h.2 p (heq ▸ hp)
    have hsame := Option.some_inj.1 (hw.1.symm.trans hw'.1)
    have hwv : w = v := Int64.toInt_inj.1 (le_antisymm hle (hsame ▸ hge))
    exact hwv ▸ hw
  · cases hp

namespace Query

variable {s s' : Session} {sets : Env ValueSet} {e : ExprId} {r : ValueSet} {env : Env Int64}
  {v : Int64}

/-- The set found for an expression holds its value, and the value of a single point is that of
the expression. -/
theorem holds_valuesOf (hs : s.Reachable) (he : s.ctx.Stored e)
    (hsets : ∀ w t, sets w = some t → s.ctx.StoredSet t)
    (hrun : (valuesOf sets e).run s = (r, s')) (hadmits : (s'.ctx.valuation env).Admits s.domains)
    (hwithin : (s'.ctx.valuation env).Within sets) (hv : s.ctx.eval env e = some v) :
    s'.ctx.Holds env r v.toInt ∧ ∀ p, r.point? = some p → s'.ctx.EvalsTo env p v := by
  have hvalued := valued sets e s hs.valid he hsets
  have hgrows := hvalued.grows
  have hencloses := hvalued.post
  simp only [hrun] at hgrows hencloses
  have heval : s'.ctx.eval env e = some v := (hgrows.eval_eq hs.valid.wellFormed env he).trans hv
  have hexact : (s'.ctx.valuation env).value e = some v.toInt :=
    Valuation.value_of_eval (ν := s'.ctx.valuation env) rfl heval
  have hholds : s'.ctx.Holds env r v.toInt :=
    (hencloses.holds le_rfl ⟨hadmits, hwithin, hexact⟩).evaluated hadmits
  constructor
  · exact hholds
  · intro p hp
    exact hholds.evalsTo_point hp

/-- `(y - x * 2) / 3` where `x` is one of `[2, 12)`. -/
def thirdOfDifference : Session × ExprId :=
  Session.sample 2 10 fun x y => do
    let difference ← Build.sub y (← Build.mul x (← Build.constant 2 .int64))
    Build.division .floorDiv difference (← Build.constant 3 .int64)

/-- `x` lies between the least point of its domain and `y`. -/
def upToSecond : Env ValueSet := Env.empty.set ⟨0⟩ (.between ⟨2⟩ ⟨1⟩)

theorem upToSecond_stored {ctx : Context} (h : ctx.StoredSet (.between ⟨2⟩ ⟨1⟩)) (w : VarId)
    (t : ValueSet) (hw : upToSecond w = some t) : ctx.StoredSet t := by
  by_cases hx : w = ⟨0⟩
  · rw [hx, upToSecond, Env.set_self, Option.some_inj] at hw
    exact hw ▸ h
  · rw [upToSecond, Env.set_of_ne _ _ hx] at hw
    cases hw

theorem within_upToSecond {ν : Valuation} (h : ∀ x ∈ ν.env ⟨0⟩, ν.Holds (.between ⟨2⟩ ⟨1⟩) x) :
    ν.Within upToSecond := by
  intro w t x hw hx
  by_cases hw0 : w = ⟨0⟩
  · rw [hw0] at hw hx
    rw [upToSecond, Env.set_self, Option.some_inj] at hw
    exact hw ▸ h x hx
  · rw [upToSecond, Env.set_of_ne _ _ hw0] at hw
    cases hw

/-- At `x = 4` and `y = 9`, the value zero lies between `-y / 3` and `(y - 4) / 3`. -/
theorem holds_valuesOf_thirdOfDifference : ∃ r s',
    (valuesOf upToSecond thirdOfDifference.2).run thirdOfDifference.1 = (r, s') ∧
      thirdOfDifference.1.ctx.eval (Session.sampleEnv 4 9) thirdOfDifference.2 = some 0 ∧
      s'.ctx.Holds (Session.sampleEnv 4 9) r (0 : Int64).toInt ∧
      ∀ p, r.point? = some p → s'.ctx.EvalsTo (Session.sampleEnv 4 9) p 0 :=
  ⟨_, _, Prod.mk.eta.symm, by decide +kernel, holds_valuesOf
    (Session.sample_reachable (by decide +kernel) (by decide +kernel)) (by decide +kernel)
    (upToSecond_stored (by decide +kernel)) Prod.mk.eta.symm
    (Session.admits_of_bindings (by decide +kernel) (by decide +kernel))
    (within_upToSecond (by decide +kernel)) (by decide +kernel)⟩

/-- At `x = -2^63 + 1` and `y = 1`, `(x + y * 3) mod 3` is two, but the only point of its set,
`x mod 3`, has no value. -/
theorem valuesOf_remainderOfSum_loses_value : ∃ r s',
    (valuesOf Env.empty (remainderOfSum (Int64.minValue + 1)).2).run
        (remainderOfSum (Int64.minValue + 1)).1 = (r, s') ∧
      (remainderOfSum (Int64.minValue + 1)).1.Reachable ∧
      (remainderOfSum (Int64.minValue + 1)).1.ctx.Stored (remainderOfSum (Int64.minValue + 1)).2 ∧
      (s'.ctx.valuation (Session.sampleEnv (Int64.minValue + 1) 1)).Admits
        (remainderOfSum (Int64.minValue + 1)).1.domains ∧
      (remainderOfSum (Int64.minValue + 1)).1.ctx.eval
        (Session.sampleEnv (Int64.minValue + 1) 1) (remainderOfSum (Int64.minValue + 1)).2 =
          some 2 ∧
      ∃ p ∈ r.point?, s'.ctx.eval (Session.sampleEnv (Int64.minValue + 1) 1) p = none :=
  ⟨_, _, Prod.mk.eta.symm, Session.sample_reachable (by decide +kernel) (by decide +kernel),
    by decide +kernel, Session.admits_of_bindings (by decide +kernel) (by decide +kernel),
    by decide +kernel, by decide +kernel⟩

end Query

end LoopBounds
