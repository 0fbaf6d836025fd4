import LoopBounds.Proofs.CallFree
import LoopBounds.Proofs.Constructors

/-!
# Readings

Expressions are read as integers in two ways: by their exact values, and by the words that they
evaluate to.  What is proved of the expressions that a sweep builds needs no more than what both
have in common: a reading lasts when more is stored, and an operator is read as such where its
result, and for a remainder the multiple that is taken off, does not leave the range of the
reading.
-/

namespace LoopBounds

/-- A way to read expressions as integers, which may say something under a condition only. -/
structure Reading where
  /-- In the context, the expression is read as the integer. -/
  holds : Context → ExprId → Int → Prop
  /-- The integers that results may be. -/
  fits : Int → Prop
  /-- The condition under which expressions are told apart by how they are read. -/
  sure : Prop
  stored : ∀ {ctx e z}, holds ctx e z → ctx.Stored e
  grows : ∀ {ctx ctx' e z}, ctx.WellFormed → ctx.Grows ctx' → holds ctx e z → holds ctx' e z
  congr : ∀ {ctx e z z'}, (sure → z = z') → holds ctx e z → holds ctx e z'
  literal : ∀ {ctx e z w}, sure → holds ctx e z → ctx.literal? e = some w → w.toInt = z
  constant : ∀ {ctx} (w : Int64) (t : Scalar),
    Build.Ensures (Build.constant w t) ctx fun r ctx' => holds ctx' r w.toInt
  arith : ∀ {ctx a b x y z} {op : Arith}, ctx.WellFormed → holds ctx a x → holds ctx b y →
    op.exact x y = some z → op.Within fits x y z →
      Build.Ensures (Build.arith op a b) ctx fun r ctx' => holds ctx' r z

namespace Reading

variable {R : Reading} {ctx : Context} {a b : ExprId} {x y : Int}

theorem offset_ensures (hwf : ctx.WellFormed) (ha : R.holds ctx a x) (hb : R.holds ctx b y)
    (hfits : R.fits (x + y)) :
    Build.Ensures (Build.offset a b) ctx fun r ctx' => R.holds ctx' r (x + y) := by
  refine Build.Ensures.get ?_
  split
  · next hzero =>
    refine .pure (R.congr (fun hsure => ?_) ha)
    have hy := R.literal hsure hb (of_decide_eq_true hzero)
    rw [← hy, Int64.toInt_zero, add_zero]
  · exact R.arith hwf ha hb rfl ⟨hfits, nofun⟩

theorem isZero_eq_false (hsure : R.sure) (hb : R.holds ctx b y) (hy : y ≠ 0) :
    ctx.isZero b = false := by
  rw [Bool.eq_false_iff]
  intro hzero
  have hlit := R.literal hsure hb (of_decide_eq_true hzero)
  exact hy (by rw [← hlit, Int64.toInt_zero])

/-- Exact values under a condition, for expressions without calls. -/
def exact (sure : Prop) (env : Env Int) : Reading where
  holds ctx e z := ctx.Over .callFree e ∧ (sure → (⟨ctx, 0, env⟩ : Valuation).value e = some z)
  fits _ := True
  sure := sure
  stored h := h.1.stored
  grows _ hg h := ⟨h.1.mono hg.le, fun hsure => (h.1.value_eq hg.le 0 0 env).trans (h.2 hsure)⟩
  congr hz h := ⟨h.1, fun hsure => hz hsure ▸ h.2 hsure⟩
  literal hsure h hw := Option.some_inj.1
    ((Build.value_of_literal? (ν := ⟨_, 0, env⟩) le_rfl h.1.stored hw).symm.trans (h.2 hsure))
  constant w t := (Build.constant_denotes _ .callFree w t).mono fun r ctx' _ hr =>
    ⟨hr.nodes, fun _ => hr.value ⟨ctx', 0, env⟩ le_rfl _ rfl⟩
  arith := by
    rintro ctx a b x y z op - ⟨ha, hx⟩ ⟨hb, hy⟩ hz -
    refine (Build.arith_denotes op ha hb).mono fun r ctx' hg hr => ⟨hr.nodes, fun hsure => ?_⟩
    refine hr.value ⟨ctx', 0, env⟩ le_rfl z ⟨x, y, ?_, ?_, hz⟩
    · exact (ha.value_eq hg.le 0 0 env).trans (hx hsure)
    · exact (hb.value_eq hg.le 0 0 env).trans (hy hsure)

/-- The words that expressions evaluate to. -/
def word (env : Env Int64) : Reading where
  holds ctx e z := ctx.Stored e ∧ ∃ w, ctx.eval env e = some w ∧ w.toInt = z
  fits := Word.Fits
  sure := True
  stored h := h.1
  grows hwf hg h := ⟨h.1.mono hg.le, by rw [hg.eval_eq hwf env h.1]; exact h.2⟩
  congr hz h := hz trivial ▸ h
  literal := by
    rintro ctx e _ w - ⟨-, v, hv, rfl⟩ hw
    rw [Option.some_inj.1 (hv.symm.trans (Context.evalWithin_of_literal? hw))]
  constant w t := (Build.constant_computes _ env w t).mono fun _ _ _ ⟨hr, hw⟩ => ⟨hr, w, hw, rfl⟩
  arith := by
    rintro ctx a b _ _ z op hwf ⟨ha, u, hu, rfl⟩ ⟨hb, v, hv, rfl⟩ hz hfits
    obtain ⟨w, hw, rfl⟩ := Arith.exists_apply_of_within hz hfits
    refine (Build.arith_computes hwf.body op ⟨ha, hu⟩ ⟨hb, hv⟩).mono fun r ctx' _ ⟨hr, hw'⟩ => ?_
    exact ⟨hr, w, hw'.trans hw, rfl⟩

end Reading

end LoopBounds
