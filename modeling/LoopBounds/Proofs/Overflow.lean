import LoopBounds.Proofs.Literals

/-!
# Overflow

A sum or a product of literals that leaves the word is an atom to the affine forms, and its bounds
have an infinite end.  So simplification keeps it, and a quotient rounded up over such a sum does
not become a literal.
-/

namespace LoopBounds

namespace Affine

variable {ctx : Context} {e c l : ExprId}

/-! ## Forms over a sum that leaves the word -/

theorem ofExpr_of_literal? {w : Int64} (h : ctx.literal? e = some w) :
    ofExpr ctx e = ofConst w := by
  obtain ⟨t, hn⟩ := Context.exists_node_of_literal? h
  rw [ofExpr]
  split <;> simp_all

theorem ofConst_add_eq_none {u v : Int64} (h : Word.add u v = none) :
    (ofConst u).add (ofConst v) = none := by
  simp [add, ofConst, h]

theorem ofConst_scale_eq_none {u v : Int64} (h : Word.mul u v = none) :
    (ofConst u).scale v = none := by
  have hv : v ≠ 0 := by
    rintro rfl
    rw [Word.mul, Int64.toInt_zero, mul_zero] at h
    cases h
  simp [scale, ofConst, hv, h]

theorem ofExpr_of_overflows (h : ctx.Overflows .add e) : ofExpr ctx e = atom e := by
  obtain ⟨-, -, a, b, _, _, z, hn, ⟨-, u, hu, rfl⟩, ⟨-, v, hv, rfl⟩, hz, hfits⟩ := h
  have hnone : Word.add u v = none := @Arith.apply_eq_none .add (.inl rfl) u v z hz hfits
  rw [ofExpr]
  split
  all_goals simp_all
  rw [ofExpr_of_literal? hu, ofExpr_of_literal? hv, ofConst_add_eq_none hnone, Option.getD_none]

theorem atom_sub_one (e : ExprId) : (atom e).sub (ofConst 1) = some ⟨[(e, 1)], -1⟩ := by
  have hmul : Word.mul 1 (-1) = some (-1) := by decide
  have hadd : Word.add 0 (-1) = some (-1) := by decide
  simp [sub, scale, add, atom, ofConst, addTerms, hmul, hadd]

theorem atom_add_pred (e : ExprId) : (atom e).add (ofConst (-1)) = some ⟨[(e, 1)], -1⟩ := by
  have hadd : Word.add 0 (-1) = some (-1) := by decide
  simp [add, atom, ofConst, addTerms, hadd]

theorem pred_add_atom (e : ExprId) : (ofConst (-1)).add (atom e) = some ⟨[(e, 1)], -1⟩ := by
  have hadd : Word.add (-1) 0 = some (-1) := by decide
  simp [add, atom, ofConst, addTerms, hadd]

theorem ofExpr_of_pred (hn : ctx.node e = .arith .sub c l) (hc : ctx.Overflows .add c)
    (hl : ctx.literal? l = some 1) : ofExpr ctx e = ⟨[(c, 1)], -1⟩ := by
  rw [ofExpr]
  split
  all_goals simp_all
  rw [ofExpr_of_overflows hc, ofExpr_of_literal? hl, atom_sub_one, Option.getD_some]

theorem neg_one_emod {n : Int} (hn : 0 < n) : -1 % n = n - 1 := by
  rw [← Int.add_emod_right, Int.emod_eq_of_lt] <;> omega

theorem neg_one_ediv {n : Int} (hn : 0 < n) : -1 / n = -1 := by
  rw [Int.ediv_eq_iff_of_pos hn]
  omega

theorem splitBy_pred (e : ExprId) {w : Int64} (hw : 1 < w.toInt) :
    splitBy ⟨[(e, 1)], -1⟩ w = (ofConst (-1), ⟨[(e, 1)], Int64.ofInt (w.toInt - 1)⟩) := by
  have hone : (1 % w : Int64) ≠ 0 := by
    rw [Ne, ← Int64.toInt_inj, Int64.toInt_mod]
    simp [Int.tmod_eq_of_lt (by decide : (0 : Int) ≤ 1) hw]
  have hneg : (-1 : Int64).toInt = -1 := by decide
  simp [splitBy, ofConst, hone, hneg, neg_one_emod (n := w.toInt) (by omega),
    neg_one_ediv (n := w.toInt) (by omega)]

theorem toExpr_atom_pos (e : ExprId) {c : Int64} (hc : 0 < c) (type : Scalar) :
    toExpr ⟨[(e, 1)], c⟩ type = Build.addConst e c := by
  have hpos : (0 : Int64) < 1 := by decide
  have hneg : ¬ (1 : Int64) < 0 := by decide
  simp [toExpr, addTerm, hpos, hneg, hc]

theorem toExpr_atom_pred (e : ExprId) (type : Scalar) :
    toExpr ⟨[(e, 1)], -1⟩ type = (do Build.sub e (← Build.constantLike 1 e)) := by
  have hpos : (0 : Int64) < 1 := by decide
  have hneg : ¬ (1 : Int64) < 0 := by decide
  have hc : ¬ (0 : Int64) < -1 := by decide
  have hc' : (-1 : Int64) < 0 := by decide
  have hm : Word.neg (-1) = some 1 := by decide
  simp [toExpr, addTerm, hpos, hneg, hc, hc', hm]

/-- The form `e + w` over a stuck `e`, as it is written. -/
theorem toExpr_atom_pos_ensures (he : ctx.Stuck e) {w : Int64} (hw : 0 < w) (type : Scalar) :
    Build.Ensures (toExpr ⟨[(e, 1)], w⟩ type) ctx fun r ctx' =>
      ctx'.Stored r ∧ ∃ l, ctx'.node r = .arith .add e l := by
  rw [toExpr_atom_pos e hw]
  refine Build.Ensures.bind (Q := fun l ctx' => ctx'.Literal l w.toInt)
    (Build.constant_literal ctx w _) fun l ctx₁ hg hl => ?_
  refine (Build.arith_node (he.1.mono hg.le) hl.1 ?_).mono fun r ctx₂ _ ⟨hr, hn⟩ => ⟨hr, l, hn⟩
  obtain ⟨-, v, hv, hvw⟩ := hl
  obtain rfl := Int64.toInt_inj.1 hvw
  have hv0 : v ≠ 0 := by
    rintro rfl
    exact absurd hw (by decide)
  rw [(he.mono hg.le).2, hv]
  simp [Arith.fold, Arith.foldUnit, hv0]

/-- The form `e - 1` over a stuck `e`, as it is written. -/
theorem toExpr_atom_pred_ensures (he : ctx.Stuck e) (type : Scalar) :
    Build.Ensures (toExpr ⟨[(e, 1)], -1⟩ type) ctx fun r ctx' =>
      ctx'.Stored r ∧ ∃ l, ctx'.node r = .arith .sub e l ∧ ctx'.literal? l = some 1 := by
  rw [toExpr_atom_pred e]
  refine Build.Ensures.bind (Q := fun l ctx' => ctx'.Literal l (Int64.toInt 1))
    (Build.constant_literal ctx 1 _) fun l ctx₁ hg hl => ?_
  have hne : e ≠ l := by
    rintro rfl
    exact (he.mono hg.le).not_literal hl
  obtain ⟨hstored, v, hv, hv1⟩ := hl
  obtain rfl := Int64.toInt_inj.1 hv1
  refine (Build.arith_node (he.1.mono hg.le) hstored ?_).mono fun r ctx₂ hg₂ ⟨hr, hn⟩ =>
    ⟨hr, l, hn, (Context.literal?_eq hg₂.le hstored).trans hv⟩
  rw [(he.mono hg.le).2, hv]
  simp [Arith.fold, Arith.foldUnit, hne]

end Affine

/-! ## Bounds of a sum that leaves the word -/

namespace Interval

theorem add_point_infinite {u v : Int64} (h : ¬ Word.Fits (u.toInt + v.toInt)) :
    ((point u).add (point v)).lo = negInf ∨ ((point u).add (point v)).hi = posInf := by
  simp only [Word.Fits, not_and_or, not_le] at h
  rcases h with h | h
  · refine .inl ?_
    rw [add]
    dsimp only
    split
    · rfl
    · exact if_pos h.le
  · refine .inr ?_
    have hlt : Int64.minValue.toInt < Int64.maxValue.toInt := by decide
    rw [add]
    dsimp only
    split
    · rfl
    · exact (if_neg (hlt.trans h).not_ge).trans (if_pos h.le)

theorem isFinite_add {i : Interval} (h : i.lo = negInf ∨ i.hi = posInf) (j : Interval) :
    (i.add j).isFinite = false := by
  rcases h with h | h <;> simp [add, isFinite, isInf, h]

end Interval

namespace Context

variable {ctx : Context} {deeper? : Option Bounding} {domains : Env Domain} {given : Env Interval}
  {e a b c l : ExprId}

theorem boundStep_literal {w : Int64} (h : ctx.literal? e = some w) :
    ctx.boundStep deeper? domains given e = .point w := by
  obtain ⟨t, hn⟩ := exists_node_of_literal? h
  exact boundStep_const hn

theorem boundStep_overflow (hn : ctx.node e = .arith .add c l) (hc : ctx.Overflows .add c) :
    (ctx.boundStep deeper? domains given e).isFinite = false := by
  obtain ⟨-, -, a, b, _, _, _, hnc, ⟨-, u, hu, rfl⟩, ⟨-, v, hv, rfl⟩, hz, hfits⟩ := hc
  cases hz
  rw [boundStep_arith hn, boundStep_arith hnc, boundStep_literal hu, boundStep_literal hv]
  exact Interval.isFinite_add (Interval.add_point_infinite hfits) _

/-- What is neither a literal nor a sum or a product of literals may simplify to anything. -/
theorem faithful_of_node {op : Arith} (he : ctx.Stored e) (hn : ctx.node e = .arith op a b)
    (ha : ctx.Stuck a) (r : ExprId) : ctx.Faithful e r := by
  refine ⟨he, fun z hz => absurd hz (stuck_of_node he hn).not_literal, fun op' ho => ?_⟩
  obtain ⟨-, -, a', b', _, _, _, hn', ha', -⟩ := ho
  cases hn'.symm.trans hn
  exact absurd ha' ha.not_literal

end Context

/-! ## Simplification -/

namespace Query

variable {s : Session} {op : Arith} {a b c e l p : ExprId} {w : Int64} {x y z : Int}

theorem simplifyArith_overflows {type : Scalar} (hop : op = .add ∨ op = .mul)
    (ha : s.ctx.Literal a x) (hb : s.ctx.Literal b y) (hz : op.exact x y = some z)
    (h : ¬ Word.Fits z) :
    Leads (simplifyArith op type a b) s fun r s' =>
      s'.analyzer = s.analyzer ∧ s.ctx.Grows s'.ctx ∧ s'.ctx.Overflows op r := by
  have hkept := Leads.ofBuild (Build.arith_overflows hop ha hb hz h)
  obtain ⟨-, u, hu, rfl⟩ := ha
  obtain ⟨-, v, hv, rfl⟩ := hb
  have hnone := Arith.apply_eq_none hop hz h
  rcases hop with rfl | rfl
  · refine .context ?_
    rw [Affine.ofExpr_of_literal? hu, Affine.ofExpr_of_literal? hv,
      Affine.ofConst_add_eq_none hnone]
    exact hkept
  · refine .context ?_
    dsimp only
    rw [Affine.ofExpr_of_literal? hu, Affine.ofExpr_of_literal? hv]
    have hscale := Affine.ofConst_scale_eq_none hnone
    simp only [Affine.ofConst, Affine.const?, List.isEmpty_nil, if_true] at hscale ⊢
    rw [hscale]
    exact hkept

/-- A sum or a product that leaves the word stays one. -/
theorem simplify_overflows (hs : s.Settled) (he : s.ctx.Overflows op e) :
    Leads (simplify e) s fun r s' => s.ctx.Grows s'.ctx ∧ s'.Settled ∧ s'.ctx.Overflows op r ∧
      ∀ e', s'.analyzer.bound? e' = s.analyzer.bound? e' := by
  rw [simplify]
  refine .analyzer ?_
  split
  · next r hr => exact .pure ⟨.refl _, hs, (hs.simplified e r hr).overflows op he, fun _ => rfl⟩
  obtain ⟨hstored, hop, a, b, x, y, z, hn, ha, hb, hz, h⟩ := id he
  refine .context ?_
  dsimp only
  split
  case h_3 op' a' b' hn' =>
    cases hn'.symm.trans hn
    refine (simplify_literal hs ha).bind ?_
    rintro a' s₁ ⟨ha', hs₁⟩
    refine (simplify_literal (hs₁.settled hs) (hs₁.ctx ▸ hb)).bind ?_
    rintro b' s₂ ⟨hb', hs₂⟩
    have hs' := hs₁.trans hs₂
    refine (simplifyArith_overflows hop (hs'.ctx ▸ ha') (hs₂.ctx ▸ hb') hz h).bind ?_
    rintro r ⟨ctx, an⟩ ⟨rfl, hg, hr⟩
    rw [hs'.ctx] at hg
    have hfaithful : ctx.Faithful e r := by
      refine ⟨hstored.mono hg.le, fun z hz => ?_, fun op' ho => ?_⟩
      · exact absurd hz (he.stuck.mono hg.le).not_literal
      · obtain ⟨-, -, a₁, b₁, _, _, _, hn₁, -⟩ := ho
        rw [Context.node_eq hg.le hstored, hn] at hn₁
        cases hn₁
        exact hr
    have hsettled : Session.Settled ⟨ctx, s₂.analyzer⟩ :=
      Session.Settled.mono (hs'.settled hs) (hs'.ctx.symm ▸ hg.le)
    refine (recordSimplified_settled hsettled hfaithful).bind ?_
    rintro _ s₃ ⟨hctx, hs₃, hb₃⟩
    exact .pure ⟨hctx ▸ hg, hs₃, hctx ▸ hr, fun e' => (hb₃ e').trans (hs'.bound e')⟩
  all_goals simp_all

/-- One less than a sum that leaves the word. -/
theorem simplify_pred (hs : s.Settled) (hmiss : s.analyzer.simplified? e = none)
    (he : s.ctx.Stored e) (hn : s.ctx.node e = .arith .add a l) (ha : s.ctx.Overflows .add a)
    (hl : s.ctx.Literal l (-1)) :
    Leads (simplify e) s fun r s' => s.ctx.Grows s'.ctx ∧ s'.Settled ∧
      (∀ e', s'.analyzer.bound? e' = s.analyzer.bound? e') ∧ ∃ c d, s'.ctx.Stored r ∧
        s'.ctx.node r = .arith .sub c d ∧ s'.ctx.Overflows .add c ∧ s'.ctx.literal? d = some 1 := by
  rw [simplify]
  refine .analyzer ?_
  rw [hmiss]
  refine .context ?_
  dsimp only
  split
  case h_3 op' a' b' hn' =>
    cases hn'.symm.trans hn
    refine (simplify_overflows hs ha).bind fun c s₁ ⟨hg₁, hs₁, hc, hb₁⟩ => ?_
    refine (simplify_literal hs₁ (hl.mono hg₁.le)).bind fun m s₂ ⟨hm, hs₂⟩ => ?_
    have hc₂ : s₂.ctx.Overflows .add c := hs₂.ctx ▸ hc
    obtain ⟨-, v, hv, hv1⟩ := hm
    obtain rfl := Int64.toInt_inj.1 (hv1.trans (by decide : (-1 : Int) = (-1 : Int64).toInt))
    rw [← hs₂.ctx] at hv
    refine Leads.bind (Q := fun r s' => s'.analyzer = s₂.analyzer ∧ s₂.ctx.Grows s'.ctx ∧
      s'.ctx.Stored r ∧ ∃ d, s'.ctx.node r = .arith .sub c d ∧ s'.ctx.literal? d = some 1) ?_ ?_
    · refine .context ?_
      rw [Affine.ofExpr_of_overflows hc₂, Affine.ofExpr_of_literal? hv, Affine.atom_add_pred]
      exact .ofBuild (Affine.toExpr_atom_pred_ensures hc₂.stuck _)
    rintro r ⟨ctx, an⟩ ⟨rfl, hg, hr, d, hnr, hd⟩
    have hg' : s.ctx.Grows ctx := hg₁.trans (hs₂.ctx ▸ hg)
    have hsettled : Session.Settled ⟨ctx, s₂.analyzer⟩ :=
      Session.Settled.mono (hs₂.settled hs₁) hg.le
    have hfaithful : ctx.Faithful e r := Context.faithful_of_node (he.mono hg'.le)
      ((Context.node_eq hg'.le he).trans hn) (ha.stuck.mono hg'.le) r
    refine (recordSimplified_settled hsettled hfaithful).bind fun _ s₃ ⟨hctx, hs₃, hb₃⟩ => ?_
    exact .pure ⟨hctx ▸ hg', hs₃, fun e' => (hb₃ e').trans ((hs₂.bound e').trans (hb₁ e')), c, d,
      hctx ▸ hr, hctx ▸ hnr, hctx ▸ hc₂.mono hg.le, hctx ▸ hd⟩
  all_goals simp_all

theorem bound_unknown (h : s.analyzer.bound? e = none) :
    Leads (bound e) s fun i s' => s'.ctx = s.ctx ∧
      i = s.ctx.boundWithin Context.bindingDepth (s.analyzer.bindings[·]?) Env.empty e := by
  refine .analyzer ?_
  rw [h]
  exact .context ⟨rfl, rfl⟩

/-- Its quotient by more than one: the bounds do not decide it, so the division stays. -/
theorem simplifyDivision_stuck {type : Scalar} (hw : 1 < w.toInt)
    (hn : s.ctx.node a = .arith .sub c l) (hc : s.ctx.Overflows .add c)
    (hl : s.ctx.literal? l = some 1) (hbound : ∀ e, s.analyzer.bound? e = none) :
    Leads (simplifyDivision .floorDiv type a w) s fun r s' => s'.ctx.Stuck r := by
  have hword : (Int64.ofInt (w.toInt - 1)).toInt = w.toInt - 1 := by
    refine Word.toInt_ofInt ⟨?_, (sub_le_self _ zero_le_one).trans (Int64.toInt_le w)⟩
    rw [Int64.toInt_minValue]
    omega
  have hpos : 0 < Int64.ofInt (w.toInt - 1) := by
    rw [Int64.lt_iff_toInt_lt, hword, Int64.toInt_zero]
    omega
  refine .context ?_
  rw [Affine.ofExpr_of_pred hn hc hl, Affine.splitBy_pred c hw]
  refine .build (Affine.toExpr_atom_pos_ensures hc.stuck hpos type)
    fun rest ctx₁ hg₁ ⟨hrest, d, hnrest⟩ => ?_
  refine (bound_unknown (s := ⟨ctx₁, s.analyzer⟩) (hbound rest)).bind ?_
  rintro i ⟨ctx₁, an⟩ ⟨rfl, rfl⟩
  have hblock : Interval.block? (ctx₁.boundWithin Context.bindingDepth (s.analyzer.bindings[·]?)
      Env.empty rest) w = none := by
    have hinfinite : (ctx₁.boundStep (some (ctx₁.boundWithin 15)) (s.analyzer.bindings[·]?)
        Env.empty rest).isFinite = false := Context.boundStep_overflow hnrest (hc.mono hg₁.le)
    exact if_neg fun h => Bool.false_ne_true (hinfinite.symm.trans h.1)
  rw [hblock]
  refine .build (Build.constant_literal _ w type) fun divisor ctx₂ hg₂ hdivisor => ?_
  have hstuck := (Context.stuck_of_node hrest hnrest).mono hg₂.le
  refine .build (Build.arith_node hstuck.1 hdivisor.1 ?_) fun inner ctx₃ _ ⟨hinner, hninner⟩ => ?_
  · obtain ⟨-, v, hv, hvw⟩ := hdivisor
    have hne : v ≠ 1 := by
      rintro rfl
      rw [← hvw] at hw
      exact absurd hw (by decide)
    rw [hstuck.2, hv]
    simp [Arith.fold, Arith.foldUnit, hne]
  rw [if_neg (by decide), Affine.pred_add_atom]
  refine (Leads.ofBuild (Affine.toExpr_atom_pred_ensures
    (Context.stuck_of_node hinner hninner) type)).mono ?_
  rintro r s' ⟨-, -, hr, m, hnr, -⟩
  exact Context.stuck_of_node hr hnr

/-- A quotient rounded up whose dividend leaves the word does not become a literal. -/
theorem simplify_quotient_stuck (hs : s.Settled) (hf : s.Fresh) (he : s.ctx.Stored e)
    (hn : s.ctx.node e = .arith .floorDiv p b) (hp : s.ctx.node p = .arith .add a l)
    (ha : s.ctx.Overflows .add a) (hl : s.ctx.Literal l (-1)) (hb : s.ctx.Literal b y)
    (hy : 1 < y) : Leads (simplify e) s fun r s' => s'.ctx.Stuck r := by
  have hmiss : ∀ {c : ExprId}, s.ctx.Stuck c → s.analyzer.simplified? c = none := by
    intro c hc
    by_contra h
    obtain ⟨r, hr⟩ := Option.ne_none_iff_exists'.1 h
    obtain ⟨z, hz⟩ := hf.simplified c r hr
    exact hc.not_literal hz
  have hpstored : s.ctx.Stored p := he.child (by simp [hn, Node.children])
  rw [simplify]
  refine .analyzer ?_
  rw [hmiss (Context.stuck_of_node he hn)]
  refine .context ?_
  dsimp only
  split
  case h_3 op' p' b' hn' =>
    cases hn'.symm.trans hn
    refine (simplify_pred hs (hmiss (Context.stuck_of_node hpstored hp)) hpstored hp ha hl).bind ?_
    rintro q s₁ ⟨hg₁, hs₁, hb₁, c, d, _, hnq, hc, hd⟩
    refine (simplify_literal hs₁ (hb.mono hg₁.le)).bind ?_
    rintro m s₂ ⟨hm, hs₂⟩
    rw [← hs₂.ctx] at hm hnq hc hd
    obtain ⟨-, w, hw, rfl⟩ := hm
    refine Leads.bind (Q := fun r s' => s'.ctx.Stuck r) ?_ fun _ _ hr => hr
    refine .context ?_
    rw [hw]
    dsimp only
    rw [if_pos (Int64.lt_iff_toInt_lt.2 (by rw [Int64.toInt_zero]; omega))]
    refine simplifyDivision_stuck hy hnq hc hd fun e' => ?_
    exact (hs₂.bound e').trans ((hb₁ e').trans (hf.bound e'))
  all_goals simp_all

end Query

end LoopBounds
