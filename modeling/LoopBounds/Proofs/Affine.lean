import LoopBounds.Affine
import LoopBounds.Proofs.Build

/-!
# Exactness of affine forms

An affine form has the value of its sum over the unbounded integers.  Reading an expression as a
form keeps its value, the arithmetic of forms is exact where it does not overflow, and the
expression that a form is written as has the value of the form.
-/

namespace LoopBounds.Affine

/-- The terms have values, and `s` is their sum. -/
inductive Sums (ν : Valuation) : List (ExprId × Int64) → Int → Prop
  | nil : Sums ν [] 0
  | cons {e c ts x s} (hx : ν.value e = some x) (hs : Sums ν ts s) :
    Sums ν ((e, c) :: ts) (c.toInt * x + s)

/-- The form has the value `z`. -/
def HasValue (ν : Valuation) (f : Affine) (z : Int) : Prop :=
  ∃ s, Sums ν f.terms s ∧ s + f.const.toInt = z

/-- The atoms of the form are expressions over `K`, and it has every value that `P` gives it, in
this context and in all later ones. -/
structure Denotes (ctx : Context) (K : NodeClass) (f : Affine) (P : Valuation → Int → Prop) :
    Prop where
  nodes : ∀ t ∈ f.terms, ctx.Over K t.1
  value : ∀ ν, ctx ≤ ν.ctx → ∀ z, P ν z → HasValue ν f z

variable {ctx ctx' : Context} {K : NodeClass} {ν : Valuation} {e : ExprId} {f g h : Affine}
  {P Q : Valuation → Int → Prop}

theorem Denotes.mono (hctx : ctx ≤ ctx') (hf : Denotes ctx K f P) : Denotes ctx' K f P :=
  ⟨fun t ht => (hf.nodes t ht).mono hctx, fun ν hν => hf.value ν (hctx.trans hν)⟩

theorem Denotes.of_imp (hf : Denotes ctx K f P)
    (hQ : ∀ ν, ctx ≤ ν.ctx → ∀ z, Q ν z → P ν z) : Denotes ctx K f Q :=
  ⟨hf.nodes, fun ν hν z hz => hf.value ν hν z (hQ ν hν z hz)⟩

theorem ofConst_denotes (ctx : Context) (K : NodeClass) (c : Int64) :
    Denotes ctx K (ofConst c) fun _ z => z = c.toInt :=
  ⟨nofun, fun _ _ _ hz => ⟨0, .nil, by rw [hz]; exact zero_add _⟩⟩

theorem atom_denotes (he : ctx.Denotes K e P) : Denotes ctx K (atom e) P := by
  refine ⟨fun t ht => ?_, fun ν hν z hz => ⟨_, .cons (he.value ν hν z hz) .nil, ?_⟩⟩
  · rw [List.mem_singleton.1 ht]
    exact he.nodes
  · simp [atom]

/-- A form without terms has the value of its constant only. -/
theorem HasValue.of_const? {c : Int64} {z : Int} (hf : HasValue ν f z) (hc : f.const? = some c) :
    z = c.toInt := by
  obtain ⟨s, hs, rfl⟩ := hf
  simp only [const?, List.isEmpty_iff, Option.ite_none_right_eq_some, Option.some.injEq] at hc
  obtain ⟨hnil, rfl⟩ := hc
  rw [hnil] at hs
  cases hs
  exact zero_add _

/-! ## Arithmetic of forms -/

theorem sums_addTerms {xs ys zs : List (ExprId × Int64)} {x y : Int} (hx : Sums ν xs x)
    (hy : Sums ν ys y) (hz : addTerms xs ys = some zs) : Sums ν zs (x + y) := by
  fun_induction addTerms xs ys generalizing x y zs with
  | case1 ys =>
      cases hz
      cases hx
      rwa [zero_add]
  | case2 xs _ =>
      cases hz
      cases hy
      rwa [add_zero]
  | case3 e a xs f b ys hlt ih =>
      obtain ⟨rest, hrest, hz⟩ := Option.bind_eq_some_iff.1 hz
      cases hz
      obtain _ | @⟨_, _, _, u, s, hu, hs⟩ := hx
      rw [add_assoc]
      exact .cons hu (ih hs hy hrest)
  | case4 e a xs f b ys hlt hgt ih =>
      obtain ⟨rest, hrest, hz⟩ := Option.bind_eq_some_iff.1 hz
      cases hz
      obtain _ | @⟨_, _, _, v, t, hv, ht⟩ := hy
      rw [add_left_comm]
      exact .cons hv (ih hx ht hrest)
  | case5 e a xs f b ys hlt hgt ih =>
      have hef : e = f := Handle.ext_index (by omega)
      subst hef
      obtain ⟨c, hc, hz⟩ := Option.bind_eq_some_iff.1 hz
      obtain ⟨rest, hrest, hz⟩ := Option.bind_eq_some_iff.1 hz
      obtain _ | @⟨_, _, _, u, s, hu, hs⟩ := hx
      obtain _ | @⟨_, _, _, v, t, hv, ht⟩ := hy
      cases hu.symm.trans hv
      have hsum : a.toInt * u + s + (b.toInt * u + t) = c.toInt * u + (s + t) := by
        rw [Word.toInt_of_checked hc]
        ring
      rw [hsum]
      split at hz
      · next h0 =>
        cases hz
        subst h0
        simpa using ih hs ht hrest
      · cases hz
        exact .cons hu (ih hs ht hrest)

theorem mem_addTerms {xs ys zs : List (ExprId × Int64)} (hz : addTerms xs ys = some zs)
    {t : ExprId × Int64} (ht : t ∈ zs) : ∃ u, (u ∈ xs ∨ u ∈ ys) ∧ u.1 = t.1 := by
  fun_induction addTerms xs ys generalizing zs with
  | case1 ys =>
      cases hz
      exact ⟨t, .inr ht, rfl⟩
  | case2 xs _ =>
      cases hz
      exact ⟨t, .inl ht, rfl⟩
  | case3 e a xs f b ys hlt ih =>
      obtain ⟨rest, hrest, hz⟩ := Option.bind_eq_some_iff.1 hz
      cases hz
      rcases List.mem_cons.1 ht with rfl | ht
      · exact ⟨_, .inl List.mem_cons_self, rfl⟩
      · obtain ⟨u, hu, hut⟩ := ih hrest ht
        exact ⟨u, hu.imp_left (List.mem_cons_of_mem _), hut⟩
  | case4 e a xs f b ys hlt hgt ih =>
      obtain ⟨rest, hrest, hz⟩ := Option.bind_eq_some_iff.1 hz
      cases hz
      rcases List.mem_cons.1 ht with rfl | ht
      · exact ⟨_, .inr List.mem_cons_self, rfl⟩
      · obtain ⟨u, hu, hut⟩ := ih hrest ht
        exact ⟨u, hu.imp_right (List.mem_cons_of_mem _), hut⟩
  | case5 e a xs f b ys hlt hgt ih =>
      obtain ⟨c, hc, hz⟩ := Option.bind_eq_some_iff.1 hz
      obtain ⟨rest, hrest, hz⟩ := Option.bind_eq_some_iff.1 hz
      have hmem : t ∈ (e, c) :: rest := by
        split at hz <;> cases hz
        exacts [List.mem_cons_of_mem _ ht, ht]
      rcases List.mem_cons.1 hmem with rfl | hmem
      · exact ⟨(e, a), .inl List.mem_cons_self, rfl⟩
      · obtain ⟨u, hu, hut⟩ := ih hrest hmem
        exact ⟨u, hu.imp (List.mem_cons_of_mem _) (List.mem_cons_of_mem _), hut⟩

theorem add_denotes (hf : Denotes ctx K f P) (hg : Denotes ctx K g Q) (hh : f.add g = some h) :
    Denotes ctx K h fun ν z => ∃ x y, P ν x ∧ Q ν y ∧ x + y = z := by
  obtain ⟨ts, hts, hh⟩ := Option.bind_eq_some_iff.1 hh
  obtain ⟨c, hc, hh⟩ := Option.bind_eq_some_iff.1 hh
  cases hh
  refine ⟨fun t ht => ?_, fun ν hν z => ?_⟩
  · obtain ⟨u, hu, hut⟩ := mem_addTerms hts ht
    exact hut ▸ hu.elim (hf.nodes u) (hg.nodes u)
  · rintro ⟨x, y, hx, hy, rfl⟩
    obtain ⟨s, hs, rfl⟩ := hf.value ν hν x hx
    obtain ⟨t, ht, rfl⟩ := hg.value ν hν y hy
    refine ⟨s + t, sums_addTerms hs ht hts, ?_⟩
    rw [Word.toInt_of_checked hc]
    ring

theorem sums_scale {c : Int64} {ts us : List (ExprId × Int64)} {s : Int} (hs : Sums ν ts s)
    (hus : (ts.mapM fun (e, a) => return (e, ← Word.mul a c)) = some us) :
    Sums ν us (s * c.toInt) := by
  induction hs generalizing us with
  | nil =>
      cases hus
      rw [zero_mul]
      exact .nil
  | @cons e a ts x s hx _ ih =>
      rw [List.mapM_cons] at hus
      obtain ⟨u, hu, hus⟩ := Option.bind_eq_some_iff.1 hus
      obtain ⟨vs, hvs, hus⟩ := Option.bind_eq_some_iff.1 hus
      obtain ⟨b, hb, hu⟩ := Option.bind_eq_some_iff.1 hu
      cases hu
      cases hus
      have hsum : (a.toInt * x + s) * c.toInt = b.toInt * x + s * c.toInt := by
        rw [Word.toInt_of_checked hb]
        ring
      rw [hsum]
      exact .cons hx (ih hvs)

theorem mem_scale {c : Int64} {ts us : List (ExprId × Int64)}
    (hus : (ts.mapM fun (e, a) => return (e, ← Word.mul a c)) = some us) {t : ExprId × Int64}
    (ht : t ∈ us) : ∃ u ∈ ts, u.1 = t.1 := by
  induction ts generalizing us with
  | nil =>
      cases hus
      cases ht
  | cons v ts ih =>
      rw [List.mapM_cons] at hus
      obtain ⟨u, hu, hus⟩ := Option.bind_eq_some_iff.1 hus
      obtain ⟨vs, hvs, hus⟩ := Option.bind_eq_some_iff.1 hus
      obtain ⟨b, -, hu⟩ := Option.bind_eq_some_iff.1 hu
      cases hu
      cases hus
      rcases List.mem_cons.1 ht with rfl | ht
      · exact ⟨v, List.mem_cons_self, rfl⟩
      · obtain ⟨w, hw, hwt⟩ := ih hvs ht
        exact ⟨w, List.mem_cons_of_mem _ hw, hwt⟩

theorem scale_denotes {c : Int64} (hf : Denotes ctx K f P) (hg : f.scale c = some g) :
    Denotes ctx K g fun ν z => ∃ x, P ν x ∧ x * c.toInt = z := by
  unfold scale at hg
  split at hg
  · next h0 =>
    cases hg
    refine (ofConst_denotes ctx K 0).of_imp fun ν hν z ⟨x, _, hz⟩ => ?_
    rw [← hz, h0, Int64.toInt_zero, mul_zero]
  · obtain ⟨ts, hts, hg⟩ := Option.bind_eq_some_iff.1 hg
    obtain ⟨d, hd, hg⟩ := Option.bind_eq_some_iff.1 hg
    cases hg
    refine ⟨fun t ht => ?_, fun ν hν z => ?_⟩
    · obtain ⟨u, hu, hut⟩ := mem_scale hts ht
      exact hut ▸ hf.nodes u hu
    · rintro ⟨x, hx, rfl⟩
      obtain ⟨s, hs, rfl⟩ := hf.value ν hν x hx
      refine ⟨s * c.toInt, sums_scale hs hts, ?_⟩
      rw [Word.toInt_of_checked hd]
      ring

theorem sub_denotes (hf : Denotes ctx K f P) (hg : Denotes ctx K g Q) (hh : f.sub g = some h) :
    Denotes ctx K h fun ν z => ∃ x y, P ν x ∧ Q ν y ∧ x - y = z := by
  obtain ⟨k, hk, hh⟩ := Option.bind_eq_some_iff.1 hh
  refine (add_denotes hf (scale_denotes hg hk) hh).of_imp fun ν hν z ⟨x, y, hx, hy, hz⟩ => ?_
  refine ⟨x, -y, hx, ⟨y, hy, ?_⟩, by omega⟩
  change y * (-1) = -y
  ring

/-- The terms that satisfy a test and those that do not. -/
theorem Sums.partition {ts : List (ExprId × Int64)} {s : Int} (hs : Sums ν ts s)
    (p : ExprId × Int64 → Bool) :
    ∃ t u, Sums ν (ts.filter p) t ∧ Sums ν (ts.filter fun x => !p x) u ∧ t + u = s := by
  induction hs with
  | nil => exact ⟨0, 0, .nil, .nil, rfl⟩
  | @cons e c ts x s hx _ ih =>
      obtain ⟨t, u, ht, hu, rfl⟩ := ih
      by_cases hp : p (e, c)
      · refine ⟨c.toInt * x + t, u, ?_, ?_, by ring⟩
        · simpa [hp] using ht.cons hx
        · simpa [hp] using hu
      · refine ⟨t, c.toInt * x + u, ?_, ?_, by ring⟩
        · simpa [hp] using ht
        · simpa [hp] using hu.cons hx

theorem div_mul_cancel {a d : Int64} (hd : 0 < d) (h : a % d = 0) :
    (a / d).toInt * d.toInt = a.toInt := by
  have hne : d ≠ -1 := by
    rintro rfl
    exact absurd hd (by decide)
  have hmod : a.toInt.tmod d.toInt = 0 := by
    rw [← Int64.toInt_mod, h, Int64.toInt_zero]
  rw [Int64.toInt_div_of_ne_right _ _ hne]
  exact Int.tdiv_mul_cancel (Int.dvd_of_tmod_eq_zero hmod)

/-- The quotients of coefficients that a number divides. -/
theorem Sums.div {d : Int64} (hd : 0 < d) {ts : List (ExprId × Int64)} {s : Int}
    (hs : Sums ν ts s) (hdvd : ∀ t ∈ ts, t.2 % d = 0) :
    ∃ q, Sums ν (ts.map fun (e, a) => (e, a / d)) q ∧ q * d.toInt = s := by
  induction hs with
  | nil => exact ⟨0, .nil, zero_mul _⟩
  | @cons e c ts x s hx _ ih =>
      obtain ⟨q, hq, rfl⟩ := ih fun t ht => hdvd t (List.mem_cons_of_mem _ ht)
      refine ⟨_, hq.cons hx, ?_⟩
      rw [← div_mul_cancel hd (hdvd _ List.mem_cons_self)]
      ring

/-- Both parts of a division by `d` have values, and `d` times the first plus the second is the
value of the form. -/
theorem HasValue.splitBy {d : Int64} (hd : 0 < d) {z : Int} (hf : HasValue ν f z) :
    ∃ q r, HasValue ν (f.splitBy d).1 q ∧ HasValue ν (f.splitBy d).2 r ∧ q * d.toInt + r = z := by
  obtain ⟨s, hs, rfl⟩ := hf
  have hd' : 0 < d.toInt := Int64.lt_iff_toInt_lt.1 hd
  obtain ⟨t, u, ht, hu, rfl⟩ := hs.partition fun x => x.2 % d = 0
  obtain ⟨q, hq, rfl⟩ := ht.div hd fun x hx => by simpa using (List.mem_filter.1 hx).2
  have hc := Word.fits_toInt f.const
  have hmod := Int.emod_nonneg f.const.toInt hd'.ne'
  have hmod' := Int.emod_lt_of_pos f.const.toInt hd'
  have hsplit := Int.mul_ediv_add_emod f.const.toInt d.toInt
  have hdiv : Word.Fits (f.const.toInt / d.toInt) :=
    ⟨(Int.le_ediv_iff_mul_le hd').2 (by nlinarith [hc.1, Int64.toInt_minValue]),
      (Int.ediv_le_of_le_mul hd' (by nlinarith [hc.2, Int64.toInt_maxValue]))⟩
  have hfit : Word.Fits (f.const.toInt % d.toInt) := by
    have := Word.fits_toInt d
    simp only [Word.Fits, Int64.toInt_minValue, Int64.toInt_maxValue] at this ⊢
    omega
  refine ⟨_, _, ⟨q, ?_, rfl⟩, ⟨u, ?_, rfl⟩, ?_⟩
  · simpa [Affine.splitBy, List.partition_eq_filter_filter] using hq
  · simpa [Affine.splitBy, List.partition_eq_filter_filter, Function.comp_def] using hu
  · simp only [Affine.splitBy, Word.toInt_ofInt hdiv, Word.toInt_ofInt hfit]
    linarith

theorem nodes_splitBy {d : Int64} (hf : ∀ t ∈ f.terms, ctx.Over K t.1) :
    (∀ t ∈ (f.splitBy d).1.terms, ctx.Over K t.1) ∧
      ∀ t ∈ (f.splitBy d).2.terms, ctx.Over K t.1 := by
  simp only [splitBy, List.partition_eq_filter_filter]
  refine ⟨fun t ht => ?_, fun t ht => hf t (List.mem_filter.1 ht).1⟩
  obtain ⟨u, hu, rfl⟩ := List.mem_map.1 ht
  exact hf u (List.mem_filter.1 hu).1

/-! ## Reading and writing -/

/-- An expression is read as a literal, as an atom, or as what the forms of its operands make. -/
theorem ofExpr_induction (ctx : Context) {M : ExprId → Affine → Prop} (hatom : ∀ e, M e (atom e))
    (hconst : ∀ e w t, ctx.node e = .const w t → M e (ofConst w))
    (hadd : ∀ e a b f g h, ctx.node e = .arith .add a b → M a f → M b g → f.add g = some h → M e h)
    (hsub : ∀ e a b f g h, ctx.node e = .arith .sub a b → M a f → M b g → f.sub g = some h → M e h)
    (hlhs : ∀ e a b f c h, ctx.node e = .arith .mul a b → ctx.literal? b = some c → M a f →
      f.scale c = some h → M e h)
    (hrhs : ∀ e a b f c h, ctx.node e = .arith .mul a b → ctx.literal? a = some c → M b f →
      f.scale c = some h → M e h)
    (e : ExprId) : M e (ofExpr ctx e) := by
  have getD_holds : ∀ {f? : Option Affine}, (∀ f, f? = some f → M e f) →
      M e (f?.getD (atom e)) := by
    intro f? hf
    cases f? with
    | none => exact hatom e
    | some f => exact hf f rfl
  rw [ofExpr]
  split
  · next w t hn => exact hconst e w t hn
  · next a b hn =>
    exact getD_holds fun h hh => hadd e a b _ _ h hn
      (ofExpr_induction ctx hatom hconst hadd hsub hlhs hrhs a)
      (ofExpr_induction ctx hatom hconst hadd hsub hlhs hrhs b) hh
  · next a b hn =>
    exact getD_holds fun h hh => hsub e a b _ _ h hn
      (ofExpr_induction ctx hatom hconst hadd hsub hlhs hrhs a)
      (ofExpr_induction ctx hatom hconst hadd hsub hlhs hrhs b) hh
  · next a b hn =>
    split
    · next c hc =>
      exact getD_holds fun h hh => hlhs e a b _ c h hn hc
        (ofExpr_induction ctx hatom hconst hadd hsub hlhs hrhs a) hh
    · next c hc _ =>
      exact getD_holds fun h hh => hrhs e a b _ c h hn hc
        (ofExpr_induction ctx hatom hconst hadd hsub hlhs hrhs b) hh
    · exact hatom e
  · exact hatom e
termination_by e.index
decreasing_by
  all_goals
    apply ctx.child_lt
    rw [‹ctx.node e = _›]
    simp [Node.children]

theorem ofExpr_denotes {e : ExprId} (he : ctx.Over K e) :
    Denotes ctx K (ofExpr ctx e) fun ν z => ν.value e = some z := by
  -- What the operands of an operator have, wherever the operator has a value.
  have operands : ∀ {e a b op}, ctx.Over K e → ctx.node e = .arith op a b →
      ctx.Over K a ∧ ctx.Over K b ∧ ∀ ν : Valuation, ctx ≤ ν.ctx → ∀ z, ν.value e = some z →
        ∃ x y, ν.value a = some x ∧ ν.value b = some y ∧ op.exact x y = some z := by
    intro e a b op he hn
    refine ⟨he.child (by simp [hn, Node.children]), he.child (by simp [hn, Node.children]), ?_⟩
    exact fun ν hν z => (Valuation.value_arith_eq_some ((Context.node_eq hν he.stored).trans hn)).1
  refine ofExpr_induction ctx (M := fun e f => ctx.Over K e →
    Denotes ctx K f fun ν z => ν.value e = some z) ?_ ?_ ?_ ?_ ?_ ?_ e he
  · exact fun e he => atom_denotes (Context.denotes_value he)
  · intro e w t hn he
    refine (ofConst_denotes ctx K w).of_imp fun ν hν z hz => ?_
    rw [Valuation.value_const ((Context.node_eq hν he.stored).trans hn)] at hz
    exact (Option.some_inj.1 hz).symm
  · intro e a b f g h hn hf hg hh he
    obtain ⟨ha, hb, hvalue⟩ := operands he hn
    refine (add_denotes (hf ha) (hg hb) hh).of_imp fun ν hν z hz => ?_
    obtain ⟨x, y, hx, hy, hxy⟩ := hvalue ν hν z hz
    exact ⟨x, y, hx, hy, Option.some_inj.1 hxy⟩
  · intro e a b f g h hn hf hg hh he
    obtain ⟨ha, hb, hvalue⟩ := operands he hn
    refine (sub_denotes (hf ha) (hg hb) hh).of_imp fun ν hν z hz => ?_
    obtain ⟨x, y, hx, hy, hxy⟩ := hvalue ν hν z hz
    exact ⟨x, y, hx, hy, Option.some_inj.1 hxy⟩
  · intro e a b f c h hn hc hf hh he
    obtain ⟨ha, hb, hvalue⟩ := operands he hn
    refine (scale_denotes (hf ha) hh).of_imp fun ν hν z hz => ?_
    obtain ⟨x, y, hx, hy, hxy⟩ := hvalue ν hν z hz
    cases hy.symm.trans (Build.value_of_literal? hν hb.stored hc)
    exact ⟨x, hx, Option.some_inj.1 hxy⟩
  · intro e a b f c h hn hc hf hh he
    obtain ⟨ha, hb, hvalue⟩ := operands he hn
    refine (scale_denotes (hf hb) hh).of_imp fun ν hν z hz => ?_
    obtain ⟨x, y, hx, hy, hxy⟩ := hvalue ν hν z hz
    cases hx.symm.trans (Build.value_of_literal? hν ha.stored hc)
    exact ⟨y, hy, (mul_comm y _).trans (Option.some_inj.1 hxy)⟩

/-- A form denotes its values. -/
theorem denotes_hasValue (hf : ∀ t ∈ f.terms, ctx.Over K t.1) :
    Denotes ctx K f fun ν z => HasValue ν f z :=
  ⟨hf, fun _ _ _ => id⟩

/-- What has been written of a sum so far: nothing, which stands for zero, or an expression. -/
def Written (ctx : Context) (K : NodeClass) (acc? : Option ExprId)
    (P : Valuation → Int → Prop) : Prop :=
  match acc? with
  | none => ∀ ν, ctx ≤ ν.ctx → ∀ z, P ν z → z = 0
  | some acc => ctx.Denotes K acc P

theorem Written.of_imp {acc? : Option ExprId} (h : Written ctx K acc? P)
    (hQ : ∀ ν, ctx ≤ ν.ctx → ∀ z, Q ν z → P ν z) : Written ctx K acc? Q := by
  cases acc? with
  | none => exact fun ν hν z hz => h ν hν z (hQ ν hν z hz)
  | some acc => exact Context.Denotes.of_imp h hQ

/-- One more term of a sum. -/
abbrev Plus (P : Valuation → Int → Prop) (t : ExprId × Int64) (ν : Valuation) (z : Int) : Prop :=
  ∃ s x, P ν s ∧ ν.value t.1 = some x ∧ s + t.2.toInt * x = z

/-- Adding a product to what has been written. -/
theorem written_add {acc? : Option ExprId} {t : ExprId × Int64} {ctx₁ : Context} {p : ExprId}
    (hacc : Written ctx K acc? P) (hg : ctx.Grows ctx₁)
    (hp : ctx₁.Denotes K p fun ν z => ∃ x, ν.value t.1 = some x ∧ x * t.2.toInt = z) :
    Build.Ensures (match acc? with
      | some acc => do return some (← Build.add acc p)
      | none => return some p) ctx₁ fun r? ctx' => Written ctx' K r? (Plus P t) := by
  cases acc? with
  | none =>
      refine .pure (hp.of_imp fun ν hν z => ?_)
      rintro ⟨s, x, hs, hx, rfl⟩
      rw [hacc ν (hg.le.trans hν) s hs]
      exact ⟨x, hx, by ring⟩
  | some acc =>
      refine (Build.add_denotes (hacc.nodes.mono hg.le) hp.nodes).bind fun r ctx₂ hg₂ hr => ?_
      refine .pure (hr.of_imp fun ν hν z => ?_)
      rintro ⟨s, x, hs, hx, rfl⟩
      have hν₁ := hg₂.le.trans hν
      exact ⟨s, x * t.2.toInt, hacc.value ν (hg.le.trans hν₁) s hs,
        hp.value ν hν₁ _ ⟨x, hx, rfl⟩, by ring⟩

theorem addTerm_written {acc? : Option ExprId} {t : ExprId × Int64}
    (hacc : Written ctx K acc? P) (ht : ctx.Over K t.1) :
    Build.Ensures (addTerm acc? t) ctx fun r? ctx' => Written ctx' K r? (Plus P t) := by
  obtain ⟨e, c⟩ := t
  dsimp only [addTerm]
  split
  · next h1 =>
    refine Build.Ensures.bind (.pure ⟨ht, fun ν hν z => ?_⟩)
      fun p ctx₁ hg hp => written_add (t := (e, c)) hacc hg hp
    rintro ⟨x, hx, rfl⟩
    rw [hx, h1, Int64.toInt_one, mul_one]
  · exact (Build.mulConst_denotes c ht).bind
      fun p ctx₁ hg hp => written_add (t := (e, c)) hacc hg hp

theorem subTerm_written {acc? : Option ExprId} {t : ExprId × Int64}
    (hacc : Written ctx K acc? P) (ht : ctx.Over K t.1) :
    Build.Ensures (subTerm acc? t) ctx fun r? ctx' => Written ctx' K r? (Plus P t) := by
  obtain ⟨e, c⟩ := t
  dsimp only [subTerm]
  split
  · next acc m hm =>
    have hneg : m.toInt = -c.toInt := Word.toInt_of_checked hm
    split
    · next h1 =>
      refine (Build.sub_denotes hacc.nodes ht).bind fun r ctx₁ hg hr => ?_
      refine .pure (hr.of_imp fun ν hν z => ?_)
      rintro ⟨s, x, hs, hx, rfl⟩
      have hc : c.toInt = -1 := by
        rw [h1, Int64.toInt_one] at hneg
        omega
      exact ⟨s, x, hacc.value ν (hg.le.trans hν) s hs, hx, by rw [hc]; ring⟩
    · refine (Build.mulConst_denotes m ht).bind fun p ctx₁ hg hp => ?_
      refine (Build.sub_denotes (hacc.nodes.mono hg.le) hp.nodes).bind fun r ctx₂ hg₂ hr => ?_
      refine .pure (hr.of_imp fun ν hν z => ?_)
      rintro ⟨s, x, hs, hx, rfl⟩
      have hν₁ := hg₂.le.trans hν
      exact ⟨s, x * m.toInt, hacc.value ν (hg.le.trans hν₁) s hs,
        hp.value ν hν₁ _ ⟨x, hx, rfl⟩, by rw [hneg]; ring⟩
  · next acc _ =>
    exact (Build.mulConst_denotes c ht).bind fun p ctx₁ hg hp =>
      written_add (t := (e, c)) (show Written ctx K (some acc) P from hacc) hg hp
  · exact (Build.mulConst_denotes c ht).bind fun p ctx₁ hg hp =>
      written_add (t := (e, c)) (show Written ctx K none P from hacc) hg hp

/-- Steps that add one term each write the sum of the terms. -/
theorem foldlM_written {step : Option ExprId → ExprId × Int64 → Build (Option ExprId)}
    (hstep : ∀ ctx acc? t (P : Valuation → Int → Prop), Written ctx K acc? P → ctx.Over K t.1 →
      Build.Ensures (step acc? t) ctx fun r? ctx' => Written ctx' K r? (Plus P t))
    {ts : List (ExprId × Int64)} {acc? : Option ExprId} (hacc : Written ctx K acc? P)
    (hts : ∀ t ∈ ts, ctx.Over K t.1) :
    Build.Ensures (ts.foldlM step acc?) ctx fun r? ctx' =>
      Written ctx' K r? fun ν z => ∃ s u, P ν s ∧ Sums ν ts u ∧ s + u = z := by
  induction ts generalizing ctx acc? P with
  | nil =>
      refine .pure (hacc.of_imp fun ν hν z => ?_)
      rintro ⟨s, u, hs, hu, rfl⟩
      cases hu
      rwa [add_zero]
  | cons t ts ih =>
      rw [List.foldlM_cons]
      refine (hstep ctx acc? t P hacc (hts t List.mem_cons_self)).bind fun r? ctx₁ hg hr => ?_
      refine (ih hr fun u hu => (hts u (List.mem_cons_of_mem _ hu)).mono hg.le).mono ?_
      intro r'? ctx' hg' hr'
      refine hr'.of_imp fun ν hν z => ?_
      rintro ⟨s, u, hs, hu, rfl⟩
      obtain _ | @⟨e, c, _, x, v, hx, hv⟩ := hu
      exact ⟨s + c.toInt * x, v, ⟨s, x, hs, hx, rfl⟩, hv, by ring⟩

/-- Terms without a coefficient may be left out. -/
theorem Sums.filter {ts : List (ExprId × Int64)} {s : Int} (hs : Sums ν ts s)
    {p : ExprId × Int64 → Bool} (hp : ∀ t ∈ ts, p t = false → t.2 = 0) :
    Sums ν (ts.filter p) s := by
  induction hs with
  | nil => exact .nil
  | @cons e c ts x s hx _ ih =>
      have ih := ih fun t ht => hp t (List.mem_cons_of_mem _ ht)
      cases hpt : p (e, c) with
      | true =>
          rw [List.filter_cons_of_pos hpt]
          exact ih.cons hx
      | false =>
          obtain rfl : c = 0 := hp (e, c) List.mem_cons_self hpt
          simpa [hpt] using ih

/-- The positive and the negative terms of a sum. -/
theorem Sums.signs {ts : List (ExprId × Int64)} {s : Int} (hs : Sums ν ts s) :
    ∃ t u, Sums ν (ts.filter (0 < ·.2)) t ∧ Sums ν (ts.filter (·.2 < 0)) u ∧ t + u = s := by
  obtain ⟨t, u, ht, hu, rfl⟩ := hs.partition (0 < ·.2)
  refine ⟨t, u, ht, ?_, rfl⟩
  have hneg := hu.filter (p := (·.2 < 0)) fun r hr hnot => by
    have hle : r.2 ≤ 0 := by simpa using (List.mem_filter.1 hr).2
    exact Int64.le_antisymm hle (by simpa using hnot)
  rw [List.filter_filter] at hneg
  convert hneg using 2
  funext r
  rw [Bool.eq_iff_iff]
  simpa using fun h : r.2 < 0 => Int64.le_of_lt h

/-- The expression that a form is written as has the value of the form. -/
theorem toExpr_denotes (hf : Denotes ctx K f P) (type : Scalar) :
    Build.Ensures (f.toExpr type) ctx fun r ctx' => ctx'.Denotes K r P := by
  have hnodes : ∀ p : ExprId × Int64 → Bool, ∀ t ∈ f.terms.filter p, ctx.Over K t.1 :=
    fun p t ht => hf.nodes t (List.mem_filter.1 ht).1
  have hnone : Written ctx K none fun _ z => z = 0 := fun _ _ _ => id
  refine (foldlM_written (fun _ _ _ _ => addTerm_written) hnone (hnodes _)).bind ?_
  intro acc₁? ctx₁ hg₁ hacc₁
  refine (foldlM_written (fun _ _ _ _ => subTerm_written) hacc₁
    fun t ht => (hnodes _ t ht).mono hg₁.le).bind ?_
  intro acc? ctx₂ hg₂ hacc₂
  have hacc : Written ctx₂ K acc? fun ν s => Sums ν f.terms s := by
    refine hacc₂.of_imp fun ν hν s hs => ?_
    obtain ⟨t, u, ht, hu, rfl⟩ := hs.signs
    exact ⟨t, u, ⟨0, t, rfl, ht, zero_add t⟩, hu, rfl⟩
  have hvalue : ∀ ν, ctx₂ ≤ ν.ctx → ∀ z, P ν z →
      ∃ s, Sums ν f.terms s ∧ s + f.const.toInt = z :=
    fun ν hν => hf.value ν ((hg₁.trans hg₂).le.trans hν)
  cases acc? with
  | none =>
      refine (Build.constant_denotes ctx₂ K f.const type).mono fun r ctx' hg h => h.of_imp ?_
      intro ν hν z hz
      obtain ⟨s, hs, rfl⟩ := hvalue ν (hg.le.trans hν) z hz
      rw [hacc ν (hg.le.trans hν) s hs, zero_add]
  | some acc =>
      have hconst : Build.Ensures (Build.addConst acc f.const) ctx₂ fun r ctx' =>
          ctx'.Denotes K r P := by
        refine (Build.addConst_denotes f.const hacc.nodes).mono fun r ctx' hg h => h.of_imp ?_
        intro ν hν z hz
        obtain ⟨s, hs, rfl⟩ := hvalue ν (hg.le.trans hν) z hz
        exact ⟨s, hacc.value ν (hg.le.trans hν) s hs, rfl⟩
      dsimp only
      split
      · exact hconst
      · split
        · split
          · next m hm =>
            refine (Build.constantLike_denotes ctx₂ K m acc).bind fun c ctx₃ hg₃ hc => ?_
            refine (Build.sub_denotes (hacc.nodes.mono hg₃.le) hc.nodes).mono ?_
            refine fun r ctx' hg h => h.of_imp fun ν hν z hz => ?_
            have hν₃ := hg.le.trans hν
            obtain ⟨s, hs, rfl⟩ := hvalue ν (hg₃.le.trans hν₃) z hz
            refine ⟨s, m.toInt, hacc.value ν (hg₃.le.trans hν₃) s hs, hc.value ν hν₃ _ rfl, ?_⟩
            rw [Word.toInt_of_checked hm]
            ring
          · exact hconst
        · next hpos hneg =>
          refine .pure (hacc.of_imp fun ν hν z hz => ?_)
          obtain ⟨s, hs, rfl⟩ := hvalue ν hν z hz
          have h0 : f.const = 0 := Int64.le_antisymm (Int64.not_lt.1 hpos) (Int64.not_lt.1 hneg)
          rwa [h0, Int64.toInt_zero, add_zero]

end LoopBounds.Affine
