import LoopBounds.Proofs.NormalForms

/-!
# Linear expressions

A linear expression is built from literals, variables, sums, differences and products with a
literal side.  It stands for a polynomial of degree one over the integers.  As long as the
arithmetic of forms does not overflow, its form has the coefficients of the polynomial, and two
linear expressions have the same form exactly if they have the same polynomial, which is if they
have the same value wherever all variables have integers.
-/

namespace LoopBounds

/-- A polynomial of degree one in the variables. -/
@[ext]
structure LinearPoly where
  coeff : VarId → Int
  const : Int

namespace Context

/-- The constant and the linear part of an expression of sums, differences and products. -/
def linearPoly (ctx : Context) (e : ExprId) : LinearPoly :=
  match _h : ctx.node e with
  | .const w _ => ⟨fun _ => 0, w.toInt⟩
  | .var v => ⟨fun w => if w = v then 1 else 0, 0⟩
  | .arith .add a b =>
    let p := ctx.linearPoly a
    let q := ctx.linearPoly b
    ⟨fun v => p.coeff v + q.coeff v, p.const + q.const⟩
  | .arith .sub a b =>
    let p := ctx.linearPoly a
    let q := ctx.linearPoly b
    ⟨fun v => p.coeff v - q.coeff v, p.const - q.const⟩
  | .arith .mul a b =>
    let p := ctx.linearPoly a
    let q := ctx.linearPoly b
    ⟨fun v => p.coeff v * q.const + p.const * q.coeff v, p.const * q.const⟩
  | _ => ⟨fun _ => 0, 0⟩
termination_by e.index
decreasing_by
  all_goals (apply ctx.child_lt; rw [_h]; simp [Node.children])

/-- The expression is built from literals, variables, sums, differences and products with a
literal side, and its form, combined from those of its operands without overflow, is `f`. -/
inductive Linear (ctx : Context) : ExprId → Affine → Prop
  | const {e w t} (hn : ctx.node e = .const w t) : Linear ctx e (.ofConst w)
  | var {e v} (hn : ctx.node e = .var v) : Linear ctx e (.atom e)
  | add {e a b f g h} (hn : ctx.node e = .arith .add a b) (ha : Linear ctx a f)
      (hb : Linear ctx b g) (hh : f.add g = some h) : Linear ctx e h
  | sub {e a b f g h} (hn : ctx.node e = .arith .sub a b) (ha : Linear ctx a f)
      (hb : Linear ctx b g) (hh : f.sub g = some h) : Linear ctx e h
  | mulLiteral {e a b f c h} (hn : ctx.node e = .arith .mul a b) (ha : Linear ctx a f)
      (hc : ctx.literal? b = some c) (hh : f.scale c = some h) : Linear ctx e h
  | literalMul {e a b g c h} (hn : ctx.node e = .arith .mul a b) (hc : ctx.literal? a = some c)
      (hb : Linear ctx b g) (hh : g.scale c = some h) : Linear ctx e h

/-- The exact value of an expression without calls where every variable has an integer. -/
def valueAt (ctx : Context) (x : VarId → Int) (e : ExprId) : Option Int :=
  (⟨ctx, 0, fun v => some (x v)⟩ : Valuation).value e

variable {ctx ctx' : Context} {e a b : ExprId} {f g h : Affine} {v : VarId} {c w : Int64}
  {x : VarId → Int}

/-! ## Polynomials of nodes -/

theorem linearPoly_const {t : Scalar} (hn : ctx.node e = .const w t) :
    ctx.linearPoly e = ⟨fun _ => 0, w.toInt⟩ := by
  rw [linearPoly]
  split <;> simp_all

theorem linearPoly_var (hn : ctx.node e = .var v) :
    ctx.linearPoly e = ⟨fun w => if w = v then 1 else 0, 0⟩ := by
  rw [linearPoly]
  split <;> simp_all

theorem linearPoly_add (hn : ctx.node e = .arith .add a b) : ctx.linearPoly e =
    ⟨fun v => (ctx.linearPoly a).coeff v + (ctx.linearPoly b).coeff v,
      (ctx.linearPoly a).const + (ctx.linearPoly b).const⟩ := by
  rw [linearPoly]
  split <;> simp_all

theorem linearPoly_sub (hn : ctx.node e = .arith .sub a b) : ctx.linearPoly e =
    ⟨fun v => (ctx.linearPoly a).coeff v - (ctx.linearPoly b).coeff v,
      (ctx.linearPoly a).const - (ctx.linearPoly b).const⟩ := by
  rw [linearPoly]
  split <;> simp_all

theorem linearPoly_mul (hn : ctx.node e = .arith .mul a b) : ctx.linearPoly e =
    ⟨fun v => (ctx.linearPoly a).coeff v * (ctx.linearPoly b).const +
        (ctx.linearPoly a).const * (ctx.linearPoly b).coeff v,
      (ctx.linearPoly a).const * (ctx.linearPoly b).const⟩ := by
  rw [linearPoly]
  split <;> simp_all

theorem linearPoly_literal (h : ctx.literal? e = some c) :
    ctx.linearPoly e = ⟨fun _ => 0, c.toInt⟩ := by
  obtain ⟨t, hn⟩ := exists_node_of_literal? h
  exact linearPoly_const hn

/-! ## Values -/

theorem valueAt_const {t : Scalar} (hn : ctx.node e = .const w t) :
    ctx.valueAt x e = some w.toInt :=
  Valuation.value_const hn

theorem valueAt_literal (h : ctx.literal? e = some c) : ctx.valueAt x e = some c.toInt := by
  obtain ⟨t, hn⟩ := exists_node_of_literal? h
  exact valueAt_const hn

theorem valueAt_var (hn : ctx.node e = .var v) : ctx.valueAt x e = some (x v) :=
  Valuation.value_var hn

theorem valueAt_arith {op : Arith} {y z : Int} (hn : ctx.node e = .arith op a b)
    (ha : ctx.valueAt x a = some y) (hb : ctx.valueAt x b = some z) :
    ctx.valueAt x e = op.exact y z := by
  have hvalue : ctx.valueAt x e = (ctx.valueAt x a).bind fun y =>
      (ctx.valueAt x b).bind (op.exact y) := Valuation.value_arith hn
  rw [hvalue, ha, hb]
  rfl

/-- Where all variables but one are zero, the value depends on its coefficient only. -/
theorem Linear.valueAt_single (h : ctx.Linear e f) (v : VarId) (t : Int) :
    ctx.valueAt (fun w => if w = v then t else 0) e =
      some ((ctx.linearPoly e).const + t * (ctx.linearPoly e).coeff v) := by
  induction h with
  | const hn =>
      rw [valueAt_const hn, linearPoly_const hn, mul_zero, add_zero]
  | @var e u hn =>
      rw [valueAt_var hn, linearPoly_var hn, zero_add]
      by_cases huv : u = v
      · simp [huv]
      · simp [huv, Ne.symm huv]
  | add hn _ _ _ iha ihb =>
      rw [valueAt_arith hn iha ihb, linearPoly_add hn, Arith.exact, Option.some_inj]
      ring
  | sub hn _ _ _ iha ihb =>
      rw [valueAt_arith hn iha ihb, linearPoly_sub hn, Arith.exact, Option.some_inj]
      ring
  | mulLiteral hn _ hc _ iha =>
      rw [valueAt_arith hn iha (valueAt_literal hc), linearPoly_mul hn, linearPoly_literal hc,
        Arith.exact, Option.some_inj]
      ring
  | literalMul hn hc _ _ ihb =>
      rw [valueAt_arith hn (valueAt_literal hc) ihb, linearPoly_mul hn, linearPoly_literal hc,
        Arith.exact, Option.some_inj]
      ring

/-! ## Forms of linear expressions -/

/-- The expression is a variable. -/
def IsVar (ctx : Context) (e : ExprId) : Prop := ∃ v, ctx.node e = .var v

theorem IsVar.stored (h : ctx.IsVar e) : ctx.Stored e := by
  obtain ⟨v, hn⟩ := h
  by_contra hs
  cases (node_of_not_stored hs).symm.trans hn

theorem IsVar.atomic (h : ctx.IsVar e) : Affine.Atomic ctx e := by
  refine ⟨h.stored, ?_⟩
  obtain ⟨v, hn⟩ := h
  rw [Affine.ofExpr]
  split <;> simp_all

theorem Linear.normal (h : ctx.Linear e f) : Affine.Normal ctx.IsVar f.terms := by
  induction h with
  | const => exact Affine.normal_nil _
  | var hn => exact Affine.normal_singleton (by decide) ⟨_, hn⟩
  | add _ _ _ hh iha ihb => exact Affine.normal_add iha ihb hh
  | sub _ _ _ hh iha ihb => exact Affine.normal_sub iha ihb hh
  | mulLiteral _ _ _ hh iha => exact Affine.normal_scale iha hh
  | literalMul _ _ _ hh ihb => exact Affine.normal_scale ihb hh

theorem Linear.atomic (h : ctx.Linear e f) : Affine.Normal (Affine.Atomic ctx) f.terms :=
  h.normal.imp fun _ => IsVar.atomic

/-- Whether an expression is linear depends on its nodes only. -/
theorem Linear.congr {S : ExprId → Prop} (hsame : ∀ c, S c → ctx'.node c = ctx.node c)
    (hchild : ∀ c, S c → ∀ d ∈ (ctx.node c).children, S d) (he : S e) (h : ctx.Linear e f) :
    ctx'.Linear e f := by
  have hliteral : ∀ c, S c → ctx'.literal? c = ctx.literal? c := fun c hc => by
    rw [literal?, literal?, hsame c hc]
  induction h with
  | const hn => exact .const ((hsame _ he).trans hn)
  | var hn => exact .var ((hsame _ he).trans hn)
  | add hn _ _ hh iha ihb =>
      exact .add ((hsame _ he).trans hn) (iha (hchild _ he _ (by simp [hn, Node.children])))
        (ihb (hchild _ he _ (by simp [hn, Node.children]))) hh
  | sub hn _ _ hh iha ihb =>
      exact .sub ((hsame _ he).trans hn) (iha (hchild _ he _ (by simp [hn, Node.children])))
        (ihb (hchild _ he _ (by simp [hn, Node.children]))) hh
  | mulLiteral hn _ hc hh iha =>
      exact .mulLiteral ((hsame _ he).trans hn) (iha (hchild _ he _ (by simp [hn, Node.children])))
        ((hliteral _ (hchild _ he _ (by simp [hn, Node.children]))).trans hc) hh
  | literalMul hn hc _ hh ihb =>
      exact .literalMul ((hsame _ he).trans hn)
        ((hliteral _ (hchild _ he _ (by simp [hn, Node.children]))).trans hc)
        (ihb (hchild _ he _ (by simp [hn, Node.children]))) hh

theorem linear_literal (h : ctx.literal? e = some c) : ctx.Linear e (.ofConst c) := by
  obtain ⟨t, hn⟩ := exists_node_of_literal? h
  exact .const hn

/-- What is stored later makes no stored expression linear and none nonlinear. -/
theorem Appends.linear_iff (hctx : ctx.Appends ctx') (he : ctx.Stored e) :
    ctx'.Linear e f ↔ ctx.Linear e f := by
  constructor
  · refine Linear.congr (S := ctx.Stored) (fun c hc => (hctx.node_eq hc).symm)
      (fun c hc d hd => hc.child ?_) he
    rwa [hctx.node_eq hc] at hd
  · exact Linear.congr (S := ctx.Stored) (fun c hc => hctx.node_eq hc)
      (fun c hc d hd => hc.child hd) he

/-- The form has the value of the expression. -/
theorem Linear.hasValue (h : ctx.Linear e f) (x : VarId → Int) :
    ∃ z, ctx.valueAt x e = some z ∧ Affine.HasValue ⟨ctx, 0, fun v => some (x v)⟩ f z := by
  have hdenotes : ∀ {f : Affine}, Affine.Normal ctx.IsVar f.terms →
      Affine.Denotes ctx .all f fun ν z => Affine.HasValue ν f z := fun hf =>
    Affine.denotes_hasValue fun t ht => over_all (hf.atoms t ht).stored
  induction h with
  | const hn => exact ⟨_, valueAt_const hn, 0, .nil, Int.zero_add _⟩
  | @var e v hn =>
      refine ⟨_, valueAt_var hn, _, .cons (Valuation.value_var hn) .nil, ?_⟩
      simp [Affine.atom]
  | add hn ha hb hh iha ihb =>
      obtain ⟨y, hy, hf⟩ := iha
      obtain ⟨z, hz, hg⟩ := ihb
      exact ⟨y + z, valueAt_arith hn hy hz, (Affine.add_denotes (hdenotes ha.normal)
        (hdenotes hb.normal) hh).value _ le_rfl _ ⟨y, z, hf, hg, rfl⟩⟩
  | sub hn ha hb hh iha ihb =>
      obtain ⟨y, hy, hf⟩ := iha
      obtain ⟨z, hz, hg⟩ := ihb
      exact ⟨y - z, valueAt_arith hn hy hz, (Affine.sub_denotes (hdenotes ha.normal)
        (hdenotes hb.normal) hh).value _ le_rfl _ ⟨y, z, hf, hg, rfl⟩⟩
  | @mulLiteral _ _ _ _ c _ hn ha hc hh iha =>
      obtain ⟨y, hy, hf⟩ := iha
      exact ⟨y * c.toInt, valueAt_arith hn hy (valueAt_literal hc),
        (Affine.scale_denotes (hdenotes ha.normal) hh).value _ le_rfl _ ⟨y, hf, rfl⟩⟩
  | @literalMul _ _ _ _ c _ hn hc hb hh ihb =>
      obtain ⟨z, hz, hg⟩ := ihb
      refine ⟨z * c.toInt, ?_,
        (Affine.scale_denotes (hdenotes hb.normal) hh).value _ le_rfl _ ⟨z, hg, rfl⟩⟩
      rw [valueAt_arith hn (valueAt_literal hc) hz, Arith.exact, mul_comm]

end Context

namespace Affine

variable {ctx : Context} {f g : Affine} {v : VarId} {t : ExprId × Int64}
  {ts us : List (ExprId × Int64)}

/-- The coefficient of a variable in a sum of terms. -/
def coeffAt (ctx : Context) (v : VarId) (ts : List (ExprId × Int64)) : Int :=
  (ts.map fun t => if ctx.node t.1 = .var v then t.2.toInt else 0).sum

/-- The polynomial of a form over variables. -/
def poly (ctx : Context) (f : Affine) : LinearPoly := ⟨(coeffAt ctx · f.terms), f.const.toInt⟩

theorem coeffAt_of_forall_ne (h : ∀ t ∈ ts, ctx.node t.1 ≠ .var v) : coeffAt ctx v ts = 0 := by
  refine List.sum_eq_zero fun z hz => ?_
  obtain ⟨t, ht, rfl⟩ := List.mem_map.1 hz
  exact if_neg (h t ht)

theorem coeffAt_cons (t : ExprId × Int64) (ts : List (ExprId × Int64)) : coeffAt ctx v (t :: ts) =
    (if ctx.node t.1 = .var v then t.2.toInt else 0) + coeffAt ctx v ts := by
  rw [coeffAt, coeffAt, List.map_cons, List.sum_cons]

/-- A variable has one atom, and its term the coefficient of the variable. -/
theorem coeffAt_of_mem (hts : Normal ctx.IsVar ts) (ht : t ∈ ts) (hn : ctx.node t.1 = .var v) :
    coeffAt ctx v ts = t.2.toInt := by
  induction ts with
  | nil => cases ht
  | cons u ts ih =>
      obtain ⟨hlt, -, hu, htail⟩ := normal_cons_iff.1 hts
      rw [coeffAt_cons]
      rcases List.mem_cons.1 ht with rfl | ht
      · rw [if_pos hn, coeffAt_of_forall_ne fun s hs hns => ?_, Int.add_zero]
        have hsame := Context.eq_of_node_eq hu.stored (htail.atoms s hs).stored (hn.trans hns.symm)
        exact (hlt s hs).ne (congrArg Handle.index hsame)
      · rw [if_neg fun hnu => ?_, Int.zero_add, ih htail ht]
        have hsame := Context.eq_of_node_eq hu.stored (htail.atoms t ht).stored (hnu.trans hn.symm)
        exact (hlt t ht).ne (congrArg Handle.index hsame)

/-- Terms are known by the coefficients of the variables. -/
theorem subset_of_coeffAt (hts : Normal ctx.IsVar ts) (hus : Normal ctx.IsVar us)
    (h : ∀ v, coeffAt ctx v ts = coeffAt ctx v us) : ∀ t ∈ ts, t ∈ us := by
  intro t ht
  obtain ⟨v, hn⟩ := hts.atoms t ht
  have hcoeff := (h v).symm.trans (coeffAt_of_mem hts ht hn)
  by_cases hmentioned : ∃ u ∈ us, ctx.node u.1 = .var v
  · obtain ⟨u, hu, hnu⟩ := hmentioned
    rw [coeffAt_of_mem hus hu hnu, Int64.toInt_inj] at hcoeff
    have hatom := Context.eq_of_node_eq (hus.atoms u hu).stored (hts.atoms t ht).stored
      (hnu.trans hn.symm)
    exact Prod.ext hatom hcoeff ▸ hu
  · rw [coeffAt_of_forall_ne fun u hu hnu => hmentioned ⟨u, hu, hnu⟩, eq_comm,
      Word.toInt_eq_zero_iff] at hcoeff
    exact absurd hcoeff (hts.nonzero t ht)

/-- Forms over variables are known by their polynomials. -/
theorem eq_of_poly_eq (hf : Normal ctx.IsVar f.terms) (hg : Normal ctx.IsVar g.terms)
    (h : f.poly ctx = g.poly ctx) : f = g := by
  have hcoeff : ∀ v, coeffAt ctx v f.terms = coeffAt ctx v g.terms :=
    congrFun (congrArg (·.coeff) h)
  have hconst : f.const = g.const := Int64.toInt_inj.1 (congrArg (·.const) h)
  have hnodup : ∀ {ts}, Normal ctx.IsVar ts → ts.Nodup := fun h =>
    h.distinct.imp fun hne heq => hne (congrArg Prod.fst heq)
  have hperm : f.terms.Perm g.terms :=
    (List.perm_ext_iff_of_nodup (hnodup hf) (hnodup hg)).2 fun t =>
      ⟨subset_of_coeffAt hf hg hcoeff t, subset_of_coeffAt hg hf (fun v => (hcoeff v).symm) t⟩
  have hterms := hf.eq_of_perm hg hperm
  obtain ⟨ts, c⟩ := f
  obtain ⟨us, d⟩ := g
  cases hterms
  cases hconst
  rfl

theorem sums_single {t s : Int} (hts : ∀ u ∈ ts, ctx.IsVar u.1)
    (hs : Sums ⟨ctx, 0, fun w => some (if w = v then t else 0)⟩ ts s) :
    s = t * coeffAt ctx v ts := by
  induction hs with
  | nil => exact (Int.mul_zero t).symm
  | @cons e c ts x s hx _ ih =>
      rw [List.forall_mem_cons] at hts
      obtain ⟨⟨w, hn⟩, hts⟩ := hts
      rw [Valuation.value_var hn, Option.some_inj] at hx
      rw [ih hts, coeffAt_cons, hn, ← hx]
      by_cases hwv : w = v
      · simp only [hwv, if_true]
        ring
      · simp only [hwv, if_false, Node.var.injEq]
        ring

/-- A form has at most one value. -/
theorem HasValue.unique {ν : Valuation} {y z : Int} (hy : HasValue ν f y) (hz : HasValue ν f z) :
    y = z := by
  obtain ⟨s, hs, rfl⟩ := hy
  obtain ⟨s', hs', rfl⟩ := hz
  suffices key : ∀ {ts s s'}, Sums ν ts s → Sums ν ts s' → s = s' by rw [key hs hs']
  intro ts s s' hs hs'
  induction hs generalizing s' with
  | nil =>
      cases hs'
      rfl
  | cons hx _ ih =>
      cases hs' with
      | cons hx' hs' =>
          cases hx.symm.trans hx'
          rw [ih hs']

end Affine

namespace Context

variable {ctx : Context} {e₁ e₂ e : ExprId} {f g : Affine}

/-- The form has the coefficients and the constant of the polynomial. -/
theorem Linear.poly_eq (h : ctx.Linear e f) : f.poly ctx = ctx.linearPoly e := by
  have hvalue : ∀ (v : VarId) (t : Int), t * Affine.coeffAt ctx v f.terms + f.const.toInt =
      (ctx.linearPoly e).const + t * (ctx.linearPoly e).coeff v := by
    intro v t
    obtain ⟨z, hz, s, hs, hsz⟩ := h.hasValue fun w => if w = v then t else 0
    rw [h.valueAt_single, Option.some_inj] at hz
    rw [← Affine.sums_single h.normal.atoms hs, hsz, hz]
  have hconst := hvalue ⟨0⟩ 0
  rw [Int.zero_mul, Int.zero_mul, Int.zero_add, Int.add_zero] at hconst
  refine LinearPoly.ext (funext fun v => ?_) hconst
  have hone := hvalue v 1
  change Affine.coeffAt ctx v f.terms = _
  omega

/-- Linear expressions have the same form exactly if they have the same polynomial. -/
theorem Linear.eq_iff_poly (h₁ : ctx.Linear e₁ f) (h₂ : ctx.Linear e₂ g) :
    f = g ↔ ctx.linearPoly e₁ = ctx.linearPoly e₂ := by
  constructor
  · rintro rfl
    exact h₁.poly_eq.symm.trans h₂.poly_eq
  · intro h
    exact Affine.eq_of_poly_eq h₁.normal h₂.normal (h₁.poly_eq.trans (h.trans h₂.poly_eq.symm))

/-- An expression has at most one form. -/
theorem Linear.unique (h : ctx.Linear e f) (h' : ctx.Linear e g) : f = g :=
  (h.eq_iff_poly h').2 rfl

/-- The form of a difference is zero exactly if the forms of the operands are the same. -/
theorem Linear.sub_eq_zero_iff {h : Affine} (hn : ctx.node e = .arith .sub e₁ e₂)
    (h₁ : ctx.Linear e₁ f) (h₂ : ctx.Linear e₂ g) (hh : f.sub g = some h) :
    h = .ofConst 0 ↔ f = g := by
  have hpoly := (Linear.sub hn h₁ h₂ hh).poly_eq
  rw [linearPoly_sub hn] at hpoly
  have hzero : (Affine.ofConst 0).poly ctx = ⟨fun _ => 0, 0⟩ := rfl
  rw [h₁.eq_iff_poly h₂]
  constructor
  · rintro rfl
    rw [hzero, LinearPoly.mk.injEq] at hpoly
    obtain ⟨hcoeff, hconst⟩ := hpoly
    exact LinearPoly.ext (funext fun v => (Int.sub_eq_zero.1 (congrFun hcoeff v).symm))
      (Int.sub_eq_zero.1 hconst.symm)
  · intro hsame
    refine Affine.eq_of_poly_eq (Linear.sub hn h₁ h₂ hh).normal (Affine.normal_nil _) ?_
    rw [hpoly, hzero, hsame]
    simp

/-- Linear expressions have the same form exactly if they have the same value everywhere. -/
theorem Linear.eq_iff_values (h₁ : ctx.Linear e₁ f) (h₂ : ctx.Linear e₂ g) :
    f = g ↔ ∀ x, ctx.valueAt x e₁ = ctx.valueAt x e₂ := by
  constructor
  · rintro rfl x
    obtain ⟨y, hy, hfy⟩ := h₁.hasValue x
    obtain ⟨z, hz, hfz⟩ := h₂.hasValue x
    rw [hy, hz, hfy.unique hfz]
  · intro h
    have hvalue : ∀ (v : VarId) (t : Int),
        (ctx.linearPoly e₁).const + t * (ctx.linearPoly e₁).coeff v =
          (ctx.linearPoly e₂).const + t * (ctx.linearPoly e₂).coeff v := by
      intro v t
      have hsame := h fun w => if w = v then t else 0
      rwa [h₁.valueAt_single, h₂.valueAt_single, Option.some_inj] at hsame
    have hconst := hvalue ⟨0⟩ 0
    rw [Int.zero_mul, Int.zero_mul, Int.add_zero, Int.add_zero] at hconst
    refine (h₁.eq_iff_poly h₂).2 (LinearPoly.ext (funext fun v => ?_) hconst)
    have hone := hvalue v 1
    omega

end Context

end LoopBounds
