import LoopBounds.Proofs.Interval
import LoopBounds.Proofs.Trail

/-!
# Soundness of constant bounds

The value of an expression on a trail lies within its constant bounds, however deep domains and
bodies are followed.  The bounds of a body are found for parameters that are known by intervals
only, so the statement is about all expressions on the trail at once.
-/

namespace LoopBounds

namespace Context

/-- What the bounds at `μ` may rely on: the known domains where expressions are asked about, and
intervals around the arguments inside a body. -/
def Scope (ν : Valuation) (known : Env Domain) (μ : Valuation) (domains : Env Domain)
    (given : Env Interval) : Prop :=
  (μ = ν ∧ domains = known ∧ given = Env.empty) ∨
    (domains = Env.empty ∧
      ∀ v i, given v = some i → ∃ y, μ.env v = some y ∧ i.Contains y)

/-- The bounds hold the values of the stored expressions on the trail. -/
def Bounds (ctx : Context) (ν : Valuation) (known : Env Domain)
    (along : Valuation → ExprId → Prop) (bounding : Bounding) : Prop :=
  ∀ μ domains given e x, ctx.Stored e → along μ e → Scope ν known μ domains given →
    μ.value e = some x → (bounding domains given e).Contains x

variable {ctx : Context} {ν μ : Valuation} {known domains : Env Domain} {given : Env Interval}
  {along : Valuation → ExprId → Prop}

/-- More variables may have values, but not at the top. -/
theorem Scope.extend {μ' : Valuation} (h : Scope ν known μ domains given) (htop : μ = ν → μ' = ν)
    (henv : ∀ v y, μ.env v = some y → μ'.env v = some y) :
    Scope ν known μ' domains given := by
  rcases h with ⟨hμ, hdom, hgiven⟩ | ⟨hdom, hgiven⟩
  · exact .inl ⟨htop hμ, hdom, hgiven⟩
  · refine .inr ⟨hdom, fun v i hi => ?_⟩
    obtain ⟨y, hy, hiy⟩ := hgiven v i hi
    exact ⟨y, henv v y hy, hiy⟩

theorem bindParams_congr {f g : IndexFun} (h : f.Refines g) {α : Type} {m : Type → Type} [Monad m]
    (meaning : DimId → m α) : g.bindParams meaning = f.bindParams meaning := by
  rw [IndexFun.bindParams, IndexFun.bindParams, IndexFun.signature, IndexFun.signature, h.params,
    h.dims]

/-- Intervals around the arguments are intervals around the parameters. -/
theorem scope_of_enter {f : FunId} {args : List ExprId} {dims : List DimId} {μ' : Valuation}
    (hμ : μ.enter f args dims = some μ') (hf : (ctx.fn f).Refines (μ.ctx.fn f))
    {boundOf : ExprId → Interval}
    (hargs : ∀ pd ∈ (μ.ctx.fn f).signature, ∀ a, argument? args dims pd.2 = some a →
      ∀ y, μ.value a = some y → (boundOf a).Contains y) :
    Scope ν known μ' Env.empty (Id.run <| (ctx.fn f).bindParams fun dim =>
      match argument? args dims dim with
      | some a => pure (boundOf a)
      | none => pure .everything) := by
  obtain ⟨depth, inner, -, hinner, rfl⟩ := Valuation.enter_eq_some.1 hμ
  let g : DimId → Interval := fun dim =>
    match argument? args dims dim with
    | some a => boundOf a
    | none => .everything
  have hg : (fun dim => match argument? args dims dim with
      | some a => (pure (boundOf a) : Id Interval)
      | none => pure .everything) = fun dim => pure (g dim) := by
    funext dim
    dsimp only [g]
    split <;> rfl
  obtain ⟨env', henv', hrel⟩ := IndexFun.bindParams_related
    (R := fun y i => Interval.Contains i y) (k := fun dim => some (g dim)) (by
      intro pd hpd y hy
      obtain ⟨a, ha, hy⟩ := Option.bind_eq_some_iff.1 hy
      refine ⟨g pd.2, rfl, ?_⟩
      dsimp only [g]
      rw [ha]
      exact hargs pd hpd a ha y hy) hinner
  rw [bindParams_congr hf, IndexFun.bindParams_some, Option.some_inj] at henv'
  rw [hg, henv']
  refine .inr ⟨rfl, fun v i hi => ?_⟩
  have hv := hrel v
  rw [hi] at hv
  generalize hy : inner v = y? at hv
  cases hv with
  | some hiy => exact ⟨_, hy, hiy⟩

theorem isBit_contains {x : Int} (h : IsBit x) : Interval.truths.Contains x := by
  rcases h with rfl | rfl <;> exact ⟨by decide, by decide⟩

/-- The bounds that a function declares. -/
def declaredBound (ctx : Context) (f : FunId) (boundOf : ExprId → Interval) : Interval :=
  match (ctx.fn f).codomain? with
  | some d => d.bound boundOf
  | none => .everything

/-- The value of a call lies within the bounds that its function declares. -/
theorem declaredBound_contains (hctx : ctx ≤ ν.ctx) (hwf : ctx.WellFormed)
    (htrail : ν.Trail known along) {B : Bounding} (hB : ctx.Bounds ν known along B) {e : ExprId}
    {x : Int} (he : ctx.Stored e) (hr : along μ e) (hscope : Scope ν known μ domains given)
    (hx : μ.value e = some x) {f : FunId} {args : List ExprId} {dims : List DimId}
    (hn : ctx.node e = .call f args dims) : (ctx.declaredBound f (B domains given)).Contains x := by
  have hinside := htrail.inside μ e x hr hx
  unfold declaredBound
  split
  · next d hd =>
    have hf := hctx.fn f (hwf.call e f args dims hn)
    have hcall := (node_eq hctx he).trans hn
    obtain ⟨μ', htop, henv, hmin, hextent, m, n, hm, hn', hmx, hxn⟩ :=
      htrail.codomain μ e f args dims d x hr hcall (hf.codomain d hd) hx
    have hscope' := hscope.extend htop henv
    exact Domain.contains_bound (hB _ _ _ _ m (hwf.codomain f d hd).1 hmin hscope' hm)
      (hB _ _ _ _ n (hwf.codomain f d hd).2 hextent hscope' hn') hmx hxn hinside
  · exact Interval.contains_everything hinside.fits

/-- The value of a call lies within the bounds of the body, at intervals around the arguments. -/
theorem body_contains (hctx : ctx ≤ ν.ctx) (hwf : ctx.WellFormed) (htrail : ν.Trail known along)
    {B : Bounding} (hB : ctx.Bounds ν known along B) {e : ExprId} {x : Int} (he : ctx.Stored e)
    (hr : along μ e) (hx : μ.value e = some x) {f : FunId} {args : List ExprId} {dims : List DimId}
    (hn : ctx.node e = .call f args dims) {boundOf : ExprId → Interval}
    (hargs : ∀ pd ∈ (μ.ctx.fn f).signature, ∀ a, argument? args dims pd.2 = some a →
      ∀ y, μ.value a = some y → (boundOf a).Contains y) {body : ExprId}
    (hbody : (ctx.fn f).body? = some body) :
    (B Env.empty (Id.run <| (ctx.fn f).bindParams fun dim =>
      match argument? args dims dim with
      | some a => pure (boundOf a)
      | none => pure .everything) body).Contains x := by
  have hμ := htrail.ctx μ e hr
  have hf : (ctx.fn f).Refines (μ.ctx.fn f) := hμ ▸ hctx.fn f (hwf.call e f args dims hn)
  have hcall : μ.ctx.node e = .call f args dims := hμ ▸ (node_eq hctx he).trans hn
  obtain ⟨body', μ', hbody', hμ', hx⟩ := (Valuation.value_call_eq_some hcall).1 hx
  cases (hf.body body hbody).symm.trans hbody'
  have hr' := htrail.needs μ e μ' body hr (.body hcall (hf.body body hbody) hμ')
  exact hB μ' _ _ body x (hwf.body f body hbody) hr' (scope_of_enter hμ' hf hargs) hx

section

variable {deeper? : Option Bounding} {e : ExprId}

theorem boundStep_const {w : Int64} {t : Scalar} (hn : ctx.node e = .const w t) :
    ctx.boundStep deeper? domains given e = .point w := by
  rw [boundStep]
  split <;> simp_all

theorem boundStep_var {v : VarId} (hn : ctx.node e = .var v) :
    ctx.boundStep deeper? domains given e =
      match given v, domains v, deeper? with
      | some i, _, _ => i
      | none, some d, some deeper => d.bound (deeper domains given)
      | none, _, _ => .everything := by
  rw [boundStep]
  split
  case h_2 hn' =>
    cases hn.symm.trans hn'
    rfl
  all_goals simp_all

theorem boundStep_arith {op : Arith} {a b : ExprId} (hn : ctx.node e = .arith op a b) :
    ctx.boundStep deeper? domains given e = op.image (ctx.boundStep deeper? domains given a)
      (ctx.boundStep deeper? domains given b) := by
  rw [boundStep]
  split <;> simp_all

theorem boundStep_condition (hn : (ctx.node e).IsCondition) :
    ctx.boundStep deeper? domains given e = .truths := by
  rw [boundStep]
  split <;> simp_all [Node.IsCondition]

theorem boundStep_call {f : FunId} {args : List ExprId} {dims : List DimId}
    (hn : ctx.node e = .call f args dims) :
    ctx.boundStep deeper? domains given e =
      match deeper? with
      | none => .everything
      | some B =>
        match (ctx.fn f).body? with
        | none => ctx.declaredBound f (B domains given)
        | some body =>
          (B Env.empty (Id.run <| (ctx.fn f).bindParams fun dim =>
            match argument? args dims dim with
            | some a => pure (ctx.boundStep deeper? domains given a)
            | none => pure .everything) body).intersect
              (ctx.declaredBound f (B domains given)) := by
  rw [boundStep]
  split
  case h_8 hn' =>
    cases hn.symm.trans hn'
    cases deeper? with
    | none => rfl
    | some B =>
        cases (ctx.fn f).body? with
        | none => rfl
        | some body =>
            refine congrArg (fun inner => (B Env.empty inner body).intersect
              (ctx.declaredBound f (B domains given))) ?_
            refine congrArg (fun meaning => Id.run ((ctx.fn f).bindParams meaning))
              (funext fun dim => ?_)
            split <;> split <;> simp_all
  all_goals simp_all

end

/-- The value of a variable lies within the interval it is given or the bounds of its domain. -/
theorem variable_contains (hstored : ∀ v d, known v = some d → ctx.StoredDomain d)
    (htrail : ν.Trail known along) {deeper? : Option Bounding}
    (hdeeper : ∀ B, deeper? = some B → ctx.Bounds ν known along B) {e : ExprId} {x : Int}
    (hr : along μ e) (hscope : Scope ν known μ domains given) (hx : μ.value e = some x) {v : VarId}
    (hn : ctx.node e = .var v) (hnode : μ.ctx.node e = ctx.node e) :
    (ctx.boundStep deeper? domains given e).Contains x := by
  have hinside := htrail.inside μ e x hr hx
  rw [boundStep_var hn]
  split
  · next i hi =>
    rcases hscope with ⟨-, -, hgiven⟩ | ⟨-, hgiven⟩
    · rw [hgiven] at hi
      cases hi
    · rw [Valuation.value_var (hnode.trans hn)] at hx
      obtain ⟨y, hy, hiy⟩ := hgiven v i hi
      cases hx.symm.trans hy
      exact hiy
  · next d B _ hd =>
    rcases hscope with ⟨rfl, rfl, rfl⟩ | ⟨hdom, -⟩
    · rw [Valuation.value_var (hnode.trans hn)] at hx
      obtain ⟨hmin, hextent, m, n, hm, hn, hmx, hxn⟩ :=
        htrail.domain e v d x hr (hnode.trans hn) hd hx
      have hscope : Scope μ domains μ domains Env.empty := .inl ⟨rfl, rfl, rfl⟩
      exact Domain.contains_bound (hdeeper B rfl μ _ _ _ m (hstored v d hd).1 hmin hscope hm)
        (hdeeper B rfl μ _ _ _ n (hstored v d hd).2 hextent hscope hn) hmx hxn hinside
    · rw [hdom] at hd
      cases hd
  · exact Interval.contains_everything hinside.fits

/-- One level of bounds is sound when the bounds of domains, codomains and bodies are. -/
theorem boundStep_bounds (hctx : ctx ≤ ν.ctx) (hwf : ctx.WellFormed)
    (hstored : ∀ v d, known v = some d → ctx.StoredDomain d) (htrail : ν.Trail known along)
    {deeper? : Option Bounding} (hdeeper : ∀ B, deeper? = some B → ctx.Bounds ν known along B)
    {e : ExprId} {x : Int} (he : ctx.Stored e) (hr : along μ e)
    (hscope : Scope ν known μ domains given) (hx : μ.value e = some x) :
    (ctx.boundStep deeper? domains given e).Contains x := by
  have hinside := htrail.inside μ e x hr hx
  have hnode : μ.ctx.node e = ctx.node e := htrail.ctx μ e hr ▸ node_eq hctx he
  have operand : ∀ c ∈ (ctx.node e).children, μ.Needs e μ c → ∀ y, μ.value c = some y →
      (ctx.boundStep deeper? domains given c).Contains y := fun c hc hneeds y hy =>
    boundStep_bounds hctx hwf hstored htrail hdeeper (he.child hc)
      (htrail.needs μ e μ c hr hneeds) hscope hy
  cases hn : ctx.node e with
  | const w t =>
      rw [Valuation.value_const (hnode.trans hn), Option.some_inj] at hx
      rw [boundStep_const hn, ← hx]
      exact Interval.contains_point w
  | var v => exact variable_contains hstored htrail hdeeper hr hscope hx hn hnode
  | arith op a b =>
      obtain ⟨y, z, hy, hz, hx⟩ := (Valuation.value_arith_eq_some (hnode.trans hn)).1 hx
      have ha : μ.Needs e μ a := .operand (by simp [hnode, hn, Node.required])
      have hb : μ.Needs e μ b := .operand (by simp [hnode, hn, Node.required])
      rw [boundStep_arith hn]
      exact Interval.contains_image (operand a (by simp [hn, Node.children]) ha y hy)
        (operand b (by simp [hn, Node.children]) hb z hz)
        (htrail.inside μ a y (htrail.needs μ e μ a hr ha) hy)
        (htrail.inside μ b z (htrail.needs μ e μ b hr hb) hz) hx hinside
  | compare | and | or | not =>
      have hcond : (ctx.node e).IsCondition := hn ▸ trivial
      rw [boundStep_condition hcond]
      exact isBit_contains (Valuation.isBit_of_isCondition (hnode.symm ▸ hcond) hx)
  | call f args dims =>
      rw [boundStep_call hn]
      cases deeper? with
      | none => exact Interval.contains_everything hinside.fits
      | some B =>
          have hdeclared :=
            declaredBound_contains hctx hwf htrail (hdeeper B rfl) he hr hscope hx hn
          dsimp only
          split
          · exact hdeclared
          · next body hbody =>
            refine Interval.Contains.intersect ?_ hdeclared
            refine body_contains hctx hwf htrail (hdeeper B rfl) he hr hx hn
              (fun pd hpd a ha => ?_) hbody
            have hma : a ∈ (ctx.node e).children := by
              simpa [hn, Node.children] using mem_of_argument? ha
            exact operand a hma (.argument (hnode.trans hn) hpd ha)
termination_by e.index
decreasing_by exact ctx.child_lt hc

theorem boundWithin_bounds (hctx : ctx ≤ ν.ctx) (hwf : ctx.WellFormed)
    (hstored : ∀ v d, known v = some d → ctx.StoredDomain d) (htrail : ν.Trail known along)
    (depth : Nat) : ctx.Bounds ν known along (ctx.boundWithin depth) := by
  induction depth with
  | zero =>
      have hnone : ∀ B, (none : Option Bounding) = some B → ctx.Bounds ν known along B := nofun
      exact fun μ domains given e x he hr hscope hx =>
        boundStep_bounds hctx hwf hstored htrail hnone he hr hscope hx
  | succ depth ih =>
      refine fun μ domains given e x he hr hscope hx =>
        boundStep_bounds hctx hwf hstored htrail (fun B hB => ?_) he hr hscope hx
      cases hB
      exact ih

/-- The value of an expression lies within its constant bounds. -/
theorem contains_boundWithin (hctx : ctx ≤ ν.ctx) (hwf : ctx.WellFormed)
    (hstored : ∀ v d, known v = some d → ctx.StoredDomain d) (htrail : ν.Trail known along)
    {e : ExprId} {x : Int} (he : ctx.Stored e) (hr : along ν e) (hx : ν.value e = some x)
    (depth : Nat) : (ctx.boundWithin depth known Env.empty e).Contains x :=
  boundWithin_bounds hctx hwf hstored htrail depth ν known Env.empty e x he hr
    (.inl ⟨rfl, rfl, rfl⟩) hx

end Context

end LoopBounds
