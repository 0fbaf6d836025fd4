import LoopBounds.IndexFun.Invert
import LoopBounds.Proofs.Remembered
import LoopBounds.Proofs.Renaming
import LoopBounds.Proofs.Tiling

/-!
# Solutions of index functions

Where an index function is solved for its arguments, its body has the given value at the
solution.  The arguments of a call solve the function that is called and all that are equal to
it.  An affine body is read as a multiple of its parameter plus a constant, and that reading is
exact at every assignment, also inside the body, where the known domains say nothing.
-/

namespace LoopBounds

theorem Context.cases_of_isAffine {ctx : Context} {e : ExprId} (h : ctx.isAffine e = true) :
    (∃ w t, ctx.node e = .const w t) ∨ (∃ v, ctx.node e = .var v) ∨
      ∃ op a b, ctx.node e = .arith op a b ∧ (op = .add ∨ op = .sub ∨ op = .mul) ∧
        ctx.isAffine a = true ∧ ctx.isAffine b = true := by
  have literal : ∀ a, (ctx.literal? a).isSome = true → ctx.isAffine a = true := by
    intro a ha
    obtain ⟨w, hw⟩ := Option.isSome_iff_exists.1 ha
    obtain ⟨t, hn⟩ := exists_node_of_literal? hw
    rw [isAffine_def, hn]
  rw [isAffine_def] at h
  split at h
  · next w t hn => exact .inl ⟨w, t, hn⟩
  · next v hn => exact .inr (.inl ⟨v, hn⟩)
  · next a b hn =>
    rw [Bool.and_eq_true] at h
    exact .inr (.inr ⟨_, a, b, hn, .inl rfl, h⟩)
  · next a b hn =>
    rw [Bool.and_eq_true] at h
    exact .inr (.inr ⟨_, a, b, hn, .inr (.inl rfl), h⟩)
  · next a b hn =>
    simp only [Bool.or_eq_true, Bool.and_eq_true] at h
    refine .inr (.inr ⟨_, a, b, hn, .inr (.inr rfl), ?_⟩)
    rcases h with ⟨ha, hb⟩ | ⟨hb, ha⟩
    exacts [⟨literal a ha, hb⟩, ⟨ha, literal b hb⟩]
  · cases h

/-! ## Affine expressions simplify exactly -/

namespace Session

/-- What is remembered of affine expressions has their values everywhere. -/
def Exact (s : Session) : Prop :=
  ∀ e r, s.analyzer.simplified? e = some r → s.ctx.isAffine e = true →
    s.ctx.Denotes .all r fun ν z => ν.value e = some z

variable {s s' : Session}

theorem Exact.of_eq (h : s.Exact) (hs : s.Valid) (hle : s.ctx ≤ s'.ctx)
    (heq : ∀ e, s'.analyzer.simplified? e = s.analyzer.simplified? e) : s'.Exact := by
  intro e r hr haffine
  rw [heq] at hr
  have hstored := (hs.simplified e r (Option.ite_none_right_eq_some.1 hr).2).stored
  rw [Context.isAffine_eq hle e hstored] at haffine
  exact (h e r hr haffine).mono hle

theorem exact_forgetful (ctx : Context) : Exact ⟨ctx, .forgetful⟩ := nofun

end Session

namespace Query

variable {s : Session} {a b e r : ExprId} {op : Arith} {K : NodeClass}

theorem simplifyArith_exact {type : Scalar} (hop : op = .add ∨ op = .sub ∨ op = .mul)
    (hs : s.Valid) (ha : s.ctx.Over K a) (hb : s.ctx.Over K b) :
    Ensures (simplifyArith op type a b) s fun r ctx => ctx.Denotes K r (ArithOf op a b) := by
  rcases hop with rfl | rfl | rfl
  · exact .context (simplifySum_ensures hs ha hb)
  · exact .context (simplifyDifference_ensures hs ha hb)
  · exact simplifyProduct_ensures hs ha hb

theorem remember_exact {q : Query ExprId}
    (hq : Leads q s fun r s' => s'.Exact ∧ s'.ctx.Denotes .all r (fun ν z => ν.value e = some z)) :
    Leads (do let r ← q; recordSimplified e r; return r) s fun r s' =>
      s'.Exact ∧ s'.ctx.Denotes .all r fun ν z => ν.value e = some z := by
  refine hq.bind fun r s' ⟨hexact, hr⟩ => ?_
  refine ⟨fun e' r' hr' => ?_, hr⟩
  rcases Analyzer.simplified?_insert hr' with ⟨rfl, rfl⟩ | hr'
  exacts [fun _ => hr, hexact e' r' hr']

/-- What the induction over expressions gives for an operand. -/
def Exactly (e : ExprId) : Prop := ∀ s : Session, s.Valid → s.Exact → s.ctx.Stored e →
  s.ctx.isAffine e = true → Leads (simplify e) s fun r s' =>
    s'.Valid ∧ s.ctx.Grows s'.ctx ∧ s'.Exact ∧ s'.ctx.Denotes .all r fun ν z => ν.value e = some z

theorem exactly_of_exact
    (h : ∀ s : Session, s.Valid → s.Exact → s.ctx.Stored e → s.ctx.isAffine e = true →
      Leads (simplify e) s fun r s' =>
        s'.Exact ∧ s'.ctx.Denotes .all r fun ν z => ν.value e = some z) : Exactly e := by
  intro s hs hexact he haffine
  have hsimplified := simplified e s hs he
  exact ⟨hsimplified.valid, hsimplified.grows, h s hs hexact he haffine⟩

theorem binary_exact {type : Scalar} (hop : op = .add ∨ op = .sub ∨ op = .mul) (hs : s.Valid)
    (hexact : s.Exact) (he : s.ctx.Stored e) (hn : s.ctx.node e = .arith op a b)
    (ha : s.ctx.isAffine a = true) (hb : s.ctx.isAffine b = true) (iha : Exactly a)
    (ihb : Exactly b) :
    Leads (do
      let c ← simplify a
      let d ← simplify b
      let r ← simplifyArith op type c d
      recordSimplified e r
      return r) s fun r s' => s'.Exact ∧ s'.ctx.Denotes .all r fun ν z => ν.value e = some z := by
  have hsa : s.ctx.Stored a := he.child (by simp [hn, Node.children])
  have hsb : s.ctx.Stored b := he.child (by simp [hn, Node.children])
  refine (iha s hs hexact hsa ha).bind ?_
  rintro c s₁ ⟨hs₁, hg₁, hexact₁, hc⟩
  have hb₁ := (Context.isAffine_eq hg₁.le b hsb).trans hb
  refine (ihb s₁ hs₁ hexact₁ (hsb.mono hg₁.le) hb₁).bind ?_
  rintro d s₂ ⟨hs₂, hg₂, hexact₂, hd⟩
  have harith : Ensures (simplifyArith op type c d) s₂ fun r ctx =>
      ctx.Denotes .all r (ArithOf op c d) :=
    simplifyArith_exact hop hs₂ (hc.nodes.mono hg₂.le) hd.nodes
  refine remember_exact ⟨hexact₂.of_eq hs₂ harith.grows.le (quiet_simplifyArith s₂).1, ?_⟩
  refine harith.post.of_imp fun ν hν z hz => ?_
  have hν₂ := harith.grows.le.trans hν
  have hν₁ := hg₂.le.trans hν₂
  have hnode := (Context.node_eq (hg₁.le.trans hν₁) he).trans hn
  obtain ⟨x, y, hx, hy, hz⟩ := (Valuation.value_arith_eq_some hnode).1 hz
  exact ⟨x, y, hc.value ν hν₁ x hx, hd.value ν hν₂ y hy, hz⟩

/-- An affine expression simplifies to one with its value at every assignment. -/
theorem simplify_exact (e : ExprId) : ∀ s : Session, s.Valid → s.Exact → s.ctx.Stored e →
    s.ctx.isAffine e = true →
    Leads (simplify e) s fun r s' =>
      s'.Exact ∧ s'.ctx.Denotes .all r fun ν z => ν.value e = some z := by
  intro s hs hexact he haffine
  rw [simplify]
  refine .analyzer ?_
  split
  · next r hr => exact .pure ⟨hexact, hexact e r hr haffine⟩
  refine .context ?_
  dsimp only
  have hleaf : s.ctx.Denotes .all e fun ν z => ν.value e = some z :=
    Context.denotes_value (Context.over_all he)
  have haffine := Context.cases_of_isAffine haffine
  split
  · exact remember_exact (.pure ⟨hexact, hleaf⟩)
  · exact remember_exact (.pure ⟨hexact, hleaf⟩)
  · next op a b hn =>
    simp only [hn, reduceCtorEq, exists_const, Node.arith.injEq, false_or] at haffine
    obtain ⟨_, _, _, ⟨rfl, rfl, rfl⟩, hop, ha, hb⟩ := haffine
    have hma : a ∈ (s.ctx.node e).children := by simp [hn, Node.children]
    have hmb : b ∈ (s.ctx.node e).children := by simp [hn, Node.children]
    exact binary_exact hop hs hexact he hn ha hb (exactly_of_exact (simplify_exact a))
      (exactly_of_exact (simplify_exact b))
  all_goals
    next hn => simp [hn] at haffine
termination_by e.index
decreasing_by
  all_goals first
    | exact Context.child_lt _ hma
    | exact Context.child_lt _ hmb

end Query

/-! ## Solving an affine body -/

theorem Session.Valid.forgetful {ctx : Context} (hwf : ctx.WellFormed) :
    Session.Valid ⟨ctx, .forgetful⟩ :=
  .start hwf false

theorem Valuation.Admits.forgetful {ν : Valuation} {known : Env Domain} (h : ν.Admits known)
    (ctx : Context) : ν.Admits (Session.domains ⟨ctx, .forgetful⟩) :=
  h.congr fun _ _ _ hd _ => by simp [Session.domains, Analyzer.forgetful] at hd

/-- Wherever `param` has a value, so that the body has one, that is `c * param + b`. -/
def Context.IsLine (ctx : Context) (body : ExprId) (param : VarId) (c b : Int) : Prop :=
  ∀ ν : Valuation, ctx ≤ ν.ctx → ∀ x y, ν.env param = some x → ν.value body = some y →
    y = c * x + b

/-- `r` has a value whose multiple by `c` is the value of `e`. -/
def Context.Divides (ctx : Context) (e r : ExprId) (c : Int) : Prop :=
  ∀ (ν : Valuation) known, ctx ≤ ν.ctx → ν.Admits known → ∀ z, ν.value e = some z →
    ∃ x, ν.value r = some x ∧ c * x = z

theorem Affine.eq_singleton_of_coeff {form : Affine} {p : ExprId}
    (hone : ¬ 1 < form.terms.length) (hc : form.coeff p ≠ 0) :
    form.terms = [(p, form.coeff p)] := by
  obtain ⟨terms, b⟩ := form
  match terms with
  | [] => exact absurd rfl hc
  | [(q, k)] =>
      by_cases hq : p = q
      · simp [coeff, hq]
      · exact absurd (by simp [coeff, List.lookup, beq_false_of_ne hq]) hc
  | _ :: _ :: _ => simp at hone

/-- A form with one term, that of the parameter. -/
theorem Affine.isLine {ctx : Context} {form : Affine} {body p : ExprId} {param : VarId}
    (hform : Denotes ctx .all form fun ν z => ν.value body = some z)
    (hp : ctx.Stored p) (hn : ctx.node p = .var param) (hone : ¬ 1 < form.terms.length)
    (hc : form.coeff p ≠ 0) :
    ctx.IsLine body param (form.coeff p).toInt form.const.toInt := by
  intro ν hν x y hx hy
  obtain ⟨s, hs, rfl⟩ := hform.value ν hν y hy
  rw [eq_singleton_of_coeff hone hc] at hs
  cases hs with
  | cons hx' hs =>
      cases hs
      rw [Valuation.value_var ((Context.node_eq hν hp).trans hn)] at hx'
      rw [Option.some_inj.1 (hx'.symm.trans hx), add_zero]

namespace Attempt

variable {ctx : Context} {callee : IndexFun} {type : Scalar} {e value body : ExprId}
  {param : VarId} {c : Int64}

theorem Ensures.yields {α : Type} {b : Attempt α} {Q : α → Context → Prop}
    (h : Attempt.Ensures b ctx Q) : Yields False b ctx Q :=
  Build.Ensures.mono h fun _ _ _ h => ⟨False.elim, h⟩

theorem ask_yields {α : Type} {q : Query α} {Q : α → Context → Prop}
    (h : Query.Ensures q ⟨ctx, .forgetful⟩ Q) : Yields False (ask q) ctx Q :=
  Yields.build (b := Query.runWith .forgetful q) ⟨h.grows, h.post⟩

theorem askSimplify_exact (hwf : ctx.WellFormed) (he : ctx.Stored e)
    (haffine : ctx.isAffine e = true) :
    Yields False (ask (Query.simplify e)) ctx fun r ctx' =>
      ctx'.Denotes .all r fun ν z => ν.value e = some z := by
  have hs := Session.Valid.forgetful hwf
  have hsimplified := Query.simplified e _ hs he
  have hexact := Query.simplify_exact e _ hs (Session.exact_forgetful ctx) he haffine
  exact ask_yields ⟨hsimplified.valid, hsimplified.grows, hsimplified.domains, hexact.2⟩

theorem askSimplify_yields (hwf : ctx.WellFormed) (he : ctx.Stored e) :
    Yields False (ask (Query.simplify e)) ctx fun r ctx' => ctx'.Stored r ∧
      ∀ (ν : Valuation) known, ctx' ≤ ν.ctx → ν.Admits known → ∀ z, ν.value e = some z →
        ν.value r = some z := by
  refine ask_yields ((Query.simplified e _ (.forgetful hwf) he).mono fun r ctx' _ hr => ?_)
  exact ⟨hr.result_stored, fun ν known hν hadmits z hz =>
    hr.value_eq hν (hadmits.forgetful ctx) hz⟩

/-- What is shown under no known domains at all. -/
theorem askProves_yields (hwf : ctx.WellFormed) (he : ctx.Stored e) :
    Yields False (ask (Query.proves e)) ctx fun answer ctx' => answer = true →
      ∀ (ν : Valuation) known, ctx' ≤ ν.ctx → ν.Admits known → ∀ z, ν.value e = some z → z ≠ 0 :=
  ask_yields ((Query.proves_ensures (.forgetful hwf) he).mono fun _ _ _ h hanswer ν _ hν hadmits =>
    h hanswer ν hν (hadmits.forgetful ctx))

theorem solveMultiple_yields (hwf : ctx.WellFormed) (hc : c ≠ 0) (he : ctx.Stored e) :
    Yields False (solveMultiple callee type e c) ctx fun r ctx' =>
      ctx'.Stored r ∧ ctx'.Divides e r c.toInt := by
  unfold solveMultiple
  split
  · next hone =>
    refine .pure ⟨he, fun ν known _ _ z hz => ⟨z, hz, ?_⟩⟩
    rw [hone, Int64.toInt_one, one_mul]
  split
  · next hneg =>
    refine Yields.bind (.build (Build.constant_denotes ctx .all 0 type))
      fun zero ctx₁ hg₁ hzero => ?_
    refine Yields.mono (.build (Build.sub_denotes hzero.nodes ((Context.over_all he).mono hg₁.le)))
      fun r ctx₂ hg₂ hr => ?_
    refine ⟨hr.stored, fun ν known hν _ z hz => ⟨-z, ?_, ?_⟩⟩
    · exact hr.value ν hν _ ⟨0, z, hzero.value ν (hg₂.le.trans hν) 0 rfl, hz, zero_sub z⟩
    · rw [hneg]
      exact neg_one_mul (-z) |>.trans (neg_neg z)
  have hc0 : c.toInt ≠ 0 := mt (Word.toInt_eq_zero_iff c).1 hc
  refine Yields.bind (.build (Build.constant_denotes ctx .all c type))
    fun divisor ctx₁ hg₁ hdivisor => ?_
  refine Yields.bind (divide_denotes .floorMod ((Context.over_all he).mono hg₁.le)
    hdivisor.nodes).yields fun rest ctx₂ hg₂ hrest => ?_
  refine Yields.bind (.build (Build.constant_denotes ctx₂ .all 0 type))
    fun zero ctx₃ hg₃ hzero => ?_
  refine Yields.bind (.build (Build.compare_denotes .eq (hrest.nodes.mono hg₃.le) hzero.nodes))
    fun multiple ctx₄ hg₄ hmultiple => ?_
  have hg := hg₁.trans (hg₂.trans (hg₃.trans hg₄))
  refine Yields.bind (askProves_yields (hg.wellFormed hwf) hmultiple.stored)
    fun answer ctx₅ hg₅ hanswer => ?_
  split
  · next hyes =>
    refine Yields.mono (divide_denotes .floorDiv ((Context.over_all he).mono (hg.trans hg₅).le)
      (hdivisor.nodes.mono (hg₂.trans (hg₃.trans (hg₄.trans hg₅))).le)).yields
      fun r ctx₆ hg₆ hr => ?_
    refine ⟨hr.stored, fun ν known hν hadmits z hz => ?_⟩
    have hν₅ := hg₆.le.trans hν
    have hν₄ := hg₅.le.trans hν₅
    have hν₃ := hg₄.le.trans hν₄
    have hν₂ := hg₃.le.trans hν₃
    have hdiv := hdivisor.value ν (hg₂.le.trans hν₂) _ rfl
    have hmod := hrest.value ν hν₂ (z.fmod c.toInt) ⟨z, c.toInt, hz, hdiv, if_neg hc0⟩
    have hcond := hmultiple.value ν hν₄ _ ⟨_, _, hmod, hzero.value ν hν₃ _ rfl, rfl⟩
    have htrue := hanswer hyes ν known hν₅ hadmits _ hcond
    have hzero : z.fmod c.toInt = 0 := by
      by_contra h0
      exact htrue (by simp [Comparison.exact, h0])
    refine ⟨z.fdiv c.toInt, hr.value ν hν _ ⟨z, c.toInt, hz, hdiv, if_neg hc0⟩, ?_⟩
    have hsplit := Int.mul_fdiv_add_fmod z c.toInt
    rwa [hzero, add_zero] at hsplit
  · exact .throw id

theorem obstructed_yields {α β : Type} {obstacle : Obstacle} {f : α → Attempt β}
    {Q : β → Context → Prop} : Yields False (obstructed callee obstacle >>= f) ctx Q :=
  Yields.bind (Q := fun _ _ => False) (.throw id) fun _ _ _ => False.elim

/-- What an affine body is solved to: `c * r + b` is the value, where the body is
`c * param + b`. -/
theorem solveAffine_yields (hwf : ctx.WellFormed) (hvalue : ctx.Stored value)
    (hbody : ctx.Stored body) :
    Yields False (solveAffine callee body param value) ctx fun r ctx' =>
      ctx'.Stored r ∧ ctx.isAffine body = true ∧ ∃ c b : Int, ctx'.IsLine body param c b ∧
        ∀ (ν : Valuation) known, ctx' ≤ ν.ctx → ν.Admits known → ∀ z, ν.value value = some z →
          ∃ x, ν.value r = some x ∧ c * x + b = z := by
  unfold solveAffine
  refine .get ?_
  dsimp only
  split
  · exact obstructed_yields
  next haffine =>
  have haffine : ctx.isAffine body = true := by simpa using haffine
  refine Yields.bind (askSimplify_exact hwf hbody haffine) fun simple ctx₁ hg₁ hsimple => ?_
  refine .get ?_
  have hform : Affine.Denotes ctx₁ .all (Affine.ofExpr ctx₁ simple) fun ν z =>
      ν.value body = some z :=
    (Affine.ofExpr_denotes hsimple.nodes).of_imp hsimple.value
  generalize Affine.ofExpr ctx₁ simple = form at hform
  refine Yields.bind (.build (Build.intern_ensures (n := .var param) (K := .all) trivial
    (by simp [Node.children]) (by simp))) ?_
  rintro p ctx₂ hg₂ ⟨hp, hn⟩
  split
  · exact obstructed_yields
  next hone =>
  split
  · exact obstructed_yields
  next hc =>
  have hline := Affine.isLine (hform.mono hg₂.le) hp.stored hn hone hc
  refine .get ?_
  refine Yields.bind (.build (Build.constant_denotes ctx₂ .all form.const _))
    fun const ctx₃ hg₃ hconst => ?_
  have hg := hg₁.trans (hg₂.trans hg₃)
  refine Yields.bind (.build (Build.sub_denotes ((Context.over_all hvalue).mono hg.le)
    hconst.nodes)) fun shifted ctx₄ hg₄ hshifted => ?_
  refine Yields.bind (solveMultiple_yields ((hg.trans hg₄).wellFormed hwf) hc hshifted.stored) ?_
  rintro solved ctx₅ hg₅ ⟨hsolved, hdivides⟩
  refine (askSimplify_yields ((hg.trans (hg₄.trans hg₅)).wellFormed hwf) hsolved).mono ?_
  rintro r ctx₆ hg₆ ⟨hr, hvalue⟩
  have hle := (hg₃.trans (hg₄.trans (hg₅.trans hg₆))).le
  refine ⟨hr, haffine, _, _, fun ν hν => hline ν (hle.trans hν), fun ν known hν hadmits z hz => ?_⟩
  have hν₅ := hg₆.le.trans hν
  have hν₄ := hg₅.le.trans hν₅
  have hshift := hshifted.value ν hν₄ _ ⟨z, _, hz, hconst.value ν (hg₄.le.trans hν₄) _ rfl, rfl⟩
  obtain ⟨x, hx, hcx⟩ := hdivides ν known hν₅ hadmits _ hshift
  exact ⟨x, hvalue ν known hν hadmits x hx, by rw [hcx, sub_add_cancel]⟩

end Attempt

/-! ## Arguments -/

/-- How a function was solved: by the arguments of a call of an equal function, or on the line
that its body is in its only parameter. -/
inductive Context.Solution (ctx : Context) (f : FunId) (e : ExprId) :
    List (DimId × ExprId) → Context → Prop
  | call {g args dims solved} (hn : ctx.node e = .call g args dims)
    (hequal : g = f ∨ (ctx.correspondence f g).equal = true)
    (hsolved : List.Forall₂ (fun d p => p.1 = d ∧ argument? args dims d = some p.2)
      (ctx.fn f).dims solved) : Solution ctx f e solved ctx
  | line {ctx' param dim body r} {c b : Int} (hsig : (ctx.fn f).signature = [(param, dim)])
    (hbody : (ctx.fn f).body? = some body) (haffine : ctx.isAffine body = true)
    (hr : ctx'.Stored r) (hline : ctx'.IsLine body param c b)
    (hsolves : ∀ (ν : Valuation) known, ctx' ≤ ν.ctx → ν.Admits known → ∀ z, ν.value e = some z →
      ∃ x, ν.value r = some x ∧ c * x + b = z) : Solution ctx f e [(dim, r)] ctx'

/-- The entries are stored, there is one for the dimension of each parameter, and where they have
the values of the arguments of `f`, its body has the value of `e`. -/
structure Context.Inverts (ctx : Context) (f : FunId) (e : ExprId)
    (solved : List (DimId × ExprId)) : Prop where
  stored : ∀ p ∈ solved, ctx.Stored p.2
  dims : ∀ pd ∈ (ctx.fn f).signature, ∃ r, (pd.2, r) ∈ solved
  value : ∀ (ν : Valuation) known, ctx.Grows ν.ctx → ν.Admits known →
    ∀ (k : DimId → Option Int) inner, (ctx.fn f).bindParams k = some inner →
      (∀ p ∈ solved, ∀ x y, k p.1 = some x → ν.value p.2 = some y → x = y) →
      ∀ body, (ctx.fn f).body? = some body → ∀ z, ν.value e = some z →
        ∀ y, Valuation.value ⟨ν.ctx, ν.depth, inner⟩ body = some y → y = z

namespace Attempt

variable {ctx : Context} {f : FunId} {value : ExprId}

theorem Yields.mapM {α β : Type} {c : Prop} {g : α → Attempt β} {C : α → β → Prop} {xs : List α}
    (h : ∀ x ∈ xs, Yields c (g x) ctx fun y ctx' => ctx' = ctx ∧ C x y) :
    Yields c (xs.mapM g) ctx fun ys ctx' => ctx' = ctx ∧ List.Forall₂ C xs ys := by
  induction xs with
  | nil => exact .pure ⟨rfl, .nil⟩
  | cons x xs ih =>
      rw [List.mapM_cons]
      refine Yields.bind (h x List.mem_cons_self) ?_
      rintro y _ - ⟨rfl, hy⟩
      refine Yields.bind (ih fun x' hx' => h x' (List.mem_cons_of_mem _ hx')) ?_
      rintro ys _ - ⟨rfl, hys⟩
      exact .pure ⟨rfl, .cons hy hys⟩

/-- The arguments of a call of an equal function solve the function. -/
theorem inverts_of_call {g : FunId} {args : List ExprId} {dims : List DimId}
    {solved : List (DimId × ExprId)} (hwf : ctx.WellFormed) (hf : (ctx.fn f).params.Nodup)
    (hvalue : ctx.Stored value) (hn : ctx.node value = .call g args dims)
    (h : g = f ∨ (ctx.correspondence f g).equal = true)
    (hsolved : List.Forall₂ (fun d p => p.1 = d ∧ argument? args dims d = some p.2)
      (ctx.fn f).dims solved) : ctx.Inverts f value solved := by
  have hentry : ∀ d ∈ (ctx.fn f).dims, ∃ r, (d, r) ∈ solved ∧ argument? args dims d = some r := by
    intro d hd
    obtain ⟨i, hi, rfl⟩ := List.getElem_of_mem hd
    have hi' : i < solved.length := hsolved.length_eq ▸ hi
    obtain ⟨h1, h2⟩ := hsolved.get hi hi'
    simp only [List.get_eq_getElem] at h1 h2
    exact ⟨solved[i].2, by rw [← h1]; exact List.getElem_mem hi', h2⟩
  refine ⟨fun p hp => ?_, fun pd hpd => ?_, ?_⟩
  · refine hvalue.child ?_
    rw [hn]
    exact forall_of_forall₂ hsolved (fun _ _ _ h => mem_of_argument? h.2) p hp
  · obtain ⟨r, hr, -⟩ := hentry pd.2 (List.of_mem_zip hpd).2
    exact ⟨r, hr⟩
  · intro ν known hν hadmits k inner hinner hk body hbody z hz y hy
    have hnode := (Context.node_eq hν.le hvalue).trans hn
    obtain ⟨body', μ, hbody', hμ, hz⟩ := (Valuation.value_call_eq_some hnode).1 hz
    obtain ⟨depth, outer, hdepth, houter, rfl⟩ := Valuation.enter_eq_some.1 hμ
    rw [hν.fn_eq] at hbody' houter
    have hy' := Valuation.value_of_correspondence (ν := ⟨ν.ctx, ν.depth, inner⟩)
      (μ := ⟨ν.ctx, ν.depth, outer⟩) hwf hf h hν.le rfl rfl hinner houter
      (fun d hd x x' hx hx' => ?_)
      hbody hbody' hy
    · have hle : Valuation.Extends ⟨ν.ctx, depth, outer⟩ ⟨ν.ctx, ν.depth, outer⟩ :=
        ⟨rfl, hdepth ▸ Nat.le_succ depth, fun _ _ => id⟩
      exact Option.some_inj.1 (hy'.symm.trans (Valuation.value_mono hle hz))
    · obtain ⟨r, hr, harg⟩ := hentry d hd
      rw [harg, Option.bind_some] at hx'
      exact hk _ hr x x' hx hx'

/-- A solution of the line that the body is, in its only parameter, solves the function. -/
theorem inverts_of_line {r body : ExprId} {param : VarId} {dim : DimId} {c b : Int}
    (hr : ctx.Stored r) (hsig : (ctx.fn f).signature = [(param, dim)])
    (hbody : (ctx.fn f).body? = some body) (hline : ctx.IsLine body param c b)
    (hsolves : ∀ (ν : Valuation) known, ctx ≤ ν.ctx → ν.Admits known →
      ∀ z, ν.value value = some z → ∃ x, ν.value r = some x ∧ c * x + b = z) :
    ctx.Inverts f value [(dim, r)] := by
  refine ⟨fun p hp => ?_, fun pd hpd => ⟨r, ?_⟩, ?_⟩
  · rwa [List.mem_singleton.1 hp]
  · rw [hsig, List.mem_singleton] at hpd
    rw [hpd]
    exact List.mem_singleton_self _
  · intro ν known hν hadmits k inner hinner hk body' hbody' z hz y hy
    cases hbody.symm.trans hbody'
    have hmem : (param, dim) ∈ (ctx.fn f).signature := hsig ▸ List.mem_singleton_self _
    obtain ⟨x, hx⟩ := IndexFun.bound_of_bindParams hinner hmem
    obtain ⟨d, hd, hkd⟩ := IndexFun.mem_signature_of_bindParams hinner hx
    rw [hsig, List.mem_singleton] at hd
    cases hd
    obtain ⟨x', hx', rfl⟩ := hsolves ν known hν.le hadmits z hz
    rw [hline ⟨ν.ctx, ν.depth, inner⟩ hν.le x y hx hy,
      hk _ (List.mem_singleton_self _) x x' hkd hx']

theorem argumentsOf?_yields :
    Yields False (argumentsOf? f value) ctx fun solved? ctx' => ctx' = ctx ∧
      ∀ solved, solved? = some solved → ctx.Solution f value solved ctx := by
  unfold argumentsOf?
  refine .get ?_
  split
  · next g args dims hn =>
    split
    · next hequal =>
      rw [map_eq_pure_bind]
      refine Yields.bind (Yields.mapM
        (C := fun d p => p.1 = d ∧ argument? args dims d = some p.2) fun d _ => ?_) ?_
      · refine Yields.bind (argument_yields _ False.elim) ?_
        rintro a _ - ⟨rfl, ha⟩
        exact .pure ⟨rfl, rfl, ha⟩
      · rintro solved _ - ⟨rfl, hsolved⟩
        refine .pure ⟨rfl, ?_⟩
        rintro _ ⟨⟩
        exact .call hn hequal hsolved
    · exact .pure ⟨rfl, by simp⟩
  · exact .pure ⟨rfl, by simp⟩

theorem invert_solution (hwf : ctx.WellFormed) (hvalue : ctx.Stored value) :
    Yields False (invert value f) ctx fun solved ctx' => ctx.Solution f value solved ctx' := by
  unfold invert
  apply Yields.bind argumentsOf?_yields
  rintro solved? _ - ⟨rfl, hsolved⟩
  split
  · next solved => exact .pure (hsolved solved rfl)
  refine .get ?_
  dsimp only
  split
  · exact .throw id
  · next param dim hsig =>
    split
    · exact .throw id
    · next body hbody =>
      apply Yields.bind (solveAffine_yields hwf hvalue (hwf.body f body hbody))
      rintro r ctx₁ - ⟨hr, haffine, c, b, hline, hsolves⟩
      exact .pure (.line hsig hbody haffine hr hline hsolves)
  · exact .throw id

/-- What a function is inverted to solves it. -/
theorem invert_yields (hwf : ctx.WellFormed) (hf : (ctx.fn f).params.Nodup)
    (hvalue : ctx.Stored value) :
    Yields False (invert value f) ctx fun solved ctx' => ctx'.Inverts f value solved := by
  apply (invert_solution hwf hvalue).mono
  intro solved ctx' hg hsolution
  cases hsolution with
  | call hn hequal hsolved => exact inverts_of_call hwf hf hvalue hn hequal hsolved
  | line hsig hbody _ hr hline hsolves =>
      rw [← hg.fn_eq] at hsig hbody
      exact inverts_of_line hr hsig hbody hline hsolves

end Attempt

end LoopBounds
