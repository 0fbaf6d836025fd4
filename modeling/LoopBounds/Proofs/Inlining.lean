import LoopBounds.Proofs.Substitution
import LoopBounds.Proofs.Unfolding

/-!
# Inlining

A call is replaced by the body of its function, over arguments in which calls have been replaced
already, and the calls of that body in turn.  Arguments mention no parameters, so each parameter
is replaced once, and the instance of the body has the value of the call.
-/

namespace LoopBounds

/-! ## Instances of bodies -/

theorem argument?_isSome {args : List ExprId} {dims : List DimId} {d : DimId}
    (hlen : args.length = dims.length) (hd : d ∈ dims) : ∃ a, argument? args dims d = some a := by
  cases hi : dims.idxOf? d with
  | none => exact absurd hd (by simpa using List.idxOf?_eq_none_iff.1 hi)
  | some i =>
      have hlt : i < args.length := hlen ▸ (List.idxOf?_eq_some_iff.1 hi).1
      exact ⟨args[i], by rw [argument?, hi]; exact List.getElem?_eq_getElem hlt⟩

theorem IndexFun.mem_signature_of_bindParams {α : Type} {f : IndexFun} {k : DimId → Option α}
    {env : Env α} (h : f.bindParams k = some env) {v : VarId} {x : α} (hx : env v = some x) :
    ∃ d, (v, d) ∈ f.signature ∧ k d = some x := by
  suffices key : ∀ (sig : List (VarId × DimId)) (env₀ : Env α),
      sig.foldlM (fun env pd => do return env.set pd.1 (← k pd.2)) env₀ = some env →
      (∃ d, (v, d) ∈ sig ∧ k d = some x) ∨ env₀ v = some x from
    (key f.signature _ h).resolve_right nofun
  intro sig
  induction sig with
  | nil =>
      rintro env₀ ⟨⟩
      exact .inr hx
  | cons pd sig ih =>
      intro env₀ h
      simp only [List.foldlM_cons, Option.bind_eq_bind, Option.bind_eq_some_iff] at h
      obtain ⟨env₁, ⟨y, hy, hset⟩, h⟩ := h
      cases hset
      rcases ih _ h with ⟨d, hd, hk⟩ | hv
      · exact .inl ⟨d, List.mem_cons_of_mem _ hd, hk⟩
      · by_cases heq : v = pd.1
        · subst heq
          rw [Env.set_self] at hv
          exact .inl ⟨pd.2, List.mem_cons_self, hy.trans hv⟩
        · rw [Env.set_of_ne _ _ heq] at hv
          exact .inr hv

theorem IndexFun.bound_of_bindParams {α : Type} {f : IndexFun} {k : DimId → Option α}
    {env : Env α} (h : f.bindParams k = some env) {pd : VarId × DimId} (hpd : pd ∈ f.signature) :
    ∃ x, env pd.1 = some x := by
  suffices key : ∀ (sig : List (VarId × DimId)) (env₀ : Env α),
      sig.foldlM (fun env pd => do return env.set pd.1 (← k pd.2)) env₀ = some env →
      pd ∈ sig ∨ (∃ x, env₀ pd.1 = some x) → ∃ x, env pd.1 = some x from
    key f.signature _ h (.inl hpd)
  intro sig
  induction sig with
  | nil =>
      rintro env₀ ⟨⟩ h
      exact h.resolve_left nofun
  | cons qe sig ih =>
      intro env₀ h hmem
      simp only [List.foldlM_cons, Option.bind_eq_bind, Option.bind_eq_some_iff] at h
      obtain ⟨env₁, ⟨y, hy, hset⟩, h⟩ := h
      cases hset
      refine ih _ h ?_
      by_cases heq : pd.1 = qe.1
      · exact .inr ⟨y, by rw [heq, Env.set_self]⟩
      · rw [Env.set_of_ne _ _ heq]
        refine hmem.imp_left fun hmem => (List.mem_cons.1 hmem).resolve_left ?_
        rintro rfl
        exact heq rfl

namespace Attempt

variable {c : Prop} {ctx : Context}

theorem argument_yields (f : IndexFun) {args : List ExprId} {dims : List DimId} {d : DimId}
    (h : c → args.length = dims.length ∧ d ∈ dims) :
    Yields c (argument f args dims d) ctx fun a ctx' =>
      ctx' = ctx ∧ argument? args dims d = some a := by
  rw [argument]
  split
  · next a ha => exact .pure ⟨rfl, ha⟩
  · next hnone =>
    refine Yields.get (Yields.throw fun hc => ?_)
    obtain ⟨a, ha⟩ := argument?_isSome (h hc).1 (h hc).2
    cases hnone.symm.trans ha

theorem bindParams_yields (f : IndexFun) {args : List ExprId} {dims : List DimId}
    (h : c → args.length = dims.length ∧ ∀ d ∈ f.dims, d ∈ dims) :
    Yields c (f.bindParams (argument f args dims)) ctx fun images ctx' =>
      ctx' = ctx ∧ f.bindParams (argument? args dims) = some images := by
  suffices key : ∀ (sig : List (VarId × DimId)) (env : Env ExprId),
      (c → args.length = dims.length ∧ ∀ pd ∈ sig, pd.2 ∈ dims) →
      Yields c (sig.foldlM (fun env pd => do return env.set pd.1 (← argument f args dims pd.2)) env)
        ctx fun images ctx' => ctx' = ctx ∧
          sig.foldlM (fun env pd => do return env.set pd.1 (← argument? args dims pd.2)) env =
            some images from
    key f.signature Env.empty fun hc =>
      ⟨(h hc).1, fun pd hpd => (h hc).2 pd.2 (List.of_mem_zip hpd).2⟩
  intro sig
  induction sig with
  | nil => exact fun env _ => .pure ⟨rfl, rfl⟩
  | cons pd sig ih =>
      intro env h
      rw [List.foldlM_cons]
      have hd : c → args.length = dims.length ∧ pd.2 ∈ dims := fun hc =>
        ⟨(h hc).1, (h hc).2 pd List.mem_cons_self⟩
      refine Yields.bind (Yields.bind (argument_yields f hd) fun a ctx₁ _ ha =>
        Yields.pure (Q := fun env₁ ctx₁ => ctx₁ = ctx ∧ ∃ a, argument? args dims pd.2 = some a ∧
          env₁ = env.set pd.1 a) ⟨ha.1, a, ha.2, rfl⟩) ?_
      rintro _ _ - ⟨rfl, a, ha, rfl⟩
      refine (ih _ fun hc => ⟨(h hc).1, fun q hq => (h hc).2 q (List.mem_cons_of_mem _ hq)⟩).mono ?_
      rintro images _ - ⟨rfl, himages⟩
      refine ⟨rfl, ?_⟩
      rw [List.foldlM_cons, ha]
      exact himages

end Attempt

/-! ## What is left is stored -/

/-- A traversal leaves stored what it starts from and what its visits leave. -/
theorem StoringRules.rewrite_stored {m : Type → Type} [Monad m] [LawfulMonad m]
    [MonadLiftT Build m] (L : StoringRules m) {W : Context → Prop}
    {visit : ExprId → m (Option ExprId)} {ctx : Context}
    {e : ExprId} (hlasts : ∀ {ctx ctx'}, ctx.Grows ctx' → W ctx → W ctx')
    (hvisit : ∀ ctx r, ctx.WellFormed → W ctx → ctx.Stored r →
      L.Ensures (visit r) ctx fun o ctx' => ∀ r', o = some r' → ctx'.Stored r')
    (hwf : ctx.WellFormed) (hW : W ctx) (he : ctx.Stored e) :
    L.Ensures (rewrite visit e) ctx fun r ctx' => ctx'.Stored r := by
  have htraverses : L.Traverses visit (fun ctx e => ctx.WellFormed ∧ W ctx ∧ ctx.Stored e)
      (fun ctx _ r => ctx.Stored r) := by
    refine ⟨fun hg h => ⟨hg.wellFormed h.1, hlasts hg h.2.1, h.2.2.mono hg.le⟩, fun h => h.2.2,
      fun h hc => ⟨h.1, h.2.1, h.2.2.child hc⟩, fun hg h => h.mono hg.le, ?_⟩
    intro ctx e operands ⟨hwf, hW, he⟩ hoperands
    have hstored : ∀ c ∈ operands, ctx.Stored c := forall_of_forall₂ hoperands fun _ _ _ h => h
    refine L.visitNode_ensures hwf he hoperands.length_eq.symm hstored fun r ctx₁ hg hr => ?_
    have hr' := hr.stored hg.le hstored
    refine L.bind (hvisit ctx₁ r (hg.wellFormed hwf) (hlasts hg hW) hr') fun o ctx₂ hg₂ ho => ?_
    apply L.pure
    cases o with
    | none => exact hr'.mono hg₂.le
    | some s => exact ho s rfl
  exact Rules.rewrite_ensures htraverses ⟨hwf, hW, he⟩

theorem Substitution.substitute_stored {images : Env ExprId} {ctx : Context} {e : ExprId}
    (hwf : ctx.WellFormed) (himages : ∀ v r, images v = some r → ctx.Stored r)
    (he : ctx.Stored e) :
    Build.Ensures (substitute images e) ctx fun r ctx' => ctx'.Stored r := by
  refine Build.rules.rewrite_stored (W := fun ctx => ∀ v r, images v = some r → ctx.Stored r)
    (fun hg h v r hr => (h v r hr).mono hg.le) ?_ hwf himages he
  intro ctx r _ himages _
  refine Build.rules.mono (Build.rules.lift (visit_ensures images ctx r)) ?_
  rintro o ctx - ⟨rfl, ⟨v, -, rfl⟩ | ⟨-, rfl⟩⟩
  · exact himages v
  · nofun

namespace Inlining

variable {A : Arithmetic} {c : Prop} {D : FunId → Prop} {onlySimple : Bool} {k : Nat}
  {ctx ctx' : Context} {e r s : ExprId}

/-- No variable is a parameter, and only functions of `D` are called. -/
def Fit (ctx : Context) (D : FunId → Prop) (n : Node) : Prop :=
  (∀ v, n = .var v → ¬ ctx.IsParam v) ∧ ∀ f args dims, n = .call f args dims → D f

/-- A call is made properly, and if it is unfolded then calls nest less than `k` deep in it. -/
def Ready (ctx : Context) (onlySimple : Bool) (k : Nat) (n : Node) : Prop :=
  ctx.Made n ∧ ctx.Nests onlySimple k n

/-- What is demanded of an expression that is inlined `k` deep: it mentions no parameters, and the
functions that it leads to, those of `D`, were declared.  Under the condition all calls are made
properly and nest no deeper. -/
structure Demand (c : Prop) (D : FunId → Prop) (onlySimple : Bool) (k : Nat) (ctx : Context)
    (e : ExprId) : Prop where
  wellFormed : ctx.WellFormed
  declared : ∀ f, D f → ctx.Declared f
  bodies : ∀ f body, D f → (ctx.fn f).body? = some body →
    ctx.Each (fun n => ∀ g args dims, n = .call g args dims → D g) body ∧
      (c → ctx.Each ctx.Made body)
  stored : ctx.Stored e
  fit : ctx.Each (Fit ctx D) e
  ready : c → ctx.Each (Ready ctx onlySimple k) e

/-- `r` has the values of `e`.  Under the condition no call is left in it that is unfolded. -/
structure Inlines (A : Arithmetic) (c : Prop) (D : FunId → Prop) (onlySimple : Bool)
    (ctx : Context) (e r : ExprId) : Prop where
  stored : ctx.Stored r
  fit : ctx.Each (Fit ctx D) r
  done : c → ctx.Each (Ready ctx onlySimple 0) r
  evaluates : ∀ ν : Valuation, ctx ≤ ν.ctx → ν.ctx.WellFormed → ∀ z, ν.Evaluates A e z →
    ν.Evaluates A r z

/-- `e` after its operands have been inlined. -/
structure Rebuilt (A : Arithmetic) (c : Prop) (D : FunId → Prop) (onlySimple : Bool) (k : Nat)
    (ctx : Context) (e r : ExprId) : Prop where
  stored : ctx.Stored r
  fit : ctx.Each (Fit ctx D) r
  head : c → Ready ctx onlySimple k (ctx.node r)
  below : c → ∀ d ∈ (ctx.node r).children, ctx.Each (Ready ctx onlySimple 0) d
  evaluates : ∀ ν : Valuation, ctx ≤ ν.ctx → ν.ctx.WellFormed → ∀ z, ν.Evaluates A e z →
    ν.Evaluates A r z

/-! ## Growth -/

theorem Fit.mono (hg : ctx.Grows ctx') {n : Node} (h : Fit ctx D n) : Fit ctx' D n :=
  ⟨fun v hn => mt hg.isParam.1 (h.1 v hn), h.2⟩

theorem fit_const (w : Int64) (t : Scalar) : Fit ctx D (.const w t) := ⟨by simp, by simp⟩

theorem Fit.withChildren {n : Node} {operands : List ExprId}
    (hlen : operands.length = n.children.length) (h : Fit ctx D n) :
    Fit ctx D (n.withChildren operands) := by
  refine ⟨fun v hn => h.1 v (Node.withChildren_eq_var.1 hn), fun f args dims hn => ?_⟩
  obtain ⟨args', hn, -⟩ := Node.of_withChildren_eq_call hlen hn
  exact h.2 f args' dims hn

theorem Ready.mono (hg : ctx.Grows ctx') (hwf : ctx.WellFormed) {n : Node}
    (h : Ready ctx onlySimple k n) : Ready ctx' onlySimple k n :=
  ⟨hg.made.2 h.1, hg.nests hwf h.2⟩

theorem Ready.deepen {n : Node} {l : Nat} (hkl : k ≤ l) (h : Ready ctx onlySimple k n) :
    Ready ctx onlySimple l n :=
  ⟨h.1, fun f args dims hn hf => (h.2 f args dims hn hf).mono hkl⟩

theorem ready_const (w : Int64) (t : Scalar) : Ready ctx onlySimple k (.const w t) := by
  constructor
  all_goals rintro f args dims ⟨⟩

theorem Ready.withChildren {n : Node} {operands : List ExprId}
    (hlen : operands.length = n.children.length) (h : Ready ctx onlySimple k n) :
    Ready ctx onlySimple k (n.withChildren operands) := by
  refine ⟨fun f args dims hn => ?_, fun f args dims hn hf => ?_⟩
  · obtain ⟨args', hn, hargs⟩ := Node.of_withChildren_eq_call hlen hn
    exact hargs ▸ h.1 f args' dims hn
  · obtain ⟨args', hn, -⟩ := Node.of_withChildren_eq_call hlen hn
    exact h.2 f args' dims hn hf

theorem Demand.mono (hg : ctx.Grows ctx') (h : Demand c D onlySimple k ctx e) :
    Demand c D onlySimple k ctx' e where
  wellFormed := hg.wellFormed h.wellFormed
  declared f hf := (h.declared f hf).mono hg h.wellFormed
  bodies f body hf hbody := by
    rw [hg.fn_eq] at hbody
    have hstored := h.wellFormed.body f body hbody
    obtain ⟨hcalls, hmade⟩ := h.bodies f body hf hbody
    exact ⟨hcalls.mono hg.le hstored, fun hc => ((hmade hc).mono hg.le hstored).imp fun _ =>
      hg.made.2⟩
  stored := h.stored.mono hg.le
  fit := (h.fit.mono hg.le h.stored).imp fun _ => .mono hg
  ready hc := ((h.ready hc).mono hg.le h.stored).imp fun _ => .mono hg h.wellFormed

theorem Demand.child (h : Demand c D onlySimple k ctx e) {d : ExprId}
    (hd : d ∈ (ctx.node e).children) : Demand c D onlySimple k ctx d :=
  ⟨h.wellFormed, h.declared, h.bodies, h.stored.child hd, h.fit.child hd,
    fun hc => (h.ready hc).child hd⟩

theorem Inlines.mono (hg : ctx.Grows ctx') (hwf : ctx.WellFormed)
    (h : Inlines A c D onlySimple ctx e r) : Inlines A c D onlySimple ctx' e r where
  stored := h.stored.mono hg.le
  fit := (h.fit.mono hg.le h.stored).imp fun _ => .mono hg
  done hc := ((h.done hc).mono hg.le h.stored).imp fun _ => .mono hg hwf
  evaluates ν hν := h.evaluates ν (hg.le.trans hν)

/-! ## Calls -/

theorem bindParams_congr {α : Type} {f g : IndexFun} (hparams : f.params = g.params)
    (hdims : f.dims = g.dims) (meaning : DimId → Option α) :
    f.bindParams meaning = g.bindParams meaning := by
  rw [IndexFun.bindParams, IndexFun.bindParams, IndexFun.signature, IndexFun.signature, hparams,
    hdims]

/-- The body of a function over arguments has the value of the call. -/
theorem evaluates_instance {ν : Valuation} {f : FunId} {args : List ExprId} {dims : List DimId}
    {images : Env ExprId} {body : ExprId} {z : Int} (hf : f.index < ctx.funs.size)
    (hbody : (ctx.fn f).body? = some body)
    (himages : (ctx.fn f).bindParams (argument? args dims) = some images) (hν : ctx ≤ ν.ctx)
    (hwf : ν.ctx.WellFormed) (hs : ν.ctx.Replaced images body s)
    (hn : ν.ctx.node r = .call f args dims) (hz : ν.Evaluates A r z) : ν.Evaluates A s z := by
  obtain ⟨body', μ, hbody', ⟨depth, inner, hdepth, hbind, rfl⟩, hz⟩ := hz.call_inv hn
  have hrefines := hν.fn f hf
  obtain rfl : body' = body := Option.some_inj.1 (hbody'.symm.trans (hrefines.body body hbody))
  rw [bindParams_congr hrefines.params hrefines.dims] at hbind
  obtain ⟨images', himages', hrelated⟩ := IndexFun.bindParams_related
    (R := fun x a => ν.Evaluates A a x) (k := argument? args dims) (by
      intro pd _ x hx
      obtain ⟨a, ha, hx⟩ := Option.bind_eq_some_iff.1 hx
      exact ⟨a, ha, Valuation.reading_eq_some.1 hx⟩) hbind
  obtain rfl : images' = images := Option.some_inj.1 (himages'.symm.trans himages)
  let ν' : Valuation := ⟨ν.ctx, ν.depth, inner⟩
  have hlift : ν'.Evaluates A body' z := by
    refine hz.mono ⟨.refl ν.ctx, hwf, hwf.body f body' hbody', ?_, fun _ _ _ _ _ => id⟩
    change depth ≤ ν.depth
    omega
  have hreplaces : ν.Replaces A images' ν' := by
    refine ⟨rfl, rfl, fun v a x ha hx => ?_, fun v x hnone hx => ?_⟩
    · have hv := hrelated v
      rw [ha, show inner v = some x from hx] at hv
      cases hv
      assumption
    · have hv := hrelated v
      rw [hnone, show inner v = some x from hx] at hv
      cases hv
  exact hs.evaluates hreplaces hlift

/-- Only parameters have images, and the images are arguments. -/
theorem isParam_of_image {f : FunId} {args : List ExprId} {dims : List DimId}
    {images : Env ExprId} (himages : (ctx.fn f).bindParams (argument? args dims) = some images)
    {v : VarId} {a : ExprId} (ha : images v = some a) : ctx.IsParam v ∧ a ∈ args := by
  obtain ⟨d, hd, ha⟩ := IndexFun.mem_signature_of_bindParams himages ha
  exact ⟨⟨f, (List.of_mem_zip hd).1⟩, mem_of_argument? ha⟩

/-- All variables of a body have images. -/
theorem exists_image {f : FunId} {args : List ExprId} {dims : List DimId} {images : Env ExprId}
    {body : ExprId} (hdeclared : ctx.Declared f) (hbody : (ctx.fn f).body? = some body)
    (himages : (ctx.fn f).bindParams (argument? args dims) = some images) :
    ctx.Each (fun n => ∀ v, n = .var v → ∃ a, images v = some a) body := by
  intro d hd v hn
  have hmem := hdeclared.closed body hbody v (Context.mem_freeVars.2 ⟨d, hd, hn⟩)
  rw [← List.map_fst_zip hdeclared.arity.le] at hmem
  obtain ⟨pd, hpd, rfl⟩ := List.mem_map.1 hmem
  exact IndexFun.bound_of_bindParams himages hpd

theorem instantiate_yields {f : FunId} {args : List ExprId} {dims : List DimId}
    (hdemand : Demand c D onlySimple (k + 1) ctx e) (h : Rebuilt A c D onlySimple (k + 1) ctx e r)
    (hn : ctx.node r = .call f args dims) (hf : ctx.Unfolds onlySimple f) :
    Attempt.Yields c (Attempt.instantiate f args dims) ctx fun s ctx' =>
      Demand c D onlySimple k ctx' s ∧ ∀ ν : Valuation, ctx' ≤ ν.ctx → ν.ctx.WellFormed → ∀ z,
        ν.Evaluates A e z → ν.Evaluates A s z := by
  have hwf := hdemand.wellFormed
  have hmade : c → args.length = dims.length ∧ ∀ d ∈ (ctx.fn f).dims, d ∈ dims := fun hc =>
    (h.head hc).1 f args dims hn
  rw [Attempt.instantiate]
  refine Attempt.Yields.get ?_
  split
  · next hlen =>
    refine Attempt.Yields.bind (Q := fun _ _ => False) (.throw fun hc => hlen (hmade hc).1) ?_
    exact fun _ _ _ => False.elim
  dsimp only
  split
  · next hnone => exact absurd (.inl (by rw [hnone]; rfl)) hf
  next body hbody =>
  refine Attempt.Yields.bind (Attempt.bindParams_yields (ctx.fn f) hmade) ?_
  rintro images ctx - ⟨rfl, himages⟩
  have hbstored := hwf.body f body hbody
  have hD : D f := (h.fit r .self).2 f args dims hn
  have himage : ∀ {v a}, images v = some a → ctx.IsParam v ∧ a ∈ (ctx.node r).children :=
    fun ha => hn ▸ isParam_of_image himages ha
  have hstored : ∀ v a, images v = some a → ctx.Stored a := fun v a ha =>
    h.stored.child (himage ha).2
  -- Arguments mention no parameters, so no image is replaced again.
  have honce : ctx.ReplacesOnce images body := by
    refine Context.replacesOnce hstored fun v a u s ha hu hs => ?_
    obtain ⟨d, hd, hv⟩ := hu.within
    exact absurd (himage hs).1 ((h.fit.child (himage ha).2 d hd).1 u hv)
  refine Attempt.Yields.mono (Attempt.Yields.build
    (Substitution.substitute_ensures ⟨hwf, hbstored, hstored, honce⟩)) ?_
  rintro s ctx' hg ⟨hs, hreplaced⟩
  have hdemand' := hdemand.mono hg
  refine ⟨⟨hdemand'.wellFormed, hdemand'.declared, hdemand'.bodies, hs, ?_, fun hc => ?_⟩, ?_⟩
  · have hvars := exists_image (hdemand.declared f hD) hbody himages
    have hcalls := (hdemand.bodies f body hD hbody).1
    have hparts := (hvars.and hcalls).mono hg.le hbstored
    refine hreplaced.each hparts fit_const (fun v hv hnone => ?_)
      (fun n operands hn hlen hvar => ?_) fun v a ha => ?_
    · obtain ⟨a, ha⟩ := hv.1 v rfl
      cases hnone.symm.trans ha
    · refine Fit.withChildren hlen ⟨fun v hv => absurd hv (hvar v), hn.2⟩
    · exact ((h.fit.child (himage ha).2).mono hg.le (hstored v a ha)).imp fun _ => .mono hg
  · have hready : ctx.Each (Ready ctx onlySimple k) body := by
      refine fun d hd => ⟨(hdemand.bodies f body hD hbody).2 hc d hd,
        fun g args' dims' hd' hg' => ?_⟩
      exact (h.head hc).2 f args dims hn hf g ⟨body, d, args', dims', hbody, hd, hd', hg'⟩
    refine hreplaced.each ((hready.mono hg.le hbstored).imp fun _ => .mono hg hwf) ready_const
      (fun _ h _ => h) (fun n operands hn hlen _ => hn.withChildren hlen) fun v a ha => ?_
    have hdone := (h.below hc a (himage ha).2).mono hg.le (hstored v a ha)
    exact hdone.imp fun _ h => (h.mono hg hwf).deepen (Nat.zero_le k)
  · intro ν hν hwf' z hz
    have hz := h.evaluates ν (hg.le.trans hν) hwf' z hz
    have hn' := (Context.node_eq (hg.le.trans hν) h.stored).trans hn
    exact evaluates_instance (hwf.call r f args dims hn) hbody himages (hg.le.trans hν) hwf'
      (hreplaced.mono hν (hbstored.mono hg.le)) hn' hz

/-! ## The traversal -/

theorem Rebuilt.of_rebuilds {operands : List ExprId} (hdemand : Demand c D onlySimple k ctx e)
    (hoperands : List.Forall₂ (Inlines A c D onlySimple ctx) (ctx.node e).children operands)
    (hg : ctx.Grows ctx') (hr : Rebuilds ctx ctx' (ctx.node e) operands r) :
    Rebuilt A c D onlySimple k ctx' e r := by
  have hlen := hoperands.length_eq.symm
  have hstored : ∀ d ∈ operands, ctx.Stored d :=
    forall_of_forall₂ hoperands fun _ _ _ h => h.stored
  have hwf := hdemand.wellFormed
  refine ⟨hr.stored hg.le hstored, ?_, fun hc => ?_, fun hc => ?_, fun ν hν hwf' z hz => ?_⟩
  · have hfit : ∀ d ∈ operands, ctx.Each (Fit ctx D) d :=
      forall_of_forall₂ hoperands fun _ _ _ h => h.fit
    have hnode := (hdemand.fit e .self).withChildren hlen
    exact (hr.each hg.le hlen fit_const hstored hfit hnode).imp fun _ => .mono hg
  · have hdone : ∀ d ∈ operands, ctx.Each (Ready ctx onlySimple 0) d :=
      forall_of_forall₂ hoperands fun _ _ _ h => h.done hc
    have hready := (hdemand.ready hc e .self).withChildren hlen
    rcases hr.each_or hg.le hlen ready_const hstored hdone with h | ⟨hn, -⟩
    · exact ((h r .self).mono hg hwf).deepen (Nat.zero_le k)
    · exact hn ▸ hready.mono hg hwf
  · have hdone : ∀ d ∈ operands, ctx.Each (Ready ctx onlySimple 0) d :=
      forall_of_forall₂ hoperands fun _ _ _ h => h.done hc
    intro d hd
    rcases hr.each_or hg.le hlen ready_const hstored hdone with h | ⟨-, h⟩
    · exact (h.child hd).imp fun _ => .mono hg hwf
    · exact (h d hd).imp fun _ => .mono hg hwf
  · have hn := Context.node_eq (hg.le.trans hν) hdemand.stored
    by_cases hvar : ∃ v, ctx.node e = .var v
    · obtain ⟨v, hv⟩ := hvar
      obtain ⟨hr', hnr⟩ := hr.var hv
      exact .var ((Context.node_eq hν hr').trans hnr) (hz.var_inv (hn.trans hv))
    · refine hr.evaluates hg.le hν rfl rfl hn (by simpa using hvar) hstored ?_ hz
      exact hoperands.imp fun _ _ h => h.evaluates ν (hg.le.trans hν) hwf'

/-- What is not unfolded is left as it stands. -/
theorem Rebuilt.inlines (h : Rebuilt A c D onlySimple k ctx e r)
    (hcall : ∀ f args dims, ctx.node r = .call f args dims → ¬ ctx.Unfolds onlySimple f) :
    Inlines A c D onlySimple ctx e r where
  stored := h.stored
  fit := h.fit
  done hc := Context.each_iff.2 ⟨⟨(h.head hc).1, fun f args dims hn hf =>
    absurd hf (hcall f args dims hn)⟩, h.below hc⟩
  evaluates := h.evaluates

def visit (onlySimple : Bool) (k : Nat) (e : ExprId) : Attempt (Option ExprId) := do
  let ctx ← get
  match ctx.node e with
  | .call f args dims =>
    if (ctx.fn f).body?.isNone ∨ (onlySimple ∧ ctx.isComplex f) then return none
    some <$> Attempt.inlineWithin onlySimple k (← Attempt.instantiate f args dims)
  | _ => return none

theorem visit_yields (hdemand : Demand c D onlySimple (k + 1) ctx e)
    (h : Rebuilt A c D onlySimple (k + 1) ctx e r)
    (hinline : ∀ ctx e, Demand c D onlySimple k ctx e →
      Attempt.Yields c (Attempt.inlineWithin onlySimple k e) ctx fun r ctx' =>
        Inlines A c D onlySimple ctx' e r) :
    Attempt.Yields c (visit onlySimple k r) ctx fun o ctx' =>
      Inlines A c D onlySimple ctx' e (o.getD r) := by
  refine Attempt.Yields.get ?_
  split
  · next f args dims hn =>
    split
    · next hguard =>
      refine Attempt.Yields.pure (h.inlines fun g args' dims' hn' => ?_)
      cases hn.symm.trans hn'
      exact not_not.2 hguard
    · next hguard =>
      refine Attempt.Yields.bind (instantiate_yields hdemand h hn hguard) ?_
      rintro s ctx₁ - ⟨hs, heval⟩
      rw [map_eq_pure_bind]
      refine Attempt.Yields.bind (hinline ctx₁ s hs) fun t ctx₂ hg₂ ht => ?_
      refine Attempt.Yields.pure ⟨ht.stored, ht.fit, ht.done, fun ν hν hwf z hz => ?_⟩
      exact ht.evaluates ν hν hwf z (heval ν (hg₂.le.trans hν) hwf z hz)
  · next hn =>
    exact Attempt.Yields.pure (h.inlines fun f args dims hn' => absurd hn' (hn f args dims))

theorem traverses
    (hinline : ∀ ctx e, Demand c D onlySimple k ctx e →
      Attempt.Yields c (Attempt.inlineWithin onlySimple k e) ctx fun r ctx' =>
        Inlines A c D onlySimple ctx' e r) :
    (Attempt.rules c).Traverses (visit onlySimple k) (Demand c D onlySimple (k + 1))
      (fun ctx e r => ctx.WellFormed ∧ Inlines A c D onlySimple ctx e r) where
  grows hg h := h.mono hg
  stored h := h.stored
  child h hd := h.child hd
  lasts hg h := ⟨hg.wellFormed h.1, h.2.mono hg h.1⟩
  visits := by
    intro ctx e operands hdemand hoperands
    have hoperands' := hoperands.imp fun _ _ h => h.2
    refine (Attempt.rules c).visitNode_ensures hdemand.wellFormed hdemand.stored
      hoperands.length_eq.symm (forall_of_forall₂ hoperands' fun _ _ _ h => h.stored) ?_
    intro r ctx₁ hg hr
    have hdemand₁ := hdemand.mono hg
    have hrebuilt := Rebuilt.of_rebuilds hdemand hoperands' hg hr
    refine (Attempt.rules c).bind (visit_yields hdemand₁ hrebuilt hinline).ensures ?_
    intro o ctx₂ hg₂ h
    exact (Attempt.rules c).pure ⟨hg₂.wellFormed hdemand₁.wellFormed, h⟩

theorem inlineWithin_succ (onlySimple : Bool) (k : Nat) (e : ExprId) :
    Attempt.inlineWithin onlySimple (k + 1) e = rewrite (visit onlySimple k) e :=
  rfl

theorem instantiate_stored {c : Prop} {f : FunId} {args : List ExprId} {dims : List DimId}
    (hc : ¬ c) (hwf : ctx.WellFormed) (hargs : ∀ a ∈ args, ctx.Stored a) :
    Attempt.Yields c (Attempt.instantiate f args dims) ctx fun s ctx' => ctx'.Stored s := by
  rw [Attempt.instantiate]
  refine Attempt.Yields.get ?_
  split
  · refine Attempt.Yields.bind (Q := fun _ _ => False) (.throw hc) ?_
    exact fun _ _ _ => False.elim
  dsimp only
  split
  · exact Attempt.Yields.throw hc
  next body hbody =>
  refine Attempt.Yields.bind (Attempt.bindParams_yields (ctx.fn f) fun h => absurd h hc) ?_
  rintro images ctx - ⟨rfl, himages⟩
  refine Attempt.Yields.build (Substitution.substitute_stored hwf (fun v a ha => ?_)
    (hwf.body f body hbody))
  exact hargs a (isParam_of_image himages ha).2

theorem inlineWithin_stored (hwf : ctx.WellFormed) (he : ctx.Stored e) :
    Attempt.Yields False (Attempt.inlineWithin onlySimple k e) ctx fun r ctx' => ctx'.Stored r := by
  induction k generalizing ctx e with
  | zero => exact Attempt.Yields.pure he
  | succ k ih =>
      rw [inlineWithin_succ]
      refine (Attempt.rules False).rewrite_stored (W := fun _ => True) (fun _ => id) ?_ hwf
        trivial he
      intro ctx r hwf _ hr
      refine Attempt.Yields.ensures (Attempt.Yields.get ?_)
      split
      · next f args dims hn =>
        split
        · exact Attempt.Yields.pure (by simp)
        have hargs : ∀ a ∈ args, ctx.Stored a := fun a ha =>
          hr.child (by rwa [hn, Node.children])
        refine Attempt.Yields.bind (instantiate_stored id hwf hargs) fun s ctx₁ hg₁ hs => ?_
        rw [map_eq_pure_bind]
        refine Attempt.Yields.bind (ih (hg₁.wellFormed hwf) hs) fun t ctx₂ _ ht => ?_
        refine Attempt.Yields.pure ?_
        rintro _ ⟨⟩
        exact ht
      · exact Attempt.Yields.pure (by simp)

theorem inline_stored (hwf : ctx.WellFormed) (he : ctx.Stored e) :
    Attempt.Yields False (Attempt.inline onlySimple e) ctx fun r ctx' => ctx'.Stored r := by
  rw [Attempt.inline]
  exact Attempt.Yields.get (inlineWithin_stored hwf he)

theorem inlineWithin_yields (A : Arithmetic) (h : Demand c D onlySimple k ctx e) :
    Attempt.Yields c (Attempt.inlineWithin onlySimple k e) ctx fun r ctx' =>
      Inlines A c D onlySimple ctx' e r := by
  induction k generalizing ctx e with
  | zero => exact Attempt.Yields.pure ⟨h.stored, h.fit, h.ready, fun _ _ _ _ => id⟩
  | succ k ih =>
      rw [inlineWithin_succ]
      have hrewrite := (Attempt.rules c).rewrite_ensures (traverses (A := A) fun ctx e => ih) h
      exact (Attempt.rules c).mono hrewrite fun _ _ _ h => h.2

theorem inline_yields (A : Arithmetic)
    (h : ∀ {k}, ctx.funs.size ≤ k → Demand c D onlySimple k ctx e) :
    Attempt.Yields c (Attempt.inline onlySimple e) ctx fun r ctx' =>
      Inlines A c D onlySimple ctx' e r := by
  have hdepth : ctx.funs.size ≤ ctx.callDepth := Context.funs_size_le_callDepth
  rw [Attempt.inline]
  refine Attempt.Yields.get ?_
  generalize ctx.callDepth = k at hdepth
  exact inlineWithin_yields A (h hdepth)

end Inlining

/-! ## Evaluation -/

section

variable {ctx : Context} {onlySimple : Bool} {e : ExprId}

theorem Inlining.demand_of_declared {k : Nat} (hwf : ctx.WellFormed) (he : ctx.Stored e)
    (hdeclared : ∀ c f args dims, ctx.node c = .call f args dims → ctx.Declared f)
    (hparams : ∀ v ∈ ctx.freeVars e, ¬ ctx.IsParam v) :
    Inlining.Demand False (fun f => ∃ c args dims, ctx.node c = .call f args dims) onlySimple
      k ctx e where
  wellFormed := hwf
  declared := fun f ⟨c, args, dims, hn⟩ => hdeclared c f args dims hn
  bodies _ _ _ _ := ⟨fun c _ _ args dims hn => ⟨c, args, dims, hn⟩, nofun⟩
  stored := he
  fit c hc := ⟨fun v hn => hparams v (Context.mem_freeVars.2 ⟨c, hc, hn⟩),
    fun _ args dims hn => ⟨c, args, dims, hn⟩⟩
  ready := nofun

theorem Inlining.demand {k : Nat} (hk : ctx.funs.size ≤ k) (hwf : ctx.WellFormed)
    (he : ctx.Stored e)
    (hmade : ∀ c, ctx.Made (ctx.node c))
    (hdeclared : ∀ c f args dims, ctx.node c = .call f args dims → ctx.Declared f)
    (hparams : ∀ v ∈ ctx.freeVars e, ¬ ctx.IsParam v)
    (hends : ∀ c f args dims, ctx.Within e c → ctx.node c = .call f args dims →
      ctx.Unfolds onlySimple f → Acc (fun g f => ctx.LeadsTo onlySimple f g) f) :
    Inlining.Demand True (fun f => ∃ c args dims, ctx.node c = .call f args dims) onlySimple
      k ctx e :=
  have h : Inlining.Demand False _ onlySimple k ctx e :=
    demand_of_declared hwf he hdeclared hparams
  { h with
    bodies := fun f body hf hbody => ⟨(h.bodies f body hf hbody).1, fun _ c _ => hmade c⟩
    ready := fun _ c hc => ⟨hmade c, fun f args dims hn hf =>
      (Context.nestsWithin_funs hwf (hwf.call c f args dims hn) (hends c f args dims hc hn hf)).mono
        hk⟩ }

/-- Inlining an expression without parameters keeps its values, if it succeeds. -/
theorem Inlining.inline_sound (hwf : ctx.WellFormed) (he : ctx.Stored e) :
    Attempt.Yields False (Attempt.inline onlySimple e) ctx fun r ctx' => ctx'.Stored r ∧
      ∀ (A : Arithmetic) (ν : Valuation), ctx' ≤ ν.ctx → ν.ctx.WellFormed →
        (∀ c f args dims, ν.ctx.node c = .call f args dims → ν.ctx.Declared f) →
        (∀ v ∈ ν.ctx.freeVars e, ¬ ν.ctx.IsParam v) →
          ∀ z, ν.Evaluates A e z → ν.Evaluates A r z := by
  by_cases h : (∀ c f args dims, ctx.node c = .call f args dims → ctx.Declared f) ∧
      ∀ v ∈ ctx.freeVars e, ¬ ctx.IsParam v
  · obtain ⟨hdeclared, hparams⟩ := h
    have hall : ∀ A, Attempt.Yields False (Attempt.inline onlySimple e) ctx fun r ctx' =>
        Inlines A False (fun f => ∃ c args dims, ctx.node c = .call f args dims) onlySimple
          ctx' e r := fun A => inline_yields A fun _ => demand_of_declared hwf he hdeclared hparams
    refine ⟨(hall .unbounded).1, nofun, fun r hr => ⟨((hall .unbounded).2.2 r hr).stored, ?_⟩⟩
    exact fun A ν hν hwf' _ _ => ((hall A).2.2 r hr).evaluates ν hν hwf'
  · have hstored : Attempt.Yields False (Attempt.inline onlySimple e) ctx
        fun r ctx' => ctx'.Stored r := inline_stored hwf he
    refine ⟨hstored.1, nofun, fun r hr => ⟨hstored.2.2 r hr, fun A ν hν _ hdeclared hparams => ?_⟩⟩
    have hctx := hstored.1.le.trans hν
    refine absurd ⟨fun c f args dims hn => ?_, fun v hv hparam => ?_⟩ h
    · have hc : ctx.Stored c := by
        by_contra hc
        cases (Context.node_of_not_stored hc).symm.trans hn
      exact (hdeclared c f args dims ((Context.node_eq hctx hc).trans hn)).restrict hctx hwf
        (hwf.call c f args dims hn)
    · exact hparams v (Context.freeVars_subset hctx he hv) (hparam.mono hctx)

/-- Inlining succeeds, keeps values, and leaves only calls that are not unfolded. -/
theorem eval_inline (hwf : ctx.WellFormed) (he : ctx.Stored e)
    (hmade : ∀ c, ctx.Made (ctx.node c))
    (hdeclared : ∀ c f args dims, ctx.node c = .call f args dims → ctx.Declared f)
    (hparams : ∀ v ∈ ctx.freeVars e, ¬ ctx.IsParam v)
    (hends : ∀ c f args dims, ctx.Within e c → ctx.node c = .call f args dims →
      ctx.Unfolds onlySimple f → Acc (fun g f => ctx.LeadsTo onlySimple f g) f) :
    ∃ r ctx', (Attempt.inline onlySimple e).run.run ctx = (.ok r, ctx') ∧
      (∀ env w, (ctx.valuation env).Truthful e → ctx.eval env e = some w →
        ctx'.eval env r = some w) ∧
      ∀ c f args dims, ctx'.Within r c → ctx'.node c = .call f args dims →
        (ctx'.fn f).body? = none ∨ (onlySimple ∧ ctx'.isComplex f) := by
  have hdemand := fun {k} (hk : ctx.funs.size ≤ k) =>
    Inlining.demand hk hwf he hmade hdeclared hparams hends
  obtain ⟨hg, hok, hpost⟩ := Inlining.inline_yields .words fun hk => hdemand hk
  generalize (Attempt.inline onlySimple e).run.run ctx = result at hg hok hpost
  obtain ⟨o, ctx'⟩ := result
  obtain ⟨r, rfl⟩ := hok trivial
  have hinlines := hpost r rfl
  refine ⟨r, ctx', rfl, fun env w htruth hw => ?_, fun c f args dims hc hn => ?_⟩
  · have hz := Valuation.evaluates_words (ν := ctx.valuation env) rfl hw htruth
    have hz' : (ctx'.valuation env).Evaluates .words e w.toInt :=
      hz.mono ⟨hg, hwf, he, hg.callDepth_eq.ge, fun _ _ _ _ _ => id⟩
    obtain ⟨w', hw', heq⟩ :=
      (hinlines.evaluates (ctx'.valuation env) le_rfl (hg.wellFormed hwf) _ hz').eval rfl
    rw [Int64.toInt_inj] at heq
    exact heq ▸ hw'
  · have hleft : ¬ ctx'.Unfolds onlySimple f := (hinlines.done trivial c hc).2 f args dims hn
    rwa [Context.Unfolds, not_not, Option.isNone_iff_eq_none] at hleft

end

/-- `x + g(f(x, y), y)` for `f(p, q) = p * 2 - q` and `g(s) = f(s, s + 1)`.  The calls give
arguments out of order, and one that `g` does not use. -/
def nestedCalls : Context × ExprId :=
  let declare : Attempt ExprId := do
    let i ← declareDim "i" .uniform
    let j ← declareDim "j" .uniform
    let p ← declareVar "p" .int64
    let q ← declareVar "q" .int64
    let s ← declareVar "s" .int64
    let difference ← Build.sub (← Build.mulConst (← Build.var p) 2) (← Build.var q)
    let f ← Attempt.declareFun "f" none [i, j] [p, q] (some difference)
    let sExpr ← Build.var s
    let step ← Attempt.call f [← Build.addConst sExpr 1, sExpr] [j, i]
    let g ← Attempt.declareFun "g" none [j] [s] (some step)
    let x ← Build.var (← declareVar "x" .int64)
    let y ← Build.var (← declareVar "y" .int64)
    Build.add x (← Attempt.call g [y, ← Attempt.call f [x, y] [i, j]] [i, j])
  match declare.run.run default with
  | (.ok e, ctx) => (ctx, e)
  | (.error _, ctx) => (ctx, ⟨0⟩)

/-- At `x = 3` and `y = 1` the inlined expression has the value of the calls. -/
theorem eval_inline_nestedCalls :
    nestedCalls.1.eval (.ofList [(⟨3⟩, 3), (⟨4⟩, 1)]) nestedCalls.2 = some 7 ∧
    ∃ r ctx', (Attempt.inline false nestedCalls.2).run.run nestedCalls.1 = (.ok r, ctx') ∧
      ctx'.eval (.ofList [(⟨3⟩, 3), (⟨4⟩, 1)]) r = some 7 ∧
      ∀ c f args dims, ctx'.Within r c → ctx'.node c = .call f args dims →
        (ctx'.fn f).body? = none := by
  have hvalue : nestedCalls.1.eval (.ofList [(⟨3⟩, 3), (⟨4⟩, 1)]) nestedCalls.2 = some 7 := by
    decide +kernel
  obtain ⟨r, ctx', hrun, heval, hcalls⟩ := @eval_inline nestedCalls.1 false nestedCalls.2
    (by decide +kernel) (by decide +kernel)
    (Context.forall_node (by decide) (by decide +kernel))
    (fun _ f _ _ _ => Context.forall_fn (by decide +kernel)
      (fun _ => Context.declared_of_default) f)
    (by decide +kernel) (fun _ f _ _ _ _ _ => Context.acc_of_lower (by decide +kernel) f)
  refine ⟨hvalue, r, ctx', hrun, heval _ _ ?_ hvalue, fun c f args dims hc hn => ?_⟩
  · exact Valuation.truthful_of_conditionless (by decide +kernel) _
  · simpa using hcalls c f args dims hc hn

end LoopBounds
