import LoopBounds.Proofs.Bound
import LoopBounds.Proofs.Build

/-!
# Sessions

A session is valid when what its analyzer remembers is right: each remembered answer holds in the
present context and in all later ones, for every assignment that the known domains admit.
Queries keep sessions valid and the known domains as they are, and only store expressions.
-/

namespace LoopBounds

namespace Context

variable {ctx ctx' : Context} {known : Env Domain} {e r : ExprId} {i : Interval}

/-- The value of an expression at an assignment that the known domains admit. -/
abbrev AdmittedValue (known : Env Domain) (e : ExprId) (ν : Valuation) (z : Int) : Prop :=
  ν.Admits known ∧ ν.value e = some z

/-- `r` is made from the nodes of `e` and has the value of `e` wherever `e` has one. -/
structure Simplifies (ctx : Context) (known : Env Domain) (e r : ExprId) : Prop where
  stored : ctx.Stored e
  denotes : ∀ K, ctx.Over K e → ctx.Denotes K r (AdmittedValue known e)

/-- The condition is not false. -/
def Entails (ctx : Context) (known : Env Domain) (e : ExprId) : Prop :=
  ∀ ν : Valuation, ctx ≤ ν.ctx → ν.Admits known → ∀ x, ν.value e = some x → x ≠ 0

/-- The value of `e` lies in the interval, at every assignment with a trail that holds `e`. -/
def Bounded (ctx : Context) (known : Env Domain) (e : ExprId) (i : Interval) : Prop :=
  ∀ (ν : Valuation) along, ctx ≤ ν.ctx → ν.Trail known along → along ν e →
    ∀ x, ν.value e = some x → i.Contains x

theorem Simplifies.mono (hctx : ctx ≤ ctx') (h : ctx.Simplifies known e r) :
    ctx'.Simplifies known e r :=
  ⟨h.stored.mono hctx, fun K hK => (h.denotes K (hK.restrict hctx h.stored)).mono hctx⟩

theorem Entails.mono (hctx : ctx ≤ ctx') (h : ctx.Entails known e) : ctx'.Entails known e :=
  fun ν hν => h ν (hctx.trans hν)

theorem Bounded.mono (hctx : ctx ≤ ctx') (h : ctx.Bounded known e i) : ctx'.Bounded known e i :=
  fun ν along hν => h ν along (hctx.trans hν)

theorem Bounded.contains (h : ctx.Bounded known e i) {ν : Valuation} (hν : ctx ≤ ν.ctx)
    (hadmits : ν.Admits known) {x : Int} (hx : ν.value e = some x) : i.Contains x :=
  h ν ν.Reaches hν hadmits.trail (.top e) x hx

end Context

namespace Session

/-- The known domains of variables. -/
def domains (s : Session) : Env Domain := (s.analyzer.bindings[·]?)

theorem domains_eq {s s' : Session} (han : s'.analyzer = s.analyzer) :
    s'.domains = s.domains := by
  unfold domains
  rw [han]

/-- The context is well formed, the known domains are stored and the remembered answers hold. -/
structure Valid (s : Session) : Prop where
  wellFormed : s.ctx.WellFormed
  domains : ∀ v d, s.domains v = some d → s.ctx.StoredDomain d
  simplified : ∀ e r, s.analyzer.simplified[e]? = some r → s.ctx.Simplifies s.domains e r
  proved : ∀ e, s.analyzer.proved[e]? = some true → s.ctx.Entails s.domains e
  bounds : ∀ e i, s.analyzer.bounds[e]? = some i → s.ctx.Bounded s.domains e i

/-- Storing more keeps a session valid. -/
theorem Valid.mono {ctx ctx' : Context} {an : Analyzer} (h : Valid ⟨ctx, an⟩) (hctx : ctx ≤ ctx')
    (hwf : ctx'.WellFormed) : Valid ⟨ctx', an⟩ :=
  ⟨hwf, fun v d hd => (h.domains v d hd).mono hctx,
    fun e r hr => (h.simplified e r hr).mono hctx, fun e he => (h.proved e he).mono hctx,
    fun e i hi => (h.bounds e i hi).mono hctx⟩

end Session

namespace Query

/-- The query leads from a session to a valid one that knows the same domains and holds more
expressions, and its answer and the context satisfy `Q`. -/
structure Ensures {α : Type} (q : Query α) (s : Session) (Q : α → Context → Prop) : Prop where
  valid : (q.run s).2.Valid
  grows : s.ctx.Grows (q.run s).2.ctx
  domains : (q.run s).2.domains = s.domains
  post : Q (q.run s).1 (q.run s).2.ctx

variable {α β : Type} {q : Query α} {f : α → Query β} {s : Session} {Q R : α → Context → Prop}
  {S : β → Context → Prop}

theorem Ensures.pure {x : α} (hs : s.Valid) (h : Q x s.ctx) : Ensures (pure x : Query α) s Q :=
  ⟨hs, .refl _, rfl, h⟩

theorem Ensures.mono (h : Ensures q s Q) (hQ : ∀ x ctx, s.ctx.Grows ctx → Q x ctx → R x ctx) :
    Ensures q s R :=
  ⟨h.valid, h.grows, h.domains, hQ _ _ h.grows h.post⟩

theorem Ensures.bind (hq : Ensures q s Q)
    (hf : ∀ x s', s'.Valid → s.ctx.Grows s'.ctx → s'.domains = s.domains → Q x s'.ctx →
      Ensures (f x) s' S) : Ensures (q >>= f) s S := by
  have h := hf _ _ hq.valid hq.grows hq.domains hq.post
  exact ⟨h.valid, hq.grows.trans h.grows, h.domains.trans hq.domains, h.post⟩

theorem Ensures.all {ι : Type} [Nonempty ι] {Q : ι → α → Context → Prop}
    (h : ∀ i, Ensures q s (Q i)) : Ensures q s fun x ctx => ∀ i, Q i x ctx :=
  have ⟨i⟩ := ‹Nonempty ι›
  ⟨(h i).valid, (h i).grows, (h i).domains, fun i => (h i).post⟩

theorem Ensures.map {g : α → β} (h : Ensures q s fun x ctx => S (g x) ctx) :
    Ensures (g <$> q) s S :=
  ⟨h.valid, h.grows, h.domains, h.post⟩

theorem Ensures.lift {b : Build α} (hs : s.Valid) (h : Build.Ensures b s.ctx Q) :
    Ensures (liftM b : Query α) s Q :=
  ⟨hs.mono h.1.le (h.1.wellFormed hs.wellFormed), h.1, rfl, h.2⟩

theorem Ensures.context {f : Context → Query β} (h : Ensures (f s.ctx) s S) :
    Ensures (Query.context >>= f) s S := ⟨h.valid, h.grows, h.domains, h.post⟩

theorem Ensures.analyzer {f : Analyzer → Query β} (h : Ensures (f s.analyzer) s S) :
    Ensures (Query.analyzer >>= f) s S := ⟨h.valid, h.grows, h.domains, h.post⟩

theorem mapM_ensures {C : Context → α → β → Prop}
    (hC : ∀ {ctx ctx' : Context} {x y}, ctx ≤ ctx' → C ctx x y → C ctx' x y) {xs : List α}
    (hs : s.Valid) (hf : ∀ x ∈ xs, ∀ s', s'.Valid → s.ctx.Grows s'.ctx →
      s'.domains = s.domains → Ensures (f x) s' fun y ctx => C ctx x y) :
    Ensures (xs.mapM f) s fun ys ctx => List.Forall₂ (C ctx) xs ys := by
  induction xs generalizing s with
  | nil => exact .pure hs .nil
  | cons x xs ih =>
      rw [List.mapM_cons]
      refine (hf x List.mem_cons_self s hs (.refl _) rfl).bind fun y s₁ hs₁ hg₁ hd₁ hy => ?_
      refine (ih hs₁ fun x' hx' s' hs' hg hd => hf x' (List.mem_cons_of_mem _ hx') s' hs'
        (hg₁.trans hg) (hd.trans hd₁)).bind fun ys s₂ hs₂ hg₂ _ hys => ?_
      exact .pure hs₂ (.cons (hC hg₂.le hy) hys)

/-- The same for a traversal that stops at the first missing result. -/
theorem mapM_run_ensures {f : α → OptionT Query β} {C : Context → α → β → Prop}
    (hC : ∀ {ctx ctx' : Context} {x y}, ctx ≤ ctx' → C ctx x y → C ctx' x y) {xs : List α}
    (hs : s.Valid) (hf : ∀ x ∈ xs, ∀ s', s'.Valid → s.ctx.Grows s'.ctx →
      s'.domains = s.domains → Ensures (f x).run s' fun y? ctx => ∀ y, y? = some y → C ctx x y) :
    Ensures (xs.mapM f).run s fun ys? ctx => ∀ ys, ys? = some ys → List.Forall₂ (C ctx) xs ys := by
  induction xs generalizing s with
  | nil =>
      refine .pure hs ?_
      rintro _ ⟨⟩
      exact .nil
  | cons x xs ih =>
      rw [List.mapM_cons, OptionT.run_bind]
      refine (hf x List.mem_cons_self s hs (.refl _) rfl).bind fun y? s₁ hs₁ hg₁ hd₁ hy => ?_
      cases y? with
      | none => exact .pure hs₁ nofun
      | some y =>
          rw [Option.elim_some, OptionT.run_bind]
          refine (ih hs₁ fun x' hx' s' hs' hg hd => hf x' (List.mem_cons_of_mem _ hx') s' hs'
            (hg₁.trans hg) (hd.trans hd₁)).bind fun ys? s₂ hs₂ hg₂ _ hys => ?_
          cases ys? with
          | none => exact .pure hs₂ nofun
          | some ys =>
              refine .pure hs₂ ?_
              rintro _ ⟨⟩
              exact .cons (hC hg₂.le (hy y rfl)) (hys ys rfl)

/-! ## Remembering answers -/

/-- The analyzer may change what it remembers, as long as that is right. -/
theorem Ensures.remember {f : Analyzer → Analyzer} (hs : s.Valid)
    (hvalid : Session.Valid ⟨s.ctx, f s.analyzer⟩)
    (hbindings : (f s.analyzer).bindings = s.analyzer.bindings) :
    Ensures (changeAnalyzer fun an => if an.memoize then f an else an) s
      fun _ ctx => ctx = s.ctx := by
  obtain ⟨ctx, an⟩ := s
  refine ⟨?_, .refl ctx, funext fun v => ?_, rfl⟩
  · change Session.Valid ⟨ctx, if an.memoize then f an else an⟩
    split
    exacts [hvalid, hs]
  · change (if an.memoize then f an else an).bindings[v]? = an.bindings[v]?
    split
    exacts [by rw [hbindings], rfl]

theorem recordSimplified_ensures {e r : ExprId} (hs : s.Valid)
    (h : s.ctx.Simplifies s.domains e r) :
    Ensures (recordSimplified e r) s fun _ ctx => ctx = s.ctx := by
  refine .remember hs ⟨hs.wellFormed, hs.domains, fun e' r' hr => ?_, hs.proved, hs.bounds⟩ rfl
  rcases Handle.getElem?_insert_eq_some.1 hr with ⟨rfl, rfl⟩ | ⟨-, hr⟩
  exacts [h, hs.simplified e' r' hr]

theorem recordProved_ensures {e : ExprId} {answer : Bool} (hs : s.Valid)
    (h : answer = true → s.ctx.Entails s.domains e) :
    Ensures (recordProved e answer) s fun _ ctx => ctx = s.ctx := by
  refine .remember hs ⟨hs.wellFormed, hs.domains, hs.simplified, fun e' he => ?_, hs.bounds⟩ rfl
  rcases Handle.getElem?_insert_eq_some.1 he with ⟨rfl, hyes⟩ | ⟨-, he⟩
  exacts [h hyes.symm, hs.proved e' he]

theorem recordBound_ensures {e : ExprId} {i : Interval} (hs : s.Valid)
    (h : s.ctx.Bounded s.domains e i) :
    Ensures (recordBound e i) s fun _ ctx => ctx = s.ctx := by
  refine .remember hs ⟨hs.wellFormed, hs.domains, hs.simplified, hs.proved, fun e' i' hi => ?_⟩ rfl
  rcases Handle.getElem?_insert_eq_some.1 hi with ⟨rfl, rfl⟩ | ⟨-, hi⟩
  exacts [h, hs.bounds e' i' hi]

/-- A query whose answer is right for every class of nodes may be remembered. -/
theorem remember_ensures {q : Query ExprId} {e : ExprId} (he : s.ctx.Stored e)
    (hq : ∀ K, s.ctx.Over K e → Ensures q s fun r ctx =>
      ctx.Denotes K r (Context.AdmittedValue s.domains e)) :
    Ensures (do let r ← q; recordSimplified e r; return r) s fun r ctx =>
      ctx.Simplifies s.domains e r := by
  have : Nonempty { K // s.ctx.Over K e } := ⟨⟨.all, Context.over_all he⟩⟩
  refine (Ensures.all fun K : { K // s.ctx.Over K e } => hq K.1 K.2).bind ?_
  intro r s₁ hs₁ hg₁ hd₁ hr
  have hsimplifies : s₁.ctx.Simplifies s.domains e r :=
    ⟨he.mono hg₁.le, fun K hK => hr ⟨K, hK.restrict hg₁.le he⟩⟩
  refine (recordSimplified_ensures hs₁ (hd₁ ▸ hsimplifies)).bind fun _ s₂ hs₂ _ _ hctx => ?_
  exact .pure hs₂ (hctx ▸ hsimplifies)

/-- The value of an expression lies within the bounds that a query gives. -/
theorem bound_ensures {e : ExprId} (hs : s.Valid) (he : s.ctx.Stored e) :
    Ensures (bound e) s fun i ctx => ctx = s.ctx ∧ ctx.Bounded s.domains e i := by
  refine .analyzer ?_
  split
  · next i hi =>
    refine .pure hs ⟨rfl, ?_⟩
    obtain ⟨-, hi⟩ := Option.ite_none_right_eq_some.1 hi
    exact hs.bounds e i hi
  · refine .context ?_
    have hbounded : s.ctx.Bounded s.domains e
        (s.ctx.boundWithin Context.bindingDepth (s.analyzer.bindings[·]?) Env.empty e) :=
      fun ν _ hν htrail hr x hx =>
        Context.contains_boundWithin hν hs.wellFormed hs.domains htrail he hr hx _
    refine (recordBound_ensures hs hbounded).bind fun _ s' hs' _ hdom hctx => ?_
    exact .pure hs' ⟨hctx, by rwa [hctx]⟩

end Query

end LoopBounds
