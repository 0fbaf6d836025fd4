import LoopBounds.Proofs.Termination

/-!
# Answers that stay

A query that has been answered, asked again in a context to which more was added, gives the same
answer and stores nothing.  So an analyzer may remember its answers: what it remembers is what it
would find out.
-/

namespace LoopBounds

/-! ## Later contexts -/

namespace Context

/-- `ctx'` is `ctx` with more expressions and other symbols.  No expression is changed, and no
function that one calls. -/
structure Adds (ctx ctx' : Context) : Prop where
  appends : ctx.Appends ctx'
  callee : ∀ e f args dims, ctx.node e = .call f args dims → ctx'.fn f = ctx.fn f

variable {ctx ctx' ctx'' : Context} {e : ExprId} {known : Facts .var Domain}

theorem stored_of_call {f : FunId} {args : List ExprId} {dims : List DimId}
    (hn : ctx.node e = .call f args dims) : ctx.Stored e := by
  by_contra he
  cases (node_of_not_stored he).symm.trans hn

theorem Adds.refl (ctx : Context) : ctx.Adds ctx := ⟨.refl ctx, fun _ _ _ _ _ => rfl⟩

theorem Adds.trans (h : ctx.Adds ctx') (h' : ctx'.Adds ctx'') : ctx.Adds ctx'' := by
  refine ⟨h.appends.trans h'.appends, fun e f args dims hn => ?_⟩
  have hn' := (h.appends.node_eq (stored_of_call hn)).trans hn
  rw [h'.callee e f args dims hn', h.callee e f args dims hn]

theorem Grows.adds (h : ctx.Grows ctx') : ctx.Adds ctx' :=
  ⟨h.appends, fun _ f _ _ _ => h.fn_eq f⟩

/-- A context where all functions stay. -/
theorem adds_of_funs (hwf : ctx.WellFormed) (happends : ctx.Appends ctx')
    (hfuns : ctx.funs.toList <+: ctx'.funs.toList) : ctx.Adds ctx' := by
  refine ⟨happends, fun e f args dims hn => ?_⟩
  rw [fn, fn, getElem?_of_prefix hfuns (hwf.call e f args dims hn)]

theorem Appends.storedDomain (h : ctx.Appends ctx') {d : Domain} (hd : ctx.StoredDomain d) :
    ctx'.StoredDomain d :=
  ⟨h.stored hd.1, h.stored hd.2⟩

theorem adds_iff : ctx.Adds ctx' ↔ ctx.entries.toList <+: ctx'.entries.toList ∧
    ∀ i < ctx.size, ∀ f ∈ (ctx.node ⟨i⟩).callee?, ctx'.fn f = ctx.fn f := by
  constructor
  · intro h
    refine ⟨h.appends, fun i _ f hf => ?_⟩
    cases hn : ctx.node ⟨i⟩ <;> simp only [hn, Node.callee?, Option.mem_def, reduceCtorEq,
      Option.some_inj] at hf
    exact hf ▸ h.callee _ _ _ _ hn
  · rintro ⟨happends, hcallee⟩
    refine ⟨happends, fun e f args dims hn => ?_⟩
    exact hcallee e.index (stored_of_call hn) f (by rw [hn]; rfl)

instance (ctx ctx' : Context) : Decidable (ctx.Adds ctx') := decidable_of_iff _ adds_iff.symm

/-- The context is well formed and holds the ends of the known domains. -/
structure Supports (ctx : Context) (known : Facts .var Domain) : Prop where
  wellFormed : ctx.WellFormed
  domains : ∀ (v : VarId) d, known[v]? = some d → ctx.StoredDomain d

theorem Supports.add (h : ctx.Supports known) (hadds : ctx.Adds ctx') (hwf : ctx'.WellFormed) :
    ctx'.Supports known :=
  ⟨hwf, fun v d hd => hadds.appends.storedDomain (h.domains v d hd)⟩

theorem Supports.grow (h : ctx.Supports known) (hgrows : ctx.Grows ctx') : ctx'.Supports known :=
  h.add hgrows.adds (hgrows.wellFormed h.wellFormed)

theorem Supports.insert (h : ctx.Supports known) {d : Domain} (hd : ctx.StoredDomain d)
    (v : VarId) :
    ctx.Supports (known.insert v d) := by
  refine ⟨h.wellFormed, fun w d' hd' => ?_⟩
  rcases Handle.getElem?_insert_eq_some.1 hd' with ⟨rfl, rfl⟩ | ⟨-, hd'⟩
  exacts [hd, h.domains w d' hd']

end Context

/-- The bounds of an expression are found on what was there when it was stored. -/
theorem BoundRun.add {ctx ctx' : Context} {depth : Nat} {domains : Env Domain}
    {given : Env Interval} {e : ExprId} {i : Interval} (hwf : ctx.WellFormed)
    (hadds : ctx.Adds ctx') (hdomains : ∀ v d, domains v = some d → ctx.StoredDomain d)
    (he : ctx.Stored e) (h : BoundRun ctx depth domains given e i) :
    BoundRun ctx' depth domains given e i := by
  have hnode : ∀ {c : ExprId} {n : Node}, ctx.Stored c → ctx.node c = n → ctx'.node c = n :=
    fun hc hn => (hadds.appends.node_eq hc).trans hn
  have hdeclared : ∀ {f : FunId} (boundOf : ExprId → Interval), ctx'.fn f = ctx.fn f →
      ctx'.declaredBound f boundOf = ctx.declaredBound f boundOf := by
    intro f boundOf hf
    rw [Context.declaredBound, Context.declaredBound, hf]
  induction h with
  | const hn => exact .const (hnode he hn)
  | given hn hi => exact .given (hnode he hn) hi
  | unknown hn hi hd => exact .unknown (hnode he hn) hi hd
  | domain hn hi hd _ _ ihmin ihextent =>
      obtain ⟨hmin, hextent⟩ := hdomains _ _ hd
      exact .domain (hnode he hn) hi hd (ihmin hdomains hmin) (ihextent hdomains hextent)
  | arith hn _ _ iha ihb =>
      have ha := he.child (by rw [hn]; exact List.mem_cons_self)
      have hb := he.child (by rw [hn]; exact List.mem_cons_of_mem _ List.mem_cons_self)
      exact .arith (hnode he hn) (iha hdomains ha) (ihb hdomains hb)
  | truth hn =>
      rw [← hadds.appends.node_eq he] at hn
      exact .truth hn
  | deep hn => exact .deep (hnode he hn)
  | @declared depth domains given e f args dims boundOf hn hbody _ _ ihmin ihextent =>
      have hf := hadds.callee _ _ _ _ hn
      rw [← hdeclared boundOf hf]
      refine .declared (hnode he hn) (hf ▸ hbody) (fun d hd => ?_) fun d hd => ?_
      · rw [hf] at hd
        exact ihmin d hd hdomains (hwf.codomain f d hd).1
      · rw [hf] at hd
        exact ihextent d hd hdomains (hwf.codomain f d hd).2
  | @body depth domains given e f args dims body i boundOf argBound hn hbody _ _ _ _ ihmin ihextent
      ihargs ihrun =>
      have hf := hadds.callee _ _ _ _ hn
      rw [← hdeclared boundOf hf]
      refine .body (hnode he hn) (hf ▸ hbody) (fun d hd => ?_) (fun d hd => ?_)
        (fun pd hpd a ha => ?_) (hf ▸ ihrun nofun (hwf.body f body hbody))
      · rw [hf] at hd
        exact ihmin d hd hdomains (hwf.codomain f d hd).1
      · rw [hf] at hd
        exact ihextent d hd hdomains (hwf.codomain f d hd).2
      · rw [hf] at hpd
        have hmem : a ∈ (ctx.node e).children := by
          rw [hn]
          exact mem_of_argument? ha
        exact ihargs pd hpd a ha hdomains (he.child hmem)

theorem Context.Adds.boundWithin_eq {ctx ctx' : Context} {depth : Nat} {domains : Env Domain}
    {given : Env Interval} {e : ExprId} (hadds : ctx.Adds ctx') (hwf : ctx.WellFormed)
    (hdomains : ∀ v d, domains v = some d → ctx.StoredDomain d) (he : ctx.Stored e) :
    ctx'.boundWithin depth domains given e = ctx.boundWithin depth domains given e :=
  boundWithin_of_run ((ctx.boundRun depth domains given e).add hwf hadds hdomains he)

/-! ## Truthful analyzers -/

/-- An analyzer that knows domains and remembers nothing. -/
def Analyzer.knowing (known : Facts .var Domain) : Analyzer :=
  { bindings := known, memoize := false }

/-- From `ctx` on, a query without memory gives the answer and stores nothing. -/
def Query.Lasts {α : Type} (q : Query α) (ctx : Context) (known : Facts .var Domain) (x : α) :
    Prop :=
  ∀ ctx', ctx.Adds ctx' → ctx'.Supports known →
    Leads q ⟨ctx', .knowing known⟩ fun y s' => y = x ∧ s'.ctx = ctx'

theorem Query.Lasts.add {α : Type} {q : Query α} {ctx ctx' : Context}
    {known : Facts .var Domain} {x : α} (h : q.Lasts ctx known x) (hadds : ctx.Adds ctx') :
    q.Lasts ctx' known x :=
  fun ctx'' hadds' => h ctx'' (hadds.trans hadds')

/-- What the analyzer remembers it would find out again, now and later. -/
structure Session.Truthful (s : Session) : Prop where
  supports : s.ctx.Supports s.analyzer.bindings
  bound : ∀ e i, s.analyzer.bound? e = some i →
    s.ctx.Stored e ∧ (Query.bound e).Lasts s.ctx s.analyzer.bindings i
  simplified : ∀ e r, s.analyzer.simplified? e = some r →
    s.ctx.Stored e ∧ (Query.simplify e).Lasts s.ctx s.analyzer.bindings r
  proved : ∀ e answer, s.analyzer.proved? e = some answer →
    s.ctx.Stored e ∧ (Query.proves e).Lasts s.ctx s.analyzer.bindings answer

namespace Session

variable {ctx ctx' : Context} {an : Analyzer} {known : Facts .var Domain} {e r : ExprId}

theorem Truthful.add (h : Truthful ⟨ctx, an⟩) (hadds : ctx.Adds ctx') (hwf : ctx'.WellFormed) :
    Truthful ⟨ctx', an⟩ := by
  have hstored : ∀ {e}, ctx.Stored e → ctx'.Stored e := hadds.appends.stored
  refine ⟨h.supports.add hadds hwf, fun e i hi => ?_, fun e r hr => ?_, fun e answer ha => ?_⟩
  · exact (h.bound e i hi).imp hstored (·.add hadds)
  · exact (h.simplified e r hr).imp hstored (·.add hadds)
  · exact (h.proved e answer ha).imp hstored (·.add hadds)

theorem Truthful.grow (h : Truthful ⟨ctx, an⟩) (hgrows : ctx.Grows ctx') : Truthful ⟨ctx', an⟩ :=
  h.add hgrows.adds (hgrows.wellFormed h.supports.wellFormed)

theorem truthful_of_forgotten (h : ctx.Supports an.bindings)
    (hforgotten : an.memoize = false ∨ an.bounds = {} ∧ an.simplified = {} ∧ an.proved = {}) :
    Truthful ⟨ctx, an⟩ := by
  refine ⟨h, fun e i hi => ?_, fun e r hr => ?_, fun e answer ha => ?_⟩
  · rcases hforgotten with hm | ⟨hempty, -, -⟩
    · simp [Analyzer.bound?, hm] at hi
    · simp [Analyzer.bound?, hempty] at hi
  · rcases hforgotten with hm | ⟨-, hempty, -⟩
    · simp [Analyzer.simplified?, hm] at hr
    · simp [Analyzer.simplified?, hempty] at hr
  · rcases hforgotten with hm | ⟨-, -, hempty⟩
    · simp [Analyzer.proved?, hm] at ha
    · simp [Analyzer.proved?, hempty] at ha

/-- The analyzer forgets its answers when it learns a domain. -/
theorem truthful_learn (h : ctx.Supports an.bindings) {d : Domain} (hd : ctx.StoredDomain d)
    (v : VarId) : Truthful ⟨ctx, an.learn v d⟩ :=
  truthful_of_forgotten (h.insert hd v) (.inr ⟨rfl, rfl, rfl⟩)

theorem truthful_knowing (h : ctx.Supports known) : Truthful ⟨ctx, .knowing known⟩ :=
  truthful_of_forgotten h (.inl rfl)

end Session

/-! ## Noting answers -/

namespace Analyzer

variable {an : Analyzer} {e e' : ExprId} {i i' : Interval}

def noteBound (e : ExprId) (i : Interval) (an : Analyzer) : Analyzer :=
  if an.memoize then { an with bounds := an.bounds.insert e i } else an

def noteSimplified (e r : ExprId) (an : Analyzer) : Analyzer :=
  if an.memoize then { an with simplified := an.simplified.insert e r } else an

def noteProved (e : ExprId) (answer : Bool) (an : Analyzer) : Analyzer :=
  if an.memoize then { an with proved := an.proved.insert e answer } else an

theorem bound?_insert (h : (an.noteBound e i).bound? e' = some i') :
    e' = e ∧ i' = i ∨ an.bound? e' = some i' := by
  unfold noteBound at h
  split at h
  · next hm =>
    simp only [bound?, hm, if_true] at h ⊢
    exact (Handle.getElem?_insert_eq_some.1 h).imp_right And.right
  · exact .inr h

end Analyzer

namespace Session.Truthful

variable {ctx : Context} {an : Analyzer} {e r : ExprId} {i : Interval} {answer : Bool}

/-- One kind of answers may be noted when the others stay as they are. -/
theorem note {an' : Analyzer} (h : Truthful ⟨ctx, an⟩) (hsame : an'.bindings = an.bindings)
    (hbound : ∀ e i, an'.bound? e = some i → an.bound? e = some i ∨
      ctx.Stored e ∧ (Query.bound e).Lasts ctx an.bindings i)
    (hsimplified : ∀ e r, an'.simplified? e = some r → an.simplified? e = some r ∨
      ctx.Stored e ∧ (Query.simplify e).Lasts ctx an.bindings r)
    (hproved : ∀ e answer, an'.proved? e = some answer → an.proved? e = some answer ∨
      ctx.Stored e ∧ (Query.proves e).Lasts ctx an.bindings answer) :
    an'.bindings = an.bindings ∧ Truthful ⟨ctx, an'⟩ := by
  refine ⟨hsame, ⟨?_, fun e i hi => ?_, fun e r hr => ?_, fun e answer ha => ?_⟩⟩
  · exact hsame ▸ h.supports
  · exact hsame ▸ (hbound e i hi).elim (h.bound e i) id
  · exact hsame ▸ (hsimplified e r hr).elim (h.simplified e r) id
  · exact hsame ▸ (hproved e answer ha).elim (h.proved e answer) id

theorem noteBound (h : Truthful ⟨ctx, an⟩) (he : ctx.Stored e)
    (hi : (Query.bound e).Lasts ctx an.bindings i) :
    (an.noteBound e i).bindings = an.bindings ∧ Truthful ⟨ctx, an.noteBound e i⟩ := by
  refine h.note ?_ (fun e' i' hi' => ?_) (fun e' r' hr' => .inl ?_) fun e' b hb => .inl ?_
  · unfold Analyzer.noteBound
    split <;> rfl
  · rcases Analyzer.bound?_insert hi' with ⟨rfl, rfl⟩ | hi'
    exacts [.inr ⟨he, hi⟩, .inl hi']
  · unfold Analyzer.noteBound at hr'
    split at hr' <;> exact hr'
  · unfold Analyzer.noteBound at hb
    split at hb <;> exact hb

theorem noteSimplified (h : Truthful ⟨ctx, an⟩) (he : ctx.Stored e)
    (hr : (Query.simplify e).Lasts ctx an.bindings r) :
    (an.noteSimplified e r).bindings = an.bindings ∧ Truthful ⟨ctx, an.noteSimplified e r⟩ := by
  refine h.note ?_ (fun e' i' hi' => .inl ?_) (fun e' r' hr' => ?_) fun e' b hb => .inl ?_
  · unfold Analyzer.noteSimplified
    split <;> rfl
  · unfold Analyzer.noteSimplified at hi'
    split at hi' <;> exact hi'
  · rcases Analyzer.simplified?_insert hr' with ⟨rfl, rfl⟩ | hr'
    exacts [.inr ⟨he, hr⟩, .inl hr']
  · unfold Analyzer.noteSimplified at hb
    split at hb <;> exact hb

theorem noteProved (h : Truthful ⟨ctx, an⟩) (he : ctx.Stored e)
    (ha : (Query.proves e).Lasts ctx an.bindings answer) :
    (an.noteProved e answer).bindings = an.bindings ∧ Truthful ⟨ctx, an.noteProved e answer⟩ := by
  refine h.note ?_ (fun e' i' hi' => .inl ?_) (fun e' r' hr' => .inl ?_) fun e' b hb => ?_
  · unfold Analyzer.noteProved
    split <;> rfl
  · unfold Analyzer.noteProved at hi'
    split at hi' <;> exact hi'
  · unfold Analyzer.noteProved at hr'
    split at hr' <;> exact hr'
  · rcases Analyzer.proved?_insert hb with ⟨rfl, rfl⟩ | hb
    exacts [.inr ⟨he, ha⟩, .inl hb]

end Session.Truthful

/-! ## Steady queries -/

namespace Query

open Session (Truthful)
open Analyzer (noteBound noteSimplified noteProved)

/-- Whatever a truthful analyzer remembers, the query gives `x` and leads from `ctx` to `ctx'`. -/
def Gives {α : Type} (q : Query α) (ctx : Context) (known : Facts .var Domain) (x : α)
    (ctx' : Context) : Prop :=
  ∀ an : Analyzer, an.bindings = known → Truthful ⟨ctx, an⟩ →
    ∃ an', q.run ⟨ctx, an⟩ = (x, ⟨ctx', an'⟩) ∧ an'.bindings = known ∧ Truthful ⟨ctx', an'⟩

/-- The query gives `x` and leads to `ctx'`, and it gives `x` and stores nothing ever after. -/
structure Settles {α : Type} (q : Query α) (ctx : Context) (known : Facts .var Domain) (x : α)
    (ctx' : Context) : Prop where
  grows : ctx.Grows ctx'
  first : Gives q ctx known x ctx'
  again : ∀ ctx'', ctx'.Adds ctx'' → Gives q ctx'' known x ctx''

/-- The answer of the query and the context that it leads to, which satisfy `Q`, do not depend on
what is remembered, and they stay. -/
def Steady {α : Type} (q : Query α) (ctx : Context) (known : Facts .var Domain)
    (Q : α → Context → Prop) : Prop :=
  ∃ x ctx', Settles q ctx known x ctx' ∧ Q x ctx'

section Rules

variable {α β : Type} {q : Query α} {f : α → Query β} {ctx ctx' ctx'' : Context}
  {known : Facts .var Domain} {x : α} {y : β} {Q R : α → Context → Prop}
  {S : β → Context → Prop}

theorem Gives.bind (hq : Gives q ctx known x ctx') (hf : Gives (f x) ctx' known y ctx'') :
    Gives (q >>= f) ctx known y ctx'' := by
  intro an hknown htrue
  obtain ⟨an', hrun, hknown', htrue'⟩ := hq an hknown htrue
  rw [StateT.run_bind, hrun]
  exact hf an' hknown' htrue'

theorem Settles.bind (hq : Settles q ctx known x ctx') (hf : Settles (f x) ctx' known y ctx'') :
    Settles (q >>= f) ctx known y ctx'' :=
  ⟨hq.grows.trans hf.grows, hq.first.bind hf.first, fun _ hadds =>
    (hq.again _ (hf.grows.adds.trans hadds)).bind (hf.again _ hadds)⟩

theorem Steady.pure (h : Q x ctx) : Steady (pure x : Query α) ctx known Q :=
  ⟨x, ctx, ⟨.refl ctx, fun an hknown htrue => ⟨an, rfl, hknown, htrue⟩,
    fun _ _ an hknown htrue => ⟨an, rfl, hknown, htrue⟩⟩, h⟩

theorem Steady.mono (h : Steady q ctx known Q)
    (hQ : ∀ x ctx', ctx.Grows ctx' → Q x ctx' → R x ctx') : Steady q ctx known R := by
  obtain ⟨x, ctx', hq, hx⟩ := h
  exact ⟨x, ctx', hq, hQ x ctx' hq.grows hx⟩

theorem Steady.bind (hq : Steady q ctx known Q)
    (hf : ∀ x ctx', ctx.Grows ctx' → Q x ctx' → Steady (f x) ctx' known S) :
    Steady (q >>= f) ctx known S := by
  obtain ⟨x, ctx', hq, hx⟩ := hq
  obtain ⟨y, ctx'', hf, hy⟩ := hf x ctx' hq.grows hx
  exact ⟨y, ctx'', hq.bind hf, hy⟩

theorem Steady.map {g : α → β} (h : Steady q ctx known fun x ctx' => S (g x) ctx') :
    Steady (g <$> q) ctx known S :=
  h.bind fun _ _ _ hx => .pure hx

/-- What is read from the context has to stay. -/
theorem Steady.context {f : Context → Query β} (h : Steady (f ctx) ctx known S)
    (hf : ∀ ctx', ctx.Appends ctx' → f ctx' = f ctx) :
    Steady (Query.context >>= f) ctx known S := by
  obtain ⟨y, ctx', h, hy⟩ := h
  refine ⟨y, ctx', ⟨h.grows, h.first, fun ctx'' hadds an hknown htrue => ?_⟩, hy⟩
  change ∃ an', (f ctx'').run ⟨ctx'', an⟩ = _ ∧ _
  rw [hf ctx'' (h.grows.appends.trans hadds.appends)]
  exact h.again ctx'' hadds an hknown htrue

theorem Steady.lift {b : Build α} (h : Build.Replays b ctx Q) :
    Steady (liftM b : Query α) ctx known Q := by
  refine ⟨(b.run ctx).1, (b.run ctx).2, ⟨h.grows, fun an hknown htrue => ?_,
    fun ctx' hadds an hknown htrue => ?_⟩, h.post⟩
  · exact ⟨an, rfl, hknown, htrue.grow h.grows⟩
  · refine ⟨an, ?_, hknown, htrue⟩
    change ((b.run ctx').1, (⟨(b.run ctx').2, an⟩ : Session)) = _
    rw [h.again ctx' hadds.appends]

theorem Steady.built {b : Build α} (h : Build.Replays b ctx Q) :
    Steady (liftM b : Query α) ctx known fun _ _ => True :=
  (Steady.lift h).mono fun _ _ _ _ => trivial

/-- An answer that is looked up, and otherwise computed and noted, is the one that is computed. -/
theorem Settles.remember {q compute : Query α} (h : Settles compute ctx known x ctx')
    (lookup : Analyzer → Option α) (note : α → Analyzer → Analyzer)
    (hknown : ∀ s x, lookup s.analyzer = some x → q.run s = (x, s))
    (hanew : ∀ s, lookup s.analyzer = none → q.run s =
      (do let x ← compute; changeAnalyzer (note x); return x : Query α).run s)
    (hforgets : lookup (.knowing known) = none)
    (hlookup : ∀ ctx' an x, ctx.Adds ctx' → Truthful ⟨ctx', an⟩ → lookup an = some x →
      q.Lasts ctx' an.bindings x)
    (hnote : ∀ ctx' an x, ctx.Adds ctx' → Truthful ⟨ctx', an⟩ → q.Lasts ctx' an.bindings x →
      (note x an).bindings = an.bindings ∧ Truthful ⟨ctx', note x an⟩) :
    Settles q ctx known x ctx' := by
  -- without memory the answer is computed
  have hcompute : ∀ {ctx₀ ctx₁}, ctx₀.Supports known → Gives compute ctx₀ known x ctx₁ →
      Leads q ⟨ctx₀, .knowing known⟩ fun y s' => y = x ∧ s'.ctx = ctx₁ := by
    intro ctx₀ ctx₁ hsupports hgives
    obtain ⟨an', hrun, -⟩ := hgives _ rfl (Session.truthful_knowing hsupports)
    rw [Leads, hanew _ hforgets, StateT.run_bind, hrun]
    exact ⟨rfl, rfl⟩
  have hlasts : q.Lasts ctx' known x := fun ctx'' hadds hsupports =>
    hcompute hsupports (h.again ctx'' hadds)
  have hgives : ∀ {ctx₀ ctx₁}, ctx.Adds ctx₀ → ctx'.Adds ctx₁ → Gives compute ctx₀ known x ctx₁ →
      Gives q ctx₀ known x ctx₁ := by
    intro ctx₀ ctx₁ hadds hadds' hgives an hbindings htrue
    subst hbindings
    cases hlook : lookup an with
    | some y =>
        -- what is remembered is what would be found without memory, and that is computed
        have hy := hlookup ctx₀ an y hadds htrue hlook ctx₀ (.refl ctx₀) htrue.supports
        have hx := hcompute htrue.supports hgives
        obtain rfl : y = x := hy.1.symm.trans hx.1
        obtain rfl : ctx₀ = ctx₁ := hy.2.symm.trans hx.2
        exact ⟨an, hknown ⟨ctx₀, an⟩ y hlook, rfl, htrue⟩
    | none =>
        obtain ⟨an', hrun, hbindings', htrue'⟩ := hgives an rfl htrue
        obtain ⟨hnoted, htrue''⟩ := hnote ctx₁ an' x (h.grows.adds.trans hadds') htrue'
          (hbindings' ▸ hlasts.add hadds')
        refine ⟨note x an', ?_, hnoted.trans hbindings', htrue''⟩
        rw [hanew ⟨ctx₀, an⟩ hlook, StateT.run_bind, hrun]
        rfl
  exact ⟨h.grows, hgives (.refl ctx) (.refl ctx') h.first, fun ctx'' hadds =>
    hgives (h.grows.adds.trans hadds) hadds (h.again ctx'' hadds)⟩

end Rules

/-- The bounds of an expression without memory. -/
def freshBound (e : ExprId) : Query Interval := fun s =>
  (s.ctx.boundWithin Context.bindingDepth s.domains Env.empty e, s)

section Operators

variable {ctx ctx' : Context} {known : Facts .var Domain} {op : Arith} {type : Scalar}
  {a b c e : ExprId}

theorem bound_steady (hsupports : ctx.Supports known) (he : ctx.Stored e) :
    Steady (bound e) ctx known fun _ ctx' => ctx' = ctx := by
  have hfresh : Settles (freshBound e) ctx known
      (ctx.boundWithin Context.bindingDepth (known[·]?) Env.empty e) ctx := by
    refine ⟨.refl ctx, fun an hknown htrue => ⟨an, ?_, hknown, htrue⟩,
      fun ctx' hadds an hknown htrue => ⟨an, ?_, hknown, htrue⟩⟩
    · subst hknown
      rfl
    · subst hknown
      rw [← hadds.boundWithin_eq hsupports.wellFormed hsupports.domains he]
      rfl
  refine ⟨_, ctx, hfresh.remember (Analyzer.bound? · e) (noteBound e) ?_ ?_ rfl ?_ ?_, rfl⟩
  · intro s i hi
    exact bound_run_known hi
  · intro s hnew
    exact bound_run_anew hnew
  · intro ctx' an i _ htrue hi
    exact (htrue.bound e i hi).2
  · intro ctx' an i hadds htrue hi
    exact htrue.noteBound (hadds.appends.stored he) hi

theorem Steady.bound {β : Type} {f : Interval → Query β} {S : β → Context → Prop}
    (hsupports : ctx.Supports known) (he : ctx.Stored e)
    (hf : ∀ i, Steady (f i) ctx known S) : Steady (Query.bound e >>= f) ctx known S := by
  refine (bound_steady hsupports he).bind fun i ctx' _ hsame => ?_
  rw [hsame]
  exact hf i

theorem operator_steady (op : Arith) (ha : ctx.Stored a) (hb : ctx.Stored b) :
    Steady (operator op a b) ctx known fun _ _ => True := by
  unfold operator
  split
  · exact .built (Build.arith_replays op hb ha)
  · exact .built (Build.arith_replays op ha hb)

theorem difference?_steady (ha : ctx.Stored a) (hb : ctx.Stored b) :
    Steady (difference? a b) ctx known fun diff? ctx' =>
      ∀ diff, diff? = some diff → ctx'.Stored diff := by
  refine .context ?_ fun ctx' h => by
    rw [h.typeOf_eq ha, h.typeOf_eq hb, Affine.ofExpr_eq h ha, Affine.ofExpr_eq h hb]
  dsimp only
  split
  · next form hform =>
    have hform := Affine.atMost_sub (Affine.atMost_ofExpr ha) (Affine.atMost_ofExpr hb) hform
    refine (Steady.lift (Affine.toExpr_replays hform _)).bind fun diff ctx' _ hdiff => .pure ?_
    rintro _ ⟨⟩
    exact hdiff.stored
  · exact .pure nofun

theorem affineOr_steady {form? : Option Affine} (ha : ctx.Stored a) (hb : ctx.Stored b)
    (hform : ∀ form, form? = some form → ∃ w, Affine.AtMost ctx form w) :
    Steady (affineOr form? type op a b) ctx known fun _ _ => True := by
  unfold affineOr
  split
  · next form =>
    obtain ⟨w, hw⟩ := hform form rfl
    exact .built (Affine.toExpr_replays hw type)
  · exact .built (Build.arith_replays op ha hb)

theorem simplifyProduct_steady (ha : ctx.Stored a) (hb : ctx.Stored b) :
    Steady (simplifyProduct type a b) ctx known fun _ _ => True := by
  refine .context ?_ fun ctx' h => by rw [Affine.ofExpr_eq h ha, Affine.ofExpr_eq h hb]
  dsimp only
  split
  · exact affineOr_steady ha hb fun form hform =>
      ⟨_, Affine.atMost_scale (Affine.atMost_ofExpr ha) hform⟩
  · exact affineOr_steady ha hb fun form hform =>
      ⟨_, Affine.atMost_scale (Affine.atMost_ofExpr hb) hform⟩
  · exact operator_steady .mul ha hb

theorem simplifyDivision_steady (op : Arith) (type : Scalar) (hsupports : ctx.Supports known)
    (ha : ctx.Stored a) (c : Int64) :
    Steady (simplifyDivision op type a c) ctx known fun _ _ => True := by
  obtain ⟨u, v, hquotient, hremainder, -⟩ := Affine.atMost_splitBy (Affine.atMost_ofExpr ha) c
  refine .context ?_ fun ctx' h => by rw [Affine.ofExpr_eq h ha]
  dsimp only
  generalize (Affine.ofExpr ctx a).splitBy c = parts at hquotient hremainder
  refine (Steady.lift (Affine.toExpr_replays hremainder type)).bind fun rest ctx₁ h₁ hrest => ?_
  refine .bound (hsupports.grow h₁) hrest.stored fun i => ?_
  refine (Steady.lift (Build.constant_replays ctx₁ c type fun _ => 0)).bind
    fun divisor ctx₂ h₂ hdivisor => ?_
  have hgrows := h₁.trans h₂
  have hrest₂ := h₂.appends.stored hrest.stored
  have hquotient₂ := hquotient.mono hgrows.appends fun _ => le_rfl
  have hinner := Build.arith_replays op hrest₂ hdivisor.stored
  have hkept : ∀ {form? : Option Affine} {ctx₃ : Context}, ctx₂.Appends ctx₃ →
      (∀ form, form? = some form → ∃ w, Affine.AtMost ctx₃ form w) →
      Steady (affineOr form? type op a divisor) ctx₃ known fun _ _ => True := fun h₃ hform =>
    affineOr_steady (h₃.stored (hgrows.appends.stored ha)) (h₃.stored hdivisor.stored) hform
  have hstays : Steady (liftM (Build.arith op rest divisor)) ctx₂ known fun _ _ => True :=
    .built hinner
  cases i.block? c with
  | some k =>
      cases op with
      | floorDiv =>
          exact hkept (.refl ctx₂) fun form hform =>
            ⟨_, Affine.atMost_add hquotient₂ (Affine.atMost_ofConst _ k fun _ => 0) hform⟩
      | floorMod =>
          refine hkept (.refl ctx₂) fun form hform => ?_
          obtain ⟨m, -, hform⟩ := Option.bind_eq_some_iff.1 hform
          have hremainder₂ := hremainder.mono hgrows.appends fun _ => le_rfl
          exact ⟨_, Affine.atMost_sub hremainder₂ (Affine.atMost_ofConst _ m fun _ => 0) hform⟩
      | add | sub | mul | min | max => exact hstays
  | none =>
      cases op with
      | floorDiv =>
          refine (Steady.lift hinner).bind fun inner ctx₃ h₃ hinner => ?_
          split
          · exact .pure trivial
          · exact hkept h₃.appends fun form hform =>
              ⟨_, Affine.atMost_add (hquotient₂.mono h₃.appends fun _ => le_rfl)
                (Affine.atMost_atom hinner) hform⟩
      | add | sub | mul | floorMod | min | max => exact hstays

theorem simplifyDivisionBy_steady (op : Arith) (type : Scalar) (hsupports : ctx.Supports known)
    (ha : ctx.Stored a) (hb : ctx.Stored b) :
    Steady (simplifyDivisionBy op type a b) ctx known fun _ _ => True := by
  have harith : Steady (liftM (Build.arith op a b)) ctx known fun _ _ => True :=
    .built (Build.arith_replays op ha hb)
  refine .context ?_ fun ctx' h => by rw [h.literal?_eq hb]
  split
  · split
    · exact simplifyDivision_steady op type hsupports ha _
    split
    · refine .built (Build.intern_replays (fun c hc => ?_) nofun)
      rcases List.mem_pair.1 hc with rfl | rfl
      exacts [ha, hb]
    · exact harith
  · exact harith

theorem simplifyChoice_steady (op : Arith) (hsupports : ctx.Supports known) (ha : ctx.Stored a)
    (hb : ctx.Stored b) : Steady (simplifyChoice op a b) ctx known fun _ _ => True := by
  refine (difference?_steady ha hb).bind fun diff? ctx₁ h₁ hdiff => ?_
  have hoperator : ∀ {ctx₂ : Context}, ctx₁.Appends ctx₂ →
      Steady (operator op a b) ctx₂ known fun _ _ => True := fun h₂ =>
    operator_steady op (h₂.stored (h₁.appends.stored ha)) (h₂.stored (h₁.appends.stored hb))
  cases diff? with
  | none => exact hoperator (.refl ctx₁)
  | some diff =>
      have hbound := bound_steady (hsupports.grow h₁) (hdiff diff rfl)
      have hsign : Steady (some <$> bound diff) ctx₁ known fun _ _ => True :=
        .map (hbound.mono fun _ _ _ _ => trivial)
      refine hsign.bind fun sign? ctx₂ h₂ _ => ?_
      cases sign? with
      | none => exact hoperator h₂.appends
      | some i =>
          dsimp only
          split
          · exact .pure trivial
          split
          · exact .pure trivial
          · exact hoperator h₂.appends

theorem simplifyArith_steady (op : Arith) (type : Scalar) (hsupports : ctx.Supports known)
    (ha : ctx.Stored a) (hb : ctx.Stored b) :
    Steady (simplifyArith op type a b) ctx known fun _ _ => True := by
  have hfa := Affine.atMost_ofExpr ha
  have hfb := Affine.atMost_ofExpr hb
  cases op with
  | add =>
      exact .context (affineOr_steady ha hb fun form hform => ⟨_, Affine.atMost_add hfa hfb hform⟩)
        fun ctx' h => by rw [Affine.ofExpr_eq h ha, Affine.ofExpr_eq h hb]
  | sub =>
      exact .context (affineOr_steady ha hb fun form hform => ⟨_, Affine.atMost_sub hfa hfb hform⟩)
        fun ctx' h => by rw [Affine.ofExpr_eq h ha, Affine.ofExpr_eq h hb]
  | mul => exact simplifyProduct_steady ha hb
  | floorDiv | floorMod => exact simplifyDivisionBy_steady _ type hsupports ha hb
  | min | max => exact simplifyChoice_steady _ hsupports ha hb

theorem simplifyCompare_steady (op : Comparison) (hsupports : ctx.Supports known)
    (ha : ctx.Stored a) (hb : ctx.Stored b) :
    Steady (simplifyCompare op a b) ctx known fun _ _ => True := by
  have hcompare : ∀ {ctx₁ : Context}, ctx.Appends ctx₁ →
      Steady (liftM (Build.compare op a b)) ctx₁ known fun _ _ => True := fun h₁ =>
    .built (Build.compare_replays op (h₁.stored ha) (h₁.stored hb))
  refine (difference?_steady ha hb).bind fun diff? ctx₁ h₁ hdiff => ?_
  cases diff? with
  | none => exact hcompare h₁.appends
  | some diff =>
      refine .bound (hsupports.grow h₁) (hdiff diff rfl) fun i => ?_
      cases op.decideWithin i with
      | none => exact hcompare h₁.appends
      | some answer => exact .built (Build.constant_replays ctx₁ _ _ fun _ => 0)

theorem simplifyNegation_steady (ha : ctx.Stored a) :
    Steady (simplifyNegation a) ctx known fun _ _ => True := by
  refine .context ?_ fun ctx' h => by rw [h.node_eq ha]
  split
  · next op x y hn =>
    have hx := ha.child (c := x) (by simp [hn, Node.children])
    have hy := ha.child (c := y) (by simp [hn, Node.children])
    exact .built (Build.compare_replays op.negate hx hy)
  · exact .built (Build.negation_replays ha)

theorem simplifyNode_eq {ctx' : Context} (h : ctx.Appends ctx') (he : ctx.Stored e)
    (operands : List ExprId) : simplifyNode ctx' e operands = simplifyNode ctx e operands := by
  unfold simplifyNode
  rw [h.node_eq he, h.typeOf_eq he]

/-- What an expression becomes once its operands are simplified. -/
theorem simplifyNode_steady {ctx₀ : Context} {operands : List ExprId}
    (hsupports : ctx.Supports known) (h₀ : ctx₀.Appends ctx) (he : ctx₀.Stored e)
    (hoperands : ∀ c ∈ operands, ctx.Stored c) :
    Steady (simplifyNode ctx₀ e operands) ctx known fun _ _ => True := by
  have hpair : ∀ {a b}, (∀ c ∈ [a, b], ctx.Stored c) → ctx.Stored a ∧ ctx.Stored b := fun h =>
    ⟨h _ List.mem_cons_self, h _ (List.mem_cons_of_mem _ List.mem_cons_self)⟩
  unfold simplifyNode
  split
  · next op _ _ a b _ =>
    obtain ⟨ha, hb⟩ := hpair hoperands
    exact simplifyArith_steady op _ hsupports ha hb
  · next op _ _ a b _ =>
    obtain ⟨ha, hb⟩ := hpair hoperands
    exact simplifyCompare_steady op hsupports ha hb
  · obtain ⟨ha, hb⟩ := hpair hoperands
    exact .built (Build.conj_replays ha hb)
  · obtain ⟨ha, hb⟩ := hpair hoperands
    exact .built (Build.disj_replays ha hb)
  · next _ a _ => exact simplifyNegation_steady (hoperands a List.mem_cons_self)
  · next f _ dims hn =>
    refine .built (Build.intern_replays (n := .call f _ dims) hoperands ?_)
    rintro hwf _ _ _ ⟨⟩
    exact hwf.call e _ _ _ ((h₀.node_eq he).trans hn)
  · exact .pure trivial

theorem simplifyAll_steady {es : List ExprId} (hsupports : ctx.Supports known)
    (hes : ∀ e ∈ es, ctx.Stored e)
    (hsimplify : ∀ e ∈ es, ∀ ctx' : Context, ctx'.Supports known → ctx'.Stored e →
      Steady (simplify e) ctx' known fun r ctx'' => ctx''.AtMost r (ctx'.weight · e)) :
    Steady (es.mapM simplify) ctx known fun rs ctx' => ∀ r ∈ rs, ctx'.Stored r := by
  induction es generalizing ctx with
  | nil => exact .pure nofun
  | cons e es ih =>
      rw [List.mapM_cons]
      have hfirst := hsimplify e List.mem_cons_self ctx hsupports (hes e List.mem_cons_self)
      refine hfirst.bind fun r ctx₁ h₁ hr => ?_
      have hrest : ∀ c ∈ es, ctx₁.Stored c := fun c hc =>
        h₁.appends.stored (hes c (List.mem_cons_of_mem e hc))
      refine (ih (hsupports.grow h₁) hrest fun c hc =>
        hsimplify c (List.mem_cons_of_mem e hc)).bind fun rs ctx₂ h₂ hrs => ?_
      exact .pure (List.forall_mem_cons.2 ⟨h₂.appends.stored hr.stored, hrs⟩)

/-- Simplifies an expression without looking it up. -/
def freshSimplify (e : ExprId) : Query ExprId := do
  let ctx ← context
  let operands ← (ctx.node e).children.mapM simplify
  simplifyNode ctx e operands

/-- What an expression simplifies to stays. -/
theorem simplify_steady (e : ExprId) (ctx : Context) (hsupports : ctx.Supports known)
    (he : ctx.Stored e) :
    Steady (simplify e) ctx known fun r ctx' => ctx'.AtMost r (ctx.weight · e) := by
  have hfresh : Steady (freshSimplify e) ctx known fun _ _ => True := by
    refine .context ?_ fun ctx' h => ?_
    · have hchildren : ∀ c ∈ (ctx.node e).children, ctx.Stored c := fun c => he.child
      refine (simplifyAll_steady hsupports hchildren fun c hc ctx' =>
        simplify_steady c ctx').bind fun rs ctx₁ h₁ hrs => ?_
      exact simplifyNode_steady (hsupports.grow h₁) h₁.appends he hrs
    · rw [h.node_eq he]
      exact congrArg _ (funext fun operands => simplifyNode_eq h he operands)
  obtain ⟨r, ctx', hfresh, -⟩ := hfresh
  have hsimplify : Settles (simplify e) ctx known r ctx' := by
    refine hfresh.remember (Analyzer.simplified? · e) (noteSimplified e) ?_ ?_ rfl ?_ ?_
    · intro s r hr
      exact simplify_run_known hr
    · intro s hnew
      exact simplify_run_anew hnew rfl
    · intro ctx' an r _ htrue hr
      exact (htrue.simplified e r hr).2
    · intro ctx' an r hadds htrue hr
      exact htrue.noteSimplified (hadds.appends.stored he) hr
  refine ⟨r, ctx', hsimplify, ?_⟩
  obtain ⟨an', hrun, -⟩ := hsimplify.first _ rfl (Session.truthful_knowing hsupports)
  have hlight := (simplify_keeps e ⟨ctx, .knowing known⟩ (Session.light_of_forgotten rfl) he).post
  rwa [hrun] at hlight
termination_by e.index
decreasing_by exact ctx.child_lt hc

end Operators

section Proofs

variable {ctx : Context} {known : Facts .var Domain} {a b e : ExprId} {n : Nat} {answer : Bool}

theorem lasts_provesWithin_iff (he : ctx.Stored e) (hnesting : ctx.nesting e < n) :
    (provesWithin n e).Lasts ctx known answer ↔ (proves e).Lasts ctx known answer := by
  refine forall_congr' fun ctx' => forall_congr' fun hadds => forall_congr' fun _ => ?_
  have hnesting' : ctx'.nesting e < n := by
    rwa [Context.nesting, hadds.appends.weight_eq he]
  rw [Leads, Leads, provesWithin_eq_proves (Session.light_of_forgotten rfl)
    (hadds.appends.stored he) hnesting']

theorem provesWithin_steady (hsupports : ctx.Supports known) (he : ctx.Stored e)
    (hnesting : ctx.nesting e < n) :
    Steady (provesWithin n e) ctx known fun _ _ => True := by
  induction n generalizing ctx e with
  | zero => omega
  | succ n ih =>
      have hfresh : Steady (simplify e >>= simplifiedAnswer (provesWithin n)) ctx known
          fun _ _ => True := by
        refine (simplify_steady e ctx hsupports he).bind fun r ctx₁ h₁ hr => ?_
        refine .context ?_ fun ctx' h => by rw [h.node_eq hr.stored]
        split
        · exact .pure trivial
        · next a b hn =>
          obtain ⟨hlta, hltb⟩ := hr.parts_lt hn .max
          have ha := hr.stored.child (c := a) (by simp [hn, Node.children])
          have hb := hr.stored.child (c := b) (by simp [hn, Node.children])
          refine (ih (hsupports.grow h₁) ha
            (Nat.lt_of_lt_of_le hlta (Nat.le_of_lt_succ hnesting))).bind fun first ctx₂ h₂ _ => ?_
          split
          · have hltb₂ : ctx₂.nesting b < n := by
              rw [Context.nesting, h₂.appends.weight_eq hb]
              exact Nat.lt_of_lt_of_le hltb (Nat.le_of_lt_succ hnesting)
            exact ih ((hsupports.grow h₁).grow h₂) (h₂.appends.stored hb) hltb₂
          · exact .pure trivial
        · exact .pure trivial
      obtain ⟨answer, ctx', hfresh, -⟩ := hfresh
      have hlasts : ∀ {ctx' : Context} {answer}, ctx.Adds ctx' → ∀ {known},
          ((provesWithin (n + 1) e).Lasts ctx' known answer ↔
            (proves e).Lasts ctx' known answer) := by
        intro ctx' answer hadds known
        refine lasts_provesWithin_iff (hadds.appends.stored he) ?_
        rwa [Context.nesting, hadds.appends.weight_eq he]
      refine ⟨answer, ctx', hfresh.remember (Analyzer.proved? · e) (noteProved e) ?_ ?_
        rfl ?_ ?_, trivial⟩
      · intro s answer hanswer
        exact provesWithin_run_known hanswer
      · intro s hnew
        exact provesWithin_run_anew hnew
      · intro ctx' an answer hadds htrue hanswer
        exact (hlasts hadds).2 (htrue.proved e answer hanswer).2
      · intro ctx' an answer hadds htrue hanswer
        exact htrue.noteProved (hadds.appends.stored he) ((hlasts hadds).1 hanswer)

theorem proves_steady (hsupports : ctx.Supports known) (he : ctx.Stored e) :
    Steady (proves e) ctx known fun _ _ => True :=
  provesWithin_steady hsupports he (Nat.lt_succ_of_le (ctx.nesting_le_index e))

theorem provesEqual_steady (hsupports : ctx.Supports known) (ha : ctx.Stored a)
    (hb : ctx.Stored b) : Steady (provesEqual a b) ctx known fun _ _ => True := by
  unfold provesEqual
  split
  · exact .pure trivial
  refine (Steady.lift (Build.arith_replays .sub ha hb)).bind fun diff ctx₁ h₁ hdiff => ?_
  refine (simplify_steady diff ctx₁ (hsupports.grow h₁) hdiff.stored).bind
    fun r ctx₂ h₂ hr => ?_
  refine .context (.pure trivial) fun ctx' h => ?_
  rw [Context.isZero, Context.isZero, h.literal?_eq hr.stored]

end Proofs

end Query

end LoopBounds
