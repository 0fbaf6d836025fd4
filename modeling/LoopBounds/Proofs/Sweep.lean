import LoopBounds.Inference.Sweep
import LoopBounds.Proofs.Inline
import LoopBounds.Proofs.Soundness

/-!
# Reasoning about sweeps

What holds after a sweep that does not fail.  A sweep keeps its session valid and stores
expressions only; of the known domains it changes at most those of a given set of variables.
There is one rule for each way of putting a sweep together, and an induction rule for loops.
-/

namespace LoopBounds

namespace Attempt

variable {α β : Type} {b : Attempt α} {f : α → Attempt β} {ctx : Context}
  {Q : α → Context → Prop} {S : β → Context → Prop} {K : NodeClass} {x y : ExprId}

/-- The computation only stores expressions, and if it does not fail then its result and the
context it leaves satisfy `Q`. -/
def Ensures (b : Attempt α) (ctx : Context) (Q : α → Context → Prop) : Prop :=
  Build.Ensures b.run ctx fun r ctx' => ∀ x, r = .ok x → Q x ctx'

theorem Ensures.throw {e : ExprError} : Ensures (throw e : Attempt α) ctx Q :=
  Build.Ensures.pure nofun

theorem Ensures.get {f : Context → Attempt β} (h : Ensures (f ctx) ctx S) :
    Ensures ((liftM (get : Build Context) : Attempt Context) >>= f) ctx S := h

theorem Ensures.build {b : Build α} (h : Build.Ensures b ctx Q) :
    Ensures (liftM b : Attempt α) ctx Q := by
  refine ⟨h.1, ?_⟩
  rintro _ ⟨⟩
  exact h.2

theorem divide_ensures {op : Arith} {P : ExprId → Context → Prop}
    (h : Build.Ensures (Build.arith op x y) ctx P) : Ensures (divide op x y) ctx P := by
  refine Ensures.get ?_
  split
  · exact .throw
  · exact .build h

theorem divide_denotes (op : Arith) (hx : ctx.Over K x) (hy : ctx.Over K y) :
    Ensures (divide op x y) ctx fun r ctx' => ctx'.Denotes K r fun ν z =>
      ∃ m n, ν.value x = some m ∧ ν.value y = some n ∧ op.exact m n = some z :=
  divide_ensures (Build.arith_denotes op hx hy)

/-- A division by anything but a literal zero does not fail. -/
theorem divide_ok {op : Arith} (hy : ctx.isZero y = false) :
    ∃ r, ((divide op x y).run.run ctx).1 = .ok r := by
  rw [divide_run, hy]
  exact ⟨_, rfl⟩

theorem inline_ensures (onlySimple : Bool) {e : ExprId} (he : ctx.Over .callFree e) :
    Ensures (inline onlySimple e) ctx fun r ctx' => r = e ∧ ctx' = ctx := by
  rw [Ensures, Build.Ensures, inline_eq onlySimple he]
  refine ⟨.refl ctx, ?_⟩
  rintro _ ⟨⟩
  exact ⟨rfl, rfl⟩

end Attempt

namespace Sweep

variable {σ α β : Type} {V : Set VarId} {m : Sweep σ α} {f : α → Sweep σ β} {t : σ} {s : Session}
  {Q R : α → σ → Session → Prop} {S : β → σ → Session → Prop}

/-- What a sweep that does not fail makes of a table and a session. -/
def outcome (m : Sweep σ Unit) (t : σ) (s : Session) : σ × Session :=
  (((m.run.run t).run s).1.2, ((m.run.run t).run s).2)

def succeeds (m : Sweep σ Unit) (t : σ) (s : Session) : Bool := ((m.run.run t).run s).1.1.isOk

theorem run_eq_of_succeeds {m : Sweep σ Unit} (h : m.succeeds t s = true) :
    (m.run.run t).run s = ((.ok (), (m.outcome t s).1), (m.outcome t s).2) := by
  rw [succeeds] at h
  rw [outcome]
  generalize (m.run.run t).run s = r at h
  obtain ⟨⟨r, t'⟩, s'⟩ := r
  cases r with
  | ok _ => rfl
  | error _ => cases h

/-- If the sweep does not fail then it leaves a valid session with more expressions and, but for
variables of `V`, the same known domains, and `Q` holds of its result, table and session. -/
def Ensures (V : Set VarId) (m : Sweep σ α) (t : σ) (s : Session)
    (Q : α → σ → Session → Prop) : Prop :=
  ∀ x t' s', (m.run.run t).run s = ((.ok x, t'), s') →
    s'.Valid ∧ s.ctx.Grows s'.ctx ∧ (∀ v ∉ V, s'.domains v = s.domains v) ∧ Q x t' s'

theorem Ensures.pure {x : α} (hs : s.Valid) (h : Q x t s) :
    Ensures V (pure x : Sweep σ α) t s Q := by
  rintro _ _ _ ⟨⟩
  exact ⟨hs, .refl _, fun _ _ => rfl, h⟩

theorem Ensures.throw {e : InferError} : Ensures V (throw e : Sweep σ α) t s Q := nofun

theorem Ensures.mono (h : Ensures V m t s Q)
    (hQ : ∀ x t' s', s'.Valid → s.ctx.Grows s'.ctx → (∀ v ∉ V, s'.domains v = s.domains v) →
      Q x t' s' → R x t' s') : Ensures V m t s R := by
  intro x t' s' hrun
  obtain ⟨hs', hg, hd, h⟩ := h x t' s' hrun
  exact ⟨hs', hg, hd, hQ x t' s' hs' hg hd h⟩

theorem Ensures.and (h : Ensures V m t s Q) (h' : Ensures V m t s R) :
    Ensures V m t s fun x t' s' => Q x t' s' ∧ R x t' s' := by
  intro x t' s' hrun
  obtain ⟨hs', hg, hd, hQ⟩ := h x t' s' hrun
  exact ⟨hs', hg, hd, hQ, (h' x t' s' hrun).2.2.2⟩

theorem Ensures.widen {V' : Set VarId} (hV : V ⊆ V') (h : Ensures V m t s Q) :
    Ensures V' m t s Q := by
  intro x t' s' hrun
  obtain ⟨hs', hg, hd, h⟩ := h x t' s' hrun
  exact ⟨hs', hg, fun v hv => hd v fun hv' => hv (hV hv'), h⟩

theorem Ensures.bind (hm : Ensures V m t s Q)
    (hf : ∀ x t' s', s'.Valid → s.ctx.Grows s'.ctx → (∀ v ∉ V, s'.domains v = s.domains v) →
      Q x t' s' → Ensures V (f x) t' s' S) : Ensures V (m >>= f) t s S := by
  intro y t₂ s₂ hrun
  rcases hfirst : (m.run.run t).run s with ⟨⟨r, t₁⟩, s₁⟩
  simp only [ExceptT.run_bind, StateT.run_bind, hfirst] at hrun
  cases r with
  | error e => cases hrun
  | ok x =>
      obtain ⟨hs₁, hg₁, hd₁, hQ⟩ := hm x t₁ s₁ hfirst
      obtain ⟨hs₂, hg₂, hd₂, hS⟩ := hf x t₁ s₁ hs₁ hg₁ hd₁ hQ y t₂ s₂ hrun
      exact ⟨hs₂, hg₁.trans hg₂, fun v hv => (hd₂ v hv).trans (hd₁ v hv), hS⟩

/-- A query leaves the table and the known domains alone. -/
theorem Ensures.ofQuery {q : Query α} {P : α → Context → Prop} (h : Query.Ensures q s P) :
    Ensures V (liftM q : Sweep σ α) t s fun x t' s' =>
      t' = t ∧ s'.domains = s.domains ∧ P x s'.ctx := by
  rintro x t' s' hrun
  cases hrun
  exact ⟨h.valid, h.grows, fun v _ => congrFun h.domains v, rfl, h.domains, h.post⟩

theorem Ensures.query {q : Query α} {P : α → Context → Prop} (h : Query.Ensures q s P)
    (hf : ∀ x s', s'.Valid → s.ctx.Grows s'.ctx → s'.domains = s.domains → P x s'.ctx →
      Ensures V (f x) t s' S) : Ensures V ((liftM q : Sweep σ α) >>= f) t s S := by
  refine (Ensures.ofQuery h).bind fun x t' s' hs' hg _ ⟨ht, hd, hP⟩ => ?_
  exact ht ▸ hf x s' hs' hg hd hP

theorem Ensures.store {b : Build α} {P : α → Context → Prop} (hs : s.Valid)
    (h : Build.Ensures b s.ctx P)
    (hf : ∀ x s', s'.Valid → s.ctx.Grows s'.ctx → s'.analyzer = s.analyzer → P x s'.ctx →
      Ensures V (f x) t s' S) : Ensures V ((liftM b : Sweep σ α) >>= f) t s S := by
  refine Ensures.bind (Q := fun x t' s' => t' = t ∧ s'.analyzer = s.analyzer ∧ P x s'.ctx) ?_
    fun x t' s' hs' hg _ ⟨ht, han, hP⟩ => ht ▸ hf x s' hs' hg han hP
  have hb := Query.Ensures.lift hs h
  rintro _ _ _ ⟨⟩
  exact ⟨hb.valid, hb.grows, fun v _ => congrFun hb.domains v, rfl, rfl, hb.post⟩

theorem Ensures.build {b : Build α} {P : α → Context → Prop} (hs : s.Valid)
    (h : Build.Ensures b s.ctx P)
    (hf : ∀ x s', s'.Valid → s.ctx.Grows s'.ctx → s'.domains = s.domains → P x s'.ctx →
      Ensures V (f x) t s' S) : Ensures V ((liftM b : Sweep σ α) >>= f) t s S :=
  .store hs h fun x s' hs' hg han => hf x s' hs' hg (Session.domains_eq han)

theorem Ensures.storeAttempt {b : Attempt α} {P : α → Context → Prop} (hs : s.Valid)
    (h : Attempt.Ensures b s.ctx P)
    (hf : ∀ x s', s'.Valid → s.ctx.Grows s'.ctx → s'.analyzer = s.analyzer → P x s'.ctx →
      Ensures V (f x) t s' S) : Ensures V ((liftM b : Sweep σ α) >>= f) t s S := by
  refine Ensures.bind (Q := fun x t' s' => t' = t ∧ s'.analyzer = s.analyzer ∧ P x s'.ctx) ?_
    fun x t' s' hs' hg _ ⟨ht, han, hP⟩ => ht ▸ hf x s' hs' hg han hP
  refine Ensures.store hs h fun r s' hs' hg han hr => ?_
  cases r with
  | ok x => exact .pure hs' ⟨rfl, han, hr x rfl⟩
  | error e => exact .throw

theorem Ensures.attempt {b : Attempt α} {P : α → Context → Prop} (hs : s.Valid)
    (h : Attempt.Ensures b s.ctx P)
    (hf : ∀ x s', s'.Valid → s.ctx.Grows s'.ctx → s'.domains = s.domains → P x s'.ctx →
      Ensures V (f x) t s' S) : Ensures V ((liftM b : Sweep σ α) >>= f) t s S :=
  .storeAttempt hs h fun x s' hs' hg han => hf x s' hs' hg (Session.domains_eq han)

theorem Ensures.context {f : Context → Sweep σ β} (h : Ensures V (f s.ctx) t s S) :
    Ensures V ((liftM Query.context : Sweep σ Context) >>= f) t s S := h

theorem Ensures.table {f : σ → Sweep σ β} (h : Ensures V (f t) t s S) :
    Ensures V (Sweep.table >>= f) t s S := h

theorem Ensures.changeTable {change : σ → σ} {Q : Unit → σ → Session → Prop} (hs : s.Valid)
    (h : Q () (change t) s) : Ensures V (Sweep.changeTable change) t s Q := by
  rintro _ _ _ ⟨⟩
  exact ⟨hs, .refl _, fun _ _ => rfl, h⟩

theorem Ensures.fetch {τ : Table} [Keyed τ] {pass : Pass} {role : Role} {facts : Facts τ α}
    {key : Handle τ} (hs : s.Valid) (h : ∀ x, facts[key]? = some x → Ensures V (f x) t s S) :
    Ensures V (Sweep.fetch pass role facts key >>= f) t s S := by
  cases hx : facts[key]? with
  | some x =>
      refine Ensures.bind (Q := fun y t' s' => y = x ∧ t' = t ∧ s' = s) ?_ ?_
      · rw [Sweep.fetch, hx]
        exact .pure hs ⟨rfl, rfl, rfl⟩
      · rintro _ _ _ - - - ⟨rfl, rfl, rfl⟩
        exact h _ hx
  | none =>
      refine Ensures.bind (Q := fun _ _ _ => False) ?_ fun _ _ _ _ _ _ => False.elim
      rw [Sweep.fetch, hx]
      exact .context .throw

theorem Ensures.require {τ : Table} [Keyed τ] {pass : Pass} {role : Role} {facts : Facts τ α}
    {key : Handle τ} {f : Option α → Sweep σ β} (hs : s.Valid)
    (h : ∀ x, facts[key]? = some x → Ensures V (f (some x)) t s S) :
    Ensures V (Sweep.require false pass role facts key >>= f) t s S := by
  rw [Sweep.require, if_neg Bool.false_ne_true, bind_map_left]
  exact .fetch hs h

/-- An entry that is there is found whether or not it may be missing. -/
theorem require_eq {τ : Table} [Keyed τ] {allowMissing : Bool} {pass : Pass} {role : Role}
    {facts : Facts τ α} {key : Handle τ} {x : α} (hx : facts[key]? = some x) :
    (Sweep.require allowMissing pass role facts key : Sweep σ (Option α)) = Pure.pure (some x) := by
  cases allowMissing <;> simp [Sweep.require, Sweep.fetch, hx]

theorem Ensures.requireFound {τ : Table} [Keyed τ] {allowMissing : Bool} {pass : Pass}
    {role : Role} {facts : Facts τ α} {key : Handle τ} {f : Option α → Sweep σ β} {x : α}
    (hx : facts[key]? = some x) (h : Ensures V (f (some x)) t s S) :
    Ensures V (Sweep.require allowMissing pass role facts key >>= f) t s S := by
  rw [require_eq hx, pure_bind]
  exact h

/-- A missing entry is an error, or a reason to skip what needs it. -/
theorem Ensures.requireOrSkip {τ : Table} [Keyed τ] {allowMissing : Bool} {pass : Pass}
    {role : Role} {facts : Facts τ α} {key : Handle τ} {f : Option α → Sweep σ β} (hs : s.Valid)
    (h : ∀ x, facts[key]? = some x → Ensures V (f (some x)) t s S)
    (hskip : Ensures V (f none) t s S) :
    Ensures V (Sweep.require allowMissing pass role facts key >>= f) t s S := by
  cases hx : facts[key]? with
  | some x => exact .requireFound hx (h x hx)
  | none =>
      cases allowMissing with
      | false => exact .require hs fun x hx' => nomatch hx.symm.trans hx'
      | true => rwa [Sweep.require, if_pos rfl, hx, pure_bind]

/-- Only the domain of the variable changes. -/
theorem Ensures.learn {v : VarId} {d : Domain} (hs : s.Valid) (hd : s.ctx.StoredDomain d)
    (hv : v ∈ V) : Ensures V (liftM (Query.learn v d) : Sweep σ Unit) t s fun _ t' s' =>
      t' = t ∧ s'.ctx = s.ctx ∧ ∀ w, s'.domains w = if w = v then some d else s.domains w := by
  have hdomains : ∀ w, ((Query.learn v d).run s).2.domains w =
      if w = v then some d else s.domains w := fun w => s.domains_learn v d w
  rintro _ _ _ ⟨⟩
  refine ⟨hs.learn v hd, .refl _, fun w hw => ?_, rfl, rfl, hdomains⟩
  exact (hdomains w).trans (if_neg fun h : w = v => hw (h ▸ hv))

/-- What each pass of a loop does to what holds of the passes before it. -/
theorem forM_ensures {body : β → Sweep σ Unit} {xs : List β} (I : List β → σ → Session → Prop)
    (hs : s.Valid) (hI : I [] t s)
    (hbody : ∀ done x rest t s, xs = done ++ x :: rest → s.Valid → I done t s →
      Ensures V (body x) t s fun _ t' s' => I (done ++ [x]) t' s') :
    Ensures V (xs.forM body) t s fun _ t' s' => I xs t' s' := by
  suffices key : ∀ rest done t s, xs = done ++ rest → s.Valid → I done t s →
      Ensures V (rest.forM body) t s fun _ t' s' => I xs t' s' from
    key xs [] t s rfl hs hI
  intro rest
  induction rest with
  | nil =>
      intro done t s hxs hs hI
      rw [List.append_nil] at hxs
      exact .pure hs (hxs ▸ hI)
  | cons x rest ih =>
      intro done t s hxs hs hI
      refine (hbody done x rest t s hxs hs hI).bind fun _ t' s' hs' _ _ hI' => ?_
      exact ih (done ++ [x]) t' s' (by rw [hxs, List.append_assoc]; rfl) hs' hI'

/-- What a loop gives that changes neither the table nor the known domains. -/
theorem mapM_ensures {body : β → Sweep σ α} {C : Context → β → α → Prop}
    (hC : ∀ {ctx ctx' : Context} {x y}, ctx ≤ ctx' → C ctx x y → C ctx' x y) {xs : List β}
    (hs : s.Valid) (hbody : ∀ x ∈ xs, ∀ s', s'.Valid → s.ctx.Grows s'.ctx →
      s'.domains = s.domains → Ensures V (body x) t s' fun y t' s'' =>
        t' = t ∧ s''.domains = s'.domains ∧ C s''.ctx x y) :
    Ensures V (xs.mapM body) t s fun ys t' s' =>
      t' = t ∧ s'.domains = s.domains ∧ List.Forall₂ (C s'.ctx) xs ys := by
  induction xs generalizing s with
  | nil => exact .pure hs ⟨rfl, rfl, .nil⟩
  | cons x xs ih =>
      rw [List.mapM_cons]
      refine (hbody x List.mem_cons_self s hs (.refl _) rfl).bind ?_
      rintro y _ s₁ hs₁ hg₁ - ⟨rfl, hd₁, hy⟩
      refine (ih hs₁ fun x' hx' s' hs' hg hd => hbody x' (List.mem_cons_of_mem _ hx') s' hs'
        (hg₁.trans hg) (hd.trans hd₁)).bind ?_
      rintro ys _ s₂ hs₂ hg₂ - ⟨rfl, hd₂, hys⟩
      exact .pure hs₂ ⟨rfl, hd₂.trans hd₁, .cons (hC hg₂.le hy) hys⟩

/-! ## Sweeps that only store -/

section Yields

variable {c : Prop} {m : Sweep σ α} {f : α → Sweep σ β} {Q R : α → σ → Context → Prop}
  {S : β → σ → Context → Prop}

/-- If the sweep does not fail then it has only stored expressions, and `Q` holds of its result,
its table and the context that it leaves.  Under the condition it does not fail. -/
structure Yields (c : Prop) (m : Sweep σ α) (t : σ) (s : Session) (Q : α → σ → Context → Prop) :
    Prop where
  ok : c → ∃ x t' s', (m.run.run t).run s = ((.ok x, t'), s')
  post : ∀ x t' s', (m.run.run t).run s = ((.ok x, t'), s') →
    s'.analyzer = s.analyzer ∧ s.ctx.Grows s'.ctx ∧ Q x t' s'.ctx

theorem Yields.pure {x : α} (h : Q x t s.ctx) : Yields c (pure x : Sweep σ α) t s Q := by
  refine ⟨fun _ => ⟨x, t, s, rfl⟩, ?_⟩
  rintro _ _ _ ⟨⟩
  exact ⟨rfl, .refl _, h⟩

theorem Yields.mono (h : Yields c m t s Q)
    (hQ : ∀ x t' ctx, s.ctx.Grows ctx → Q x t' ctx → R x t' ctx) : Yields c m t s R := by
  refine ⟨h.ok, fun x t' s' hrun => ?_⟩
  obtain ⟨han, hg, hq⟩ := h.post x t' s' hrun
  exact ⟨han, hg, hQ x t' s'.ctx hg hq⟩

theorem Yields.bind (hm : Yields c m t s Q)
    (hf : ∀ x t' ctx, s.ctx.Grows ctx → Q x t' ctx → Yields c (f x) t' ⟨ctx, s.analyzer⟩ S) :
    Yields c (m >>= f) t s S := by
  have hrest : ∀ {x t₁ s₁}, (m.run.run t).run s = ((.ok x, t₁), s₁) →
      s.ctx.Grows s₁.ctx ∧ s₁.analyzer = s.analyzer ∧ Yields c (f x) t₁ s₁ S := by
    rintro x t₁ ⟨ctx₁, an₁⟩ hfirst
    obtain ⟨rfl, hg, hq⟩ := hm.post x t₁ _ hfirst
    exact ⟨hg, rfl, hf x t₁ ctx₁ hg hq⟩
  constructor
  · intro hc
    obtain ⟨x, t₁, s₁, hfirst⟩ := hm.ok hc
    obtain ⟨y, t₂, s₂, hsecond⟩ := (hrest hfirst).2.2.ok hc
    refine ⟨y, t₂, s₂, ?_⟩
    simp only [ExceptT.run_bind, StateT.run_bind, hfirst]
    exact hsecond
  · intro y t₂ s₂ hrun
    rcases hfirst : (m.run.run t).run s with ⟨⟨r, t₁⟩, s₁⟩
    simp only [ExceptT.run_bind, StateT.run_bind, hfirst] at hrun
    cases r with
    | error e => cases hrun
    | ok x =>
        obtain ⟨hg₁, han₁, hsecond⟩ := hrest hfirst
        obtain ⟨han₂, hg₂, hS⟩ := hsecond.post y t₂ s₂ hrun
        exact ⟨han₂.trans han₁, hg₁.trans hg₂, hS⟩

theorem Yields.build {b : Build α} {P : α → Context → Prop} (h : Build.Ensures b s.ctx P)
    (hf : ∀ x ctx, s.ctx.Grows ctx → P x ctx → Yields c (f x) t ⟨ctx, s.analyzer⟩ S) :
    Yields c ((liftM b : Sweep σ α) >>= f) t s S := by
  refine Yields.bind (Q := fun x t' ctx => t' = t ∧ P x ctx) ⟨fun _ => ⟨_, t, _, rfl⟩, ?_⟩ ?_
  · rintro _ _ _ ⟨⟩
    exact ⟨rfl, h.1, rfl, h.2⟩
  · rintro x _ ctx hg ⟨rfl, hx⟩
    exact hf x ctx hg hx

theorem Yields.attempt {b : Attempt α} {P : α → Context → Prop}
    (h : Attempt.Ensures b s.ctx P) (hok : c → ∃ x, (b.run.run s.ctx).1 = .ok x)
    (hf : ∀ x ctx, s.ctx.Grows ctx → P x ctx → Yields c (f x) t ⟨ctx, s.analyzer⟩ S) :
    Yields c ((liftM b : Sweep σ α) >>= f) t s S := by
  refine Yields.bind (Q := fun x t' ctx => t' = t ∧ P x ctx) ?_ ?_
  · refine Yields.build (P := fun r ctx => (∀ x, r = .ok x → P x ctx) ∧ (c → ∃ x, r = .ok x))
      ⟨h.1, h.2, hok⟩ fun r ctx _ ⟨hpost, hok⟩ => ?_
    cases r with
    | ok x => exact .pure ⟨rfl, hpost x rfl⟩
    | error e =>
        refine ⟨fun hc => ?_, nofun⟩
        obtain ⟨x, hx⟩ := hok hc
        cases hx
  · rintro x _ ctx hg ⟨rfl, hx⟩
    exact hf x ctx hg hx

theorem Yields.context {f : Context → Sweep σ β} (h : Yields c (f s.ctx) t s S) :
    Yields c ((liftM Query.context : Sweep σ Context) >>= f) t s S := ⟨h.ok, h.post⟩

theorem Yields.table {f : σ → Sweep σ β} (h : Yields c (f t) t s S) :
    Yields c (Sweep.table >>= f) t s S := ⟨h.ok, h.post⟩

theorem Yields.changeTable {change : σ → σ} {Q : Unit → σ → Context → Prop}
    (h : Q () (change t) s.ctx) : Yields c (Sweep.changeTable change) t s Q := by
  refine ⟨fun _ => ⟨(), change t, s, rfl⟩, ?_⟩
  rintro _ _ _ ⟨⟩
  exact ⟨rfl, .refl _, h⟩

theorem Yields.require {τ : Table} [Keyed τ] {allowMissing : Bool} {pass : Pass} {role : Role}
    {facts : Facts τ α} {key : Handle τ} {f : Option α → Sweep σ β} {x : α}
    (hx : facts[key]? = some x) (h : Yields c (f (some x)) t s S) :
    Yields c (Sweep.require allowMissing pass role facts key >>= f) t s S := by
  rw [require_eq hx, pure_bind]
  exact h

/-- What each pass of a loop does to what holds of the passes before it. -/
theorem forM_yields {body : β → Sweep σ Unit} {xs : List β} (I : List β → σ → Context → Prop)
    (hI : I [] t s.ctx)
    (hbody : ∀ done x rest t ctx, xs = done ++ x :: rest → s.ctx.Grows ctx → I done t ctx →
      Yields c (body x) t ⟨ctx, s.analyzer⟩ fun _ t' ctx' => I (done ++ [x]) t' ctx') :
    Yields c (xs.forM body) t s fun _ t' ctx => I xs t' ctx := by
  suffices key : ∀ rest done t ctx, xs = done ++ rest → s.ctx.Grows ctx → I done t ctx →
      Yields c (rest.forM body) t ⟨ctx, s.analyzer⟩ fun _ t' ctx' => I xs t' ctx' from
    key xs [] t s.ctx rfl (.refl _) hI
  intro rest
  induction rest with
  | nil =>
      intro done t ctx hxs _ hI
      rw [List.append_nil] at hxs
      exact .pure (hxs ▸ hI)
  | cons x rest ih =>
      intro done t ctx hxs hg hI
      refine (hbody done x rest t ctx hxs hg hI).bind fun _ t' ctx' hg' hI' => ?_
      exact ih (done ++ [x]) t' ctx' (by rw [hxs, List.append_assoc]; rfl) (hg.trans hg') hI'

end Yields

end Sweep

end LoopBounds
