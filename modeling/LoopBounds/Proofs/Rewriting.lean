import LoopBounds.Expr.Rewrite
import LoopBounds.Proofs.Build

/-!
# Rewriting

What a traversal makes of an expression follows from what it makes of each node, given what it
has made of the operands.  A sub-expression that was visited before is looked up, so what holds
of a result has to last while the context grows.
-/

namespace LoopBounds

/-- Rules for what the computations of a monad leave behind.  What is read from a context has to be
there for good. -/
structure Rules (m : Type → Type) [Monad m] [MonadLiftT Build m] where
  Ensures : {α : Type} → m α → Context → (α → Context → Prop) → Prop
  pure : ∀ {α : Type} {x : α} {ctx : Context} {Q : α → Context → Prop}, Q x ctx →
    Ensures (pure x) ctx Q
  mono : ∀ {α : Type} {b : m α} {ctx : Context} {Q R : α → Context → Prop}, Ensures b ctx Q →
    (∀ x ctx', ctx.Grows ctx' → Q x ctx' → R x ctx') → Ensures b ctx R
  bind : ∀ {α β : Type} {b : m α} {f : α → m β} {ctx : Context} {Q : α → Context → Prop}
    {R : β → Context → Prop}, Ensures b ctx Q →
    (∀ x ctx', ctx.Grows ctx' → Q x ctx' → Ensures (f x) ctx' R) → Ensures (b >>= f) ctx R
  read : ∀ {α : Type} {f : Context → m α} {ctx : Context} {Q : α → Context → Prop},
    Ensures (f ctx) ctx Q → (∀ ctx', ctx.Grows ctx' → f ctx' = f ctx) →
    Ensures ((liftM (get : Build Context) : m Context) >>= f) ctx Q

/-- Rules for computations that store expressions. -/
structure StoringRules (m : Type → Type) [Monad m] [MonadLiftT Build m] extends Rules m where
  lift : ∀ {α : Type} {b : Build α} {ctx : Context} {Q : α → Context → Prop},
    Build.Ensures b ctx Q → Ensures (liftM b) ctx Q

/-- Storing expressions. -/
def Build.rules : StoringRules Build where
  Ensures := Build.Ensures
  pure := .pure
  mono := .mono
  bind := .bind
  read h _ := .get h
  lift h := h

namespace Attempt

variable {α β : Type} {c : Prop} {b : Attempt α} {f : α → Attempt β} {ctx : Context}
  {Q R : α → Context → Prop} {S : β → Context → Prop}

/-- The computation only stores expressions.  If it does not fail then `Q` holds of its result and
of the context that it leaves, and under the condition it does not fail. -/
def Yields (c : Prop) (b : Attempt α) (ctx : Context) (Q : α → Context → Prop) : Prop :=
  Build.Ensures b.run ctx fun r ctx' => (c → ∃ x, r = .ok x) ∧ ∀ x, r = .ok x → Q x ctx'

theorem Yields.pure {x : α} (h : Q x ctx) : Yields c (pure x : Attempt α) ctx Q := by
  refine Build.Ensures.pure ⟨fun _ => ⟨x, rfl⟩, ?_⟩
  rintro _ ⟨⟩
  exact h

theorem Yields.throw {e : ExprError} (h : ¬ c) : Yields c (throw e : Attempt α) ctx Q :=
  Build.Ensures.pure ⟨fun hc => absurd hc h, nofun⟩

theorem Yields.mono (h : Yields c b ctx Q) (hQ : ∀ x ctx', ctx.Grows ctx' → Q x ctx' → R x ctx') :
    Yields c b ctx R :=
  Build.Ensures.mono h fun _ ctx' hg h => ⟨h.1, fun x hx => hQ x ctx' hg (h.2 x hx)⟩

theorem Yields.bind (hb : Yields c b ctx Q)
    (hf : ∀ x ctx', ctx.Grows ctx' → Q x ctx' → Yields c (f x) ctx' S) :
    Yields c (b >>= f) ctx S := by
  rw [Yields, ExceptT.run_bind]
  refine Build.Ensures.bind hb fun r ctx' hg h => ?_
  cases r with
  | ok x => exact hf x ctx' hg (h.2 x rfl)
  | error e =>
      refine Build.Ensures.pure ⟨fun hc => ?_, nofun⟩
      obtain ⟨x, hx⟩ := h.1 hc
      cases hx

theorem Yields.build {b : Build α} (h : Build.Ensures b ctx Q) :
    Yields c (liftM b : Attempt α) ctx Q := by
  refine ⟨h.1, fun _ => ⟨_, rfl⟩, ?_⟩
  rintro _ ⟨⟩
  exact h.2

theorem Yields.get {f : Context → Attempt β} (h : Yields c (f ctx) ctx S) :
    Yields c ((liftM (get : Build Context) : Attempt Context) >>= f) ctx S :=
  h

/-- Storing expressions where the storing may fail, unless the condition holds. -/
def rules (c : Prop) : StoringRules Attempt where
  Ensures := Yields c
  pure := .pure
  mono := .mono
  bind := .bind
  read h _ := .get h
  lift := .build

theorem Yields.ensures (h : Yields c b ctx Q) : (rules c).Ensures b ctx Q := h

end Attempt

namespace Rules

variable {m : Type → Type} [Monad m] [MonadLiftT Build m] (L : Rules m)

section Runs

variable {α β : Type} {q : StateT Rewritten m α} {f : α → StateT Rewritten m β} {memo : Rewritten}
  {ctx : Context} {Q Q' : α → Rewritten → Context → Prop} {R : β → Rewritten → Context → Prop}

/-- What a part of a traversal makes of the results so far and of the context. -/
def Runs (q : StateT Rewritten m α) (memo : Rewritten) (ctx : Context)
    (Q : α → Rewritten → Context → Prop) : Prop :=
  L.Ensures (q.run memo) ctx fun p ctx' => Q p.1 p.2 ctx'

theorem Runs.pure {x : α} (h : Q x memo ctx) : L.Runs (Pure.pure x) memo ctx Q := by
  apply L.pure
  exact h

theorem Runs.bind (hq : L.Runs q memo ctx Q)
    (hf : ∀ x memo' ctx', ctx.Grows ctx' → Q x memo' ctx' → L.Runs (f x) memo' ctx' R) :
    L.Runs (q >>= f) memo ctx R := by
  apply L.bind hq
  intro p ctx' hg hp
  exact hf p.1 p.2 ctx' hg hp

theorem Runs.lift {b : m α} {P : α → Context → Prop} (h : L.Ensures b ctx P) :
    L.Runs (liftM b) memo ctx fun x memo' ctx' => memo = memo' ∧ P x ctx' := by
  apply L.bind h
  intro x ctx' _ hx
  apply L.pure
  exact ⟨rfl, hx⟩

theorem Runs.read [LawfulMonad m] {f : Context → StateT Rewritten m α}
    (h : L.Runs (f ctx) memo ctx Q) (hf : ∀ ctx', ctx.Grows ctx' → f ctx' = f ctx) :
    L.Runs ((liftM (liftM (get : Build Context) : m Context) : StateT Rewritten m Context) >>= f)
      memo ctx Q := by
  have hrun := L.read (f := fun ctx => (f ctx).run memo) h fun ctx' hg => by rw [hf ctx' hg]
  unfold Runs
  simpa using hrun

theorem Runs.modify {change : Rewritten → Rewritten} {Q : PUnit → Rewritten → Context → Prop}
    (h : Q ⟨⟩ (change memo) ctx) : L.Runs (modify change) memo ctx Q := by
  apply L.pure
  exact h

theorem Runs.mapM [LawfulMonad m] {C : Context → α → β → Prop} {I : Rewritten → Context → Prop}
    (hC : ∀ {ctx ctx' x y}, ctx.Grows ctx' → C ctx x y → C ctx' x y) {xs : List α}
    (hI : I memo ctx) (hf : ∀ x ∈ xs, ∀ memo' ctx', ctx.Grows ctx' → I memo' ctx' →
      L.Runs (f x) memo' ctx' fun y memo'' ctx'' => C ctx'' x y ∧ I memo'' ctx'') :
    L.Runs (xs.mapM f) memo ctx fun ys memo' ctx' =>
      List.Forall₂ (C ctx') xs ys ∧ I memo' ctx' := by
  induction xs generalizing memo ctx with
  | nil => exact Runs.pure L ⟨.nil, hI⟩
  | cons x xs ih =>
      rw [List.mapM_cons]
      refine Runs.bind L (hf x List.mem_cons_self memo ctx (.refl ctx) hI) ?_
      intro y memo₁ ctx₁ hg₁ ⟨hy, hI₁⟩
      refine Runs.bind L (ih hI₁ fun x' hx' memo' ctx' hg => hf x' (List.mem_cons_of_mem _ hx')
        memo' ctx' (hg₁.trans hg)) ?_
      intro ys memo₂ ctx₂ hg₂ ⟨hys, hI₂⟩
      exact Runs.pure L ⟨.cons (hC hg₂ hy) hys, hI₂⟩

end Runs

/-- One node: it is rebuilt over its new operands, unless these are the old ones, and visited. -/
def visitNode (visit : ExprId → m (Option ExprId)) (e : ExprId) (node : Node)
    (operands : List ExprId) : m ExprId := do
  let rebuilt ← if operands = node.children then Pure.pure e
    else (liftM (Build.rebuild node operands) : m ExprId)
  return (← visit rebuilt).getD rebuilt

/-- What `P` demands of the expressions to traverse and `C` of their results is kept while the
context grows, and found at a node once it is found at the operands. -/
structure Traverses (visit : ExprId → m (Option ExprId)) (P : Context → ExprId → Prop)
    (C : Context → ExprId → ExprId → Prop) : Prop where
  grows : ∀ {ctx ctx' e}, ctx.Grows ctx' → P ctx e → P ctx' e
  stored : ∀ {ctx e}, P ctx e → ctx.Stored e
  child : ∀ {ctx e c}, P ctx e → c ∈ (ctx.node e).children → P ctx c
  lasts : ∀ {ctx ctx' e r}, ctx.Grows ctx' → C ctx e r → C ctx' e r
  visits : ∀ {ctx e operands}, P ctx e →
    List.Forall₂ (C ctx) (ctx.node e).children operands →
    L.Ensures (visitNode visit e (ctx.node e) operands) ctx fun r ctx' => C ctx' e r

variable {L} {visit : ExprId → m (Option ExprId)} {P : Context → ExprId → Prop}
  {C : Context → ExprId → ExprId → Prop}

/-- Every result so far is right. -/
def Remembers (C : Context → ExprId → ExprId → Prop) (memo : Rewritten) (ctx : Context) : Prop :=
  ∀ e r, memo[e]? = some r → C ctx e r

theorem Remembers.insert {memo : Rewritten} {ctx : Context} {e r : ExprId}
    (h : Remembers C memo ctx) (hr : C ctx e r) : Remembers C (memo.insert e r) ctx := by
  intro e' r' he'
  rcases Handle.getElem?_insert_eq_some.1 he' with ⟨rfl, rfl⟩ | ⟨-, he'⟩
  exacts [hr, h e' r' he']

theorem rewriteStep_runs [LawfulMonad m] (h : L.Traverses visit P C) {ctx : Context} {e : ExprId}
    {memo : Rewritten} (he : P ctx e) (hmemo : Remembers C memo ctx) :
    L.Runs (rewriteStep visit e) memo ctx fun r memo' ctx' =>
      C ctx' e r ∧ Remembers C memo' ctx' := by
  have hlasts : ∀ {memo ctx ctx'}, ctx.Grows ctx' → Remembers C memo ctx → Remembers C memo ctx' :=
    fun hg hmemo e r hr => h.lasts hg (hmemo e r hr)
  rw [rewriteStep]
  have hget : L.Runs (get : StateT Rewritten m Rewritten) memo ctx
      fun memo₁ memo₂ ctx' => memo = memo₁ ∧ memo = memo₂ ∧ ctx = ctx' := L.pure ⟨rfl, rfl, rfl⟩
  refine Runs.bind L hget ?_
  rintro _ _ _ - ⟨rfl, rfl, rfl⟩
  split
  · next done hdone => exact Runs.pure L ⟨hmemo e done hdone, hmemo⟩
  refine Runs.read L ?_ fun ctx' hg => by rw [Context.node_eq hg.le (h.stored he)]
  refine Runs.bind L (Runs.mapM L (C := fun ctx c r => C ctx c.1 r)
    (I := fun memo' ctx' => Remembers C memo' ctx') h.lasts hmemo
    fun c _ memo' ctx' hg hmemo' => rewriteStep_runs h (h.grows hg (h.child he c.2)) hmemo') ?_
  rintro operands memo₁ ctx₁ hg₁ ⟨hoperands, hmemo₁⟩
  have hnode := Context.node_eq hg₁.le (h.stored he)
  have hoperands' : List.Forall₂ (C ctx₁) (ctx₁.node e).children operands := by
    rw [hnode, ← List.attach_map_subtype_val (ctx.node e).children, List.forall₂_map_left_iff]
    exact hoperands
  have hresult := h.visits (h.grows hg₁ he) hoperands'
  rw [hnode] at hresult
  have hfinish : ∀ q : m ExprId, L.Ensures q ctx₁ (fun r ctx' => C ctx' e r) →
      L.Runs (do
        let r ← liftM q
        modify (·.insert e r)
        return r) memo₁ ctx₁ fun r memo' ctx' => C ctx' e r ∧ Remembers C memo' ctx' := by
    intro q hq
    refine Runs.bind L (Runs.lift L hq) ?_
    rintro r _ ctx₂ hg₂ ⟨rfl, hr⟩
    refine Runs.bind L (Runs.modify L (Q := fun _ memo' ctx' =>
      C ctx' e r ∧ Remembers C memo' ctx') ⟨hr, (hlasts hg₂ hmemo₁).insert hr⟩) ?_
    intro _ memo₂ ctx₃ _ h
    exact Runs.pure L h
  have hprogram := hfinish _ hresult
  rw [visitNode] at hprogram
  split
  · next heq => simpa [heq] using hprogram
  · next hne => simpa [hne] using hprogram
termination_by e.index
decreasing_by exact Context.child_lt _ c.2

theorem rewrite_ensures [LawfulMonad m] (h : L.Traverses visit P C) {ctx : Context} {e : ExprId}
    (he : P ctx e) : L.Ensures (rewrite visit e) ctx fun r ctx' => C ctx' e r := by
  have hmemo : Remembers C {} ctx := by simp [Remembers]
  rw [rewrite, StateT.run'_eq, map_eq_pure_bind]
  apply L.bind (rewriteStep_runs h he hmemo)
  intro p ctx' _ hp
  exact L.pure hp.1

end Rules

end LoopBounds
