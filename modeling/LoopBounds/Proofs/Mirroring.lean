import LoopBounds.Proofs.Handles
import LoopBounds.Proofs.Idempotence
import LoopBounds.Proofs.NestHistory

/-!
# Sweeps over axes and over dimensions

Dimensions are split and fused as axes are, so a nest that was only split and fused has an
operation that mirrors it.  Two sweeps over such a pair keep in step if they ask the same: their
tables mirror each other and they fail in the same way.  The second sweep may start where the
first one does, or after it, in the context that the first one leaves.
-/

namespace LoopBounds

open Session (Truthful)

/-! ## Nests that were split and fused -/

def AxisRelation.isReshape : AxisRelation → Bool
  | .reshape _ => true
  | .rebase .. | .singleton _ => false

namespace LoopNest

def Call.isReshape : Call → Bool
  | .split .. | .fuse .. => true
  | .rebase _ | .singleton _ | .bind .. => false

/-- The nest was split and fused only. -/
structure Reshaped (nest : LoopNest) : Prop where
  relations : ∀ r ∈ nest.relations, r.isReshape = true
  threads : nest.threads.toList = []

variable {nest : LoopNest} {ctx : Context}

theorem Reshaped.replace {i count : Nat} {fresh : List AxisId} {r : AxisRelation}
    (h : nest.Reshaped) (hr : r.isReshape = true) : (nest.replace i count fresh r).Reshaped := by
  refine ⟨fun q hq => ?_, h.threads⟩
  rcases List.mem_append.1 hq with hq | hq
  · exact h.relations q hq
  · rwa [List.mem_singleton.1 hq]

theorem Reshaped.split (h : nest.Reshaped) (parent : AxisId) (size : SplitBy) :
    Schedule.Ensures (nest.split parent size) ctx fun p _ => p.1.Reshaped := by
  refine split_ensures fun i _ _ _ _ => ?_
  refine (deriveAxis_ensures _ _ _ _).bind fun outer ctx₁ _ => ?_
  refine (deriveAxis_ensures _ _ _ _).bind fun inner ctx₂ _ => ?_
  exact .pure (h.replace rfl)

theorem Reshaped.fuse (h : nest.Reshaped) (outer inner : AxisId) :
    Schedule.Ensures (nest.fuse outer inner) ctx fun p _ => p.1.Reshaped := by
  refine (leafIndex_ensures outer).bind fun i ctx _ => ?_
  refine (leafIndex_ensures inner).bind fun j ctx _ => ?_
  apply Schedule.Ensures.get
  dsimp only
  split
  · exact .throw
  refine (deriveAxis_ensures _ _ _ _).bind fun fused ctx₁ _ => ?_
  exact .pure (h.replace rfl)

theorem Reshaped.perform (h : nest.Reshaped) {call : Call} (hcall : call.isReshape = true) :
    (perform ctx nest call).2.2.Reshaped := by
  have hrun : Schedule.Ensures (call.run nest) ctx fun nest' _ => nest'.Reshaped := by
    cases call with
    | split parent size => exact (h.split parent size).bind fun p ctx' hp => .pure hp
    | fuse outer inner => exact (h.fuse outer inner).bind fun p ctx' hp => .pure hp
    | rebase _ | singleton _ | bind _ _ => cases hcall
  rw [LoopNest.perform]
  split
  · next nest' ctx' hok => exact hrun nest' ctx' hok
  · exact h

theorem Reshaped.performAll {calls : List Call} (h : nest.Reshaped)
    (hcalls : ∀ call ∈ calls, call.isReshape = true) : (performAll ctx nest calls).2.Reshaped := by
  induction calls generalizing ctx nest with
  | nil => exact h
  | cons call calls ih =>
      apply ih (h.perform (hcalls call List.mem_cons_self))
      exact fun later hlater => hcalls later (List.mem_cons_of_mem _ hlater)

end LoopNest

/-! ## Mirrors -/

def Reshape.map {κ κ' : Type} (f : κ → κ') : Reshape κ → Reshape κ'
  | .split parent outer inner size => .split (f parent) (f outer) (f inner) size
  | .fuse outer inner fused => .fuse (f outer) (f inner) (f fused)

/-- The relation between the dimensions of the axes, where dimensions have it too. -/
def AxisRelation.mirror? (dimOf : AxisId → DimId) : AxisRelation → Option DimRelation
  | .reshape r => some (.reshape (r.map dimOf))
  | .rebase .. | .singleton _ => none

namespace LoopNest

variable {nest : LoopNest} {dimOf : AxisId → DimId}

/-- The operation relates the dimensions of the axes as the nest relates the axes. -/
structure Mirrors (nest : LoopNest) (dimOf : AxisId → DimId) (op : Operation) : Prop where
  relations : List.Forall₂ (fun r q => r.mirror? dimOf = some q) nest.relations op.relations
  threads : nest.threads.toList = []

/-- The operation over the dimensions of the axes. -/
def mirror (nest : LoopNest) (dimOf : AxisId → DimId) : Operation :=
  { Operation.ofRoots nest.name (nest.roots.map dimOf) with
    relations := nest.relations.filterMap (·.mirror? dimOf) }

/-- What was split and fused only can be done to dimensions. -/
theorem Reshaped.mirrors (h : nest.Reshaped) : nest.Mirrors dimOf (nest.mirror dimOf) := by
  refine ⟨?_, h.threads⟩
  change List.Forall₂ _ nest.relations (nest.relations.filterMap (·.mirror? dimOf))
  generalize nest.relations = rs, h.relations = hrelations
  induction rs with
  | nil => exact .nil
  | cons r rs ih =>
      have ih := ih fun q hq => hrelations q (List.mem_cons_of_mem r hq)
      have hr := hrelations r List.mem_cons_self
      cases r with
      | reshape r => exact .cons rfl ih
      | rebase _ _ | singleton _ => cases hr

end LoopNest

/-- The entries of `t'` are those of `t`, each for the dimension of its axis. -/
structure Facts.Mirrors {β : Type} (t : Facts .axis β) (dimOf : AxisId → DimId)
    (t' : Facts .dim β) : Prop where
  entry : ∀ a, t'[dimOf a]? = t[a]?
  only : ∀ d ∈ t', ∃ a, dimOf a = d

namespace Facts

variable {β : Type} {t : Facts .axis β} {t' : Facts .dim β} {dimOf : AxisId → DimId}

theorem Mirrors.insert (hinj : dimOf.Injective) (h : t.Mirrors dimOf t') (a : AxisId) (x : β) :
    Mirrors (t.insert a x) dimOf (t'.insert (dimOf a) x) := by
  constructor
  · intro b
    by_cases hab : a = b
    · simp [hab]
    · simp [Std.TreeMap.getElem?_insert, hab, hinj.ne hab, h.entry b]
  · intro d hd
    rcases Std.TreeMap.mem_insert.1 hd with hd | hd
    · exact ⟨a, by simpa using hd⟩
    · exact h.only d hd

/-- The entries of a table, for the dimensions of the axes. -/
def mirror (t : Facts .axis β) (dimOf : AxisId → DimId) : Facts .dim β :=
  .ofList (t.toList.map fun p => (dimOf p.1, p.2)) compare

theorem mirrors_mirror (hinj : dimOf.Injective) (t : Facts .axis β) :
    t.Mirrors dimOf (t.mirror dimOf) := by
  have hkey : ∀ d, d ∈ t.mirror dimOf ↔ ∃ a ∈ t, dimOf a = d := by
    intro d
    rw [mirror, Std.TreeMap.mem_ofList, List.contains_iff_mem, List.map_map, List.mem_map]
    constructor
    · rintro ⟨⟨a, x⟩, hmem, rfl⟩
      have hx := Std.TreeMap.mem_toList_iff_getElem?_eq_some.1 hmem
      exact ⟨a, by rw [Std.TreeMap.mem_iff_isSome_getElem?, hx]; rfl, rfl⟩
    · rintro ⟨a, ha, rfl⟩
      rw [Std.TreeMap.mem_iff_isSome_getElem?, Option.isSome_iff_exists] at ha
      obtain ⟨x, hx⟩ := ha
      exact ⟨(a, x), Std.TreeMap.mem_toList_iff_getElem?_eq_some.2 hx, rfl⟩
  constructor
  · intro a
    cases hx : t[a]? with
    | some x =>
        apply Std.TreeMap.getElem?_ofList_of_mem Std.ReflCmp.compare_self
        · rw [List.pairwise_map]
          apply Std.TreeMap.distinct_keys_toList.imp
          intro p q hpq hdims
          exact hpq (by simpa [hinj.eq_iff] using hdims)
        · exact List.mem_map_of_mem (Std.TreeMap.mem_toList_iff_getElem?_eq_some.2 hx)
    | none =>
        apply Std.TreeMap.getElem?_eq_none
        rw [hkey]
        rintro ⟨b, hb, hab⟩
        rw [hinj hab, Std.TreeMap.mem_iff_isSome_getElem?, hx] at hb
        cases hb
  · intro d hd
    obtain ⟨a, -, ha⟩ := (hkey d).1 hd
    exact ⟨a, ha⟩

end Facts

theorem Context.Grows.axisName_eq {ctx ctx' : Context} (h : ctx.Grows ctx') (a : AxisId) :
    ctx'.axisName a = ctx.axisName a := by
  rw [Context.axisName, Context.axisName, h.axisVar_eq, Context.var, Context.var, h.vars]

/-! ## Sweeps in step -/

/-- How a sweep over dimensions goes along with a sweep over axes. -/
structure Mirroring where
  dimOf : AxisId → DimId
  injective : dimOf.Injective
  /-- The variables of which the sweep over axes may learn. -/
  learnt : Set VarId
  /-- The functions that are called. -/
  called : FunId → Prop
  /-- The errors of the sweep over axes that the other one need not make. -/
  refusal : InferError → Prop

namespace Mirroring

variable {α β γ : Type} [Mentions β] {M : Mirroring}

/-- What an expression may be made of. -/
abbrev nodes (M : Mirroring) : NodeClass := .limited (· ∉ M.learnt) M.called

/-- The analyzer is truthful, and nothing that is known or entered mentions a variable that may be
learnt of. -/
structure Clear (M : Mirroring) (t : Facts .axis β) (s : Session) : Prop where
  truthful : s.Truthful
  apart : s.ctx.Apart M.learnt M.called s.analyzer.bindings
  entries : ∀ (a : AxisId) x, t[a]? = some x → ∀ e ∈ mentioned x, s.ctx.Over M.nodes e

/-- A table and a session of the second sweep, for those of the first.  The context is the same, or
the one that was `left` by the first sweep. -/
structure Twin (M : Mirroring) (left : Option Context) (t : Facts .axis β) (s : Session)
    (t' : Facts .dim β) (s' : Session) : Prop where
  mirrors : t.Mirrors M.dimOf t'
  ctx : s'.ctx = left.getD s.ctx
  agrees : Facts.AgreesOff s.analyzer.bindings M.learnt s'.analyzer.bindings
  truthful : s'.Truthful

/-- Unless the first sweep refuses its input, `Q` holds after it if it gives a result, and the
second one ends with the same outcome. -/
def InStep (M : Mirroring) (m : Sweep (Facts .axis β) α) (m' : Sweep (Facts .dim β) α)
    (t : Facts .axis β) (s : Session) (Q : α → Facts .axis β → Session → Prop) : Prop :=
  ∀ r t₁ s₁, (m.run.run t).run s = ((r, t₁), s₁) → (∀ e, r = .error e → ¬ M.refusal e) →
    M.Clear t₁ s₁ ∧ s.ctx.Grows s₁.ctx ∧ (∀ x, r = .ok x → Q x t₁ s₁) ∧
      ∀ left t' s', (∀ ctx ∈ left, s₁.ctx.Grows ctx) → M.Twin left t s t' s' →
        ∃ r' t₁' s₁', (m'.run.run t').run s' = ((r', t₁'), s₁') ∧
          SameOutcome InferError.SameKind r r' ∧ M.Twin left t₁ s₁ t₁' s₁'

variable {m n : Sweep (Facts .axis β) α} {m' n' : Sweep (Facts .dim β) α}
  {f : α → Sweep (Facts .axis β) γ} {f' : α → Sweep (Facts .dim β) γ} {t : Facts .axis β}
  {s : Session} {Q : α → Facts .axis β → Session → Prop}
  {S : γ → Facts .axis β → Session → Prop} {P : α → Context → Prop}

theorem Clear.grow {an : Analyzer} {ctx' : Context} (h : M.Clear t s) (hg : s.ctx.Grows ctx')
    (hknown : an.bindings = s.analyzer.bindings) (htrue : Truthful ⟨ctx', an⟩) :
    M.Clear t ⟨ctx', an⟩ :=
  ⟨htrue, hknown ▸ h.apart.grow hg, fun a x hx e he => (h.entries a x hx e he).mono hg.le⟩

namespace InStep

theorem pure {x : α} (h : M.Clear t s) (hx : Q x t s) : M.InStep (pure x) (pure x) t s Q := by
  rintro _ _ _ ⟨⟩ -
  refine ⟨h, .refl _, ?_, fun left t' s' _ htwin => ⟨_, _, _, rfl, .ok x, htwin⟩⟩
  rintro _ ⟨⟩
  exact hx

theorem throw {e e' : InferError} (h : M.Clear t s) (he : e.SameKind e') :
    M.InStep (throw e) (throw e') t s Q := by
  rintro _ _ _ ⟨⟩ -
  exact ⟨h, .refl _, nofun, fun left t' s' _ htwin => ⟨_, _, _, rfl, .error he, htwin⟩⟩

theorem refuse {e : InferError} (he : M.refusal e) : M.InStep (MonadExcept.throw e) m' t s Q := by
  rintro _ _ _ ⟨⟩ hrefusal
  exact absurd he (hrefusal e rfl)

theorem bind (hm : M.InStep m m' t s Q)
    (hf : ∀ x t' s', M.Clear t' s' → s.ctx.Grows s'.ctx → Q x t' s' →
      M.InStep (f x) (f' x) t' s' S) : M.InStep (m >>= f) (m' >>= f') t s S := by
  intro r t₂ s₂ hrun hr
  rcases hfirst : (m.run.run t).run s with ⟨⟨r₁, t₁⟩, s₁⟩
  have hm := hm r₁ t₁ s₁ hfirst
  simp only [ExceptT.run_bind, StateT.run_bind, hfirst] at hrun
  cases r₁ with
  | error e =>
      cases hrun
      obtain ⟨hclear, hg, -, hsecond⟩ := hm fun e' he' => hr e' (by cases he'; rfl)
      refine ⟨hclear, hg, nofun, fun left t' s' hleft htwin => ?_⟩
      obtain ⟨r', t₁', s₁', hrun', hsame, htwin'⟩ := hsecond left t' s' hleft htwin
      cases hsame with
      | error hkind =>
          refine ⟨_, t₁', s₁', ?_, .error hkind, htwin'⟩
          simp only [ExceptT.run_bind, StateT.run_bind, hrun']
          rfl
  | ok x =>
      obtain ⟨hclear₁, hg₁, hx, hsecond₁⟩ := hm nofun
      obtain ⟨hclear₂, hg₂, hy, hsecond₂⟩ := hf x t₁ s₁ hclear₁ hg₁ (hx x rfl) r t₂ s₂ hrun hr
      refine ⟨hclear₂, hg₁.trans hg₂, hy, fun left t' s' hleft htwin => ?_⟩
      obtain ⟨r', t₁', s₁', hrun', hsame, htwin'⟩ :=
        hsecond₁ left t' s' (fun ctx hctx => hg₂.trans (hleft ctx hctx)) htwin
      cases hsame
      obtain ⟨r'', t₂', s₂', hrun'', hsame', htwin''⟩ := hsecond₂ left t₁' s₁' hleft htwin'
      refine ⟨r'', t₂', s₂', ?_, hsame', htwin''⟩
      simp only [ExceptT.run_bind, StateT.run_bind, hrun']
      exact hrun''

/-- What is run may be rewritten, on either side. -/
theorem of_run (h : M.InStep n n' t s Q) (hm : (m.run.run t).run s = (n.run.run t).run s)
    (hm' : ∀ t' s', t.Mirrors M.dimOf t' → (m'.run.run t').run s' = (n'.run.run t').run s') :
    M.InStep m m' t s Q := by
  intro r t₁ s₁ hrun hr
  obtain ⟨hclear, hg, hx, hsecond⟩ := h r t₁ s₁ (hm.symm.trans hrun) hr
  refine ⟨hclear, hg, hx, fun left t' s' hleft htwin => ?_⟩
  rw [hm' t' s' htwin.mirrors]
  exact hsecond left t' s' hleft htwin

/-! ### Questions -/

theorem ofAsks {q : ∀ σ, Sweep σ α} (h : M.Clear t s)
    (hq : Sweep.Asks M.learnt q s.ctx s.analyzer.bindings P) :
    M.InStep (q _) (q _) t s fun x t' s' => t' = t ∧ P x s'.ctx := by
  obtain ⟨r, ctx', hg, hx, hbeside, hafter⟩ := hq
  obtain ⟨an, hrun, hknown, htrue⟩ :=
    hbeside _ (.refl _ _) h.truthful.supports _ t s.analyzer rfl h.truthful
  intro r₁ t₁ s₁ hr₁ _
  cases hrun.symm.trans hr₁
  refine ⟨h.grow hg hknown htrue, hg, fun x hok => ⟨rfl, hx x hok⟩, ?_⟩
  intro left t' s' hleft htwin
  have hsupports := htwin.truthful.supports
  have hends : ∃ r', SameOutcome InferError.SameKind r r' ∧
      Sweep.Ends q s'.ctx s'.analyzer.bindings r' (left.getD ctx') := by
    rw [htwin.ctx] at hsupports ⊢
    cases left with
    | none => exact ⟨r, .refl r, hbeside _ htwin.agrees hsupports⟩
    | some ctx => exact hafter ctx _ (hleft ctx rfl) htwin.agrees hsupports
  obtain ⟨r', hsame, hends⟩ := hends
  obtain ⟨an', hrun', hknown', htrue'⟩ := hends _ t' s'.analyzer rfl htwin.truthful
  refine ⟨r', t', _, hrun', hsame, htwin.mirrors, rfl, ?_, htrue'⟩
  rw [hknown, hknown']
  exact htwin.agrees

/-- A question leaves the tables alone. -/
theorem ask {q : ∀ σ, Sweep σ α} (h : M.Clear t s)
    (hq : Sweep.Asks M.learnt q s.ctx s.analyzer.bindings P)
    (hf : ∀ x s', M.Clear t s' → s.ctx.Grows s'.ctx → P x s'.ctx →
      M.InStep (f x) (f' x) t s' S) :
    M.InStep (q _ >>= f) (q _ >>= f') t s S := by
  apply (ofAsks h hq).bind
  rintro x _ s' hclear hg ⟨rfl, hx⟩
  exact hf x s' hclear hg hx

/-- The second sweep may read a later context. -/
theorem context {f : Context → Sweep (Facts .axis β) γ} {f' : Context → Sweep (Facts .dim β) γ}
    (h : ∀ ctx, s.ctx.Grows ctx → M.InStep (f s.ctx) (f' ctx) t s S) :
    M.InStep ((liftM Query.context : Sweep _ Context) >>= f)
      ((liftM Query.context : Sweep _ Context) >>= f') t s S := by
  intro r t₁ s₁ hrun hr
  obtain ⟨hclear, hg, hx, -⟩ := h s.ctx (.refl _) r t₁ s₁ hrun hr
  refine ⟨hclear, hg, hx, fun left t' s' hleft htwin => ?_⟩
  have hlater : s.ctx.Grows s'.ctx := by
    rw [htwin.ctx]
    cases left with
    | none => exact .refl s.ctx
    | some ctx => exact hg.trans (hleft ctx rfl)
  obtain ⟨-, -, -, hsecond⟩ := h s'.ctx hlater r t₁ s₁ hrun hr
  exact hsecond left t' s' hleft htwin

/-! ### Tables -/

/-- An entry is found in both tables, or it is missing from both. -/
theorem require {f : Option β → Sweep (Facts .axis β) γ}
    {f' : Option β → Sweep (Facts .dim β) γ} {allowMissing : Bool} {pass pass' : Pass}
    {role : Role} {key : AxisId} (h : M.Clear t s)
    (hfound : ∀ x, t[key]? = some x → M.InStep (f (some x)) (f' (some x)) t s S)
    (hmissing : M.InStep (f none) (f' none) t s S) :
    M.InStep
      (Sweep.table >>= fun facts => Sweep.require allowMissing pass role facts key >>= f)
      (Sweep.table >>= fun facts =>
        Sweep.require allowMissing pass' role facts (M.dimOf key) >>= f') t s S := by
  cases hx : t[key]? with
  | some x =>
      apply (hfound x hx).of_run
      · change ((Sweep.require allowMissing pass role t key >>= f).run.run t).run s = _
        rw [Sweep.require_eq hx, pure_bind]
      · intro t' s' hmirrors
        change ((Sweep.require allowMissing pass' role t' (M.dimOf key) >>= f').run.run t').run s' =
          _
        rw [Sweep.require_eq ((hmirrors.entry key).trans hx), pure_bind]
  | none =>
      cases allowMissing with
      | true =>
          apply hmissing.of_run
          · change ((f t[key]?).run.run t).run s = _
            rw [hx]
          · intro t' s' hmirrors
            change ((f' t'[M.dimOf key]?).run.run t').run s' = _
            rw [hmirrors.entry, hx]
      | false =>
          have hthrown : M.InStep
              ((liftM Query.context : Sweep _ Context) >>= fun ctx =>
                MonadExcept.throw (InferError.missingEntry pass role (Keyed.name ctx key)))
              ((liftM Query.context : Sweep _ Context) >>= fun ctx =>
                MonadExcept.throw
                  (InferError.missingEntry pass' role (Keyed.name ctx (M.dimOf key)))) t s S :=
            .context fun _ _ => .throw h (by exact rfl)
          apply hthrown.of_run
          · change ((Sweep.require false pass role t key >>= f).run.run t).run s = _
            rw [Sweep.require, if_neg Bool.false_ne_true, Sweep.fetch, hx]
            rfl
          · intro t' s' hmirrors
            change ((Sweep.require false pass' role t' (M.dimOf key) >>= f').run.run t').run s' = _
            rw [Sweep.require, if_neg Bool.false_ne_true, Sweep.fetch, hmirrors.entry, hx]
            rfl

/-- Mirrored relations are gone through one after the other. -/
theorem forM {δ : Type} {xs : List γ} {ys : List δ} {body : γ → Sweep (Facts .axis β) Unit}
    {body' : δ → Sweep (Facts .dim β) Unit} {C : γ → δ → Prop} (hxs : List.Forall₂ C xs ys)
    (h : M.Clear t s)
    (hbody : ∀ x ∈ xs, ∀ y, C x y → ∀ t' s', M.Clear t' s' → s.ctx.Grows s'.ctx →
      M.InStep (body x) (body' y) t' s' fun _ _ _ => True) :
    M.InStep (xs.forM body) (ys.forM body') t s fun _ _ _ => True := by
  induction hxs generalizing t s with
  | nil => exact .pure h trivial
  | @cons x y xs ys hxy _ ih =>
      apply (hbody x List.mem_cons_self y hxy t s h (.refl _)).bind
      intro _ t₁ s₁ h₁ hg₁ _
      apply ih h₁
      intro x' hx' y' hxy' t' s' h' hg'
      exact hbody x' (List.mem_cons_of_mem x hx') y' hxy' t' s' h' (hg₁.trans hg')

/-- Sweeps in step end in the same way. -/
theorem ends {t' : Facts .dim β} {s₁ s' : Session} {r : Except InferError α} {t₁ : Facts .axis β}
    (h : M.InStep m m' t s Q) (hrun : (m.run.run t).run s = ((r, t₁), s₁))
    (hmirrors : t.Mirrors M.dimOf t') (hctx : s'.ctx = s.ctx ∨ s₁.ctx.Grows s'.ctx)
    (hagrees : Facts.AgreesOff s.analyzer.bindings M.learnt s'.analyzer.bindings)
    (htrue : s'.Truthful) :
    (∃ e, r = .error e ∧ M.refusal e) ∨
      ∃ r' t₁' s₁', (m'.run.run t').run s' = ((r', t₁'), s₁') ∧
        SameOutcome InferError.SameKind r r' ∧ t₁.Mirrors M.dimOf t₁' := by
  by_cases hrefusal : ∃ e, r = .error e ∧ M.refusal e
  · exact .inl hrefusal
  push Not at hrefusal
  obtain ⟨-, -, -, hsecond⟩ := h r t₁ s₁ hrun hrefusal
  have hends : ∃ left : Option Context, (∀ ctx ∈ left, s₁.ctx.Grows ctx) ∧
      s'.ctx = left.getD s.ctx := by
    rcases hctx with hctx | hctx
    · exact ⟨none, nofun, hctx⟩
    · refine ⟨some s'.ctx, ?_, rfl⟩
      rintro _ ⟨⟩
      exact hctx
  obtain ⟨left, hleft, hctx⟩ := hends
  obtain ⟨r', t₁', s₁', hrun', hsame, htwin⟩ :=
    hsecond left t' s' hleft ⟨hmirrors, hctx, hagrees, htrue⟩
  exact .inr ⟨r', t₁', s₁', hrun', hsame, htwin.mirrors⟩

end InStep

end Mirroring

end LoopBounds
