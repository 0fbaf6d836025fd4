import LoopBounds.Inference.Domains
import LoopBounds.Proofs.Domains
import LoopBounds.Proofs.Questions

/-!
# Domain inference is idempotent

A sweep that has filled a table of domains, run again on that table, finds every entry it would
make, shows again whatever it has shown before, and changes nothing.  In between the analyzer has
learnt the domains of the loop variables, so no range may mention one of these.
-/

namespace LoopBounds

open Session (Truthful)

/-! ## Constructors of domains -/

theorem Domain.ofExtent_repeats {ctx : Context} {K : NodeClass} {e : ExprId} (he : ctx.Over K e) :
    Build.Repeats (Domain.ofExtent e) ctx fun d ctx' => ctx'.OverDomain K d := by
  apply (Build.constantLike_repeats K 0 he.stored).bind
  intro zero ctx₁ hg₁ hzero
  exact .pure ⟨hzero, he.mono hg₁.le⟩

theorem Domain.literal_repeats (ctx : Context) (K : NodeClass) (min extent : Int64) :
    Build.Repeats (Domain.literal min extent) ctx fun d ctx' => ctx'.OverDomain K d := by
  apply (Build.constant_repeats ctx K min .int32).bind
  intro first ctx₁ _ hfirst
  apply (Build.constant_repeats ctx₁ K extent .int32).bind
  intro count ctx₂ hg₂ hcount
  exact .pure ⟨hfirst.mono hg₂.le, hcount⟩

namespace Sweep

variable {α β : Type} {V : Set VarId} {D : FunId → Prop} {t t' t'' : Facts .axis Domain}
  {s s' s'' : Session} {m : Sweep (Facts .axis Domain) α} {x : α}

/-! ## Sweeps that are repeated -/

/-- The analyzer is truthful, and nothing that is known or entered mentions a variable of `V`. -/
structure Ready (V : Set VarId) (D : FunId → Prop) (t : Facts .axis Domain) (s : Session) :
    Prop where
  truthful : s.Truthful
  apart : s.ctx.Apart V D s.analyzer.bindings
  entries : ∀ (a : AxisId) d, t[a]? = some d → s.ctx.OverDomain (.limited (· ∉ V) D) d

/-- The table and the session come after others: entries and expressions stay, and more may be
known of the variables of `V`. -/
structure Later (V : Set VarId) (t : Facts .axis Domain) (s : Session) (t' : Facts .axis Domain)
    (s' : Session) : Prop where
  keeps : t.Subset t'
  grows : s.ctx.Grows s'.ctx
  agrees : Facts.AgreesOff s.analyzer.bindings V s'.analyzer.bindings
  truthful : s'.Truthful

theorem Later.refl (h : s.Truthful) (t : Facts .axis Domain) : Later V t s t s :=
  ⟨fun _ _ => id, .refl _, .refl V _, h⟩

theorem Later.trans (h : Later V t s t' s') (h' : Later V t' s' t'' s'') : Later V t s t'' s'' :=
  ⟨fun a d hd => h'.keeps a d (h.keeps a d hd), h.grows.trans h'.grows, h.agrees.trans h'.agrees,
    h'.truthful⟩

/-- The sweep gives `x`, and leaves the table, the context and the known domains alone. -/
def Idles (m : Sweep (Facts .axis Domain) α) (x : α) (t : Facts .axis Domain) (s : Session) :
    Prop :=
  ∃ an, (m.run.run t).run s = ((.ok x, t), ⟨s.ctx, an⟩) ∧
    an.bindings = s.analyzer.bindings ∧ Truthful ⟨s.ctx, an⟩

/-- If the sweep does not fail then `Q` holds of its result, table and session, and later it gives
the same result and changes nothing. -/
def Repeats (V : Set VarId) (D : FunId → Prop) (m : Sweep (Facts .axis Domain) α)
    (t : Facts .axis Domain) (s : Session) (Q : α → Facts .axis Domain → Session → Prop) : Prop :=
  ∀ x t' s', (m.run.run t).run s = ((.ok x, t'), s') →
    Ready V D t' s' ∧ Later V t s t' s' ∧ Q x t' s' ∧
      ∀ t'' s'', Later V t' s' t'' s'' → Idles m x t'' s''

section Rules

variable {f : α → Sweep (Facts .axis Domain) β} {Q : α → Facts .axis Domain → Session → Prop}
  {S : β → Facts .axis Domain → Session → Prop} {P : α → Context → Prop}

theorem Repeats.pure (h : Ready V D t s) (hx : Q x t s) : Repeats V D (pure x) t s Q := by
  rintro _ _ _ ⟨⟩
  exact ⟨h, .refl h.truthful t, hx, fun t'' s'' hlater => ⟨s''.analyzer, rfl, rfl, hlater.truthful⟩⟩

theorem Repeats.bind (hm : Repeats V D m t s Q)
    (hf : ∀ x t' s', Ready V D t' s' → Later V t s t' s' → Q x t' s' →
      Repeats V D (f x) t' s' S) : Repeats V D (m >>= f) t s S := by
  intro y t₂ s₂ hrun
  rcases hfirst : (m.run.run t).run s with ⟨⟨r, t₁⟩, s₁⟩
  simp only [ExceptT.run_bind, StateT.run_bind, hfirst] at hrun
  cases r with
  | error e => cases hrun
  | ok x =>
      obtain ⟨hready₁, hlater₁, hx, hidles₁⟩ := hm x t₁ s₁ hfirst
      obtain ⟨hready₂, hlater₂, hy, hidles₂⟩ := hf x t₁ s₁ hready₁ hlater₁ hx y t₂ s₂ hrun
      refine ⟨hready₂, hlater₁.trans hlater₂, hy, fun t'' s'' hlater => ?_⟩
      obtain ⟨an, hagain, hknown, htrue⟩ := hidles₁ t'' s'' (hlater₂.trans hlater)
      have hlater' : Later V t₂ s₂ t'' ⟨s''.ctx, an⟩ :=
        ⟨hlater.keeps, hlater.grows, hknown ▸ hlater.agrees, htrue⟩
      obtain ⟨an', hagain', hknown', htrue'⟩ := hidles₂ t'' ⟨s''.ctx, an⟩ hlater'
      refine ⟨an', ?_, hknown'.trans hknown, htrue'⟩
      simp only [ExceptT.run_bind, StateT.run_bind, hagain]
      exact hagain'

theorem Ready.grow {an : Analyzer} {ctx' : Context} (h : Ready V D t s) (hg : s.ctx.Grows ctx')
    (hknown : an.bindings = s.analyzer.bindings) (htrue : Truthful ⟨ctx', an⟩) :
    Ready V D t ⟨ctx', an⟩ :=
  ⟨htrue, hknown ▸ h.apart.grow hg, fun a d hd => (h.entries a d hd).mono hg.le⟩

theorem Repeats.ofAsks {q : ∀ σ, Sweep σ α} (h : Ready V D t s)
    (hq : Asks V q s.ctx s.analyzer.bindings P) :
    Repeats V D (q _) t s fun x t' s' => t' = t ∧ P x s'.ctx := by
  obtain ⟨r, ctx', hg, hx, hbeside, hafter⟩ := hq
  obtain ⟨an, hrun, hknown, htrue⟩ :=
    hbeside _ (.refl V _) h.truthful.supports _ t s.analyzer rfl h.truthful
  intro x t' s' hx'
  cases hrun.symm.trans hx'
  refine ⟨h.grow hg hknown htrue, ⟨fun _ _ => id, hg, hknown ▸ .refl V _, htrue⟩,
    ⟨rfl, hx x rfl⟩, fun t'' s'' hlater => ?_⟩
  have hagrees := hlater.agrees
  rw [hknown] at hagrees
  obtain ⟨r', hsame, hends⟩ :=
    hafter s''.ctx s''.analyzer.bindings hlater.grows hagrees hlater.truthful.supports
  cases hsame
  exact hends _ t'' s''.analyzer rfl hlater.truthful

/-- A question leaves the table alone. -/
theorem Repeats.ask {q : ∀ σ, Sweep σ α} (h : Ready V D t s)
    (hq : Asks V q s.ctx s.analyzer.bindings P)
    (hf : ∀ x s', Ready V D t s' → s.ctx.Grows s'.ctx → P x s'.ctx → Repeats V D (f x) t s' S) :
    Repeats V D (q _ >>= f) t s S := by
  apply (Repeats.ofAsks h hq).bind
  rintro x _ s' hready hlater ⟨rfl, hx⟩
  exact hf x s' hready hlater.grows hx

theorem run_table_bind {σ : Type} {t : σ} (f : σ → Sweep σ β) :
    ((Sweep.table >>= f).run.run t).run s = ((f t).run.run t).run s := rfl

/-- What is read from the table has to stay while entries are added. -/
theorem Repeats.table {f : Facts .axis Domain → Sweep (Facts .axis Domain) β}
    (h : Repeats V D (f t) t s S) (hf : ∀ t', t.Subset t' → f t' = f t) :
    Repeats V D (Sweep.table >>= f) t s S := by
  intro y t' s' hrun
  obtain ⟨hready, hlater, hy, hidles⟩ := h y t' s' hrun
  refine ⟨hready, hlater, hy, fun t'' s'' hlater' => ?_⟩
  have hagain := hidles t'' s'' hlater'
  rw [← hf t'' (hlater.trans hlater').keeps] at hagain
  exact hagain

/-- An entry that has to be there is there later. -/
theorem Repeats.required {f : Option Domain → Sweep (Facts .axis Domain) β} {pass : Pass}
    {role : Role} {key : AxisId}
    (h : ∀ d, t[key]? = some d → Repeats V D (f (some d)) t s S) :
    Repeats V D (Sweep.table >>= fun facts => Sweep.require false pass role facts key >>= f)
      t s S := by
  cases hd : t[key]? with
  | some d =>
      have hfound : ∀ t' : Facts .axis Domain, t.Subset t' →
          Sweep.require false pass role t' key >>= f = f (some d) := by
        intro t' hsub
        rw [require_eq (hsub key d hd), pure_bind]
      apply Repeats.table
      · rw [hfound t fun _ _ => id]
        exact h d hd
      · intro t' hsub
        rw [hfound t' hsub, hfound t fun _ _ => id]
  | none =>
      intro y t' s' hrun
      change ((Sweep.require false pass role t key >>= f).run.run t).run s = _ at hrun
      rw [Sweep.require, if_neg Bool.false_ne_true, Sweep.fetch, hd] at hrun
      cases hrun

theorem forM_repeats {body : β → Sweep (Facts .axis Domain) Unit} {xs : List β}
    (h : Ready V D t s)
    (hbody : ∀ x ∈ xs, ∀ t' s', Ready V D t' s' → Later V t s t' s' →
      Repeats V D (body x) t' s' fun _ _ _ => True) :
    Repeats V D (xs.forM body) t s fun _ _ _ => True := by
  induction xs generalizing t s with
  | nil => exact .pure h trivial
  | cons x xs ih =>
      apply (hbody x List.mem_cons_self t s h (.refl h.truthful t)).bind
      intro _ t₁ s₁ h₁ hlater₁ _
      apply ih h₁
      intro y hy t' s' h' hlater'
      exact hbody y (List.mem_cons_of_mem x hy) t' s' h' (hlater₁.trans hlater')

end Rules

/-! ## Entering domains -/

section Domains

variable {key : AxisId} {d : Domain} {extent : ExprId}

/-- A domain that was entered is entered again. -/
theorem setDomain_idles (hentry : t[key]? = some d) (h : s.Truthful) :
    Idles (setDomain key d) () t s := by
  have hself : (agrees d d : Sweep (Facts .axis Domain) Bool) = pure true := by
    rw [agrees, if_pos rfl]
  refine ⟨s.analyzer, ?_, rfl, h⟩
  unfold setDomain
  rw [run_table_bind, hentry]
  dsimp only
  rw [hself]
  rfl

/-- The first domain of an axis is entered, and the analyzer learns it. -/
theorem run_setDomain_of_none (hentry : t[key]? = none) :
    ((setDomain key d).run.run t).run s =
      ((.ok (), t.insert key d), ⟨s.ctx, s.analyzer.learn (s.ctx.axisVar key) d⟩) := by
  unfold setDomain
  rw [run_table_bind, hentry]
  rfl

theorem setDomain_repeats (h : Ready V D t s) (hkey : s.ctx.axisVar key ∈ V)
    (hd : s.ctx.OverDomain (.limited (· ∉ V) D) d) :
    Repeats V D (setDomain key d) t s fun _ _ _ => True := by
  cases hentry : t[key]? with
  | some existing =>
      unfold setDomain
      apply Repeats.table
      · rw [hentry]
        apply Repeats.ask h (agrees_asks h.apart (h.entries key existing hentry) hd)
        intro same s₁ h₁ _ _
        split
        · intro _ _ _ hthrown
          cases hthrown
        · exact .pure h₁ trivial
      · intro t' hsub
        rw [hentry, hsub key existing hentry]
  | none =>
      have hagrees : Facts.AgreesOff s.analyzer.bindings V
          (s.analyzer.learn (s.ctx.axisVar key) d).bindings := .insert hkey d
      have htrue := Session.truthful_learn h.truthful.supports ⟨hd.1.stored, hd.2.stored⟩
        (s.ctx.axisVar key)
      have hsub : t.Subset (t.insert key d) := fun a c hc =>
        Handle.getElem?_insert_of_notMem (fun hmem => by simp_all) hc
      intro x t' s' hx
      cases (run_setDomain_of_none hentry).symm.trans hx
      refine ⟨⟨htrue, h.apart.agree hagrees htrue.supports, fun a c hc => ?_⟩,
        ⟨hsub, .refl _, hagrees, htrue⟩, trivial, fun t'' s'' hlater => ?_⟩
      · rcases Handle.getElem?_insert_eq_some.1 hc with ⟨rfl, rfl⟩ | ⟨-, hc⟩
        exacts [hd, h.entries a c hc]
      · exact setDomain_idles (hlater.keeps key d Std.TreeMap.getElem?_insert_self) hlater.truthful

/-- The domain `[0, extent)` is entered. -/
theorem enterExtent_repeats (h : Ready V D t s) (hkey : s.ctx.axisVar key ∈ V)
    (hextent : s.ctx.Over (.limited (· ∉ V) D) extent) :
    Repeats V D (do setDomain key (← Domain.ofExtent extent)) t s fun _ _ _ => True := by
  apply Repeats.ask h (.ofBuild (Domain.ofExtent_repeats hextent))
  intro d s₁ h₁ hg₁ hd
  exact setDomain_repeats h₁ (hg₁.axisVar_eq key ▸ hkey) hd

/-- A split enters the domain of the part that is given and then that of the other part. -/
theorem partDomains_repeats {first second : AxisId} {whole size : ExprId} (h : Ready V D t s)
    (hfirst : s.ctx.axisVar first ∈ V) (hsecond : s.ctx.axisVar second ∈ V)
    (hwhole : s.ctx.Over (.limited (· ∉ V) D) whole)
    (hsize : s.ctx.Over (.limited (· ∉ V) D) size) :
    Repeats V D (do
      setDomain first (← Domain.ofExtent size)
      let count ← ceilDiv whole size
      setDomain second (← Domain.ofExtent count)) t s fun _ _ _ => True := by
  rw [← bind_assoc]
  apply (enterExtent_repeats h hfirst hsize).bind
  intro _ t₁ s₁ h₁ hlater₁ _
  apply Repeats.ask h₁
    (ceilDiv_asks h₁.apart (hwhole.mono hlater₁.grows.le) (hsize.mono hlater₁.grows.le))
  intro count s₂ h₂ hg₂ hcount
  apply enterExtent_repeats h₂ _ hcount
  rw [(hlater₁.grows.trans hg₂).axisVar_eq]
  exact hsecond

end Domains

end Sweep

/-! ## Relations -/

namespace AxisRelation

/-- The axes whose domains a sweep finds from a relation. -/
def entered : AxisRelation → List AxisId
  | .reshape (.split _ outer inner _) => [outer, inner]
  | .reshape (.fuse _ _ fused) => [fused]
  | .rebase _ rebased => [rebased]
  | .singleton a => [a]

/-- The factor that a relation splits by. -/
def factor? : AxisRelation → Option ExprId
  | .reshape (.split _ _ _ size) => some size.extent
  | .reshape (.fuse ..) | .rebase .. | .singleton _ => none

end AxisRelation

namespace Sweep

variable {V : Set VarId} {D : FunId → Prop} {t t' : Facts .axis Domain} {s s' : Session}

theorem relationDomains_repeats {r : AxisRelation} (h : Ready V D t s)
    (hentered : ∀ a ∈ r.entered, s.ctx.axisVar a ∈ V)
    (hfactor : ∀ e ∈ r.factor?, s.ctx.Over (.limited (· ∉ V) D) e) :
    Repeats V D (relationDomains false r) t s fun _ _ _ => True := by
  cases r with
  | reshape r =>
      cases r with
      | split parent outer inner size =>
          apply Repeats.required
          intro whole hwhole
          have hwhole := (h.entries parent whole hwhole).2
          have hsize := hfactor size.extent rfl
          have houter := hentered outer (by simp [AxisRelation.entered])
          have hinner := hentered inner (by simp [AxisRelation.entered])
          cases size with
          | factor extent => exact partDomains_repeats h hinner houter hwhole hsize
          | parts extent => exact partDomains_repeats h houter hinner hwhole hsize
      | fuse outer inner fused =>
          apply Repeats.required
          intro first hfirst
          apply Repeats.required
          intro second hsecond
          have hfirst := (h.entries outer first hfirst).2
          have hsecond := (h.entries inner second hsecond).2
          apply Repeats.ask h (.ofBuild (Build.arith_repeats .mul hfirst hsecond))
          intro product s₁ h₁ hg₁ hproduct
          apply Repeats.ask h₁ (.ofQuery (Query.simplify_repeats h₁.apart hproduct))
          intro extent s₂ h₂ hg₂ hextent
          apply enterExtent_repeats h₂ _ hextent
          rw [(hg₁.trans hg₂).axisVar_eq]
          exact hentered fused (by simp [AxisRelation.entered])
  | rebase parent rebased =>
      apply Repeats.required
      intro whole hwhole
      exact enterExtent_repeats h (hentered rebased (by simp [AxisRelation.entered]))
        (h.entries parent whole hwhole).2
  | singleton a =>
      apply Repeats.ask h (.ofBuild (Domain.literal_repeats s.ctx (.limited (· ∉ V) D) 0 1))
      intro one s₁ h₁ hg₁ hone
      apply setDomain_repeats h₁ _ hone
      rw [hg₁.axisVar_eq]
      exact hentered a (by simp [AxisRelation.entered])

theorem threadDomain_repeats {a thread : AxisId} (h : Ready V D t s)
    (hthread : s.ctx.axisVar thread ∈ V) :
    Repeats V D (threadDomain false a thread) t s fun _ _ _ => True := by
  apply Repeats.required
  intro d hd
  exact setDomain_repeats h hthread (h.entries a d hd)

end Sweep

/-! ## The sweep -/

/-- The axes whose domains a sweep finds. -/
def LoopNest.entered (nest : LoopNest) : List AxisId :=
  nest.relations.flatMap AxisRelation.entered ++ nest.threads.toList.map Prod.snd

namespace Sweep

variable {V : Set VarId} {D : FunId → Prop} {t : Facts .axis Domain} {s : Session}

theorem domains_repeats {nest : LoopNest} (h : Ready V D t s)
    (hentered : ∀ a ∈ nest.entered, s.ctx.axisVar a ∈ V)
    (hfactors : ∀ r ∈ nest.relations, ∀ e ∈ r.factor?, s.ctx.Over (.limited (· ∉ V) D) e) :
    Repeats V D (domains nest false) t s fun _ _ _ => True := by
  have hrelations : Repeats V D (nest.relations.forM (relationDomains false)) t s
      fun _ _ _ => True := by
    apply forM_repeats h
    intro r hr t' s' h' hlater
    apply relationDomains_repeats h'
    · intro a ha
      rw [hlater.grows.axisVar_eq]
      exact hentered a (List.mem_append_left _ (List.mem_flatMap.2 ⟨r, hr, ha⟩))
    · exact fun e he => (hfactors r hr e he).mono hlater.grows.le
  apply hrelations.bind
  intro _ t₁ s₁ h₁ hlater₁ _
  apply forM_repeats h₁
  rintro ⟨a, thread⟩ hmem t' s' h' hlater
  apply threadDomain_repeats h'
  rw [(hlater₁.grows.trans hlater.grows).axisVar_eq]
  exact hentered thread (List.mem_append_right _ (List.mem_map_of_mem hmem))

end Sweep

/-- The functions that are called were declared, so they are the functions to follow. -/
theorem Context.Over.limited {ctx : Context} {p : VarId → Prop} {e : ExprId}
    (h : ctx.Over (.mentions p) e)
    (hdeclared : ∀ e f args dims, ctx.node e = .call f args dims → ctx.Declared f) :
    ctx.Over (.limited p ctx.Declared) e := by
  rw [Context.over_iff_each] at h ⊢
  exact ⟨h.1, fun c hc => ⟨h.2 c hc, fun f args dims hn => hdeclared c f args dims hn⟩⟩

theorem Context.WellFormed.calls {ctx : Context} (h : ctx.WellFormed)
    (hdeclared : ∀ e f args dims, ctx.node e = .call f args dims → ctx.Declared f) :
    ctx.Calls ctx.Declared :=
  ⟨h, fun _ => id, fun _ _ _ _ c _ => hdeclared c⟩

/-- No range that a sweep may read mentions a variable of `V`, and the loop variables of the axes
whose domains it finds are among these. -/
structure LoopNest.Separate (nest : LoopNest) (V : Set VarId) (start : Facts .axis Domain)
    (s : Session) : Prop where
  entered : ∀ a ∈ nest.entered, s.ctx.axisVar a ∈ V
  declared : ∀ e f args dims, s.ctx.node e = .call f args dims → s.ctx.Declared f
  start : ∀ (a : AxisId) d, start[a]? = some d → s.ctx.OverDomain (.mentions (· ∉ V)) d
  factors : ∀ r ∈ nest.relations, ∀ e ∈ r.factor?, s.ctx.Over (.mentions (· ∉ V)) e
  bindings : ∀ (v : VarId) d, s.analyzer.bindings[v]? = some d →
    s.ctx.OverDomain (.mentions (· ∉ V)) d
  codomains : ∀ f d, (s.ctx.fn f).codomain? = some d → s.ctx.OverDomain (.mentions (· ∉ V)) d

namespace LoopNest.Separate

variable {nest : LoopNest} {V : Set VarId} {start : Facts .axis Domain} {s : Session}

theorem over_limited (h : nest.Separate V start s) {e : ExprId}
    (he : s.ctx.Over (.mentions (· ∉ V)) e) : s.ctx.Over (.limited (· ∉ V) s.ctx.Declared) e :=
  he.limited h.declared

theorem ready (h : nest.Separate V start s) (htrue : s.Truthful) :
    Sweep.Ready V s.ctx.Declared start s := by
  have hdomain : ∀ {d}, s.ctx.OverDomain (.mentions (· ∉ V)) d →
      s.ctx.OverDomain (.limited (· ∉ V) s.ctx.Declared) d := fun hd =>
    ⟨h.over_limited hd.1, h.over_limited hd.2⟩
  have hcalls := htrue.supports.wellFormed.calls h.declared
  exact ⟨htrue, ⟨hcalls, htrue.supports, fun v d _ hd => hdomain (h.bindings v d hd),
    fun f d _ hd => hdomain (h.codomains f d hd)⟩, fun a d hd => hdomain (h.start a d hd)⟩

end LoopNest.Separate

namespace Sweep

/-- Finding the domains again changes none of them, and it stores nothing and learns nothing. -/
theorem domains_idempotent {nest : LoopNest} {V : Set VarId} {start known : Facts .axis Domain}
    {s s' : Session} (h : nest.Separate V start s) (htrue : s.Truthful)
    (hrun : ((domains nest false).run.run start).run s = ((.ok (), known), s')) :
    ∃ an, ((domains nest false).run.run known).run s' = ((.ok (), known), ⟨s'.ctx, an⟩) ∧
      an.bindings = s'.analyzer.bindings := by
  have hrepeats := domains_repeats (h.ready htrue) h.entered
    fun r hr e he => h.over_limited (h.factors r hr e he)
  obtain ⟨hready, -, -, hidles⟩ := hrepeats () known s' hrun
  obtain ⟨an, hagain, hknown, -⟩ := hidles known s' (.refl hready.truthful known)
  exact ⟨an, hagain, hknown⟩

end Sweep

/-- A nest, what is known of some of its axes, and a session. -/
structure NestSample where
  nest : LoopNest
  start : Facts .axis Domain
  session : Session

namespace NestSample

open Sweep (domains)

/-- The table that a program fills is what is known at the start. -/
def of (program : Sweep (Facts .axis Domain) LoopNest) : NestSample :=
  let r := (program.run.run {}).run default
  ⟨r.1.1.toOption.getD default, r.1.2, r.2⟩

/-- The same with an analyzer that knows nothing yet. -/
def fresh (sample : NestSample) : NestSample :=
  { sample with session := ⟨sample.session.ctx, {}⟩ }

/-- The domains that are found, and the session after that. -/
def outcome (sample : NestSample) : Facts .axis Domain × Session :=
  (domains sample.nest false).outcome sample.start sample.session

/-- The variables of all axes of the nest and of its threads. -/
def loopVars (sample : NestSample) : List VarId :=
  (sample.nest.axes ++ sample.nest.threads.toList.map Prod.snd).map sample.session.ctx.axisVar

/-- The expressions are stored and mention no loop variable. -/
def Avoids (sample : NestSample) (es : List ExprId) : Prop :=
  ∀ e ∈ es, sample.session.ctx.Stored e ∧
    ∀ v ∈ sample.session.ctx.freeVars e, v ∉ sample.loopVars

instance (sample : NestSample) (es : List ExprId) : Decidable (sample.Avoids es) :=
  inferInstanceAs (Decidable (∀ e ∈ es, _ ∧ _))

variable {sample : NestSample}

theorem separate
    (hentered : ∀ a ∈ sample.nest.entered, sample.session.ctx.axisVar a ∈ sample.loopVars)
    (hdeclared : ∀ i < sample.session.ctx.funs.size, sample.session.ctx.Declared ⟨i⟩)
    (hstart : ∀ p ∈ sample.start.toList, sample.Avoids [p.2.min, p.2.extent])
    (hfactors : ∀ r ∈ sample.nest.relations, sample.Avoids r.factor?.toList)
    (hbindings : ∀ p ∈ sample.session.analyzer.bindings.toList,
      sample.Avoids [p.2.min, p.2.extent])
    (hcodomains : ∀ i < sample.session.ctx.funs.size,
      ∀ d ∈ (sample.session.ctx.fn ⟨i⟩).codomain?, sample.Avoids [d.min, d.extent]) :
    sample.nest.Separate {v | v ∈ sample.loopVars} sample.start sample.session := by
  have hdomain : ∀ {d : Domain}, sample.Avoids [d.min, d.extent] →
      sample.session.ctx.OverDomain (.mentions (· ∉ {v | v ∈ sample.loopVars})) d := fun hd =>
    ⟨Context.over_mentions.2 (hd _ (by simp)), Context.over_mentions.2 (hd _ (by simp))⟩
  refine ⟨hentered, fun _ f _ _ _ => ?_, fun a d hd => ?_, fun r hr e he => ?_,
    fun v d hd => ?_, fun f => ?_⟩
  · exact Context.forall_fn hdeclared (fun _ => Context.declared_of_default) f
  · exact hdomain (hstart (a, d) (Std.TreeMap.mem_toList_iff_getElem?_eq_some.2 hd))
  · exact Context.over_mentions.2 (hfactors r hr e (Option.mem_toList.2 he))
  · exact hdomain (hbindings (v, d) (Std.TreeMap.mem_toList_iff_getElem?_eq_some.2 hd))
  · refine @Context.forall_fn sample.session.ctx (fun f => ∀ d,
      (sample.session.ctx.fn f).codomain? = some d → sample.session.ctx.OverDomain _ d)
      (fun i hi d hd => hdomain (hcodomains i hi d hd)) (fun f hf d hd => ?_) f
    rw [hf] at hd
    cases hd

/-- An axis is split into rows of four.  The extent of a row is known already, as a call that gives
four, and the rows run on the same thread as another axis of four points. -/
def seeded : NestSample := fresh <| of do
  let n ← Build.var (← declareVar "n" .int32)
  let p ← declareVar "p" .int32
  let d ← declareDim "d" .uniform
  let f ← Attempt.declareFun "f" none [d] [p] (some (← Build.var p))
  let four ← Build.int 4
  let whole ← Domain.ofExtent n
  let row ← Domain.ofExtent four
  let called ← Domain.ofExtent (← Attempt.call f [four] [d])
  let i ← declareAxis "i" (some whole) .dataParallel
  let j ← declareAxis "j" (some row) .dataParallel
  let thread ← declareThread "threadIdx.x"
  let split ← ((LoopNest.ofRoots "seeded" [i, j]).split i (.factor four)).run
  let (nest, _, inner) ← (split : Except InferError _)
  let bound ← (do (← nest.bind inner thread).bind j thread : Schedule LoopNest).run
  let nest ← (bound : Except InferError _)
  Sweep.changeTable fun known => ((known.insert i whole).insert j row).insert inner called
  return nest

/-- The second run compares the call with four again, and the thread is shared as before. -/
theorem domains_idempotent_seeded :
    (domains seeded.nest false).succeeds seeded.start seeded.session = true ∧
      seeded.outcome.1.toList.length = 5 ∧
      ∃ an, ((domains seeded.nest false).run.run seeded.outcome.1).run seeded.outcome.2 =
          ((.ok (), seeded.outcome.1), ⟨seeded.outcome.2.ctx, an⟩) ∧
        an.bindings = seeded.outcome.2.analyzer.bindings := by
  have hsucceeds : (domains seeded.nest false).succeeds seeded.start seeded.session = true := by
    decide +kernel
  have hsupports : seeded.session.ctx.Supports seeded.session.analyzer.bindings :=
    ⟨by decide +kernel, fun v d hd => by simp [seeded, fresh] at hd⟩
  refine ⟨hsucceeds, by decide +kernel, ?_⟩
  apply Sweep.domains_idempotent _ _ (Sweep.run_eq_of_succeeds hsucceeds)
  · exact {v | v ∈ seeded.loopVars}
  · apply separate <;> decide +kernel
  · exact Session.truthful_of_forgotten hsupports (.inr ⟨rfl, rfl, rfl⟩)

/-- Two axes are fused after their product was simplified, to zero, and then the codomain of the
function in it was replaced. -/
def stale : NestSample := of do
  let n ← Build.var (← declareVar "n" .int32)
  let m ← Build.var (← declareVar "m" .int32)
  let p ← declareVar "p" .int32
  let d ← declareDim "d" .uniform
  let f ← Attempt.declareFun "f" (some (← Domain.literal 0 1)) [d] [p] none
  let rows ← Attempt.floorDiv (← Attempt.call f [n] [d]) (← Build.int 4)
  let _ ← Query.simplify (← Build.mul rows m)
  Build.setCodomain f (← Domain.literal 0 100)
  let outer ← Domain.ofExtent rows
  let inner ← Domain.ofExtent m
  let i ← declareAxis "i" (some outer) .dataParallel
  let j ← declareAxis "j" (some inner) .dataParallel
  let fused ← ((LoopNest.ofRoots "stale" [i, j]).fuse i j).run
  let (nest, _) ← (fused : Except InferError _)
  Sweep.changeTable fun known => (known.insert i outer).insert j inner
  return nest

/-- An analyzer that keeps an answer from before a codomain was replaced gives it in the first run.
Then it learns a domain, forgets the answer and finds another one, so the second run fails. -/
theorem domains_stale_twice :
    stale.session.ctx.WellFormed ∧
      stale.nest.Separate {v | v ∈ stale.loopVars} stale.start stale.session ∧
      (domains stale.nest false).succeeds stale.start stale.session = true ∧
      (domains stale.nest false).succeeds stale.outcome.1 stale.outcome.2 = false := by
  refine ⟨by decide +kernel, ?_, by decide +kernel, by decide +kernel⟩
  apply separate <;> decide +kernel

end NestSample

end LoopBounds
