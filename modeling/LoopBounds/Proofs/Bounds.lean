import LoopBounds.Inference.Bounds
import LoopBounds.Proofs.Guards
import LoopBounds.Proofs.Indices

/-!
# Runs of inference

Inference learns the domains of the roots, finds those of all axes, seeds the indices with the
loops, finds those of all axes, and makes guards with an analyzer of its own.  What is known of
each of these holds of a run as a whole.
-/

namespace LoopBounds

/-- The steps of an inference that does not fail. -/
structure InferenceRun (config : Config) (nest : LoopNest) (roots : Facts .axis Domain)
    (ctx : Context) (bounds : NestBounds) (ctx' : Context) where
  learned : Session
  found : Session
  start : Facts .axis ExprId
  seeded : Session
  indexed : Session
  checks : Sweep.Checks
  judged : Session
  learn : (roots.toList.forM fun (a, domain) => do
    Query.learn ((← Query.context).axisVar a) domain : ExceptT InferError Query Unit).run.run
      ⟨ctx, config.analyzer⟩ = (.ok (), learned)
  domains : ((Sweep.domains nest config.allowMissing).run.run roots).run learned =
    ((.ok (), bounds.domains), found)
  seed : (nest.leaves.foldlM (fun values leaf => do
    return values.insert leaf (← leafValue bounds.domains leaf)) {} :
      ExceptT InferError Query (Facts .axis ExprId)).run.run found = (.ok start, seeded)
  indices : ((Sweep.indicesUp nest bounds.domains config.allowMissing).run.run start).run seeded =
    ((.ok (), bounds.values), indexed)
  guards : ((Sweep.guardsOver config nest bounds.domains bounds.values).run.run
    (nest.leaves.foldl (fun checks a => checks.insert a false) {})).run
      ⟨indexed.ctx, config.analyzer⟩ = ((.ok bounds.guards, checks), judged)
  final : judged.ctx = ctx'

section

variable {α β : Type} {m : ExceptT InferError Query α} {f : α → ExceptT InferError Query β}
  {s s' : Session} {y : β}

theorem exists_of_bind (h : (m >>= f).run.run s = (.ok y, s')) :
    ∃ x s₁, m.run.run s = (.ok x, s₁) ∧ (f x).run.run s₁ = (.ok y, s') := by
  rcases hfirst : m.run.run s with ⟨r, s₁⟩
  simp only [ExceptT.run_bind, StateT.run_bind, hfirst] at h
  cases r with
  | error e => cases h
  | ok x => exact ⟨x, s₁, rfl, h⟩

theorem exists_of_runFrom {σ : Type} {sweep : Sweep σ Unit} {t t' : σ}
    (h : (sweep.runFrom t).run.run s = (.ok t', s')) :
    (sweep.run.run t).run s = ((.ok (), t'), s') := by
  rcases hfirst : (sweep.run.run t).run s with ⟨⟨r, t₁⟩, s₁⟩
  change StateT.run (do
    let p ← (sweep.run.run t : Query _)
    return p.1.map fun _ => p.2) s = _ at h
  rw [StateT.run_bind, hfirst] at h
  cases r with
  | error e => cases h
  | ok _ => cases h; rfl

end

/-- An inference that does not fail goes through its steps. -/
theorem exists_run {config : Config} {nest : LoopNest} {roots : Facts .axis Domain}
    {ctx ctx' : Context} {bounds : NestBounds}
    (h : (inferBoundsFrom config nest roots).run.run ctx = (.ok bounds, ctx')) :
    Nonempty (InferenceRun config nest roots ctx bounds ctx') := by
  suffices key : Schedule.Ensures (inferBoundsFrom config nest roots) ctx fun bounds ctx' =>
      Nonempty (InferenceRun config nest roots ctx bounds ctx') from key _ _ h
  refine Schedule.Ensures.bind (Q := fun p ctx₁ => ∃ s,
    (domainsAndValues config nest roots).run.run ⟨ctx, config.analyzer⟩ = (.ok p, s) ∧
      s.ctx = ctx₁) ?_ ?_
  · rintro p ctx₁ hrun
    rcases hq : (domainsAndValues config nest roots).run.run ⟨ctx, config.analyzer⟩ with ⟨r, s⟩
    have hrun' : (r, s.ctx) = (.ok p, ctx₁) := by
      rw [← hrun]
      change _ = Query.runWith config.analyzer (domainsAndValues config nest roots).run ctx
      rw [Query.runWith]
      exact (congrArg (fun x : _ × Session => (x.1, x.2.ctx)) hq).symm
    cases hrun'
    exact ⟨s, rfl, rfl⟩
  rintro ⟨known, values⟩ ctx₁ ⟨s₄, hrun, rfl⟩
  obtain ⟨_, learned, hlearn, hrun⟩ := exists_of_bind hrun
  obtain ⟨known', found, hdomains, hrun⟩ := exists_of_bind hrun
  obtain ⟨start, seeded, hseed, hrun⟩ := exists_of_bind hrun
  obtain ⟨values', indexed, hindices, hrun⟩ := exists_of_bind hrun
  cases hrun
  refine Schedule.Ensures.bind (Q := fun gs ctx₂ => ∃ checks s,
    ((Sweep.guardsOver config nest known values).run.run
      (nest.leaves.foldl (fun checks a => checks.insert a false) {})).run
        ⟨s₄.ctx, config.analyzer⟩ = ((.ok gs, checks), s) ∧ s.ctx = ctx₂) ?_ ?_
  · rintro gs ctx₂ hrun
    rcases hq : ((Sweep.guardsOver config nest known values).run.run
      (nest.leaves.foldl (fun checks a => checks.insert a false) {})).run
        ⟨s₄.ctx, config.analyzer⟩ with ⟨⟨r, checks⟩, s⟩
    have hrun' : (r, s.ctx) = (.ok gs, ctx₂) := by
      rw [← hrun]
      exact (congrArg (fun x : (_ × Sweep.Checks) × Session => (x.1.1, x.2.ctx)) hq).symm
    cases hrun'
    exact ⟨checks, s, rfl, rfl⟩
  rintro gs _ ⟨checks, judged, hguards, rfl⟩
  refine .pure ⟨⟨learned, found, start, seeded, _, checks, judged, hlearn,
    exists_of_runFrom hdomains, hseed, exists_of_runFrom hindices, hguards, rfl⟩⟩

/-! ## Learning and seeding -/

theorem learnDomains {entries : List (AxisId × Domain)} {s s' : Session} (hs : s.Valid)
    (hstored : ∀ p ∈ entries, s.ctx.StoredDomain p.2)
    (hrun : (entries.forM fun (a, domain) => do
      Query.learn ((← Query.context).axisVar a) domain : ExceptT InferError Query Unit).run.run s =
        (.ok (), s')) :
    s'.Valid ∧ s'.ctx = s.ctx ∧ ∀ v d, s'.domains v = some d →
      (∃ p ∈ entries, v = s.ctx.axisVar p.1) ∨ s.domains v = some d := by
  induction entries generalizing s with
  | nil =>
      cases hrun
      exact ⟨hs, rfl, fun _ _ => .inr⟩
  | cons entry entries ih =>
      obtain ⟨a, d⟩ := entry
      obtain ⟨_, s₁, hfirst, hrest⟩ := exists_of_bind hrun
      have hs₁ : s₁ = ((Query.learn (s.ctx.axisVar a) d).run s).2 := by
        cases hfirst
        rfl
      have hctx₁ : s₁.ctx = s.ctx := by
        rw [hs₁]
        rfl
      have hd := hstored (a, d) List.mem_cons_self
      obtain ⟨hs', hctx, hdomains⟩ := ih (hs₁ ▸ hs.learn _ hd)
        (fun p hp => hctx₁ ▸ hstored p (List.mem_cons_of_mem _ hp)) hrest
      refine ⟨hs', hctx.trans hctx₁, fun v e he => ?_⟩
      rcases hdomains v e he with ⟨p, hp, hv⟩ | hold
      · exact .inl ⟨p, List.mem_cons_of_mem _ hp, hctx₁ ▸ hv⟩
      · rw [hs₁, Session.domains_learn] at hold
        split at hold
        · next hv => exact .inl ⟨_, List.mem_cons_self, hv⟩
        · exact .inr hold

theorem leafValue_ensures {sure : Prop} {env : Env Int} {known : Facts .axis Domain}
    {leaf : AxisId} {d : Domain} {ctx : Context} {m : Int} (hd : known[leaf]? = some d)
    (hmin : (Reading.exact sure env).holds ctx d.min m) :
    Build.Ensures (leafValue known leaf) ctx fun r ctx' =>
      ∀ y, env (ctx.axisVar leaf) = some y → (Reading.exact sure env).holds ctx' r (y + m) := by
  refine (Build.axis_denotes ctx (K := .callFree) (i := leaf) nofun).bind
    fun var ctx₁ hg₁ hvar => ?_
  rw [hd]
  refine (Build.offset_denotes hvar.nodes (hmin.1.mono hg₁.le)).mono fun r ctx₂ hg₂ hr y hy => ?_
  refine ⟨hr.nodes, fun hsure => hr.value ⟨ctx₂, 0, env⟩ le_rfl _ ⟨y, m, ?_, ?_, rfl⟩⟩
  · exact hvar.value ⟨ctx₂, 0, env⟩ hg₂.le y hy
  · exact (hmin.1.value_eq (hg₁.trans hg₂).le 0 0 env).trans (hmin.2 hsure)

/-- The loops are read as the point has them. -/
theorem seeds {R : Reading} {A : Set AxisId} {x : AxisId → Int} {known : Facts .axis Domain}
    {leaves : List AxisId} {t t' : Facts .axis ExprId} {s s' : Session} (hwf : s.ctx.WellFormed)
    (hleaf : ∀ a ∈ leaves, ∀ ctx, s.ctx.Grows ctx → Build.Ensures (leafValue known a) ctx
      fun r ctx' => a ∈ A → R.holds ctx' r (x a))
    (ht : R.Reads A x t s.ctx)
    (hrun : (leaves.foldlM (fun values leaf => do
      return values.insert leaf (← leafValue known leaf)) t :
        ExceptT InferError Query (Facts .axis ExprId)).run.run s = (.ok t', s')) :
    s'.analyzer = s.analyzer ∧ s.ctx.Grows s'.ctx ∧ R.Reads A x t' s'.ctx ∧
      ∀ a, a ∈ t' ↔ a ∈ leaves ∨ a ∈ t := by
  induction leaves generalizing s t with
  | nil =>
      cases hrun
      exact ⟨rfl, .refl _, ht, by simp⟩
  | cons leaf leaves ih =>
      rw [List.foldlM_cons] at hrun
      obtain ⟨t₁, s₁, hfirst, hrest⟩ := exists_of_bind hrun
      obtain ⟨hg₁, hvalue⟩ := hleaf leaf List.mem_cons_self s.ctx (.refl _)
      have ht₁ : t₁ = t.insert leaf ((leafValue known leaf).run s.ctx).1 ∧
          s₁ = ⟨((leafValue known leaf).run s.ctx).2, s.analyzer⟩ := by
        cases hfirst
        exact ⟨rfl, rfl⟩
      obtain ⟨rfl, rfl⟩ := ht₁
      have hreads : R.Reads A x (t.insert leaf ((leafValue known leaf).run s.ctx).1)
          ((leafValue known leaf).run s.ctx).2 := by
        intro a ha e he
        rcases Handle.getElem?_insert_eq_some.1 he with ⟨rfl, rfl⟩ | ⟨-, he⟩
        exacts [hvalue ha, R.grows hwf hg₁ (ht a ha e he)]
      obtain ⟨han, hg, hreads', hmem⟩ := ih (hg₁.wellFormed hwf) (fun a ha ctx hg =>
        hleaf a (List.mem_cons_of_mem _ ha) ctx (hg₁.trans hg)) hreads hrest
      refine ⟨han, hg₁.trans hg, hreads', fun a => ?_⟩
      rw [hmem, Std.TreeMap.mem_insert, Std.compare_eq_iff_eq, List.mem_cons, eq_comm (a := leaf)]
      tauto

/-! ## Domains of a run -/

/-- At the sizes that an assignment gives, the roots and the parts of a nest are not empty.  The
assignment gives no value to variables that run over axes. -/
structure LoopNest.Sized (nest : LoopNest) (ctx : Context) (ν : Valuation)
    (roots : Facts .axis Domain) (b : Box) : Prop where
  scheduled : Scheduled ctx nest
  threads : ∀ p ∈ nest.threads.toList, p.2.index < ctx.axes.size
  free : ∀ a : AxisId, a.index < ctx.axes.size → ν.env (ctx.axisVar a) = none
  mem_roots : ∀ a, a ∈ roots ↔ a ∈ nest.roots
  measures : b.Measures ν roots ctx
  sizes : ∀ r ∈ nest.relations, ∀ e ∈ r.exprs,
    ∃ n, 0 < n ∧ ctx.Denotes .callFree e (ν.Only n)

namespace InferenceRun

variable {nest : LoopNest} {roots : Facts .axis Domain} {ctx ctx' : Context} {bounds : NestBounds}
  {ν : Valuation} {b b₀ : Box}

/-- What is known of the domains that a run finds. -/
structure Found (run : InferenceRun {} nest roots ctx bounds ctx') (ν : Valuation) (b₀ b : Box) :
    Prop where
  valid : run.found.Valid
  grows : ctx.Grows run.found.ctx
  agrees : b₀.Agrees b roots
  measures : b.Measures ν bounds.domains run.found.ctx
  covers : nest.Covers b
  subset : roots.Subset bounds.domains
  mem : ∀ a ∈ nest.axes, a ∈ bounds.domains
  registered : ∀ a ∈ bounds.domains, a.index < ctx.axes.size

theorem exists_found (run : InferenceRun {} nest roots ctx bounds ctx')
    (h : nest.Sized ctx ν roots b₀) (hkeeps : ν.Keeps) (hdepth : ν.depth = 0) :
    ∃ b, run.Found ν b₀ b := by
  have hshaped := h.scheduled.shaped
  have hstored : ∀ p ∈ roots.toList, ctx.StoredDomain p.2 := by
    rintro ⟨a, d⟩ hp
    have hd := Std.TreeMap.mem_toList_iff_getElem?_eq_some.1 hp
    exact ⟨(h.measures.min a d hd).stored, (h.measures.extent a d hd).stored⟩
  obtain ⟨hvalid, hctx, hdomains⟩ :=
    learnDomains (.start hshaped.wellFormed true) hstored run.learn
  change run.learned.ctx = ctx at hctx
  let V : Set VarId := {v | ∃ a : AxisId, a.index < ctx.axes.size ∧ v = ctx.axisVar a}
  have hfree : ∀ v ∈ V, ν.env v = none := by
    rintro _ ⟨a, ha, rfl⟩
    exact h.free a ha
  have hadmits : ν.Admits run.learned.domains := by
    refine hkeeps.admits hdepth fun v d x hd hx => ?_
    rcases hdomains v d hd with ⟨⟨a, e⟩, hp, rfl⟩ | hold
    · have hroot : a ∈ roots := mem_of_get (Std.TreeMap.mem_toList_iff_getElem?_eq_some.1 hp)
      have hreg := hshaped.registered a (hshaped.mem_axes_of_mem_roots ((h.mem_roots a).1 hroot))
      cases (h.free a hreg).symm.trans hx
    · simp [Session.domains] at hold
  have hnest : LoopNest.Scheduled run.learned.ctx nest := hctx.symm ▸ h.scheduled
  obtain ⟨hfound, hg, -, b, hagrees, hb, hcovers, hsubset, hmem, hcases⟩ :=
    Sweep.domains_ensures (V := V) hvalid hnest hadmits hfree
      (fun a ha => ⟨a, hshaped.registered a ha, by rw [hctx]⟩)
      (fun p hp => ⟨p.2, h.threads p hp, by rw [hctx]⟩)
      (fun r hr e he => hctx.symm ▸ h.sizes r hr e he) (fun a ha => (h.mem_roots a).1 ha)
      (hctx.symm ▸ h.measures) () _ _ run.domains
  refine ⟨b, hfound, (congrArg (Context.Grows · run.found.ctx) hctx).mp hg, hagrees, hb, hcovers,
    hsubset, fun a ha => ?_, fun a ha => ?_⟩
  · rw [hshaped.axes_eq, List.mem_append, List.mem_flatMap] at ha
    rcases ha with ha | ⟨r, hr, ha⟩
    · exact hsubset.mem ((h.mem_roots a).2 ha)
    · exact hmem r hr a (List.mem_append_right _ ha)
  · rcases hcases a ha with ha | ⟨p, hp, rfl⟩
    exacts [hshaped.registered a ha, h.threads p hp]

end InferenceRun

/-! ## Points of a run -/

namespace LoopNest

variable {α : Type} {nest : LoopNest} {ctx : Context} {env : Env α} {p : AxisId → α} {a : AxisId}

/-- The assignment in which the loops of the nest are at a point. -/
def loops (nest : LoopNest) (ctx : Context) (env : Env α) (p : AxisId → α) : Env α := fun v =>
  match nest.leaves.find? fun a => ctx.axisVar a = v with
  | some a => some (p a)
  | none => env v

theorem loops_leaf (h : Shaped ctx nest) (ha : a ∈ nest.leaves) :
    nest.loops ctx env p (ctx.axisVar a) = some (p a) := by
  rw [loops]
  split
  · next c hc =>
    have hvar : ctx.axisVar c = ctx.axisVar a := by simpa using List.find?_some hc
    have hreg : ∀ a ∈ nest.leaves, a.index < ctx.axes.size := fun a ha =>
      h.registered a (h.mem_axes_of_mem_leaves ha)
    rw [h.wellFormed.axisVar_inj c a (hreg c (List.mem_of_find?_eq_some hc)) (hreg a ha) hvar]
  · next hnone => simpa using List.find?_eq_none.1 hnone a ha

theorem loops_of_ne {v : VarId} (hv : ∀ a ∈ nest.leaves, ctx.axisVar a ≠ v) :
    nest.loops ctx env p v = env v := by
  rw [loops, List.find?_eq_none.2 (by simpa using hv)]

/-- The same without the loops over domains that do not start at zero.  The analyzer is told the
domain of such a loop, but the loop counts from zero. -/
def loopsFromZero (nest : LoopNest) (ctx : Context) (b : Box) (env : Env Int) (p : AxisId → Int) :
    Env Int := fun v =>
  if ∃ a ∈ nest.leaves, ctx.axisVar a = v ∧ b.min a ≠ 0 then none else nest.loops ctx env p v

theorem loops_exact (env : Env Int64) (p : AxisId → Int64) :
    (nest.loops ctx env p).exact = nest.loops ctx env.exact fun a => (p a).toInt := by
  funext v
  rw [Env.exact, loops, loops]
  split <;> rfl

end LoopNest

namespace InferenceRun

variable {nest : LoopNest} {roots : Facts .axis Domain} {ctx ctx' : Context} {bounds : NestBounds}
  {ν : Valuation} {b b₀ : Box} {x : AxisId → Int} {A : Set AxisId}

/-- Exact values, on the way to the context that is looked at in the end. -/
abbrev reading (run : InferenceRun {} nest roots ctx bounds ctx') (ν : Valuation) (env : Env Int) :
    Reading :=
  .exact (run.found.ctx ≤ ν.ctx) env

theorem Found.spans {run : InferenceRun {} nest roots ctx bounds ctx'} (h : run.Found ν b₀ b)
    (hdepth : ν.depth = 0) {env : Env Int} (henv : ∀ v y, ν.env v = some y → env v = some y)
    {a : AxisId} (ha : a ∈ nest.axes) :
    (run.reading ν env).Spans b bounds.domains run.found.ctx a := by
  have hread : ∀ {e z}, run.found.ctx.Denotes .callFree e (ν.Only z) →
      (run.reading ν env).holds run.found.ctx e z := by
    intro e z he
    refine ⟨he.nodes, fun hctx => ?_⟩
    have hle : ν ≤ ⟨ν.ctx, 0, env⟩ := ⟨rfl, hdepth.le, henv⟩
    exact (he.nodes.value_eq hctx 0 0 env).symm.trans
      (Valuation.value_mono hle (he.value ν hctx z ⟨rfl, rfl⟩))
  have hd := Std.TreeMap.getElem?_eq_some_getElem (h.mem a ha)
  exact ⟨_, hd, hread (h.measures.min a _ hd), hread (h.measures.extent a _ hd)⟩

/-- The indices that a run finds are read as a point has them that the loops are at. -/
theorem Found.reads {run : InferenceRun {} nest roots ctx bounds ctx'} (hfound : run.Found ν b₀ b)
    (hnest : LoopNest.Scheduled ctx nest) (hdepth : ν.depth = 0) {env : Env Int}
    (henv : ∀ v y, ν.env v = some y → env v = some y)
    (hleaf : ∀ a ∈ nest.leaves, a ∈ A → ∃ y, env (ctx.axisVar a) = some y ∧ y + b.min a = x a)
    (hA : ∀ r ∈ nest.relations, ∀ a ∈ r.consumed ++ r.made, a ∈ A) (hsolves : nest.Solves b x) :
    run.found.ctx.Grows run.indexed.ctx ∧
      (run.reading ν env).Reads A x bounds.values run.indexed.ctx ∧
        ∀ a ∈ nest.axes, a ∈ bounds.values := by
  have hshaped := hnest.shaped
  have hwf := hfound.grows.wellFormed hshaped.wellFormed
  have hspans : ∀ a ∈ nest.axes, (run.reading ν env).Spans b bounds.domains run.found.ctx a :=
    fun a ha => hfound.spans hdepth henv ha
  have hseeds : ∀ a ∈ nest.leaves, ∀ ctx₁, run.found.ctx.Grows ctx₁ →
      Build.Ensures (leafValue bounds.domains a) ctx₁ fun r ctx₂ =>
        a ∈ A → (run.reading ν env).holds ctx₂ r (x a) := by
    intro a ha ctx₁ hg₁
    obtain ⟨d, hd, hmin, -⟩ := hspans a (hshaped.mem_axes_of_mem_leaves ha)
    refine (leafValue_ensures hd ((run.reading ν env).grows hwf hg₁ hmin)).mono
      fun r ctx₂ _ hr haA => ?_
    obtain ⟨y, hy, hx⟩ := hleaf a ha haA
    exact hx ▸ hr y ((hfound.grows.trans hg₁).axisVar_eq a ▸ hy)
  obtain ⟨-, hg, hreads, hmem⟩ := seeds hwf hseeds (by simp [Reading.Reads]) run.seed
  have hknown : ∀ r ∈ nest.relations, ∀ a ∈ r.consumed ++ r.made,
      (run.reading ν env).Spans b bounds.domains run.seeded.ctx a := by
    intro r hr a ha
    refine (hspans a ?_).grows hwf hg
    rcases List.mem_append.1 ha with ha | ha
    exacts [hshaped.mem_axes_of_mem_consumed hr ha, hshaped.mem_axes_of_mem_made hr ha]
  have hfits : ∀ r ∈ nest.relations, r.FitsUp (run.reading ν env).fits b x := by
    intro r _
    rcases r with (_ | _) | _ | _ <;> simp [AxisRelation.FitsUp, reading, Reading.exact]
  obtain ⟨-, hg', hreads', hall⟩ := (Sweep.indicesUp_yields hnest (hg.wellFormed hwf) hknown
    hfound.covers hsolves hfits hreads hA (by simp [hmem])).post _ _ _ run.indices
  exact ⟨hg.trans hg', hreads', hall⟩

/-- What a run is asked about: a point of the loops at which no node of the context `κ` leaves the
words, and the domains that the roots declare. -/
structure Asked (run : InferenceRun {} nest roots ctx bounds ctx') (κ : Context) (env : Env Int)
    (b₀ b declared : Box) (p x : AxisId → Int) : Prop where
  sized : nest.Sized ctx ⟨κ, 0, env⟩ roots b₀
  found : run.Found ⟨κ, 0, env⟩ b₀ b
  kind : ∀ a ∈ nest.roots, (ctx.axis a).kind ≠ .blackBox
  declared : ∀ a ∈ nest.roots, ∀ d, (ctx.axis a).domain? = some d →
    ctx.Denotes .callFree d.min ((⟨κ, 0, env⟩ : Valuation).Only (declared.min a)) ∧
      ctx.Denotes .callFree d.extent ((⟨κ, 0, env⟩ : Valuation).Only (declared.extent a))
  loops : ∀ a ∈ nest.leaves, 0 ≤ p a ∧ p a < b.extent a
  keeps : (⟨κ, 0, nest.loops ctx env p⟩ : Valuation).Keeps
  leaves : ∀ a ∈ nest.leaves, x a = p a + b.min a
  solves : nest.Solves b x

section Asked

variable {run : InferenceRun {} nest roots ctx bounds ctx'} {κ : Context} {env : Env Int}
  {declared : Box} {p : AxisId → Int}

theorem Asked.loops_eq (h : run.Asked κ env b₀ b declared p x) {v : VarId} {y : Int}
    (hv : env v = some y) : nest.loops ctx env p v = some y := by
  rw [LoopNest.loops_of_ne, hv]
  rintro a ha rfl
  have hshaped := h.sized.scheduled.shaped
  have hfree := h.sized.free a (hshaped.registered a (hshaped.mem_axes_of_mem_leaves ha))
  cases hfree.symm.trans hv

theorem Asked.loopsFromZero_eq (h : run.Asked κ env b₀ b declared p x) {v : VarId} {y : Int}
    (hv : env v = some y) : nest.loopsFromZero ctx b env p v = some y := by
  rw [LoopNest.loopsFromZero, if_neg, h.loops_eq hv]
  rintro ⟨a, ha, rfl, -⟩
  have hshaped := h.sized.scheduled.shaped
  have hfree := h.sized.free a (hshaped.registered a (hshaped.mem_axes_of_mem_leaves ha))
  cases hfree.symm.trans hv

theorem Asked.loopsFromZero_leaf (h : run.Asked κ env b₀ b declared p x) {a : AxisId}
    (ha : a ∈ nest.leaves) (hzero : b.min a = 0) :
    nest.loopsFromZero ctx b env p (ctx.axisVar a) = some (x a) := by
  have hshaped := h.sized.scheduled.shaped
  have hreg : ∀ a ∈ nest.leaves, a.index < ctx.axes.size := fun a ha =>
    hshaped.registered a (hshaped.mem_axes_of_mem_leaves ha)
  rw [LoopNest.loopsFromZero, if_neg, LoopNest.loops_leaf hshaped ha, h.leaves a ha, hzero,
    add_zero]
  rintro ⟨c, hc, hvar, hne⟩
  rw [hshaped.wellFormed.axisVar_inj c a (hreg c hc) (hreg a ha) hvar] at hne
  exact hne hzero

/-- Only loops over domains that start at zero have a value. -/
theorem Asked.eq_of_loopsFromZero (h : run.Asked κ env b₀ b declared p x) {a : AxisId} {y : Int}
    (ha : a.index < ctx.axes.size) (hy : nest.loopsFromZero ctx b env p (ctx.axisVar a) = some y) :
    a ∈ nest.leaves ∧ b.min a = 0 ∧ y = x a := by
  have hshaped := h.sized.scheduled.shaped
  by_cases hleaf : a ∈ nest.leaves
  · by_cases hzero : b.min a = 0
    · exact ⟨hleaf, hzero, Option.some_inj.1 (hy.symm.trans (h.loopsFromZero_leaf hleaf hzero))⟩
    · rw [LoopNest.loopsFromZero, if_pos ⟨a, hleaf, rfl, hzero⟩] at hy
      cases hy
  · rw [LoopNest.loopsFromZero] at hy
    split at hy
    · cases hy
    · rw [LoopNest.loops_of_ne] at hy
      · cases (h.sized.free a ha).symm.trans hy
      · intro c hc hvar
        have hreg := hshaped.registered c (hshaped.mem_axes_of_mem_leaves hc)
        exact hleaf (hshaped.wellFormed.axisVar_inj c a hreg ha hvar ▸ hc)

theorem Asked.contains_leaf (h : run.Asked κ env b₀ b declared p x) {a : AxisId}
    (ha : a ∈ nest.leaves) : b.Contains x a := by
  have hp := h.loops a ha
  rw [Box.Contains, h.leaves a ha]
  omega

/-- The axes that a loop over a domain that does not start at zero has no part in. -/
def sureAxes (nest : LoopNest) (b : Box) : Set AxisId := {a | a ∈ nest.leaves → b.min a = 0}

theorem Asked.view (h : run.Asked κ env b₀ b declared p x) :
    run.found.ctx.Grows run.indexed.ctx ∧ (∀ a ∈ nest.axes, a ∈ bounds.values) ∧
      Sweep.View nest b x (sureAxes nest b) bounds.domains bounds.values
        ⟨κ, 0, nest.loops ctx env p⟩ ⟨κ, 0, nest.loopsFromZero ctx b env p⟩
        run.indexed.ctx := by
  have hshaped := h.sized.scheduled.shaped
  obtain ⟨hg, hreads, hall⟩ := h.found.reads (A := .univ) (x := x) h.sized.scheduled rfl
    (fun _ _ => h.loops_eq) (fun a ha _ => ⟨p a, LoopNest.loops_leaf hshaped ha,
      (h.leaves a ha).symm⟩) (fun _ _ _ _ => trivial) h.solves
  have hsure : ∀ r ∈ nest.relations, ∀ a ∈ r.consumed ++ r.made, a ∈ sureAxes nest b := by
    intro r hr a ha hleaf
    obtain ⟨before, after, hsplit⟩ := List.append_of_mem hr
    rcases List.mem_append.1 ha with ha | ha
    · exact absurd hleaf (hshaped.not_mem_after hsplit ha).1
    · exact (h.found.covers r hr).min_made a ha
  obtain ⟨-, hreads', -⟩ := h.found.reads (A := sureAxes nest b) (x := x) h.sized.scheduled rfl
    (fun _ _ => h.loopsFromZero_eq) (fun a ha hA => ⟨x a, h.loopsFromZero_leaf ha (hA ha), by
      rw [hA ha, add_zero]⟩) hsure h.solves
  have hdenotes : ∀ {env' : Env Int} {e : ExprId} {z : Int},
      (run.reading ⟨κ, 0, env⟩ env').holds run.indexed.ctx e z →
        run.indexed.ctx.Denotes .callFree e ((⟨κ, 0, env'⟩ : Valuation).Only z) := by
    rintro env' e z ⟨hnodes, hvalue⟩
    refine ⟨hnodes, ?_⟩
    rintro _ hctx _ ⟨rfl, rfl⟩
    exact (hnodes.value_eq hctx 0 0 env').trans (hvalue (hg.le.trans hctx))
  have hle : (⟨κ, 0, nest.loopsFromZero ctx b env p⟩ : Valuation) ≤
      ⟨κ, 0, nest.loops ctx env p⟩ := by
    refine ⟨rfl, le_rfl, fun v y hy => ?_⟩
    change nest.loopsFromZero ctx b env p v = some y at hy
    rw [LoopNest.loopsFromZero] at hy
    split at hy
    · cases hy
    · exact hy
  have hbase : (⟨κ, 0, env⟩ : Valuation) ≤ ⟨κ, 0, nest.loopsFromZero ctx b env p⟩ :=
    ⟨rfl, le_rfl, fun _ _ => h.loopsFromZero_eq⟩
  refine ⟨hg, hall, hle, h.keeps.anti hle, rfl, (h.found.measures.of_le hbase).mono hg.le,
    fun a y ha hy => ?_, fun a _ e he => ⟨hdenotes (hreads a trivial e he),
      fun hA => hdenotes (hreads' a hA e he)⟩⟩
  rw [(h.found.grows.trans hg).axisVar_eq] at hy
  obtain ⟨hleaf, hzero, rfl⟩ := h.eq_of_loopsFromZero (h.found.registered a ha) hy
  exact h.contains_leaf hleaf

/-- At a point of the loops, the indices have its values, and the guards are true just where it
lies in all domains, as far as the roots may be guarded. -/
theorem Asked.enforces (h : run.Asked κ env b₀ b declared p x) :
    run.found.ctx.Grows ctx' ∧
      (∀ a ∈ nest.axes, ∃ e : ExprId, bounds.values[a]? = some e ∧
        ctx'.Denotes .callFree e ((⟨κ, 0, nest.loops ctx env p⟩ : Valuation).Only (x a))) ∧
      ctx'.Enforces ⟨κ, 0, nest.loops ctx env p⟩ bounds.guards
        ((∀ a ∈ nest.axes, b.Contains x a) ∧ ∀ a ∈ nest.roots, declared.Contains x a)
        ((∀ a ∈ nest.axes, b.Contains x a) ∧ ∀ a ∈ nest.roots, a ∈ sureAxes nest b →
          roots[a]? ≠ (ctx.axis a).domain? → declared.Contains x a) := by
  have hshaped := h.sized.scheduled.shaped
  obtain ⟨hg, hall, hview⟩ := h.view
  have hgrows := h.found.grows.trans hg
  have haxis := hgrows.axis_eq
  have hbase : (⟨κ, 0, env⟩ : Valuation) ≤ ⟨κ, 0, nest.loopsFromZero ctx b env p⟩ :=
    ⟨rfl, le_rfl, fun _ _ => h.loopsFromZero_eq⟩
  have hvalid : Session.Valid ⟨run.indexed.ctx, {}⟩ :=
    .start (hgrows.wellFormed hshaped.wellFormed) true
  have hkind : ∀ a ∈ nest.axes, (run.indexed.ctx.axis a).kind ≠ .blackBox := fun a ha =>
    haxis a ▸ h.sized.scheduled.kind_ne h.kind a ha
  have hdeclared : ∀ a ∈ nest.roots, ∀ d, (run.indexed.ctx.axis a).domain? = some d →
      run.indexed.ctx.Denotes .callFree d.min
        ((⟨κ, 0, nest.loopsFromZero ctx b env p⟩ : Valuation).Only (declared.min a)) ∧
      run.indexed.ctx.Denotes .callFree d.extent
        ((⟨κ, 0, nest.loopsFromZero ctx b env p⟩ : Valuation).Only (declared.extent a)) := by
    intro a ha d hd
    obtain ⟨hmin, hextent⟩ := h.declared a ha d (haxis a ▸ hd)
    exact ⟨(hmin.of_le hbase).mono hgrows.le, (hextent.of_le hbase).mono hgrows.le⟩
  obtain ⟨-, hg', -, henforces⟩ := Sweep.guardsOver_ensures hvalid
    (funext fun v => by simp [Session.domains, Env.empty]) hshaped hkind h.found.covers h.solves
    (fun a ha => h.contains_leaf ha) hview hdeclared _ _ _ run.guards
  rw [run.final] at hg' henforces
  refine ⟨hg.trans hg', fun a ha => ?_, henforces.of_imp (fun hin => ?_) fun hin => ?_⟩
  · have he := Std.TreeMap.getElem?_eq_some_getElem (hall a ha)
    exact ⟨_, he, (hview.value a ha _ he).1.mono hg'.le⟩
  · refine ⟨fun a ha => ?_, hin.2⟩
    have hhi := (hin.1 a ha).2
    omega
  · have hlow := h.sized.scheduled.min_le h.found.covers h.solves
      fun a ha => (h.contains_leaf ha).1
    refine ⟨fun a ha => ?_, fun a ha hsure hne => hin.2 a ha ⟨hsure, ?_⟩⟩
    · by_cases hleaf : a ∈ nest.leaves
      · exact h.contains_leaf hleaf
      · have hhi := hin.1 a ha fun hl => absurd hl hleaf
        exact ⟨hlow a ha, by omega⟩
    · have hroot := Std.TreeMap.getElem?_eq_some_getElem ((h.sized.mem_roots a).2 ha)
      rw [haxis, h.found.subset a _ hroot, ← hroot]
      exact hne

end Asked

/-- The context still grows once the domains are found.  No assignment has a part in this, so it
is read off one over a context that stores nothing. -/
theorem found_grows (run : InferenceRun {} nest roots ctx bounds ctx')
    (h : nest.Sized ctx ν roots b₀) (hkind : ∀ a ∈ nest.roots, (ctx.axis a).kind ≠ .blackBox)
    (hdeclared : ∀ a ∈ nest.roots, ∀ d, (ctx.axis a).domain? = some d →
      ctx.Over .callFree d.min ∧ ctx.Over .callFree d.extent) : run.found.ctx.Grows ctx' := by
  have hdenotes : ∀ {e : ExprId} (z : Int), ctx.Over .callFree e →
      ctx.Denotes .callFree e ((Valuation.nowhere Env.empty).Only z) :=
    fun z he => he.denotes_nowhere _ z
  have hsized : nest.Sized ctx (.nowhere Env.empty) roots b₀ :=
    { h with
      free := fun _ _ => rfl
      measures := ⟨fun a d hd => hdenotes _ (h.measures.min a d hd).nodes,
        fun a d hd => hdenotes _ (h.measures.extent a d hd).nodes, h.measures.pos⟩
      sizes := fun r hr e he => by
        obtain ⟨n, hn, hdenotes'⟩ := h.sizes r hr e he
        exact ⟨n, hn, hdenotes n hdenotes'.nodes⟩ }
  obtain ⟨b, hfound⟩ := run.exists_found hsized (Valuation.nowhere_keeps _) rfl
  obtain ⟨x, hx, hsolves⟩ := h.scheduled.exists_solves b b.min
  have hpos : ∀ a ∈ nest.leaves, 0 < b.extent a := fun a ha =>
    hfound.measures.pos a (hfound.mem a (h.scheduled.shaped.mem_axes_of_mem_leaves ha))
  have hasked : run.Asked {} Env.empty b₀ b b (fun _ => 0) x :=
    ⟨hsized, hfound, hkind, fun a ha d hd => ⟨hdenotes _ (hdeclared a ha d hd).1,
      hdenotes _ (hdeclared a ha d hd).2⟩, fun a ha => ⟨le_rfl, hpos a ha⟩,
      Valuation.nowhere_keeps _, fun a ha => by rw [hx a ha, zero_add], hsolves⟩
  exact hasked.enforces.1

end InferenceRun

end LoopBounds
