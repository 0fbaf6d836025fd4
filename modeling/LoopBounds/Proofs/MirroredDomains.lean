import LoopBounds.Proofs.Mirroring

/-!
# Domains of axes and of dimensions

The domains of axes and those of dimensions are found in the same way, and only the sweep over axes
tells the analyzer what it finds.  As long as no range mentions a loop variable, this makes no
difference to what is found.
-/

namespace LoopBounds

open Session (Truthful)
open Sweep

namespace Mirroring

variable {M : Mirroring} {t : Facts .axis Domain} {s : Session} {key : AxisId}
  {d : Domain} {extent : ExprId}

theorem Clear.overDomain (h : M.Clear t s) (hd : t[key]? = some d) :
    s.ctx.OverDomain M.nodes d :=
  ⟨h.entries key d hd _ (.inl rfl), h.entries key d hd _ (.inr rfl)⟩

/-! ## Entering domains -/

theorem setDomain_inStep (h : M.Clear t s) (hkey : s.ctx.axisVar key ∈ M.learnt)
    (hd : s.ctx.OverDomain M.nodes d) :
    M.InStep (setDomain key d) (setDomain (M.dimOf key) d) t s fun _ _ _ => True := by
  cases hentry : t[key]? with
  | some existing =>
      have hcheck : M.InStep
          (do
            if !(← agrees existing d) then
              let ctx ← Query.context
              throw (.inconsistentDomain (Keyed.name ctx key) (existing.text ctx) (d.text ctx)))
          (do
            if !(← agrees existing d) then
              let ctx ← Query.context
              throw (.inconsistentDomain (Keyed.name ctx (M.dimOf key)) (existing.text ctx)
                (d.text ctx)))
          t s fun _ _ _ => True := by
        apply InStep.ask h (agrees_asks h.apart (h.overDomain hentry) hd)
        intro same s₁ h₁ _ _
        split
        · exact .context fun _ _ => .throw h₁ (by exact rfl)
        · exact .pure h₁ trivial
      apply hcheck.of_run
      · unfold setDomain
        rw [run_table_bind, hentry]
      · intro t' s' hmirrors
        unfold setDomain
        rw [run_table_bind, hmirrors.entry, hentry]
  | none =>
      have hagrees : Facts.AgreesOff s.analyzer.bindings M.learnt
          (s.analyzer.learn (s.ctx.axisVar key) d).bindings := .insert hkey d
      have htrue := Session.truthful_learn h.truthful.supports ⟨hd.1.stored, hd.2.stored⟩
        (s.ctx.axisVar key)
      intro r t₁ s₁ hr _
      cases (run_setDomain_of_none hentry).symm.trans hr
      refine ⟨⟨htrue, h.apart.agree hagrees htrue.supports, fun a c hc e he => ?_⟩, .refl _,
        fun _ _ => trivial, fun left t' s' _ htwin => ?_⟩
      · rcases Handle.getElem?_insert_eq_some.1 hc with ⟨rfl, rfl⟩ | ⟨-, hc⟩
        · rcases he with rfl | rfl
          exacts [hd.1, hd.2]
        · exact h.entries a c hc e he
      -- The second sweep enters the domain as well, and tells nobody.
      refine ⟨.ok (), t'.insert (M.dimOf key) d, s', ?_, .ok (), ?_⟩
      · unfold setDomain
        rw [run_table_bind, htwin.mirrors.entry, hentry]
        rfl
      · exact ⟨htwin.mirrors.insert M.injective key d, htwin.ctx, hagrees.symm.trans htwin.agrees,
          htwin.truthful⟩

theorem enterExtent_inStep (h : M.Clear t s) (hkey : s.ctx.axisVar key ∈ M.learnt)
    (hextent : s.ctx.Over M.nodes extent) :
    M.InStep (do setDomain key (← Domain.ofExtent extent))
      (do setDomain (M.dimOf key) (← Domain.ofExtent extent)) t s fun _ _ _ => True := by
  apply InStep.ask h (.ofBuild (Domain.ofExtent_repeats hextent))
  intro d s₁ h₁ hg₁ hd
  exact setDomain_inStep h₁ (hg₁.axisVar_eq key ▸ hkey) hd

/-! ## The sweeps -/

theorem partDomains_inStep {first second : AxisId} {whole size : ExprId} (h : M.Clear t s)
    (hfirst : s.ctx.axisVar first ∈ M.learnt) (hsecond : s.ctx.axisVar second ∈ M.learnt)
    (hwhole : s.ctx.Over M.nodes whole) (hsize : s.ctx.Over M.nodes size) :
    M.InStep
      (do
        setDomain first (← Domain.ofExtent size)
        let count ← ceilDiv whole size
        setDomain second (← Domain.ofExtent count))
      (do
        setDomain (M.dimOf first) (← Domain.ofExtent size)
        let count ← ceilDiv whole size
        setDomain (M.dimOf second) (← Domain.ofExtent count))
      t s fun _ _ _ => True := by
  rw [← bind_assoc, ← bind_assoc (m := Sweep (Facts .dim Domain))]
  apply (enterExtent_inStep h hfirst hsize).bind
  intro _ t₁ s₁ h₁ hg₁ _
  apply InStep.ask h₁ (ceilDiv_asks h₁.apart (hwhole.mono hg₁.le) (hsize.mono hg₁.le))
  intro count s₂ h₂ hg₂ hcount
  apply enterExtent_inStep h₂ _ hcount
  rw [(hg₁.trans hg₂).axisVar_eq]
  exact hsecond

/-- Splitting by a factor and by a number of parts differ in the part that is given. -/
theorem reshapeDomains_inStep {r : Reshape AxisId} {pass pass' : Pass} {allowMissing : Bool}
    (h : M.Clear t s)
    (hentered : ∀ a ∈ (AxisRelation.reshape r).entered, s.ctx.axisVar a ∈ M.learnt)
    (hfactor : ∀ e ∈ (AxisRelation.reshape r).factor?, s.ctx.Over M.nodes e) :
    M.InStep (reshapeDomains pass allowMissing r)
      (reshapeDomains pass' allowMissing (r.map M.dimOf)) t s fun _ _ _ => True := by
  cases r with
  | split parent outer inner size =>
      refine InStep.require h (fun whole hwhole => ?_) (.pure h trivial)
      have hwhole := (h.overDomain hwhole).2
      have hsize := hfactor size.extent rfl
      have houter := hentered outer (by simp [AxisRelation.entered])
      have hinner := hentered inner (by simp [AxisRelation.entered])
      cases size with
      | factor extent => exact partDomains_inStep h hinner houter hwhole hsize
      | parts extent => exact partDomains_inStep h houter hinner hwhole hsize
  | fuse outer inner fused =>
      refine InStep.require h (fun first hfirst => ?_) (.pure h trivial)
      refine InStep.require h (fun second hsecond => ?_) (.pure h trivial)
      apply InStep.ask h
        (.ofBuild (Build.arith_repeats .mul (h.overDomain hfirst).2 (h.overDomain hsecond).2))
      intro product s₁ h₁ hg₁ hproduct
      apply InStep.ask h₁ (.ofQuery (Query.simplify_repeats h₁.apart hproduct))
      intro extent s₂ h₂ hg₂ hextent
      apply enterExtent_inStep h₂ _ hextent
      rw [(hg₁.trans hg₂).axisVar_eq]
      exact hentered fused (by simp [AxisRelation.entered])

theorem domains_inStep {nest : LoopNest} {op : Operation} (allowMissing : Bool) (h : M.Clear t s)
    (hop : nest.Mirrors M.dimOf op) (hentered : ∀ a ∈ nest.entered, s.ctx.axisVar a ∈ M.learnt)
    (hfactors : ∀ r ∈ nest.relations, ∀ e ∈ r.factor?, s.ctx.Over M.nodes e) :
    M.InStep (domains nest allowMissing) (dimDomains op allowMissing) t s fun _ _ _ => True := by
  have hrelations : M.InStep (nest.relations.forM (relationDomains allowMissing))
      (dimDomains op allowMissing) t s fun _ _ _ => True := by
    apply InStep.forM hop.relations h
    intro r hr q hq t' s' h' hg
    cases r with
    | rebase _ _ | singleton _ => cases hq
    | reshape r =>
        cases hq
        apply reshapeDomains_inStep h'
        · intro a ha
          rw [hg.axisVar_eq]
          exact hentered a (List.mem_append_left _ (List.mem_flatMap.2 ⟨_, hr, ha⟩))
        · exact fun e he => (hfactors _ hr e he).mono hg.le
  have hdomains : domains nest allowMissing =
      nest.relations.forM (relationDomains allowMissing) := by
    rw [domains, hop.threads]
    exact bind_pure_unit
  rw [hdomains]
  exact hrelations

end Mirroring

theorem Sweep.Ready.clear {M : Mirroring} {t : Facts .axis Domain} {s : Session}
    (h : Ready M.learnt M.called t s) : M.Clear t s := by
  refine ⟨h.truthful, h.apart, fun a d hd e he => ?_⟩
  obtain ⟨hmin, hextent⟩ := h.entries a d hd
  rcases he with rfl | rfl
  · exact hmin
  · exact hextent

/-- Both sweeps end in the same way and leave the same domains. -/
theorem Sweep.dimDomains_mirrors {nest : LoopNest} {op : Operation} {dimOf : AxisId → DimId}
    {V : Set VarId} {allowMissing : Bool} {start known : Facts .axis Domain}
    {start' : Facts .dim Domain} {s s₁ s' : Session} {r : Except InferError Unit}
    (hinj : dimOf.Injective) (hop : nest.Mirrors dimOf op) (hstart : start.Mirrors dimOf start')
    (hseparate : nest.Separate V start s) (htrue : s.Truthful) (htrue' : s'.Truthful)
    (hagrees : Facts.AgreesOff s.analyzer.bindings V s'.analyzer.bindings)
    (hrun : ((domains nest allowMissing).run.run start).run s = ((r, known), s₁))
    (hctx : s'.ctx = s.ctx ∨ s₁.ctx.Grows s'.ctx) :
    ∃ r' known' s₁', ((dimDomains op allowMissing).run.run start').run s' =
        ((r', known'), s₁') ∧
      SameOutcome InferError.SameKind r r' ∧ known.Mirrors dimOf known' := by
  let M : Mirroring := ⟨dimOf, hinj, V, s.ctx.Declared, fun _ => False⟩
  have hready : Ready M.learnt M.called start s := hseparate.ready htrue
  have hstep := Mirroring.domains_inStep allowMissing hready.clear hop
    hseparate.entered fun q hq e he => hseparate.over_limited (hseparate.factors q hq e he)
  refine (hstep.ends hrun hstart hctx hagrees htrue').resolve_left ?_
  rintro ⟨e, -, ⟨⟩⟩

namespace NestSample

/-- The first dimension is none of those of the axes. -/
def dimOf (a : AxisId) : DimId := ⟨a.index + 1⟩

theorem dimOf_injective : dimOf.Injective := by
  intro a b hab
  apply Handle.ext_index
  simpa [dimOf] using hab

/-- The same with an analyzer that keeps what it knows and forgets its answers. -/
def forgotten (sample : NestSample) : NestSample :=
  { sample with session := ⟨sample.session.ctx, { bindings := sample.session.analyzer.bindings }⟩ }

theorem truthful_of_forgotten {sample : NestSample} {s : Session}
    (hs : s.analyzer = sample.forgotten.session.analyzer) (hwf : s.ctx.WellFormed)
    (hstored : ∀ p ∈ s.analyzer.bindings.toList, s.ctx.StoredDomain p.2) : s.Truthful := by
  obtain ⟨ctx, an⟩ := s
  obtain rfl : an = _ := hs
  apply Session.truthful_of_forgotten _ (.inr ⟨rfl, rfl, rfl⟩)
  exact ⟨hwf, fun v d hd => hstored (v, d) (Std.TreeMap.mem_toList_iff_getElem?_eq_some.2 hd)⟩

/-- What the sweep over the dimensions makes of the mirrored table, in a context. -/
def mirrored (sample : NestSample) (ctx : Context) : Facts .dim Domain × Session :=
  (dimDomains (sample.nest.mirror dimOf) false).outcome (sample.start.mirror dimOf)
    ⟨ctx, sample.session.analyzer⟩

/-- Rows of four and eight columns, of which the inner axis of the one and the outer axis of the
other are fused.  The extent of a row is known already, as a call that gives four, and the number
of rows has a bound. -/
def tiled : NestSample := forgotten <| of do
  let n ← declareVar "n" .int32
  let m ← Build.var (← declareVar "m" .int32)
  let p ← declareVar "p" .int32
  let d ← declareDim "d" .uniform
  let _ ← (List.range 7).mapM fun k => (declareDim ("d" ++ toString k) .uniform : Build DimId)
  let f ← Attempt.declareFun "f" none [d] [p] (some (← Build.var p))
  let four ← Build.int 4
  let rows ← Domain.ofExtent (← Build.var n)
  let columns ← Domain.ofExtent m
  let called ← Domain.ofExtent (← Attempt.call f [four] [d])
  let i ← declareAxis "i" (some rows) .dataParallel
  let j ← declareAxis "j" (some columns) .dataParallel
  let split ← ((LoopNest.ofRoots "tiled" [i, j]).split i (.factor four)).run
  let (nest, _, inner) ← (split : Except InferError _)
  let split ← (nest.split j (.parts (← Build.int 8))).run
  let (nest, outer, _) ← (split : Except InferError _)
  let fused ← (nest.fuse inner outer).run
  let (nest, _) ← (fused : Except InferError _)
  Sweep.changeTable fun known => ((known.insert i rows).insert j columns).insert inner called
  Query.learn n (← Domain.literal 0 64)
  return nest

theorem tiled_reshaped : tiled.nest.Reshaped := ⟨by decide +kernel, by decide +kernel⟩

/-- The second sweep runs after the first, in the context that this has left. -/
theorem dimDomains_mirrors_tiled :
    (domains tiled.nest false).succeeds tiled.start tiled.session = true ∧
      tiled.outcome.1.toList.length = 7 ∧
      ∃ known' s', ((dimDomains (tiled.nest.mirror dimOf) false).run.run
          (tiled.start.mirror dimOf)).run ⟨tiled.outcome.2.ctx, tiled.session.analyzer⟩ =
            ((.ok (), known'), s') ∧
        tiled.outcome.1.Mirrors dimOf known' := by
  have hsucceeds : (domains tiled.nest false).succeeds tiled.start tiled.session = true := by
    decide +kernel
  refine ⟨hsucceeds, by decide +kernel, ?_⟩
  have hseparate : tiled.nest.Separate {v | v ∈ tiled.loopVars} tiled.start tiled.session := by
    apply separate <;> decide +kernel
  have hforgotten : tiled.session.analyzer = (forgotten _).session.analyzer := rfl
  have htrue : tiled.session.Truthful :=
    truthful_of_forgotten hforgotten (by decide +kernel) (by decide +kernel)
  have htrue' : Truthful ⟨tiled.outcome.2.ctx, tiled.session.analyzer⟩ :=
    truthful_of_forgotten hforgotten (by decide +kernel) (by decide +kernel)
  have hrun : ((domains tiled.nest false).run.run tiled.start).run tiled.session =
      ((.ok (), tiled.outcome.1), tiled.outcome.2) := run_eq_of_succeeds hsucceeds
  obtain ⟨left, hleft⟩ : ∃ left, tiled.outcome.2.ctx = left := ⟨_, rfl⟩
  rw [hleft] at htrue' ⊢
  obtain ⟨r', known', s', hrun', hsame, hmirrors⟩ :=
    dimDomains_mirrors dimOf_injective tiled_reshaped.mirrors
      (Facts.mirrors_mirror dimOf_injective tiled.start) hseparate htrue htrue' (.refl _ _) hrun
      (.inr (by rw [hleft]; exact .refl left))
  cases hsame
  exact ⟨known', s', hrun', hmirrors⟩

/-- An axis is split and then two others are fused, after their product was simplified, to zero, and
the codomain of the function in it was replaced. -/
def outdated : NestSample := of do
  let n ← Build.var (← declareVar "n" .int32)
  let m ← Build.var (← declareVar "m" .int32)
  let p ← declareVar "p" .int32
  let d ← declareDim "d" .uniform
  let _ ← (List.range 6).mapM fun k => (declareDim ("d" ++ toString k) .uniform : Build DimId)
  let f ← Attempt.declareFun "f" (some (← Domain.literal 0 1)) [d] [p] none
  let rows ← Attempt.floorDiv (← Attempt.call f [n] [d]) (← Build.int 4)
  let _ ← Query.simplify (← Build.mul rows m)
  Build.setCodomain f (← Domain.literal 0 100)
  let whole ← Domain.ofExtent n
  let outer ← Domain.ofExtent rows
  let inner ← Domain.ofExtent m
  let h ← declareAxis "h" (some whole) .dataParallel
  let i ← declareAxis "i" (some outer) .dataParallel
  let j ← declareAxis "j" (some inner) .dataParallel
  let split ← ((LoopNest.ofRoots "outdated" [h, i, j]).split h (.factor (← Build.int 2))).run
  let (nest, _) ← (split : Except InferError _)
  let fused ← (nest.fuse i j).run
  let (nest, _) ← (fused : Except InferError _)
  Sweep.changeTable fun known => ((known.insert h whole).insert i outer).insert j inner
  return nest

theorem outdated_reshaped : outdated.nest.Reshaped := ⟨by decide +kernel, by decide +kernel⟩

/-- The sweep over axes learns of the parts of the first axis, forgets the answer and finds the
product.  The one over dimensions learns nothing and takes the answer from before, whether it runs
in the same context or in the one that is left. -/
theorem dimDomains_outdated :
    outdated.session.ctx.WellFormed ∧
      outdated.nest.Mirrors dimOf (outdated.nest.mirror dimOf) ∧
      outdated.start.Mirrors dimOf (outdated.start.mirror dimOf) ∧
      outdated.nest.Separate {v | v ∈ outdated.loopVars} outdated.start outdated.session ∧
      (domains outdated.nest false).succeeds outdated.start outdated.session = true ∧
      ∀ ctx ∈ [outdated.session.ctx, outdated.outcome.2.ctx],
        (dimDomains (outdated.nest.mirror dimOf) false).succeeds (outdated.start.mirror dimOf)
            ⟨ctx, outdated.session.analyzer⟩ = true ∧
          (outdated.mirrored ctx).1[dimOf ⟨5⟩]? ≠ outdated.outcome.1[(⟨5⟩ : AxisId)]? := by
  refine ⟨by decide +kernel, outdated_reshaped.mirrors,
    Facts.mirrors_mirror dimOf_injective outdated.start, ?_, by decide +kernel, by decide +kernel⟩
  apply separate <;> decide +kernel

end NestSample

end LoopBounds
