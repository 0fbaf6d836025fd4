import LoopBounds.Inference.Indices
import LoopBounds.Proofs.MirroredDomains
import LoopBounds.Proofs.RoundTrip

/-!
# Values of axes and of dimensions

Going down, the values of axes and those of dimensions are found in the same way.  But only the
sweep over axes asks for domains that start at zero where it fuses: it refuses others, and the
sweep over dimensions goes on as if they did.
-/

namespace LoopBounds

open Session (Truthful)
open Sweep

/-- A sweep over axes refuses to fuse an axis whose domain does not start at zero. -/
def LoopNest.RefusesFused (nest : LoopNest) (known : Facts .axis Domain) (ctx : Context)
    (e : InferError) : Prop :=
  ∃ outer inner fused, .reshape (.fuse outer inner fused) ∈ nest.relations ∧
    ∃ a ∈ [outer, inner], ∃ d, known[a]? = some d ∧ ctx.isZero d.min = false ∧
      ∃ min, e = .nonZeroMin .indicesDown (ctx.axisName a) min

namespace Mirroring

variable {M : Mirroring} {known : Facts .axis Domain} {known' : Facts .dim Domain} {s : Session}

/-! ## Steps -/

section Steps

variable {β γ : Type} [Mentions β] {t : Facts .axis β} {d : Domain} {pass pass' : Pass}
  {key : AxisId}

theorem InStep.requireKnown {f : Option Domain → Sweep (Facts .axis β) γ}
    {f' : Option Domain → Sweep (Facts .dim β) γ} {allowMissing : Bool} {role : Role}
    {Q : γ → Facts .axis β → Session → Prop} (hknown : known.Mirrors M.dimOf known')
    (hd : known[key]? = some d) (h : M.InStep (f (some d)) (f' (some d)) t s Q) :
    M.InStep (Sweep.require allowMissing pass role known key >>= f)
      (Sweep.require allowMissing pass' role known' (M.dimOf key) >>= f') t s Q := by
  rw [require_eq hd, require_eq ((hknown.entry key).trans hd), pure_bind, pure_bind]
  exact h

theorem requireZeroMin_inStep (h : M.Clear t s) (hmin : s.ctx.Stored d.min) :
    M.InStep (requireZeroMin pass key d) (requireZeroMin pass' (M.dimOf key) d) t s
      fun _ _ _ => True := by
  apply InStep.context
  intro ctx hg
  rw [Context.isZero_eq hg.le hmin]
  split
  · exact .throw h (by exact rfl)
  · exact .pure h trivial

/-- Only the first sweep asks whether a domain starts at zero. -/
theorem InStep.requireZeroMin {m : Sweep (Facts .axis β) γ} {m' : Sweep (Facts .dim β) γ}
    {Q : γ → Facts .axis β → Session → Prop}
    (hrefuse : s.ctx.isZero d.min = false →
      ∀ min, M.refusal (.nonZeroMin pass (s.ctx.axisName key) min))
    (h : M.InStep m m' t s Q) :
    M.InStep (do Sweep.requireZeroMin pass key d; m) m' t s Q := by
  cases hzero : s.ctx.isZero d.min with
  | true =>
      apply h.of_run _ fun _ _ _ => rfl
      change (((if !s.ctx.isZero d.min then _ else _) >>= fun _ => m).run.run t).run s = _
      rw [hzero]
      rfl
  | false =>
      apply (InStep.refuse (hrefuse hzero (s.ctx.text d.min))).of_run _ fun _ _ _ => rfl
      change (((if !s.ctx.isZero d.min then _ else _) >>= fun _ => m).run.run t).run s = _
      rw [hzero]
      rfl

end Steps

variable {t : Facts .axis ExprId} {e : ExprId} {key : AxisId}

theorem Clear.insert (h : M.Clear t s) (he : s.ctx.Over M.nodes e) :
    M.Clear (t.insert key e : Facts .axis ExprId) s := by
  refine ⟨h.truthful, h.apart, fun a x hx c hc => ?_⟩
  obtain rfl : c = x := hc
  rcases Handle.getElem?_insert_eq_some.1 hx with ⟨rfl, rfl⟩ | ⟨-, hx⟩
  · exact he
  · exact h.entries a c hx c rfl

theorem setValue_inStep (h : M.Clear t s) (he : s.ctx.Over M.nodes e) :
    M.InStep (setValue key e) (setValue (M.dimOf key) e) t s fun _ _ _ => True := by
  cases hentry : t[key]? with
  | some existing =>
      have hexisting := h.entries key existing hentry existing rfl
      have hcheck : M.InStep
          (do
            if !(← Query.provesEqual existing e) then
              let ctx ← Query.context
              throw (.inconsistentValue (Keyed.name ctx key) (ctx.text existing) (ctx.text e)))
          (do
            if !(← Query.provesEqual existing e) then
              let ctx ← Query.context
              throw (.inconsistentValue (Keyed.name ctx (M.dimOf key)) (ctx.text existing)
                (ctx.text e)))
          t s fun _ _ _ => True := by
        apply InStep.ask h (.ofQuery (Query.provesEqual_repeats h.apart hexisting he))
        intro same s₁ h₁ _ _
        split
        · exact .context fun _ _ => .throw h₁ (by exact rfl)
        · exact .pure h₁ trivial
      apply hcheck.of_run
      · unfold setValue
        rw [run_table_bind, hentry]
      · intro t' s' hmirrors
        unfold setValue
        rw [run_table_bind, hmirrors.entry, hentry]
  | none =>
      have hrun : ((setValue key e).run.run t).run s = ((.ok (), t.insert key e), s) := by
        unfold setValue
        rw [run_table_bind, hentry]
        rfl
      intro r t₁ s₁ hr _
      cases hrun.symm.trans hr
      refine ⟨h.insert he, .refl _, fun _ _ => trivial, fun left t' s' _ htwin => ?_⟩
      refine ⟨.ok (), t'.insert (M.dimOf key) e, s', ?_, .ok (), ?_⟩
      · unfold setValue
        rw [run_table_bind, htwin.mirrors.entry, hentry]
        rfl
      · exact ⟨htwin.mirrors.insert M.injective key e, htwin.ctx, htwin.agrees, htwin.truthful⟩

/-! ## Relations -/

theorem takeApartSplit_inStep {parent outer inner : AxisId} {pass pass' : Pass}
    {allowMissing : Bool} {d : Domain} (h : M.Clear t s) (hknown : known.Mirrors M.dimOf known')
    (hd : known[inner]? = some d) (hover : s.ctx.OverDomain M.nodes d) :
    M.InStep (takeApartSplit pass allowMissing known parent outer inner)
      (takeApartSplit pass' allowMissing known' (M.dimOf parent) (M.dimOf outer) (M.dimOf inner))
      t s fun _ _ _ => True := by
  refine InStep.require h (fun value hvalue => ?_) (.pure h trivial)
  have hvalue := h.entries parent value hvalue value rfl
  apply InStep.requireKnown hknown hd
  apply (requireZeroMin_inStep h hover.1.stored).bind
  intro _ t₁ s₁ h₁ hg₁ _
  have hvalue := hvalue.mono hg₁.le
  have hextent := hover.2.mono hg₁.le
  apply InStep.ask h₁ (.ofAttempt (Attempt.divide_repeats .floorDiv hvalue hextent))
  intro quotient s₂ h₂ hg₂ hquotient
  apply InStep.ask h₂
    (.ofAttempt (Attempt.divide_repeats .floorMod (hvalue.mono hg₂.le) (hextent.mono hg₂.le)))
  intro rest s₃ h₃ hg₃ hrest
  apply (setValue_inStep h₃ (hquotient.mono hg₃.le)).bind
  intro _ t₄ s₄ h₄ hg₄ _
  exact setValue_inStep h₄ (hrest.mono hg₄.le)

theorem combineFused_inStep {outer inner : ExprId} {fused : AxisId} {d : Domain} (h : M.Clear t s)
    (houter : s.ctx.Over M.nodes outer) (hinner : s.ctx.Over M.nodes inner)
    (hover : s.ctx.OverDomain M.nodes d) :
    M.InStep (combineFused outer inner d fused) (combineFused outer inner d (M.dimOf fused)) t s
      fun _ _ _ => True := by
  apply InStep.ask h (.ofBuild (Build.arith_repeats .mul houter hover.2))
  intro product s₁ h₁ hg₁ hproduct
  apply InStep.ask h₁ (.ofBuild (Build.arith_repeats .add hproduct (hinner.mono hg₁.le)))
  intro value s₂ h₂ _ hvalue
  exact setValue_inStep h₂ hvalue

theorem relationIndicesDown_inStep {op : Operation} {r : AxisRelation} {q : DimRelation}
    {allowMissing : Bool} (h : M.Clear t s) (hknown : known.Mirrors M.dimOf known')
    (hmirror : r.mirror? M.dimOf = some q)
    (hdomains : ∀ a ∈ r.consumed ++ r.made, ∃ d, known[a]? = some d ∧ s.ctx.OverDomain M.nodes d)
    (hrefuse : ∀ outer inner fused, r = .reshape (.fuse outer inner fused) →
      ∀ a ∈ [outer, inner], ∀ d, known[a]? = some d → s.ctx.isZero d.min = false →
        ∀ min, M.refusal (.nonZeroMin .indicesDown (s.ctx.axisName a) min)) :
    M.InStep (relationIndicesDown allowMissing known r)
      (relationDimValues op allowMissing known' q) t s fun _ _ _ => True := by
  cases r with
  | rebase parent rebased => cases hmirror
  | singleton a => cases hmirror
  | reshape r =>
      cases hmirror
      cases r with
      | split parent outer inner size =>
          obtain ⟨d, hd, hover⟩ :=
            hdomains inner (by simp [AxisRelation.consumed, AxisRelation.made])
          exact takeApartSplit_inStep h hknown hd hover
      | fuse outer inner fused =>
          obtain ⟨d₁, hd₁, -⟩ := hdomains outer (by simp [AxisRelation.consumed])
          obtain ⟨d₂, hd₂, hover⟩ := hdomains inner (by simp [AxisRelation.consumed])
          refine InStep.require h (fun first hfirst => ?_) (.pure h trivial)
          refine InStep.require h (fun second hsecond => ?_) (.pure h trivial)
          have hfirst := h.entries outer first hfirst first rfl
          have hsecond := h.entries inner second hsecond second rfl
          dsimp only
          rw [require_eq hd₁, pure_bind]
          apply InStep.requireKnown hknown hd₂
          apply InStep.requireZeroMin (hrefuse outer inner fused rfl outer (by simp) d₁ hd₁)
          apply InStep.requireZeroMin (hrefuse outer inner fused rfl inner (by simp) d₂ hd₂)
          exact combineFused_inStep h hfirst hsecond hover

/-! ## The sweeps -/

theorem indicesDown_inStep {nest : LoopNest} {op : Operation} (allowMissing : Bool)
    (h : M.Clear t s) (hop : nest.Mirrors M.dimOf op) (hknown : known.Mirrors M.dimOf known')
    (hdomains : ∀ r ∈ nest.relations, ∀ a ∈ r.consumed ++ r.made,
      ∃ d, known[a]? = some d ∧ s.ctx.OverDomain M.nodes d)
    (hrefuse : ∀ e, nest.RefusesFused known s.ctx e → M.refusal e) :
    M.InStep (indicesDown nest known allowMissing) (dimValues op known' allowMissing) t s
      fun _ _ _ => True := by
  apply InStep.forM hop.relations h
  intro r hr q hq t' s' h' hg
  apply relationIndicesDown_inStep h' hknown hq
  · intro a ha
    obtain ⟨d, hd, hover⟩ := hdomains r hr a ha
    exact ⟨d, hd, hover.mono hg.le⟩
  · rintro outer inner fused rfl a ha d hd hzero min
    obtain ⟨d', hd', hover⟩ := hdomains _ hr a (List.mem_append_left _ ha)
    obtain rfl : d' = d := Option.some.inj (hd'.symm.trans hd)
    rw [Context.isZero_eq hg.le hover.1.stored] at hzero
    rw [hg.axisName_eq]
    exact hrefuse _ ⟨outer, inner, fused, hr, a, ha, d', hd, hzero, min, rfl⟩

end Mirroring

theorem Context.Stored.over_limited {ctx : Context} {e : ExprId} (he : ctx.Stored e)
    (hdeclared : ∀ e f args dims, ctx.node e = .call f args dims → ctx.Declared f) :
    ctx.Over (.limited (· ∉ (∅ : Set VarId)) ctx.Declared) e :=
  (Context.over_mentions.2 ⟨he, fun _ _ => id⟩).limited hdeclared

/-- Both sweeps end in the same way and leave the same values, unless the one over axes refuses to
fuse. -/
theorem Sweep.dimValues_mirrors {nest : LoopNest} {op : Operation} {dimOf : AxisId → DimId}
    {allowMissing : Bool} {known : Facts .axis Domain} {known' : Facts .dim Domain}
    {start values : Facts .axis ExprId} {start' : Facts .dim ExprId} {s s₁ s' : Session}
    {r : Except InferError Unit} (hinj : dimOf.Injective) (hop : nest.Mirrors dimOf op)
    (hknown : known.Mirrors dimOf known') (hstart : start.Mirrors dimOf start')
    (hdomains : ∀ q ∈ nest.relations, ∀ a ∈ q.consumed ++ q.made,
      ∃ d, known[a]? = some d ∧ s.ctx.StoredDomain d)
    (hvalues : ∀ (a : AxisId) e, start[a]? = some e → s.ctx.Stored e)
    (hdeclared : ∀ e f args dims, s.ctx.node e = .call f args dims → s.ctx.Declared f)
    (htrue : s.Truthful) (htrue' : s'.Truthful)
    (hbound : ∀ v : VarId, s'.analyzer.bindings[v]? = s.analyzer.bindings[v]?)
    (hrun : ((indicesDown nest known allowMissing).run.run start).run s = ((r, values), s₁))
    (hctx : s'.ctx = s.ctx ∨ s₁.ctx.Grows s'.ctx) :
    (∃ e, r = .error e ∧ nest.RefusesFused known s.ctx e) ∨
      ∃ r' values' s₁', ((dimValues op known' allowMissing).run.run start').run s' =
          ((r', values'), s₁') ∧
        SameOutcome InferError.SameKind r r' ∧ values.Mirrors dimOf values' := by
  let M : Mirroring := ⟨dimOf, hinj, ∅, s.ctx.Declared, nest.RefusesFused known s.ctx⟩
  have hdomain : ∀ {d}, s.ctx.StoredDomain d → s.ctx.OverDomain M.nodes d := fun hd =>
    ⟨hd.1.over_limited hdeclared, hd.2.over_limited hdeclared⟩
  have hwf := htrue.supports.wellFormed
  have hclear : M.Clear start s := by
    refine ⟨htrue, ⟨hwf.calls hdeclared, htrue.supports, ?_, ?_⟩, ?_⟩
    · exact fun v d _ hd => hdomain (htrue.supports.domains v d hd)
    · exact fun f d _ hd => hdomain (hwf.codomain f d hd)
    · intro a e he c hc
      obtain rfl : c = e := hc
      exact (hvalues a c he).over_limited hdeclared
  have hstep := Mirroring.indicesDown_inStep allowMissing hclear hop hknown
    (fun q hq a ha => (hdomains q hq a ha).imp fun d hd => ⟨hd.1, hdomain hd.2⟩) fun _ => id
  exact hstep.ends hrun hstart hctx (fun v _ => hbound v) htrue'

namespace NestSample

variable (sample : NestSample)

/-- The loop variables of the roots as their values, and a session with a fresh analyzer. -/
def rootValues : Facts .axis ExprId × Session :=
  let r := (Sweep.loopVars sample.nest.roots).run sample.outcome.2.ctx
  (r.1, ⟨r.2, {}⟩)

/-- The sweep over axes, in the domains that were found. -/
def down : Sweep (Facts .axis ExprId) Unit := indicesDown sample.nest sample.outcome.1 false

/-- The sweep over the dimensions of the axes, in the mirrored domains. -/
def mirroredDown : Sweep (Facts .dim ExprId) Unit :=
  dimValues (sample.nest.mirror dimOf) (sample.outcome.1.mirror dimOf) false

/-- The values of the axes, and the session after that. -/
def values : Facts .axis ExprId × Session :=
  sample.down.outcome sample.rootValues.1 sample.rootValues.2

theorem truthful_fresh {ctx : Context} (hwf : ctx.WellFormed) : Truthful ⟨ctx, {}⟩ :=
  Session.truthful_of_forgotten ⟨hwf, fun v d hd => by simp at hd⟩ (.inr ⟨rfl, rfl, rfl⟩)

variable {sample} in
theorem rootValues_truthful (hwf : sample.rootValues.2.ctx.WellFormed) :
    sample.rootValues.2.Truthful := truthful_fresh hwf

theorem dimValues_mirrors_tiled :
    tiled.down.succeeds tiled.rootValues.1 tiled.rootValues.2 = true ∧
      tiled.values.1.toList.length = 7 ∧
      ∃ values' s', (tiled.mirroredDown.run.run (tiled.rootValues.1.mirror dimOf)).run
          ⟨tiled.values.2.ctx, {}⟩ = ((.ok (), values'), s') ∧
        tiled.values.1.Mirrors dimOf values' := by
  have hsucceeds : tiled.down.succeeds tiled.rootValues.1 tiled.rootValues.2 = true := by
    decide +kernel
  refine ⟨hsucceeds, by decide +kernel, ?_⟩
  have hrun : (tiled.down.run.run tiled.rootValues.1).run tiled.rootValues.2 =
      ((.ok (), tiled.values.1), tiled.values.2) := run_eq_of_succeeds hsucceeds
  have hdomains : ∀ q ∈ tiled.nest.relations, ∀ a ∈ q.consumed ++ q.made,
      ∃ d ∈ tiled.outcome.1[a]?, tiled.rootValues.2.ctx.StoredDomain d := by decide +kernel
  have hvalues : ∀ p ∈ tiled.rootValues.1.toList, tiled.rootValues.2.ctx.Stored p.2 := by
    decide +kernel
  have hdeclared : ∀ i < tiled.rootValues.2.ctx.funs.size,
      tiled.rootValues.2.ctx.Declared ⟨i⟩ := by decide +kernel
  have htrue' : Truthful ⟨tiled.values.2.ctx, {}⟩ := truthful_fresh (by decide +kernel)
  obtain ⟨left, hleft⟩ : ∃ left, tiled.values.2.ctx = left := ⟨_, rfl⟩
  rw [hleft] at htrue' ⊢
  obtain ⟨e, ⟨⟩, -⟩ | ⟨r', values', s', hrun', hsame, hmirrors⟩ :=
    dimValues_mirrors dimOf_injective tiled_reshaped.mirrors
      (Facts.mirrors_mirror dimOf_injective tiled.outcome.1)
      (Facts.mirrors_mirror dimOf_injective tiled.rootValues.1) hdomains
      (fun a e he => hvalues (a, e) (Std.TreeMap.mem_toList_iff_getElem?_eq_some.2 he))
      (fun _ f _ _ _ => Context.forall_fn hdeclared (fun _ => Context.declared_of_default) f)
      (rootValues_truthful (by decide +kernel)) htrue' (fun _ => rfl) hrun
      (.inr (by rw [hleft]; exact .refl left))
  cases hsame
  exact ⟨values', s', hrun', hmirrors⟩

/-- Ten rows are counted from five and fused with four columns. -/
def offset : NestSample := fresh <| of do
  let _ ← (List.range 4).mapM fun k => (declareDim ("d" ++ toString k) .uniform : Build DimId)
  let rows ← Domain.literal 5 10
  let columns ← Domain.literal 0 4
  let i ← declareAxis "i" (some rows) .dataParallel
  let j ← declareAxis "j" (some columns) .dataParallel
  let fused ← ((LoopNest.ofRoots "offset" [i, j]).fuse i j).run
  let (nest, _) ← (fused : Except InferError _)
  Sweep.changeTable fun known => (known.insert i rows).insert j columns
  return nest

theorem offset_reshaped : offset.nest.Reshaped := ⟨by decide +kernel, by decide +kernel⟩

/-- The sweep over dimensions fuses the rows as if they were counted from zero. -/
theorem dimValues_offset :
    offset.rootValues.2.ctx.WellFormed ∧
      offset.nest.Mirrors dimOf (offset.nest.mirror dimOf) ∧
      offset.outcome.1.Mirrors dimOf (offset.outcome.1.mirror dimOf) ∧
      offset.rootValues.1.Mirrors dimOf (offset.rootValues.1.mirror dimOf) ∧
      (∀ a ∈ offset.nest.axes, a ∈ offset.outcome.1) ∧
      ((offset.down.run.run offset.rootValues.1).run offset.rootValues.2).1.1 =
        .error (.nonZeroMin .indicesDown "i" "5") ∧
      ∀ ctx ∈ [offset.rootValues.2.ctx, offset.values.2.ctx],
        offset.mirroredDown.succeeds (offset.rootValues.1.mirror dimOf) ⟨ctx, {}⟩ = true := by
  refine ⟨by decide +kernel, offset_reshaped.mirrors,
    Facts.mirrors_mirror dimOf_injective offset.outcome.1,
    Facts.mirrors_mirror dimOf_injective offset.rootValues.1, by decide +kernel, by decide +kernel,
    by decide +kernel⟩

end NestSample

end LoopBounds
