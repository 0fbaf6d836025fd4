import LoopBounds.Proofs.SetSafety

/-!
# Safety of sweeps

The sweeps that find domains, indices and masks are safe, whatever tables they start from.
-/

namespace LoopBounds

open Tracks

variable {E : Set ExprId} {a b c e : ExprId}

namespace Sweep

variable {σ α : Type} [Mentions σ] [Mentions α] {t : Table} [Keyed t]

theorem query_safe {q : Query α} (h : Safe E q) : Safe E (liftM q : Sweep σ α) :=
  except_lift_safe (state_lift_safe h)

theorem build_safe {b : Build α} (h : Safe E b) : Safe E (liftM b : Sweep σ α) :=
  query_safe (Query.build_safe h)

theorem attempt_safe {b : Attempt α} (h : Safe E b) : Safe E (liftM b : Sweep σ α) := by
  refine Safe.bind (build_safe (σ := σ) h) fun r => ?_
  split
  · next x => exact safe_pure fun c hc => .inr ⟨x, rfl, hc⟩
  · exact throw_safe

theorem context_safe : Safe E (liftM Query.context : Sweep σ Context) :=
  query_safe Query.context_safe

theorem table_safe : Safe E (table : Sweep σ σ) := except_lift_safe state_get_safe

theorem changeTable_safe {change : σ → σ} (h : ∀ t, mentioned (change t) ⊆ E ∪ mentioned t) :
    Safe E (changeTable change) := except_lift_safe (state_modify_safe h)

theorem fetch_safe (pass : Pass) (role : Role) {facts : Facts t α} (key : Handle t)
    (hfacts : mentioned facts ⊆ E) : Safe E (fetch pass role facts key : Sweep σ α) := by
  unfold fetch
  split
  · next x hx => exact safe_pure ((Facts.mentioned_of_getElem? hx).trans hfacts)
  · exact context_safe.bind fun _ => throw_safe

theorem require_safe (allowMissing : Bool) (pass : Pass) (role : Role) {facts : Facts t α}
    (key : Handle t) (hfacts : mentioned facts ⊆ E) :
    Safe E (require allowMissing pass role facts key : Sweep σ (Option α)) := by
  unfold require
  split
  · refine safe_pure ?_
    rintro c ⟨x, hx, hc⟩
    exact hfacts (Facts.mentioned_of_getElem? hx hc)
  · exact (fetch_safe pass role key hfacts).some

/-- What follows a requirement is safe if it is with and without the entry. -/
theorem require_bind_safe {β : Type} [Mentions β] {f : Option α → Sweep σ β} (allowMissing : Bool)
    (pass : Pass) (role : Role) {facts : Facts t α} (key : Handle t) (hfacts : mentioned facts ⊆ E)
    (hnone : Safe E (f none)) (hsome : ∀ x, Safe (E ∪ mentioned x) (f (some x))) :
    Safe E (require allowMissing pass role facts key >>= f) := by
  refine (require_safe allowMissing pass role key hfacts).bind fun x? => ?_
  cases x? with
  | none => exact hnone.weaken Set.subset_union_left
  | some x => exact (hsome x).weaken (Set.union_subset_union_right E fun c hc => ⟨x, rfl, hc⟩)

theorem skip_safe : Safe E (pure () : Sweep σ Unit) := safe_pure (Set.empty_subset _)

theorem agrees_safe {d d' : Domain} (hd : mentioned d ⊆ E) (hd' : mentioned d' ⊆ E) :
    Safe E (agrees d d' : Sweep σ Bool) := by
  have hextent := (Domain.mentioned_subset_iff.1 hd).2
  have hextent' := (Domain.mentioned_subset_iff.1 hd').2
  unfold agrees
  split
  · exact safe_pure (Set.empty_subset _)
  refine (build_safe (Build.arith_safe .sub hextent' hextent)).bind fun diff => ?_
  refine (attempt_safe (Attempt.inline_safe false (.inr rfl))).bind fun diff' => ?_
  refine (build_safe (Build.constantLike_safe 0 diff')).bind fun zero => ?_
  refine (build_safe (Build.compare_safe .eq (.inl (.inr rfl)) (.inr rfl))).bind fun same => ?_
  refine context_safe.bind fun ctx => ?_
  split
  · exact query_safe (Query.proves_safe (.inl (.inr rfl)))
  · exact safe_pure (Set.empty_subset _)

theorem setDomain_safe (key : Handle t) {d : Domain} (hd : mentioned d ⊆ E) :
    Safe E (setDomain key d) := by
  refine table_safe.bind fun known => ?_
  split
  · refine (changeTable_safe fun known' c hc => ?_).bind fun _ => context_safe.bind fun ctx => ?_
    · rcases Facts.mentioned_insert _ _ _ hc with hc | hc
      exacts [.inr hc, .inl (.inl (hd hc))]
    · split
      · exact query_safe (Query.learn_safe _ fun c hc => .inl (.inl (.inl (hd hc))))
      · exact skip_safe
  · next existing hexisting =>
    have hexisting' : mentioned existing ⊆ E ∪ mentioned known := fun c hc =>
      .inr (Facts.mentioned_of_getElem? hexisting hc)
    refine (agrees_safe hexisting' fun c hc => .inl (hd hc)).bind fun same => ?_
    split
    · exact context_safe.bind fun _ => throw_safe
    · exact skip_safe

theorem setValue_safe (key : Handle t) (he : e ∈ E) : Safe E (setValue key e) := by
  refine table_safe.bind fun known => ?_
  split
  · refine changeTable_safe fun known' c hc => ?_
    rcases Facts.mentioned_insert _ _ _ hc with hc | rfl
    exacts [.inr hc, .inl (.inl he)]
  · next existing hexisting =>
    have hexisting' : existing ∈ E ∪ mentioned known :=
      .inr (Facts.mentioned_of_getElem? (x := existing) hexisting rfl)
    refine (query_safe (Query.provesEqual_safe hexisting' (.inl he))).bind fun same => ?_
    split
    · exact context_safe.bind fun _ => throw_safe
    · exact skip_safe

theorem requireZeroMin_safe (pass : Pass) (key : Handle t) (d : Domain) :
    Safe E (requireZeroMin pass key d : Sweep σ Unit) := by
  refine context_safe.bind fun ctx => ?_
  split
  · exact throw_safe
  · exact skip_safe

theorem ceilDiv_safe (ha : a ∈ E) (hb : b ∈ E) : Safe E (ceilDiv a b : Sweep σ ExprId) := by
  refine (attempt_safe (Attempt.divide_safe .floorMod ha hb)).bind fun rest => ?_
  refine (build_safe (Build.constantLike_safe 0 rest)).bind fun zero => ?_
  refine (build_safe (Build.compare_safe .eq (.inl (.inr rfl)) (.inr rfl))).bind fun divisible => ?_
  refine (query_safe (Query.proves_safe (.inr rfl))).bind fun exact => ?_
  have hknown : E ⊆ E ∪ mentioned rest ∪ mentioned zero ∪ mentioned divisible ∪ mentioned exact :=
    fun c hc => .inl (.inl (.inl (.inl hc)))
  dsimp only
  split
  · exact (attempt_safe (Attempt.divide_safe .floorDiv (hknown ha) (hknown hb))).bind fun _ =>
      query_safe (Query.simplify_safe (.inr rfl))
  · refine (build_safe (Build.arith_safe .add (hknown ha) (hknown hb))).bind fun sum => ?_
    refine (build_safe (Build.addConst_safe (-1) (.inr rfl))).bind fun bumped => ?_
    exact (attempt_safe (Attempt.divide_safe .floorDiv (.inr rfl) (.inl (.inl (hknown hb))))).bind
      fun _ => query_safe (Query.simplify_safe (.inr rfl))

/-! ## Domains -/

/-- A domain that starts at zero. -/
theorem setExtent_safe (key : Handle t) (he : e ∈ E) :
    Safe E (do setDomain key (← Domain.ofExtent e) : Sweep (Facts t Domain) Unit) :=
  (build_safe (Domain.ofExtent_safe he)).bind fun _ => setDomain_safe key Set.subset_union_right

theorem reshapeDomains_safe (pass : Pass) (allowMissing : Bool) {r : Reshape (Handle t)}
    (hr : mentioned r ⊆ E) : Safe E (reshapeDomains pass allowMissing r) := by
  cases r with
  | split parent outer inner size =>
      unfold reshapeDomains
      refine table_safe.bind fun known => ?_
      refine require_bind_safe _ _ _ parent Set.subset_union_right skip_safe fun whole => ?_
      have hsize : size.extent ∈ E ∪ mentioned known ∪ mentioned whole := .inl (.inl (hr rfl))
      have hwhole : whole.extent ∈ E ∪ mentioned known ∪ mentioned whole := .inr (.inr rfl)
      refine (build_safe (Domain.ofExtent_safe hsize)).bind fun d => ?_
      refine (setDomain_safe _ Set.subset_union_right).bind fun _ => ?_
      exact (ceilDiv_safe (.inl (.inl hwhole)) (.inl (.inl hsize))).bind fun count =>
        setExtent_safe _ (.inr rfl)
  | fuse outer inner fused =>
      unfold reshapeDomains
      refine table_safe.bind fun known => ?_
      refine require_bind_safe _ _ _ outer Set.subset_union_right skip_safe fun outerDomain => ?_
      refine table_safe.bind fun known' => ?_
      refine require_bind_safe _ _ _ inner Set.subset_union_right skip_safe fun innerDomain => ?_
      refine (build_safe (Build.arith_safe .mul (.inl (.inl (.inr (.inr rfl))))
        (.inr (.inr rfl)))).bind fun product => ?_
      exact (query_safe (Query.simplify_safe (.inr rfl))).bind fun extent =>
        setExtent_safe fused (.inr rfl)

theorem relationDomains_safe (allowMissing : Bool) {r : AxisRelation} (hr : mentioned r ⊆ E) :
    Safe E (relationDomains allowMissing r) := by
  cases r with
  | reshape r => exact reshapeDomains_safe .domains allowMissing hr
  | rebase parent rebased =>
      unfold relationDomains
      refine table_safe.bind fun known => ?_
      exact require_bind_safe _ _ _ parent Set.subset_union_right skip_safe fun d =>
        setExtent_safe rebased (.inr (.inr rfl))
  | singleton a =>
      exact (build_safe (Domain.literal_safe 0 1)).bind fun _ =>
        setDomain_safe a Set.subset_union_right

theorem threadDomain_safe (allowMissing : Bool) (a thread : AxisId) :
    Safe E (threadDomain allowMissing a thread) := by
  refine table_safe.bind fun known => ?_
  exact require_bind_safe _ _ _ a Set.subset_union_right skip_safe fun d =>
    setDomain_safe thread Set.subset_union_right

theorem mentioned_of_mem {α : Type} [Mentions α] {xs : List α} {x : α} (hx : x ∈ xs)
    (hxs : mentioned xs ⊆ E) : mentioned x ⊆ E := fun _ hc => hxs ⟨x, hx, hc⟩

theorem domains_safe {nest : LoopNest} (allowMissing : Bool) (hnest : mentioned nest ⊆ E) :
    Safe E (domains nest allowMissing) := by
  refine (safe_forM fun r hr => relationDomains_safe allowMissing
    (mentioned_of_mem hr hnest)).bind fun _ => ?_
  exact safe_forM fun p _ => threadDomain_safe allowMissing p.1 p.2

theorem replacementDomain_safe (definition : DimDefinition) (old : Domain) :
    Safe E (replacementDomain definition old) := by
  refine context_safe.bind fun ctx => ?_
  split
  · exact build_safe (Domain.literal_safe 0 1)
  · split
    · next declared hdeclared =>
      exact safe_pure fun c hc => .inr (domain_mem hdeclared hc)
    · exact throw_safe

theorem except_safe {r : Except InferError α} (hr : mentioned r ⊆ E) :
    Safe E (liftM r : Sweep σ α) := by
  cases r with
  | ok x => exact safe_pure fun c hc => hr ⟨x, rfl, hc⟩
  | error e => exact throw_safe

theorem changeDomains_safe (op : Operation) (allowMissing : Bool) (old : DimId) :
    Safe E (changeDomains op allowMissing old) := by
  refine table_safe.bind fun known => ?_
  refine require_bind_safe _ _ _ old Set.subset_union_right skip_safe fun d => ?_
  refine context_safe.bind fun ctx => ?_
  refine Safe.bind (except_safe fun c ⟨_, _, hc⟩ => hc.elim) fun definition => ?_
  refine (replacementDomain_safe definition d).bind fun replacement => ?_
  refine context_safe.bind fun ctx' => ?_
  exact safe_forM fun d _ => setDomain_safe d fun c hc => .inl (.inr hc)

theorem dimDomains_safe {op : Operation} (allowMissing : Bool) (hop : mentioned op ⊆ E) :
    Safe E (dimDomains op allowMissing) := by
  refine safe_forM fun r hr => ?_
  have hr' := mentioned_of_mem hr hop
  cases r with
  | reshape r => exact reshapeDomains_safe .dimDomains allowMissing hr'
  | change old new => exact safe_forM fun d _ => changeDomains_safe op allowMissing d

/-! ## Indices -/

theorem combineSplit_safe (allowMissing : Bool) {known : Facts .axis Domain}
    (parent outer inner : AxisId) (hknown : mentioned known ⊆ E) :
    Safe E (combineSplit allowMissing known parent outer inner) := by
  refine table_safe.bind fun values => ?_
  refine require_bind_safe _ _ _ outer Set.subset_union_right skip_safe fun x => ?_
  refine table_safe.bind fun values' => ?_
  refine require_bind_safe _ _ _ inner Set.subset_union_right skip_safe fun y => ?_
  refine require_bind_safe _ _ _ inner (fun c hc => .inl (.inl (.inl (.inl (hknown hc)))))
    skip_safe fun innerDomain => ?_
  refine require_bind_safe _ _ _ parent (fun c hc => .inl (.inl (.inl (.inl (.inl (hknown hc))))))
    skip_safe fun parentDomain => ?_
  refine (build_safe (Build.arith_safe .mul (by simp) (by simp))).bind fun product => ?_
  refine (build_safe (Build.arith_safe .add (.inr rfl) (by simp))).bind fun sum => ?_
  refine (build_safe (Build.offset_safe (.inr rfl) (by simp))).bind fun value => ?_
  exact setValue_safe parent (.inr rfl)

theorem takeApartFused_safe (allowMissing : Bool) {known : Facts .axis Domain}
    (outer inner fused : AxisId) (hknown : mentioned known ⊆ E) :
    Safe E (takeApartFused allowMissing known outer inner fused) := by
  refine table_safe.bind fun values => ?_
  refine require_bind_safe _ _ _ fused Set.subset_union_right skip_safe fun x => ?_
  refine require_bind_safe _ _ _ outer (fun c hc => .inl (.inl (hknown hc))) skip_safe
    fun outerDomain => ?_
  refine require_bind_safe _ _ _ inner (fun c hc => .inl (.inl (.inl (hknown hc)))) skip_safe
    fun innerDomain => ?_
  refine (attempt_safe (Attempt.divide_safe .floorDiv (by simp) (by simp))).bind fun quotient => ?_
  refine (build_safe (Build.offset_safe (.inr rfl) (by simp))).bind fun outerValue => ?_
  refine (attempt_safe (Attempt.divide_safe .floorMod (by simp) (by simp))).bind fun rest => ?_
  refine (build_safe (Build.offset_safe (.inr rfl) (by simp))).bind fun innerValue => ?_
  exact (setValue_safe outer (by simp)).bind fun _ => setValue_safe inner (by simp)

theorem relationIndicesUp_safe (allowMissing : Bool) {known : Facts .axis Domain}
    (hknown : mentioned known ⊆ E) (r : AxisRelation) :
    Safe E (relationIndicesUp allowMissing known r) := by
  match r with
  | .reshape (.split parent outer inner _) =>
      exact combineSplit_safe allowMissing parent outer inner hknown
  | .reshape (.fuse outer inner fused) =>
      exact takeApartFused_safe allowMissing outer inner fused hknown
  | .rebase parent rebased =>
      unfold relationIndicesUp
      refine table_safe.bind fun values => ?_
      refine require_bind_safe _ _ _ rebased Set.subset_union_right skip_safe fun x => ?_
      refine require_bind_safe _ _ _ parent (fun c hc => .inl (.inl (hknown hc))) skip_safe
        fun d => ?_
      exact (build_safe (Build.offset_safe (by simp) (by simp))).bind fun value =>
        setValue_safe parent (.inr rfl)
  | .singleton _ => exact skip_safe

theorem indicesUp_safe (nest : LoopNest) {known : Facts .axis Domain} (allowMissing : Bool)
    (hknown : mentioned known ⊆ E) : Safe E (indicesUp nest known allowMissing) :=
  safe_forM fun r _ => relationIndicesUp_safe allowMissing hknown r

theorem takeApartSplit_safe (pass : Pass) (allowMissing : Bool) {known : Facts t Domain}
    (parent outer inner : Handle t) (hknown : mentioned known ⊆ E) :
    Safe E (takeApartSplit pass allowMissing known parent outer inner) := by
  refine table_safe.bind fun values => ?_
  refine require_bind_safe _ _ _ parent Set.subset_union_right skip_safe fun x => ?_
  refine require_bind_safe _ _ _ inner (fun c hc => .inl (.inl (hknown hc))) skip_safe
    fun d => ?_
  refine (requireZeroMin_safe pass inner d).bind fun _ => ?_
  refine (attempt_safe (Attempt.divide_safe .floorDiv (by simp) (by simp))).bind
    fun outerValue => ?_
  refine (attempt_safe (Attempt.divide_safe .floorMod (by simp) (by simp))).bind
    fun innerValue => ?_
  exact (setValue_safe outer (by simp)).bind fun _ => setValue_safe inner (by simp)

theorem combineFused_safe {d : Domain} (fused : Handle t) (ha : a ∈ E) (hb : b ∈ E)
    (hd : mentioned d ⊆ E) : Safe E (combineFused a b d fused) := by
  refine (build_safe (Build.arith_safe .mul ha (hd (.inr rfl)))).bind fun product => ?_
  exact (build_safe (Build.arith_safe .add (.inr rfl) (.inl hb))).bind fun value =>
    setValue_safe fused (.inr rfl)

theorem relationIndicesDown_safe (allowMissing : Bool) {known : Facts .axis Domain}
    (hknown : mentioned known ⊆ E) (r : AxisRelation) :
    Safe E (relationIndicesDown allowMissing known r) := by
  match r with
  | .reshape (.split parent outer inner _) =>
      exact takeApartSplit_safe .indicesDown allowMissing parent outer inner hknown
  | .reshape (.fuse outer inner fused) =>
      unfold relationIndicesDown
      refine table_safe.bind fun values => ?_
      refine require_bind_safe _ _ _ outer Set.subset_union_right skip_safe fun x => ?_
      refine table_safe.bind fun values' => ?_
      refine require_bind_safe _ _ _ inner Set.subset_union_right skip_safe fun y => ?_
      refine require_bind_safe _ _ _ outer (fun c hc => .inl (.inl (.inl (.inl (hknown hc)))))
        skip_safe fun outerDomain => ?_
      refine require_bind_safe _ _ _ inner
        (fun c hc => .inl (.inl (.inl (.inl (.inl (hknown hc)))))) skip_safe fun innerDomain => ?_
      refine (requireZeroMin_safe _ outer outerDomain).bind fun _ => ?_
      refine (requireZeroMin_safe _ inner innerDomain).bind fun _ => ?_
      exact combineFused_safe fused (by simp) (by simp) fun c hc => .inl (.inl (.inr hc))
  | .rebase parent rebased =>
      unfold relationIndicesDown
      refine table_safe.bind fun values => ?_
      refine require_bind_safe _ _ _ parent Set.subset_union_right skip_safe fun x => ?_
      refine require_bind_safe _ _ _ parent (fun c hc => .inl (.inl (hknown hc))) skip_safe
        fun d => ?_
      exact (requireZeroMin_safe _ parent d).bind fun _ => setValue_safe rebased (by simp)
  | .singleton a =>
      refine context_safe.bind fun ctx => ?_
      refine (build_safe (Build.constant_safe 0 _)).bind fun zero => ?_
      refine changeTable_safe fun values c hc => ?_
      rcases Facts.mentioned_insert _ _ _ hc with hc | rfl
      exacts [.inr hc, .inl (.inr rfl)]

theorem indicesDown_safe (nest : LoopNest) {known : Facts .axis Domain} (allowMissing : Bool)
    (hknown : mentioned known ⊆ E) : Safe E (indicesDown nest known allowMissing) :=
  safe_forM fun r _ => relationIndicesDown_safe allowMissing hknown r

theorem changeValues_safe (op : Operation) (allowMissing : Bool) (new : List DimId) (old : DimId) :
    Safe E (changeValues op allowMissing new old) := by
  unfold changeValues
  split
  · exact skip_safe
  refine table_safe.bind fun values => ?_
  refine require_bind_safe _ _ _ old Set.subset_union_right skip_safe fun x => ?_
  refine context_safe.bind fun ctx => ?_
  refine Safe.bind (except_safe fun c ⟨_, _, hc⟩ => hc.elim) fun definition => ?_
  refine (attempt_safe (Attempt.invert_safe definition.value (by simp))).bind fun solved => ?_
  exact safe_forM fun p hp => setValue_safe p.1 (.inr ⟨p, hp, .inr rfl⟩)

theorem relationDimValues_safe (op : Operation) (allowMissing : Bool) {known : Facts .dim Domain}
    (hknown : mentioned known ⊆ E) (r : DimRelation) :
    Safe E (relationDimValues op allowMissing known r) := by
  match r with
  | .reshape (.split parent outer inner _) =>
      exact takeApartSplit_safe .dimValues allowMissing parent outer inner hknown
  | .reshape (.fuse outer inner fused) =>
      unfold relationDimValues
      refine table_safe.bind fun values => ?_
      refine require_bind_safe _ _ _ outer Set.subset_union_right skip_safe fun x => ?_
      refine table_safe.bind fun values' => ?_
      refine require_bind_safe _ _ _ inner Set.subset_union_right skip_safe fun y => ?_
      refine require_bind_safe _ _ _ inner (fun c hc => .inl (.inl (.inl (.inl (hknown hc)))))
        skip_safe fun d => ?_
      exact combineFused_safe fused (by simp) (by simp) Set.subset_union_right
  | .change old new => exact safe_forM fun d _ => changeValues_safe op allowMissing new d

theorem dimValues_safe (op : Operation) {known : Facts .dim Domain} (allowMissing : Bool)
    (hknown : mentioned known ⊆ E) : Safe E (dimValues op known allowMissing) :=
  safe_forM fun r _ => relationDimValues_safe op allowMissing hknown r

/-! ## Masks -/

theorem mentioned_masks (masks : Masks) : mentioned masks ⊆ E := fun _ ⟨_, _, _, hc⟩ => hc.elim

theorem joinMask_safe (a : AxisId) (bits : UInt32) : Safe E (joinMask a bits) :=
  changeTable_safe fun _ => mentioned_masks _

theorem eitherMask_safe (allowMissing : Bool) (pass : Pass) (key outer inner : AxisId) :
    Safe E (eitherMask allowMissing pass key outer inner) := by
  refine table_safe.bind fun masks => ?_
  split
  · exact safe_pure fun _ ⟨_, _, hc⟩ => hc.elim
  split
  · exact safe_pure fun _ ⟨_, _, hc⟩ => hc.elim
  · exact context_safe.bind fun _ => throw_safe

theorem relationMasksUp_safe (allowMissing : Bool) (r : AxisRelation) :
    Safe E (relationMasksUp allowMissing r) := by
  match r with
  | .reshape (.split parent outer inner _) =>
      refine (eitherMask_safe allowMissing .masksUp parent outer inner).bind fun bits? => ?_
      split
      · exact joinMask_safe parent _
      · exact skip_safe
  | .reshape (.fuse outer inner fused) =>
      unfold relationMasksUp
      refine table_safe.bind fun masks => ?_
      exact require_bind_safe _ _ _ fused (mentioned_masks masks) skip_safe fun bits =>
        (joinMask_safe outer _).bind fun _ => joinMask_safe inner _
  | .rebase parent rebased =>
      unfold relationMasksUp
      refine table_safe.bind fun masks => ?_
      exact require_bind_safe _ _ _ rebased (mentioned_masks masks) skip_safe fun bits =>
        joinMask_safe parent _
  | .singleton _ => exact skip_safe

theorem masksUp_safe (nest : LoopNest) (allowMissing : Bool) : Safe E (masksUp nest allowMissing) :=
  safe_forM fun r _ => relationMasksUp_safe allowMissing r

theorem relationMasksDown_safe (allowMissing : Bool) (r : AxisRelation) :
    Safe E (relationMasksDown allowMissing r) := by
  match r with
  | .reshape (.split parent outer inner _) =>
      unfold relationMasksDown
      refine table_safe.bind fun masks => ?_
      exact require_bind_safe _ _ _ parent (mentioned_masks masks) skip_safe fun bits =>
        (joinMask_safe outer _).bind fun _ => joinMask_safe inner _
  | .reshape (.fuse outer inner fused) =>
      refine (eitherMask_safe allowMissing .masksDown fused outer inner).bind fun bits? => ?_
      split
      · exact joinMask_safe fused _
      · exact skip_safe
  | .rebase parent rebased =>
      unfold relationMasksDown
      refine table_safe.bind fun masks => ?_
      exact require_bind_safe _ _ _ parent (mentioned_masks masks) skip_safe fun bits =>
        joinMask_safe rebased _
  | .singleton a => exact joinMask_safe a 0

theorem masksDown_safe (nest : LoopNest) (allowMissing : Bool) :
    Safe E (masksDown nest allowMissing) :=
  safe_forM fun r _ => relationMasksDown_safe allowMissing r

end Sweep

end LoopBounds
