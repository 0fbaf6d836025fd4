import LoopBounds.Proofs.SweepSafety

/-!
# Safety of inference and scheduling

Value sets of axes, guards, bounds of nests and scheduling steps are safe.
-/

namespace LoopBounds

open Tracks

variable {E : Set ExprId} {a b c e : ExprId}

/-! ## Value sets of axes -/

namespace Sweep

variable {σ α : Type} [Mentions σ] [Mentions α]

theorem axisSets_safe : Safe E axisSets :=
  table_safe.bind fun _ => safe_pure fun _ hc => .inr hc

theorem enterSet_safe (a : AxisId) {s : ValueSet} (hs : mentioned s ⊆ E) :
    Safe E (enterSet a s) := by
  refine changeTable_safe fun table c hc => ?_
  rcases Facts.mentioned_insert table.sets a s hc with hc | hc
  exacts [.inr hc, .inl (hs hc)]

theorem domainFor_safe {known : Facts .axis Domain} (p : Endpoint) (a : AxisId)
    (hknown : mentioned known ⊆ E) : Safe E (domainFor known p a) :=
  fetch_safe .setsUp (.domainOf p) a hknown

theorem splitSets_safe {known : Facts .axis Domain} (parent outer inner : AxisId)
    {outerSet innerSet : ValueSet} (hknown : mentioned known ⊆ E) (houter : mentioned outerSet ⊆ E)
    (hinner : mentioned innerSet ⊆ E) :
    Safe E (splitSets known parent outer inner outerSet innerSet) := by
  refine (domainFor_safe .parent parent hknown).bind fun parentDomain => ?_
  refine (domainFor_safe .outer outer fun c hc => .inl (hknown hc)).bind fun outerDomain => ?_
  refine (domainFor_safe .inner inner fun c hc => .inl (.inl (hknown hc))).bind
    fun innerDomain => ?_
  have hrest : ∀ (whole : Bool) {K : Set ExprId},
      E ∪ mentioned parentDomain ∪ mentioned outerDomain ∪ mentioned innerDomain ⊆ K → Safe K (do
        if whole then ValueSet.ofDomain parentDomain
        else
          let outerVar ← Build.axis outer
          let innerVar ← Build.axis inner
          let index ← Build.add (← Build.mul outerVar innerDomain.extent) innerVar
          let index ← Build.offset index parentDomain.min
          let ctx ← Query.context
          let sets := (Env.empty.set (ctx.axisVar outer) outerSet).set (ctx.axisVar inner) innerSet
          Query.valuesOf sets index : Sweep SetTable ValueSet) := by
    intro whole K hK
    split
    · exact build_safe (ValueSet.ofDomain_safe fun c hc => hK (.inl (.inl (.inr hc))))
    have hmin : parentDomain.min ∈ K := hK (.inl (.inl (.inr (.inl rfl))))
    have hextent : innerDomain.extent ∈ K := hK (.inr (.inr rfl))
    refine (build_safe (Build.axis_safe outer)).bind fun outerVar => ?_
    refine (build_safe (Build.axis_safe inner)).bind fun innerVar => ?_
    refine (build_safe (Build.arith_safe .mul (by simp) (.inl (.inl hextent)))).bind
      fun product => ?_
    refine (build_safe (Build.arith_safe .add (.inr rfl) (by simp))).bind fun sum => ?_
    refine (build_safe (Build.offset_safe (.inr rfl) (.inl (.inl (.inl (.inl hmin)))))).bind
      fun index => ?_
    refine context_safe.bind fun ctx => query_safe (Query.valuesOf_safe ?_ (by simp))
    intro c hc
    have hc : c ∈ E := by
      rcases mentioned_set hc with hc | hc
      · rcases mentioned_set hc with hc | hc
        · simp at hc
        · exact houter hc
      · exact hinner hc
    exact .inl (.inl (.inl (.inl (.inl (.inl (hK (.inl (.inl (.inl hc)))))))))
  refine (query_safe (ValueSet.coversExactly_safe (fun c hc => .inl (.inl (.inl (houter hc))))
    fun c hc => .inl (.inr hc))).bind fun whole => ?_
  dsimp only
  split
  · refine (query_safe (ValueSet.coversExactly_safe
      (fun c hc => .inl (.inl (.inl (.inl (hinner hc))))) fun c hc => .inl (.inr hc))).bind
      fun whole => hrest whole fun c hc => .inl (.inl hc)
  · exact Safe.bind (safe_pure (Set.empty_subset _)) fun whole =>
      hrest whole fun c hc => .inl (.inl hc)

theorem rebaseSets_safe {known : Facts .axis Domain} (parent rebased : AxisId) {s : ValueSet}
    (hknown : mentioned known ⊆ E) (hs : mentioned s ⊆ E) :
    Safe E (rebaseSets known parent rebased s) := by
  refine (domainFor_safe .parent parent hknown).bind fun parentDomain => ?_
  refine (domainFor_safe .rebased rebased fun c hc => .inl (hknown hc)).bind
    fun rebasedDomain => ?_
  refine (query_safe (ValueSet.coversExactly_safe (fun c hc => .inl (.inl (hs hc)))
    fun c hc => .inr hc)).bind fun whole => ?_
  split
  · exact build_safe (ValueSet.ofDomain_safe fun c hc => .inl (.inl (.inr hc)))
  · refine (build_safe (Build.axis_safe rebased)).bind fun rebasedVar => ?_
    refine (build_safe (Build.offset_safe (.inr rfl) (by simp))).bind fun index => ?_
    refine context_safe.bind fun ctx => query_safe (Query.valuesOf_safe (fun c hc => ?_) (by simp))
    rcases mentioned_set hc with hc | hc
    · simp at hc
    · exact .inl (.inl (.inl (.inl (.inl (.inl (hs hc))))))

theorem divides_safe (ha : a ∈ E) (hb : b ∈ E) : Safe E (divides a b) :=
  (attempt_safe (Attempt.divide_safe .floorMod hb ha)).bind fun _ =>
    (query_safe (Query.simplify_safe (.inr rfl))).bind fun _ => context_safe.bind fun _ =>
      safe_pure (Set.empty_subset _)

theorem dividesBoth_safe (ha : a ∈ E) (hb : b ∈ E) (hc : c ∈ E) : Safe E (dividesBoth a b c) := by
  refine (divides_safe ha hb).bind fun first => ?_
  split
  · exact divides_safe (.inl ha) (.inl hc)
  · exact safe_pure (Set.empty_subset _)

theorem outerIndex_safe {d : Domain} (hd : mentioned d ⊆ E) (ha : a ∈ E) (hb : b ∈ E) :
    Safe E (outerIndex d a b) :=
  (attempt_safe (Attempt.divide_safe .floorDiv hb ha)).bind fun _ =>
    build_safe (Build.offset_safe (.inr rfl) (.inl (hd (.inl rfl))))

theorem innerIndex_safe {d : Domain} (hd : mentioned d ⊆ E) (ha : a ∈ E) (hb : b ∈ E) :
    Safe E (innerIndex d a b) :=
  (attempt_safe (Attempt.divide_safe .floorMod hb ha)).bind fun _ =>
    build_safe (Build.offset_safe (.inr rfl) (.inl (hd (.inl rfl))))

theorem fusedInnerSet_safe (name : String) {d : Domain} (hd : mentioned d ⊆ E) (ha : a ∈ E)
    (hb : b ∈ E) : Safe E (fusedInnerSet name d a b) := by
  have hextent : d.extent ∈ E := hd (.inr rfl)
  refine (build_safe (Build.arith_safe .sub hb ha)).bind fun width => ?_
  refine (build_safe (Build.addConst_safe 1 (.inr rfl))).bind fun span => ?_
  refine (query_safe (Query.simplify_safe (.inr rfl))).bind fun span => ?_
  refine (dividesBoth_safe (.inr rfl) (.inl (.inl (.inl hextent))) (.inl (.inl (.inl ha)))).bind
    fun aligned => ?_
  split
  · refine (innerIndex_safe (fun c hc => .inl (.inl (.inl (.inl (hd hc)))))
      (.inl (.inl (.inl (.inl hextent)))) (.inl (.inl (.inl (.inl ha))))).bind fun first => ?_
    refine (innerIndex_safe (fun c hc => .inl (.inl (.inl (.inl (.inl (hd hc))))))
      (.inl (.inl (.inl (.inl (.inl hextent))))) (.inl (.inl (.inl (.inl (.inl hb)))))).bind
      fun last => ?_
    refine (query_safe (Query.simplify_safe (.inl (.inr rfl)))).bind fun first' => ?_
    refine (query_safe (Query.simplify_safe (.inl (.inr rfl)))).bind fun last' => ?_
    exact safe_pure (ValueSet.mentioned_between (.inl (.inr rfl)) (.inr rfl))
  · refine (dividesBoth_safe (.inl (.inl (.inl (.inl hextent)))) (.inl (.inr rfl))
      (.inl (.inl (.inl (.inl ha))))).bind fun aligned' => ?_
    dsimp only
    split
    · refine context_safe.bind fun ctx => ?_
      refine Safe.bind (changeTable_safe fun table c hc => .inr hc) fun _ => ?_
      exact build_safe (ValueSet.ofDomain_safe fun c hc =>
        .inl (.inl (.inl (.inl (.inl (.inl (.inl (hd hc))))))))
    · exact build_safe (ValueSet.ofDomain_safe fun c hc => .inl (.inl (.inl (.inl (.inl (hd hc))))))

theorem bothDomains_safe {d d' : Domain} (hd : mentioned d ⊆ E) (hd' : mentioned d' ⊆ E) :
    Safe E (do return (← ValueSet.ofDomain d, ← ValueSet.ofDomain d') :
      Sweep SetTable (ValueSet × ValueSet)) := by
  refine (build_safe (ValueSet.ofDomain_safe hd)).bind fun s => ?_
  refine (build_safe (ValueSet.ofDomain_safe fun c hc => .inl (hd' hc))).bind fun t => ?_
  exact safe_pure (Set.union_subset (fun c hc => .inl (.inr hc)) fun c hc => .inr hc)

/-- Two expressions are simplified one after the other. -/
theorem simplifyBoth_safe {f : ExprId → ExprId → α} (ha : a ∈ E) (hb : b ∈ E)
    (hf : ∀ {x y : ExprId} {K : Set ExprId}, x ∈ K → y ∈ K → mentioned (f x y) ⊆ K) :
    Safe E (do return f (← Query.simplify a) (← Query.simplify b) : Sweep σ α) := by
  refine (query_safe (Query.simplify_safe ha)).bind fun x => ?_
  refine (query_safe (Query.simplify_safe (.inl hb))).bind fun y => ?_
  exact safe_pure (hf (.inl (.inr rfl)) (.inr rfl))

theorem fuseSets_safe {known : Facts .axis Domain} (outer inner fused : AxisId) {s : ValueSet}
    (hknown : mentioned known ⊆ E) (hs : mentioned s ⊆ E) :
    Safe E (fuseSets known outer inner fused s) := by
  refine (domainFor_safe .outer outer hknown).bind fun outerDomain => ?_
  refine (domainFor_safe .inner inner fun c hc => .inl (hknown hc)).bind fun innerDomain => ?_
  refine (domainFor_safe .fused fused fun c hc => .inl (.inl (hknown hc))).bind
    fun fusedDomain => ?_
  refine (query_safe (ValueSet.coversExactly_safe (fun c hc => .inl (.inl (.inl (hs hc))))
    fun c hc => .inr hc)).bind fun whole => ?_
  generalize hK : E ∪ mentioned outerDomain ∪ mentioned innerDomain ∪ mentioned fusedDomain ∪
    mentioned whole = K
  have houter : mentioned outerDomain ⊆ K := hK ▸ fun c hc => .inl (.inl (.inl (.inr hc)))
  have hinner : mentioned innerDomain ⊆ K := hK ▸ fun c hc => .inl (.inl (.inr hc))
  have hs : mentioned s ⊆ K := hK ▸ fun c hc => .inl (.inl (.inl (.inl (hs hc))))
  have hfactor : innerDomain.extent ∈ K := hinner (.inr rfl)
  split
  · exact bothDomains_safe houter hinner
  dsimp only
  split
  · next value hvalue =>
    have hvalue : value ∈ K := ValueSet.point?_mem hvalue hs
    refine (outerIndex_safe houter hfactor hvalue).bind fun x => ?_
    refine (innerIndex_safe (fun c hc => .inl (hinner hc)) (.inl hfactor) (.inl hvalue)).bind
      fun y => ?_
    exact simplifyBoth_safe (f := fun x y => (ValueSet.point x, ValueSet.point y)) (.inl (.inr rfl))
      (.inr rfl) fun hx hy => Set.union_subset (ValueSet.mentioned_point hx)
        (ValueSet.mentioned_point hy)
  · next lo hi _ hlo hhi =>
    have hlo : lo ∈ K := hs (.inl ⟨lo, hlo, rfl⟩)
    have hhi : hi ∈ K := hs (.inr ⟨hi, hhi, rfl⟩)
    refine (outerIndex_safe houter hfactor hlo).bind fun x => ?_
    refine (outerIndex_safe (fun c hc => .inl (houter hc)) (.inl hfactor) (.inl hhi)).bind
      fun y => ?_
    refine (query_safe (Query.simplify_safe (.inl (.inr rfl)))).bind fun x' => ?_
    refine (query_safe (Query.simplify_safe (.inl (.inr rfl)))).bind fun y' => ?_
    refine context_safe.bind fun ctx => ?_
    refine (fusedInnerSet_safe _ (fun c hc => .inl (.inl (.inl (.inl (.inl (hinner hc))))))
      (.inl (.inl (.inl (.inl (.inl hlo))))) (.inl (.inl (.inl (.inl (.inl hhi)))))).bind
      fun innerSet => safe_pure ?_
    exact Set.union_subset (ValueSet.mentioned_between (by simp) (by simp)) fun c hc => .inr hc
  · exact bothDomains_safe houter hinner

theorem relationSets_safe {known : Facts .axis Domain} (hknown : mentioned known ⊆ E)
    (r : AxisRelation) : Safe E (relationSets known r) := by
  match r with
  | .reshape (.split parent outer inner _) =>
      unfold relationSets
      refine axisSets_safe.bind fun sets => ?_
      refine (fetch_safe .setsUp _ outer Set.subset_union_right).bind fun outerSet => ?_
      refine axisSets_safe.bind fun sets' => ?_
      refine (fetch_safe .setsUp _ inner Set.subset_union_right).bind fun innerSet => ?_
      refine (splitSets_safe parent outer inner
        (fun c hc => .inl (.inl (.inl (.inl (hknown hc))))) (fun c hc => .inl (.inl (.inr hc)))
        fun c hc => .inr hc).bind fun parentSet => ?_
      exact enterSet_safe parent Set.subset_union_right
  | .reshape (.fuse outer inner fused) =>
      unfold relationSets
      refine axisSets_safe.bind fun sets => ?_
      refine (fetch_safe .setsUp _ fused Set.subset_union_right).bind fun fusedSet => ?_
      refine (fuseSets_safe outer inner fused (fun c hc => .inl (.inl (hknown hc)))
        fun c hc => .inr hc).bind fun parts => ?_
      refine (enterSet_safe outer fun c hc => .inr (.inl hc)).bind fun _ => ?_
      exact enterSet_safe inner fun c hc => .inl (.inr (.inr hc))
  | .rebase parent rebased =>
      unfold relationSets
      refine axisSets_safe.bind fun sets => ?_
      refine (fetch_safe .setsUp _ rebased Set.subset_union_right).bind fun rebasedSet => ?_
      refine (rebaseSets_safe parent rebased (fun c hc => .inl (.inl (hknown hc)))
        fun c hc => .inr hc).bind fun parentSet => ?_
      exact enterSet_safe parent Set.subset_union_right
  | .singleton _ => exact safe_pure (Set.empty_subset _)

theorem setsUp_safe (nest : LoopNest) {known : Facts .axis Domain} (hknown : mentioned known ⊆ E) :
    Safe E (setsUp nest known) :=
  safe_forM fun r _ => relationSets_safe hknown r

/-! ## Guards -/

theorem mentioned_checks (checks : Checks) : mentioned checks ⊆ E := fun _ ⟨_, _, _, hc⟩ => hc.elim

theorem changeChecks_safe (change : Checks → Checks) : Safe E (changeTable change) :=
  changeTable_safe fun _ => mentioned_checks _

theorem fetchCheck_safe (p : Endpoint) (a : AxisId) (checks : Checks) :
    Safe E (fetch .checksUp (.endpoint p) checks a : Sweep Checks Bool) :=
  fetch_safe _ _ _ (mentioned_checks checks)

theorem relationChecks_safe {known : Facts .axis Domain} (hknown : mentioned known ⊆ E)
    (r : AxisRelation) : Safe E (relationChecks known r) := by
  match r with
  | .reshape (.split parent outer inner _) =>
      unfold relationChecks
      refine table_safe.bind fun checks => (fetchCheck_safe .outer outer checks).bind
        fun outerCheck => ?_
      refine table_safe.bind fun checks' => (fetchCheck_safe .inner inner checks').bind
        fun innerCheck => ?_
      dsimp only
      split
      · exact Safe.bind (safe_pure (Set.empty_subset _)) fun _ => changeChecks_safe _
      split
      · next parentDomain outerDomain innerDomain hp ho hi =>
        have hextent : ∀ {a : AxisId} {d : Domain}, known[a]? = some d → d.extent ∈ E :=
          fun ha => hknown (Facts.mentioned_of_getElem? ha (.inr rfl))
        refine (build_safe (Build.arith_safe .mul (.inl (.inl (.inl (.inl (hextent hi)))))
          (.inl (.inl (.inl (.inl (hextent ho))))))).bind fun tiled => ?_
        refine (build_safe (Build.compare_safe .eq
          (.inl (.inl (.inl (.inl (.inl (hextent hp)))))) (.inr rfl))).bind fun exact => ?_
        refine (query_safe (Query.proves_safe (.inr rfl))).bind fun _ => ?_
        exact Safe.bind (safe_pure (Set.empty_subset _)) fun _ => changeChecks_safe _
      · exact Safe.bind (safe_pure (Set.empty_subset _)) fun _ => changeChecks_safe _
  | .reshape (.fuse outer inner fused) =>
      exact table_safe.bind fun checks => (fetchCheck_safe .fused fused checks).bind fun _ =>
        changeChecks_safe _
  | .rebase parent rebased =>
      exact table_safe.bind fun checks => (fetchCheck_safe .rebased rebased checks).bind fun _ =>
        changeChecks_safe _
  | .singleton _ => exact safe_pure (Set.empty_subset _)

theorem checksUp_safe (nest : LoopNest) {known : Facts .axis Domain}
    (hknown : mentioned known ⊆ E) : Safe E (checksUp nest known) :=
  safe_forM fun r _ => relationChecks_safe hknown r

theorem provesBelow_safe {hi? : Option ExprId} (hhi : mentioned hi? ⊆ E) (ha : a ∈ E) :
    Safe E (provesBelow hi? a) := by
  unfold provesBelow
  split
  · exact (build_safe (Build.compare_safe .lt (ValueSet.mentioned_some_iff.1 hhi) ha)).bind
      fun _ => query_safe (Query.proves_safe (.inr rfl))
  · exact safe_pure (Set.empty_subset _)

theorem provesNonNegative_safe {lo? : Option ExprId} (hlo : mentioned lo? ⊆ E) :
    Safe E (provesNonNegative lo?) := by
  unfold provesNonNegative
  split
  · next lo =>
    refine (build_safe (Build.constantLike_safe 0 lo)).bind fun zero => ?_
    exact (build_safe (Build.compare_safe .ge (.inl (ValueSet.mentioned_some_iff.1 hlo))
      (.inr rfl))).bind fun _ => query_safe (Query.proves_safe (.inr rfl))
  · exact safe_pure (Set.empty_subset _)

theorem upperGuard_safe {hi? : Option ExprId} (ha : a ∈ E) (hhi : mentioned hi? ⊆ E) (hb : b ∈ E) :
    Safe E (upperGuard a hi? b) := by
  refine (provesBelow_safe hhi hb).bind fun proved => ?_
  split
  · exact safe_pure mentioned_nil
  · refine (build_safe (Build.compare_safe .lt (.inl ha) (.inl hb))).bind fun guard => ?_
    refine (attempt_safe (Attempt.inline_safe true (.inr rfl))).bind fun inlined => safe_pure ?_
    rintro c ⟨x, hx, hc⟩
    exact .inr (List.mem_singleton.1 hx ▸ hc)

theorem lowerGuard_safe {lo? : Option ExprId} (ha : a ∈ E) (hlo : mentioned lo? ⊆ E) :
    Safe E (lowerGuard a lo?) := by
  refine (provesNonNegative_safe hlo).bind fun proved => ?_
  split
  · exact safe_pure mentioned_nil
  · refine (build_safe (Build.constantLike_safe 0 a)).bind fun zero => ?_
    refine (build_safe (Build.compare_safe .ge (.inl (.inl ha)) (.inr rfl))).bind fun guard =>
      safe_pure ?_
    rintro c ⟨x, hx, hc⟩
    exact .inr (List.mem_singleton.1 hx ▸ hc)

theorem axisGuards_safe {config : Config} {known : Facts .axis Domain}
    {values : Facts .axis ExprId} {sets : Env ValueSet} (hknown : mentioned known ⊆ E)
    (hvalues : mentioned values ⊆ E) (hsets : mentioned sets ⊆ E) (a : AxisId) :
    Safe E (axisGuards config known values sets a) := by
  refine context_safe.bind fun ctx => table_safe.bind fun checks => ?_
  split
  · exact safe_pure mentioned_nil
  refine require_bind_safe _ _ _ a (fun c hc => .inl (.inl (hknown hc)))
    (safe_pure mentioned_nil) fun d => ?_
  refine require_bind_safe _ _ _ a (fun c hc => .inl (.inl (.inl (hvalues hc))))
    (safe_pure mentioned_nil) fun x => ?_
  refine (build_safe (Build.arith_safe .sub (by simp) (by simp))).bind fun offset => ?_
  refine (query_safe (Query.valuesOf_safe
    (fun c hc => .inl (.inl (.inl (.inl (.inl (hsets hc)))))) (.inr rfl))).bind fun reached => ?_
  exact upperGuard_safe (by simp) (fun c hc => .inr (.inr hc)) (by simp)

theorem rootGuards_safe {config : Config} {known : Facts .axis Domain}
    {values : Facts .axis ExprId} {sets : Env ValueSet} (hknown : mentioned known ⊆ E)
    (hvalues : mentioned values ⊆ E) (hsets : mentioned sets ⊆ E) (a : AxisId) :
    Safe E (rootGuards config known values sets a) := by
  refine context_safe.bind fun ctx => ?_
  split
  · exact safe_pure mentioned_nil
  refine require_bind_safe _ _ _ a (fun c hc => .inl (hknown hc)) (safe_pure mentioned_nil)
    fun d => ?_
  refine context_safe.bind fun ctx' => ?_
  split
  · next declared hdeclared =>
    have hdeclared : mentioned declared ⊆ mentioned ctx' := domain_mem hdeclared
    split
    · exact safe_pure mentioned_nil
    refine require_bind_safe _ _ _ a (fun c hc => .inl (.inl (.inl (hvalues hc))))
      (safe_pure mentioned_nil) fun x => ?_
    refine (build_safe (Build.arith_safe .sub (by simp)
      (.inl (.inr (hdeclared (.inl rfl)))))).bind fun offset => ?_
    refine (query_safe (Query.valuesOf_safe
      (fun c hc => .inl (.inl (.inl (.inl (.inl (hsets hc)))))) (.inr rfl))).bind
      fun reached => ?_
    refine (lowerGuard_safe (by simp) fun c hc => .inr (.inl hc)).bind fun lower => ?_
    refine (upperGuard_safe (by simp) (fun c hc => .inl (.inr (.inr hc)))
      (.inl (.inl (.inl (.inl (.inr (hdeclared (.inr rfl)))))))).bind fun upper => safe_pure ?_
    rintro c ⟨x, hx, hc⟩
    rcases List.mem_append.1 hx with hx | hx
    exacts [.inl (.inr ⟨x, hx, hc⟩), .inr ⟨x, hx, hc⟩]
  · exact throw_safe

theorem enterDomain_safe {sets : Env ValueSet} {entry : AxisId × Domain}
    (hsets : mentioned sets ⊆ E) (hentry : mentioned entry.2 ⊆ E) :
    Safe E (enterDomain sets entry) := by
  refine context_safe.bind fun ctx => ?_
  refine (build_safe (ValueSet.ofDomain_safe fun c hc => .inl (hentry hc))).bind fun s => ?_
  refine (query_safe (Query.learn_safe _ fun c hc => .inl (.inl (hentry hc)))).bind fun _ =>
    safe_pure fun c hc => ?_
  rcases mentioned_set hc with hc | hc
  exacts [.inl (.inl (.inl (hsets hc))), .inl (.inr hc)]

theorem mem_flatten_mentioned {xss : List (List ExprId)} (h : e ∈ mentioned xss.flatten) :
    e ∈ mentioned xss := by
  obtain ⟨x, hx, he⟩ := h
  obtain ⟨xs, hxs, hx⟩ := List.mem_flatten.1 hx
  exact ⟨xs, hxs, x, hx, he⟩

theorem guardsOver_safe (config : Config) (nest : LoopNest) {known : Facts .axis Domain}
    {values : Facts .axis ExprId} (hknown : mentioned known ⊆ E) (hvalues : mentioned values ⊆ E) :
    Safe E (guardsOver config nest known values) := by
  refine (checksUp_safe nest hknown).bind fun _ => ?_
  refine (safe_foldlM (by simp) fun sets entry hentry => enterDomain_safe Set.subset_union_right
    fun c hc => ?_).bind fun sets => ?_
  · have hmem := Std.TreeMap.mem_toList_iff_getElem?_eq_some.1 hentry
    exact .inl (.inl (hknown (Facts.mentioned_of_getElem? hmem hc)))
  refine (safe_mapM fun a _ => axisGuards_safe (fun c hc => .inl (.inl (hknown hc)))
    (fun c hc => .inl (.inl (hvalues hc))) (fun c hc => .inr hc) a).bind fun axisPart => ?_
  refine (safe_mapM fun a _ => rootGuards_safe (fun c hc => .inl (.inl (.inl (hknown hc))))
    (fun c hc => .inl (.inl (.inl (hvalues hc)))) (fun c hc => .inl (.inr hc)) a).bind
    fun rootPart => safe_pure ?_
  rintro c ⟨x, hx, hc⟩
  rcases List.mem_append.1 hx with hx | hx
  exacts [.inl (.inr (mem_flatten_mentioned ⟨x, hx, hc⟩)), .inr (mem_flatten_mentioned ⟨x, hx, hc⟩)]

end Sweep

/-! ## Bounds and scheduling -/

theorem guards_safe {config : Config} (nest : LoopNest) {known : Facts .axis Domain}
    {values : Facts .axis ExprId} (hknown : mentioned known ⊆ E) (hvalues : mentioned values ⊆ E) :
    Safe E (guards config nest known values) := by
  have hsweep : ∀ checks : Sweep.Checks,
      Safe E ((Sweep.guardsOver config nest known values).run.run' checks) := by
    intro checks
    have hrun := Sweep.guardsOver_safe config nest hknown hvalues checks
    refine Safe.map (hrun.weaken ?_) fun p c hc => .inr (.inl hc)
    exact Set.union_subset subset_rfl (Sweep.mentioned_checks checks)
  exact runWith_safe (mentioned_analyzer config) (hsweep _)

theorem runFrom_safe {σ : Type} [Mentions σ] {sweep : Sweep σ Unit} {table : σ}
    (htable : mentioned table ⊆ E) (hsweep : Safe E sweep) : Safe E (sweep.runFrom table) := by
  refine Safe.bind ((hsweep table).weaken (Set.union_subset subset_rfl htable)) fun p => ?_
  obtain ⟨r, table'⟩ := p
  refine safe_pure ?_
  rintro c ⟨x, hx, hc⟩
  cases r with
  | ok _ =>
      cases hx
      exact .inr (.inr hc)
  | error _ => cases hx

theorem leafValue_safe {known : Facts .axis Domain} (leaf : AxisId) (hknown : mentioned known ⊆ E) :
    Safe E (leafValue known leaf) := by
  refine (Build.axis_safe leaf).bind fun var => ?_
  split
  · next d hd =>
    exact Build.offset_safe (.inr rfl) (.inl (hknown (Facts.mentioned_of_getElem? hd (.inl rfl))))
  · exact safe_pure Set.subset_union_right

theorem mentioned_of_mem_toList {t : Table} {α : Type} [Mentions α] {facts : Facts t α}
    {entry : Handle t × α} (h : entry ∈ facts.toList) : mentioned entry.2 ⊆ mentioned facts :=
  Facts.mentioned_of_getElem? (Std.TreeMap.mem_toList_iff_getElem?_eq_some.1 h)

theorem domainsAndValues_safe (config : Config) {nest : LoopNest} {roots : Facts .axis Domain}
    (hnest : mentioned nest ⊆ E) (hroots : mentioned roots ⊆ E) :
    Safe E (domainsAndValues config nest roots) := by
  refine (safe_forM fun entry hentry => ?_).bind fun _ => ?_
  · refine (except_lift_safe Query.context_safe).bind fun ctx => ?_
    exact except_lift_safe (Query.learn_safe _ fun c hc =>
      .inl (hroots (mentioned_of_mem_toList hentry hc)))
  refine (runFrom_safe (fun c hc => .inl (hroots hc))
    (Sweep.domains_safe _ fun c hc => .inl (hnest hc))).bind fun known => ?_
  refine (safe_foldlM (by simp) fun values leaf _ => ?_).bind fun loops => ?_
  · refine (except_lift_safe (Query.build_safe
      (leafValue_safe leaf fun c hc => .inl (.inr hc)))).bind fun x => safe_pure fun c hc => ?_
    rcases Facts.mentioned_insert _ _ _ hc with hc | hc
    exacts [.inl (.inr hc), .inr hc]
  refine (runFrom_safe Set.subset_union_right
    (Sweep.indicesUp_safe _ _ fun c hc => .inl (.inr hc))).bind fun values => safe_pure ?_
  exact Set.union_subset (fun c hc => .inl (.inl (.inr hc))) fun c hc => .inr hc

theorem inferBoundsFrom_safe {config : Config} {nest : LoopNest} {roots : Facts .axis Domain}
    (hnest : mentioned nest ⊆ E) (hroots : mentioned roots ⊆ E) :
    Safe E (inferBoundsFrom config nest roots) := by
  refine Safe.bind (m := Schedule) (runWith_safe (mentioned_analyzer config)
    (domainsAndValues_safe config hnest hroots)) fun p => ?_
  refine (guards_safe nest (fun c hc => .inr (.inl hc)) fun c hc => .inr (.inr hc)).bind
    fun gs => safe_pure ?_
  rintro c ((hc | hc) | hc)
  exacts [.inl (.inr (.inl hc)), .inl (.inr (.inr hc)), .inr hc]

theorem declaredDomain_safe (a : AxisId) : Safe E (declaredDomain a) := by
  refine (except_lift_safe Build.get_safe).bind fun ctx => ?_
  split
  · next d hd => exact safe_pure fun c hc => .inr (domain_mem hd hc)
  · exact throw_safe

theorem inferBounds_safe {config : Config} {nest : LoopNest} (hnest : mentioned nest ⊆ E) :
    Safe E (inferBounds config nest) := by
  refine (safe_foldlM (by simp) fun roots a _ => ?_).bind fun roots => ?_
  · refine (declaredDomain_safe a).bind fun d => safe_pure fun c hc => ?_
    rcases Facts.mentioned_insert _ _ _ hc with hc | hc
    exacts [.inl (.inr hc), .inr hc]
  · exact inferBoundsFrom_safe (fun c hc => .inl (hnest hc)) Set.subset_union_right

namespace LoopNest

variable {nest : LoopNest}

theorem leafIndex_safe (nest : LoopNest) (a : AxisId) : Safe E (nest.leafIndex a) := by
  unfold leafIndex
  split
  · exact safe_pure (Set.empty_subset _)
  · exact (except_lift_safe Build.get_safe).bind fun _ => throw_safe

theorem deriveAxis_safe (parent : AxisId) (name : String) (kind : AxisKind) :
    Safe E (liftM (deriveAxis parent name kind) : Schedule AxisId) :=
  except_lift_safe (Build.deriveAxis_safe parent name kind)

theorem mentioned_replace {i count : Nat} {fresh : List AxisId} {r : AxisRelation}
    (hnest : mentioned nest ⊆ E) (hr : mentioned r ⊆ E) :
    mentioned (nest.replace i count fresh r) ⊆ E := by
  rintro c ⟨r', hr', hc⟩
  rcases List.mem_append.1 hr' with hr' | hr'
  · exact hnest ⟨r', hr', hc⟩
  · exact hr (List.mem_singleton.1 hr' ▸ hc)

theorem split_safe (parent : AxisId) {size : SplitBy} (hnest : mentioned nest ⊆ E)
    (hsize : mentioned size ⊆ E) : Safe E (nest.split parent size) := by
  refine (leafIndex_safe nest parent).bind fun i => ?_
  refine (except_lift_safe Build.get_safe).bind fun ctx => ?_
  have hrest : ∀ {K : Set ExprId}, E ⊆ K → Safe K (do
      let outer ← deriveAxis parent (ctx.axisName parent ++ ".outer") (ctx.axis parent).kind
      let inner ← deriveAxis parent (ctx.axisName parent ++ ".inner") (ctx.axis parent).kind
      return (nest.replace i 1 [outer, inner] (.reshape (.split parent outer inner size)),
        outer, inner) : Schedule (LoopNest × AxisId × AxisId)) := by
    intro K hK
    refine (deriveAxis_safe _ _ _).bind fun outer => (deriveAxis_safe _ _ _).bind fun inner =>
      safe_pure ?_
    refine Set.union_subset (mentioned_replace ?_ ?_) (Set.union_subset nofun nofun)
    exacts [fun c hc => .inl (.inl (hK (hnest hc))), fun c hc => .inl (.inl (hK (hsize hc)))]
  dsimp only
  split
  · split
    · exact throw_bind_safe
    · exact hrest fun c hc => .inl (.inl hc)
  · exact hrest fun c hc => .inl (.inl hc)

theorem fuse_safe (outer inner : AxisId) (hnest : mentioned nest ⊆ E) :
    Safe E (nest.fuse outer inner) := by
  refine (leafIndex_safe nest outer).bind fun i => (leafIndex_safe nest inner).bind fun j => ?_
  refine (except_lift_safe Build.get_safe).bind fun ctx => ?_
  dsimp only
  split
  · exact throw_bind_safe
  · refine (deriveAxis_safe _ _ _).bind fun fused => safe_pure ?_
    refine Set.union_subset (mentioned_replace (fun c hc => ?_) nofun) nofun
    exact .inl (.inl (.inl (.inl (hnest hc))))

theorem rebase_safe (parent : AxisId) (hnest : mentioned nest ⊆ E) :
    Safe E (nest.rebase parent) := by
  refine (leafIndex_safe nest parent).bind fun i => ?_
  refine (except_lift_safe Build.get_safe).bind fun ctx => ?_
  refine (deriveAxis_safe _ _ _).bind fun rebased => safe_pure ?_
  refine Set.union_subset (mentioned_replace (fun c hc => ?_) nofun) nofun
  exact .inl (.inl (.inl (hnest hc)))

theorem singleton_safe (a : AxisId) (hnest : mentioned nest ⊆ E) : Safe E (nest.singleton a) := by
  refine (leafIndex_safe nest a).bind fun _ => safe_pure ?_
  rintro c ⟨r, hr, hc⟩
  rcases List.mem_append.1 hr with hr | hr
  · exact .inl (hnest ⟨r, hr, hc⟩)
  · rw [List.mem_singleton.1 hr] at hc
    exact hc.elim

theorem bind_safe (a thread : AxisId) (hnest : mentioned nest ⊆ E) :
    Safe E (nest.bind a thread) :=
  (leafIndex_safe nest a).bind fun _ => safe_pure fun _ hc => .inl (hnest hc)

end LoopNest

end LoopBounds
