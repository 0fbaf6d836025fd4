import LoopBounds.Proofs.Containment
import LoopBounds.Proofs.LoopPoints

/-!
# Coverage of loop nests

The loops that inference finds run every point of the declared domains once and, behind the
guards, no other.  If the roots run over other domains than those that they declare, the guards
keep them to the declared ones all the same.
-/

namespace LoopBounds

variable {nest : LoopNest} {roots : Facts .axis Domain} {ctx ctx' : Context} {bounds : NestBounds}
  {env : Env Int64} {config : Config}

theorem declaredDomain_ensures (a : AxisId) : Schedule.Ensures (declaredDomain a) ctx
    fun d ctx' => ctx' = ctx ∧ (ctx.axis a).domain? = some d := by
  refine .get ?_
  split
  · next hd => exact .pure ⟨rfl, hd⟩
  · exact .throw

theorem declaredDomains_ensures (as : List AxisId) (t : Facts .axis Domain) :
    Schedule.Ensures (as.foldlM (fun t a => do return t.insert a (← declaredDomain a)) t) ctx
      fun t' ctx' => ctx' = ctx ∧ (∀ a ∈ as, ∃ d, (ctx.axis a).domain? = some d) ∧
        ∀ a : AxisId, t'[a]? = if a ∈ as then (ctx.axis a).domain? else t[a]? := by
  induction as generalizing t with
  | nil => exact .pure ⟨rfl, nofun, fun a => by simp⟩
  | cons c as ih =>
      rw [List.foldlM_cons]
      refine Schedule.Ensures.bind (Q := fun t' ctx' => ctx' = ctx ∧
        ∃ d, (ctx.axis c).domain? = some d ∧ t' = t.insert c d) ?_ ?_
      · refine (declaredDomain_ensures c).bind fun d ctx₁ ⟨hctx, hd⟩ => ?_
        exact .pure ⟨hctx, d, hd, rfl⟩
      · rintro _ _ ⟨rfl, d, hd, rfl⟩
        refine (ih _).mono fun t' ctx' ⟨hctx, hall, hget⟩ =>
          ⟨hctx, List.forall_mem_cons.2 ⟨⟨d, hd⟩, hall⟩, fun a => ?_⟩
        rw [hget, Std.TreeMap.getElem?_insert]
        by_cases ha : a = c
        · subst ha
          simp [hd]
        · simp [ha, Ne.symm ha]

/-- Inference over the declared domains is inference from the table of them. -/
theorem exists_declared (h : (inferBounds config nest).run.run ctx = (.ok bounds, ctx')) :
    ∃ roots : Facts .axis Domain,
      (inferBoundsFrom config nest roots).run.run ctx = (.ok bounds, ctx') ∧
      (∀ a ∈ nest.roots, ∃ d, (ctx.axis a).domain? = some d) ∧
      ∀ a : AxisId, roots[a]? = if a ∈ nest.roots then (ctx.axis a).domain? else none := by
  suffices key : Schedule.Ensures (inferBounds config nest) ctx fun bounds ctx' =>
      ∃ roots : Facts .axis Domain,
        (inferBoundsFrom config nest roots).run.run ctx = (.ok bounds, ctx') ∧
        (∀ a ∈ nest.roots, ∃ d, (ctx.axis a).domain? = some d) ∧
        ∀ a : AxisId, roots[a]? = if a ∈ nest.roots then (ctx.axis a).domain? else none from
    key _ _ h
  refine (declaredDomains_ensures nest.roots {}).bind ?_
  rintro roots _ ⟨rfl, hall, hget⟩
  exact fun bounds ctx' hrun => ⟨roots, hrun, hall, fun a => by simp [hget]⟩

/-- The loops run every point of the declared domains behind the guards, each of them once, and
nothing else. -/
theorem guardedPoints_bijOn (hnest : nest.MeetsSizes ctx env)
    (hroots : ∀ a ∈ nest.roots, ∀ d, (ctx.axis a).domain? = some d →
      ctx.AttainsDomain env d (0 < ·))
    (hrun : (inferBounds {} nest).run.run ctx = (.ok bounds, ctx'))
    (hsizes : (ctx'.valuation env).Keeps)
    (hkeeps : ∀ p ∈ bounds.loopPoints nest ctx' env,
      (ctx'.valuation (nest.atPoint ctx' env p)).Keeps) :
    (∀ p ∈ bounds.loopPoints nest ctx' env, bounds.Evaluates nest ctx' env p) ∧
      Set.BijOn (bounds.rootPoint nest ctx' env) (bounds.guardedPoints nest ctx' env)
        (nest.declaredPoints ctx' env) := by
  obtain ⟨roots, hrun', hdomain, hget⟩ := exists_declared hrun
  obtain ⟨run⟩ := exists_run hrun'
  have hmem : ∀ a, a ∈ roots ↔ a ∈ nest.roots := by
    intro a
    rw [Std.TreeMap.mem_iff_isSome_getElem?, hget]
    by_cases ha : a ∈ nest.roots
    · obtain ⟨d, hd⟩ := hdomain a ha
      simp [ha, hd]
    · simp [ha]
  have hdecl : ∀ a ∈ nest.roots, roots[a]? = (ctx.axis a).domain? := fun a ha => by
    rw [hget, if_pos ha]
  obtain ⟨b₀, b, declared, h⟩ := run.exists_measured hnest hmem (fun a d hd => by
    have ha := (hmem a).1 (mem_of_get hd)
    exact hroots a ha d (hdecl a ha ▸ hd)) (fun a ha d hd =>
      ⟨(hroots a ha d hd).min, (hroots a ha d hd).extent.nodes, (hroots a ha d hd).extent.value.imp
        fun z hz => ⟨hz.1, trivial⟩⟩) hsizes
  have hin : ∀ a ∈ nest.roots, ∀ d, (ctx.axis a).domain? = some d → ∀ z,
      (ctx'.valuation env).InDomain d z ↔ b.min a ≤ z ∧ z < b.min a + b.extent a := by
    intro a ha d hd z
    obtain ⟨hmin, hextent⟩ := h.declared_eq ha (hdecl a ha)
    rw [h.inDomain_iff ha hd, hmin, hextent]
  have haxis := (h.found.grows.trans h.grows).axis_eq
  refine ⟨fun p hp => ?_, fun p hp a => ?_, h.injOn hkeeps, fun y hy => ?_⟩
  · obtain ⟨x, -, -, hx⟩ := h.exists_attained hp (hkeeps p hp)
    exact hx.evaluates
  · obtain ⟨x, -, -, hx, hcontains, -⟩ := h.exists_contained hp (hkeeps p hp.1)
    obtain ⟨d, hd⟩ := hdomain a.1 a.2
    refine ⟨d, haxis a.1 ▸ hd, (hin a.1 a.2 d hd _).2 ?_⟩
    exact hx.index a ▸ hcontains a.1 (h.sized.scheduled.shaped.mem_axes_of_mem_roots a.2)
  · have hroot : ∀ a (ha : a ∈ nest.roots), b.min a ≤ y ⟨a, ha⟩ ∧
        y ⟨a, ha⟩ < b.min a + b.extent a := by
      intro a ha
      obtain ⟨d, hd, hyd⟩ := hy ⟨a, ha⟩
      exact (hin a ha d (haxis a ▸ hd) _).1 hyd
    have hcontains : ∀ a ∈ nest.roots,
        b.Contains (fun a => if ha : a ∈ nest.roots then y ⟨a, ha⟩ else 0) a := fun a ha => by
      simpa [Box.Contains, ha] using hroot a ha
    obtain ⟨p, hp, hindex⟩ := h.exists_guarded hkeeps hcontains fun a ha => by
      obtain ⟨hmin, hextent⟩ := h.declared_eq ha (hdecl a ha)
      rw [Box.Contains, hmin, hextent]
      exact hcontains a ha
    exact ⟨p, hp, funext fun a => (hindex a).trans (dif_pos a.2)⟩

/-- A root split by a factor. -/
def splitRoot (i : AxisId) (factor : Int64) : Schedule LoopNest := do
  let size ← Build.int factor
  let (nest, _) ← (LoopNest.ofRoots "rows" [i]).split i (.factor size)
  return nest

theorem splitRoot_ensures (hwf : ctx.WellFormed) {i : AxisId} (hi : i.index < ctx.axes.size)
    (factor : Int64) :
    Schedule.Ensures (splitRoot i factor) ctx fun nest ctx' => LoopNest.Scheduled ctx' nest := by
  obtain ⟨hg, hsize⟩ := Build.constant_denotes ctx .callFree factor .int32
  have hroot : LoopNest.Scheduled ((Build.int factor).run ctx).2 (LoopNest.ofRoots "rows" [i]) :=
    .store (.ofRoots hwf "rows" (List.nodup_singleton i) (by simpa using hi)) hg.le
      (hg.wellFormed hwf)
  refine (Schedule.Ensures.build (Q := fun size ctx =>
    LoopNest.Scheduled ctx (LoopNest.ofRoots "rows" [i]) ∧ ctx.Stored size)
      ⟨hroot, hsize.stored⟩).bind fun size ctx ⟨h, hsize⟩ => ?_
  have hfactor : ctx.Stored (SplitBy.factor size).extent := hsize
  refine Schedule.Ensures.bind (fun p ctx' hrun => LoopNest.Scheduled.split h hfactor hrun) ?_
  exact fun p ctx' h' => .pure h'

/-- A root over `[0, n)`, split by two. -/
def pairsRoot : AxisId × Context := (do
  let n ← Build.var (← declareVar "n" .int32)
  declareAxis "i" (some (← Domain.ofExtent n)) .dataParallel : Build AxisId).run default

def pairs : LoopNest × Context := (splitRoot pairsRoot.1 2).outcome pairsRoot.2

def pairsBounds : NestBounds × Context := (inferBounds {} pairs.1).outcome pairs.2

/-- Three rows in pairs. -/
def threeRows : Env Int64 := .ofList [(⟨0⟩, 3)]

theorem pairs_keeps (p : pairs.1.LoopPoint)
    (hp : p ∈ pairsBounds.1.loopPoints pairs.1 pairsBounds.2 threeRows) :
    (pairsBounds.2.valuation (pairs.1.atPoint pairsBounds.2 threeRows p)).Keeps := by
  have hloops : pairs.1.leaves.map (fun a => (pairsBounds.2.axisVar a, a)) =
      [(⟨2⟩, ⟨1⟩), (⟨3⟩, ⟨2⟩)] := by decide +kernel
  obtain ⟨u, w, ⟨hu, hu'⟩, ⟨hw, hw'⟩, hat⟩ := NestBounds.exists_atPoint_eq hp hloops
    (m := 2) (n := 2) (by decide +kernel) (by decide +kernel)
  rw [hat]
  interval_cases u <;> interval_cases w <;> exact Valuation.Plain.keeps (by decide +kernel)

/-- Where three rows are run in pairs, one of the four points of the loops is kept out. -/
theorem guardedPoints_bijOn_pairs :
    (∀ p ∈ pairsBounds.1.loopPoints pairs.1 pairsBounds.2 threeRows,
      pairsBounds.1.Evaluates pairs.1 pairsBounds.2 threeRows p) ∧
    Set.BijOn (pairsBounds.1.rootPoint pairs.1 pairsBounds.2 threeRows)
      (pairsBounds.1.guardedPoints pairs.1 pairsBounds.2 threeRows)
      (pairs.1.declaredPoints pairsBounds.2 threeRows) := by
  have hcalls : ∀ i < pairs.2.size, (pairs.2.node ⟨i⟩).callee? = none := by decide +kernel
  have hnest : pairs.1.MeetsSizes pairs.2 threeRows :=
    LoopNest.meetsSizes ((splitRoot_ensures (by decide +kernel) (by decide +kernel) 2).outcome
      (by decide +kernel)) hcalls (by decide +kernel) (by decide +kernel) (by decide +kernel)
      (by decide +kernel)
  have hroots : ∀ a ∈ pairs.1.roots, ∀ d ∈ (pairs.2.axis a).domain?, pairs.2.StoredDomain d ∧
      (∃ z ∈ (pairs.2.valuation threeRows).value d.min, True) ∧
        ∃ z ∈ (pairs.2.valuation threeRows).value d.extent, 0 < z := by decide +kernel
  have hrun : (inferBounds {} pairs.1).run.run pairs.2 = (.ok pairsBounds.1, pairsBounds.2) :=
    Schedule.run_eq_of_succeeds (by decide +kernel)
  exact guardedPoints_bijOn hnest
    (fun a ha d hd => Context.attainsDomain hcalls (hroots a ha d hd)) hrun
    (Valuation.Plain.keeps (by decide +kernel)) pairs_keeps

/-- A root over `[0, (n % 2 >= 0 and k) + 1)`, split by one. -/
def numberedRoot : AxisId × Context := (do
  let n ← Build.var (← declareVar "n" .int32)
  let k ← Build.var (← declareVar "k" .int32)
  let rest ← Build.division .floorMod n (← Build.int 2)
  let both ← Build.conj (← Build.compare .ge rest (← Build.int 0)) k
  declareAxis "i" (some (← Domain.ofExtent (← Build.addConst both 1))) .dataParallel :
    Build AxisId).run default

def numbered : LoopNest × Context := (splitRoot numberedRoot.1 1).outcome numberedRoot.2

def numberedBounds : NestBounds × Context := (inferBounds {} numbered.1).outcome numbered.2

/-- The connective is given the number five. -/
def fiveSizes : Env Int64 := .ofList [(⟨0⟩, 0), (⟨1⟩, 5)]

/-- A conjunct that is true is left out whatever the other one is, so a loop may run too far where
a connective is given a number: the extent of the root is two, and that of its loop is six. -/
theorem guardedPoints_exceed_numbered :
    numbered.1.MeetsSizes numbered.2 fiveSizes ∧
    (∀ a ∈ numbered.1.roots, ∀ d, (numbered.2.axis a).domain? = some d →
      numbered.2.AttainsDomain fiveSizes d (0 < ·)) ∧
    (inferBounds {} numbered.1).run.run numbered.2 = (.ok numberedBounds.1, numberedBounds.2) ∧
    (numberedBounds.2.valuation fiveSizes).InsideWord ∧
    (∀ p ∈ numberedBounds.1.loopPoints numbered.1 numberedBounds.2 fiveSizes,
      (numberedBounds.2.valuation
        (numbered.1.atPoint numberedBounds.2 fiveSizes p)).InsideWord) ∧
    ¬ Set.BijOn (numberedBounds.1.rootPoint numbered.1 numberedBounds.2 fiveSizes)
      (numberedBounds.1.guardedPoints numbered.1 numberedBounds.2 fiveSizes)
      (numbered.1.declaredPoints numberedBounds.2 fiveSizes) := by
  have hcalls : ∀ i < numbered.2.size, (numbered.2.node ⟨i⟩).callee? = none := by decide +kernel
  have hroots : ∀ a ∈ numbered.1.roots, ∀ d ∈ (numbered.2.axis a).domain?,
      numbered.2.StoredDomain d ∧
      (∃ z ∈ (numbered.2.valuation fiveSizes).value d.min, True) ∧
        ∃ z ∈ (numbered.2.valuation fiveSizes).value d.extent, 0 < z := by decide +kernel
  refine ⟨LoopNest.meetsSizes
    ((splitRoot_ensures (by decide +kernel) (by decide +kernel) 1).outcome (by decide +kernel))
    hcalls (by decide +kernel) (by decide +kernel) (by decide +kernel) (by decide +kernel),
    fun a ha d hd => Context.attainsDomain hcalls (hroots a ha d hd),
    Schedule.run_eq_of_succeeds (by decide +kernel), by decide +kernel, fun p hp => ?_,
    fun hbij => ?_⟩
  · have hloops : numbered.1.leaves.map (fun a => (numberedBounds.2.axisVar a, a)) =
        [(⟨3⟩, ⟨1⟩), (⟨4⟩, ⟨2⟩)] := by decide +kernel
    obtain ⟨u, w, ⟨hu, hu'⟩, ⟨hw, hw'⟩, hat⟩ := NestBounds.exists_atPoint_eq hp hloops
      (m := 6) (n := 1) (by decide +kernel) (by decide +kernel)
    rw [hat]
    interval_cases u <;> interval_cases w <;> decide +kernel
  · let p := numbered.1.pointOf fun a => if a = ⟨1⟩ then 5 else 0
    have hp : p ∈ numberedBounds.1.guardedPoints numbered.1 numberedBounds.2 fiveSizes :=
      NestBounds.pointOf_mem_guardedPoints (NestBounds.pointOf_mem_loopPoints (by decide +kernel))
        (by decide +kernel)
    obtain ⟨d, hd, hin⟩ := hbij.mapsTo hp ⟨⟨0⟩, by decide +kernel⟩
    have hout : ∀ d ∈ (numberedBounds.2.axis ⟨0⟩).domain?,
        ¬ (numberedBounds.2.valuation fiveSizes).InDomain d 5 := by decide +kernel
    have hindex : numberedBounds.1.rootPoint numbered.1 numberedBounds.2 fiveSizes p
        ⟨⟨0⟩, by decide +kernel⟩ = 5 := by decide +kernel
    exact hout d hd (hindex ▸ hin)

/-- Where the loops are guarded, a root lies in the domain that it declares, whatever domain it
runs over.  The exception is a root with a loop of its own over a domain that neither is the
declared one nor starts at zero: guards are judged as if the loop ran over that domain, while it
counts from zero. -/
theorem inDomain_of_guarded (hnest : nest.MeetsSizes ctx env)
    (hmem : ∀ a, a ∈ roots ↔ a ∈ nest.roots)
    (hroots : ∀ (a : AxisId) (d : Domain), roots[a]? = some d → ctx.AttainsDomain env d (0 < ·))
    (hdeclared : ∀ a ∈ nest.roots, ∃ d, (ctx.axis a).domain? = some d ∧
      ctx.AttainsDomain env d fun _ => True)
    (hrun : (inferBoundsFrom {} nest roots).run.run ctx = (.ok bounds, ctx'))
    (hsizes : (ctx'.valuation env).Keeps) {p : nest.LoopPoint}
    (hp : p ∈ bounds.guardedPoints nest ctx' env)
    (hkeeps : (ctx'.valuation (nest.atPoint ctx' env p)).Keeps) {a : AxisId} (ha : a ∈ nest.roots)
    (hshift : a ∈ nest.leaves → roots[a]? = (ctx.axis a).domain? ∨
      ∃ d, roots[a]? = some d ∧ (ctx.valuation env).value d.min = some 0) :
    ∃ d e w, (ctx'.axis a).domain? = some d ∧ bounds.values[a]? = some e ∧
      ctx'.EvalsTo (nest.atPoint ctx' env p) e w ∧
        (ctx'.valuation env).InDomain d w.toInt := by
  obtain ⟨run⟩ := exists_run hrun
  obtain ⟨d, hd, -⟩ := hdeclared a ha
  obtain ⟨b₀, b, declared, h⟩ := run.exists_measured hnest hmem hroots (fun c hc d hd => by
    obtain ⟨d', hd', hattains⟩ := hdeclared c hc
    cases hd.symm.trans hd'
    exact hattains) hsizes
  obtain ⟨x, -, -, hx, hcontains, hdecl⟩ := h.exists_contained hp hkeeps
  obtain ⟨e, w, he, hw, hwx⟩ := hx.evaluates.roots ⟨a, ha⟩
  have haxis := (h.found.grows.trans h.grows).axis_eq a
  refine ⟨d, e, w, haxis ▸ hd, he, hw, (h.inDomain_iff ha hd _).2 ?_⟩
  rw [hwx, hx.index]
  by_cases heq : roots[a]? = (ctx.axis a).domain?
  · obtain ⟨hmin, hextent⟩ := h.declared_eq ha heq
    rw [hmin, hextent]
    exact hcontains a (h.sized.scheduled.shaped.mem_axes_of_mem_roots ha)
  · refine hdecl a ha (fun hleaf => ?_) heq
    obtain ⟨d₀, hd₀, hzero⟩ := (hshift hleaf).resolve_left heq
    have hmin := (h.found.measures.min a d₀ (h.found.subset a d₀ hd₀)).value _ h.grows.le _
      ⟨rfl, rfl⟩
    have hnodes := (hroots a d₀ hd₀).min.nodes
    have hctx := (h.found.grows.trans h.grows).le
    rw [Context.shallow, hnodes.value_eq hctx 0 ctx.callDepth] at hmin
    exact Option.some_inj.1 (hmin.symm.trans hzero)

/-- A root that declares `[0, 10)` and runs over `[-5, 15)`. -/
def tenRoot : (AxisId × Domain) × Context := (do
  let working ← Domain.literal (-5) 20
  let axis ← declareAxis "i" (some (← Domain.literal 0 10)) .dataParallel
  return (axis, working) : Build _).run default

def tenDomains : Facts .axis Domain := Std.TreeMap.empty.insert tenRoot.1.1 tenRoot.1.2

theorem mem_tenDomains (a : AxisId) : a ∈ tenDomains ↔ a ∈ [tenRoot.1.1] := by
  rw [tenDomains, Std.TreeMap.mem_insert, Std.compare_eq_iff_eq, List.mem_singleton, eq_comm]
  exact or_iff_left Std.TreeMap.not_mem_emptyc

def tenRows : LoopNest × Context := (splitRoot tenRoot.1.1 4).outcome tenRoot.2

def tenRowsBounds : NestBounds × Context :=
  (inferBoundsFrom {} tenRows.1 tenDomains).outcome tenRows.2

/-- In rows of four, the point of row two and column one is the root at four. -/
theorem inDomain_of_guarded_tenRows :
    ∃ d e w, (tenRowsBounds.2.axis ⟨0⟩).domain? = some d ∧
      tenRowsBounds.1.values[(⟨0⟩ : AxisId)]? = some e ∧
      tenRowsBounds.2.EvalsTo (tenRows.1.atPoint tenRowsBounds.2 .empty
        (tenRows.1.pointOf fun a => if a = ⟨1⟩ then 2 else 1)) e w ∧
      (tenRowsBounds.2.valuation .empty).InDomain d w.toInt := by
  have hcalls : ∀ i < tenRows.2.size, (tenRows.2.node ⟨i⟩).callee? = none := by decide +kernel
  have hroots : tenRows.1.roots = [tenRoot.1.1] := by decide +kernel
  have hworking : ∀ q ∈ tenDomains.toList, tenRows.2.StoredDomain q.2 ∧
      (∃ z ∈ (tenRows.2.valuation .empty).value q.2.min, True) ∧
        ∃ z ∈ (tenRows.2.valuation .empty).value q.2.extent, 0 < z := by decide +kernel
  have hdeclared : ∀ a ∈ tenRows.1.roots, ∃ d ∈ (tenRows.2.axis a).domain?,
      tenRows.2.StoredDomain d ∧ (∃ z ∈ (tenRows.2.valuation .empty).value d.min, True) ∧
        ∃ z ∈ (tenRows.2.valuation .empty).value d.extent, True := by decide +kernel
  have hrun : (inferBoundsFrom {} tenRows.1 tenDomains).run.run tenRows.2 =
      (.ok tenRowsBounds.1, tenRowsBounds.2) :=
    Schedule.run_eq_of_succeeds (by decide +kernel)
  have hnest : tenRows.1.MeetsSizes tenRows.2 .empty :=
    LoopNest.meetsSizes ((splitRoot_ensures (by decide +kernel) (by decide +kernel) 4).outcome
      (by decide +kernel)) hcalls (by decide +kernel) (by decide +kernel) (by decide +kernel)
      (by decide +kernel)
  refine inDomain_of_guarded hnest (fun a => hroots ▸ mem_tenDomains a)
    (fun a d hd => Context.attainsDomain hcalls
      (hworking (a, d) (Std.TreeMap.mem_toList_iff_getElem?_eq_some.2 hd)))
    (fun a ha => ?_) hrun (Valuation.Plain.keeps (by decide +kernel))
    (NestBounds.pointOf_mem_guardedPoints
      (NestBounds.pointOf_mem_loopPoints (by decide +kernel)) (by decide +kernel)) ?_
    (by decide +kernel) fun hleaf => absurd hleaf (by decide +kernel)
  · obtain ⟨d, hd, h⟩ := hdeclared a ha
    exact ⟨d, hd, Context.attainsDomain hcalls h⟩
  · have hloops : tenRows.1.leaves.map (fun a => (tenRowsBounds.2.axisVar a, a)) =
        [(⟨1⟩, ⟨1⟩), (⟨2⟩, ⟨2⟩)] := by decide +kernel
    rw [LoopNest.atPoint_pointOf _ hloops]
    exact Valuation.Plain.keeps (by decide +kernel)

def tenLoop : LoopNest := .ofRoots "ten" [tenRoot.1.1]

def tenLoopBounds : NestBounds × Context :=
  (inferBoundsFrom {} tenLoop tenDomains).outcome tenRoot.2

/-- Without a split, the guard against the upper end is missing: the set of the index is taken to
be `[-10, 10)`, as if the loop ran over `[-5, 15)`, but at nineteen the root is at fourteen. -/
theorem guardedPoints_leave_tenLoop :
    tenLoop.MeetsSizes tenRoot.2 .empty ∧ (∀ a, a ∈ tenDomains ↔ a ∈ tenLoop.roots) ∧
    (∀ (a : AxisId) (d : Domain), tenDomains[a]? = some d →
      tenRoot.2.AttainsDomain .empty d (0 < ·)) ∧
    (∀ a ∈ tenLoop.roots, ∃ d, (tenRoot.2.axis a).domain? = some d ∧
      tenRoot.2.AttainsDomain .empty d fun _ => True) ∧
    (inferBoundsFrom {} tenLoop tenDomains).run.run tenRoot.2 =
      (.ok tenLoopBounds.1, tenLoopBounds.2) ∧
    (tenLoopBounds.2.valuation .empty).Keeps ∧
    ∃ p ∈ tenLoopBounds.1.guardedPoints tenLoop tenLoopBounds.2 .empty,
      (tenLoopBounds.2.valuation (tenLoop.atPoint tenLoopBounds.2 .empty p)).Keeps ∧
      ∃ a ∈ tenLoop.roots, ∃ d ∈ (tenLoopBounds.2.axis a).domain?,
        ∃ e ∈ tenLoopBounds.1.values[a]?,
          ∃ w ∈ tenLoopBounds.2.eval (tenLoop.atPoint tenLoopBounds.2 .empty p) e,
            ¬ (tenLoopBounds.2.valuation .empty).InDomain d w.toInt := by
  have hcalls : ∀ i < tenRoot.2.size, (tenRoot.2.node ⟨i⟩).callee? = none := by decide +kernel
  have hworking : ∀ q ∈ tenDomains.toList, tenRoot.2.StoredDomain q.2 ∧
      (∃ z ∈ (tenRoot.2.valuation .empty).value q.2.min, True) ∧
        ∃ z ∈ (tenRoot.2.valuation .empty).value q.2.extent, 0 < z := by decide +kernel
  have hdeclared : ∀ a ∈ tenLoop.roots, ∃ d ∈ (tenRoot.2.axis a).domain?,
      tenRoot.2.StoredDomain d ∧ (∃ z ∈ (tenRoot.2.valuation .empty).value d.min, True) ∧
        ∃ z ∈ (tenRoot.2.valuation .empty).value d.extent, True := by decide +kernel
  have hloops : tenLoop.leaves.map (fun a => (tenLoopBounds.2.axisVar a, a)) =
      [(⟨0⟩, ⟨0⟩)] := by decide +kernel
  refine ⟨LoopNest.meetsSizes (.ofRoots (by decide +kernel) "ten" (by decide +kernel)
      (by decide +kernel)) hcalls (by decide +kernel) (by decide +kernel) (by decide +kernel)
      (by decide +kernel), mem_tenDomains, fun a d hd => Context.attainsDomain hcalls
      (hworking (a, d) (Std.TreeMap.mem_toList_iff_getElem?_eq_some.2 hd)), fun a ha => ?_,
    Schedule.run_eq_of_succeeds (by decide +kernel), Valuation.Plain.keeps (by decide +kernel),
    tenLoop.pointOf fun _ => 19, NestBounds.pointOf_mem_guardedPoints
      (NestBounds.pointOf_mem_loopPoints (by decide +kernel)) (by decide +kernel), ?_,
    by decide +kernel⟩
  · obtain ⟨d, hd, h⟩ := hdeclared a ha
    exact ⟨d, hd, Context.attainsDomain hcalls h⟩
  · rw [LoopNest.atPoint_pointOf _ hloops]
    exact Valuation.Plain.keeps (by decide +kernel)

end LoopBounds
