import LoopBounds.Proofs.Bounds
import Mathlib.Data.Set.Function

/-!
# Points of the loops

The loops that inference finds count from zero up to what the extents of their domains evaluate
to.  What a run says of a point of the loops is said here of words: the guards and the indices of
the roots are evaluated where the loops are.
-/

namespace LoopBounds

/-- At an assignment, an expression that calls nothing has a value with the property. -/
structure Context.Attains (ctx : Context) (env : Env Int64) (e : ExprId) (P : Int → Prop) :
    Prop where
  nodes : ctx.Over .callFree e
  value : ∃ z, (ctx.valuation env).value e = some z ∧ P z

theorem Context.Attains.denotes {ctx : Context} {env : Env Int64} {e : ExprId} {P : Int → Prop}
    (h : ctx.Attains env e P) (ctx' : Context) :
    ∃ z, P z ∧ ctx.Denotes .callFree e ((ctx'.shallow env).Only z) := by
  obtain ⟨z, hz, hP⟩ := h.value
  refine ⟨z, hP, h.nodes, ?_⟩
  rintro _ hctx _ ⟨rfl, rfl⟩
  exact (h.nodes.value_eq hctx 0 _ env.exact).trans hz

/-- The ends of the domain have values, that of the extent with the property. -/
structure Context.AttainsDomain (ctx : Context) (env : Env Int64) (d : Domain) (P : Int → Prop) :
    Prop where
  min : ctx.Attains env d.min fun _ => True
  extent : ctx.Attains env d.extent P

/-- The values of the ends of domains are those of a box. -/
theorem Context.exists_box {ctx : Context} (ctx' : Context) {env : Env Int64} {P : Int → Prop}
    {A : Set AxisId} {f : AxisId → Option Domain}
    (h : ∀ a ∈ A, ∀ d, f a = some d → ctx.AttainsDomain env d P) :
    ∃ b : Box, ∀ a ∈ A, ∀ d, f a = some d →
      ctx.Denotes .callFree d.min ((ctx'.shallow env).Only (b.min a)) ∧
      ctx.Denotes .callFree d.extent ((ctx'.shallow env).Only (b.extent a)) ∧
        P (b.extent a) := by
  have hends : ∀ a, ∃ m n, a ∈ A → ∀ d, f a = some d →
      ctx.Denotes .callFree d.min ((ctx'.shallow env).Only m) ∧
      ctx.Denotes .callFree d.extent ((ctx'.shallow env).Only n) ∧ P n := by
    intro a
    by_cases hd : a ∈ A ∧ ∃ d, f a = some d
    · obtain ⟨ha, d, hd⟩ := hd
      obtain ⟨m, -, hm⟩ := (h a ha d hd).min.denotes ctx'
      obtain ⟨n, hP, hn⟩ := (h a ha d hd).extent.denotes ctx'
      refine ⟨m, n, fun _ d' hd' => ?_⟩
      cases hd.symm.trans hd'
      exact ⟨hm, hn, hP⟩
    · exact ⟨0, 0, fun ha d hd' => absurd ⟨ha, d, hd'⟩ hd⟩
  choose min extent hbox using hends
  exact ⟨⟨min, extent⟩, fun a ha => hbox a ha⟩

theorem Valuation.Enforces.of_le {ν ν' : Valuation} {gs : List ExprId} {P Q : Prop} (hle : ν ≤ ν')
    (h : ν.Enforces gs P Q) : ν'.Enforces gs P Q := by
  refine ⟨fun g hg => ?_, fun hP g hg => value_mono hle (h.complete hP g hg),
    fun hall => h.sound fun g hg => ?_⟩
  · obtain ⟨q, hq⟩ := h.bits g hg
    exact ⟨q, value_mono hle hq⟩
  · obtain ⟨q, hq⟩ := h.bits g hg
    rw [hq, ← value_mono hle hq, hall g hg]

namespace LoopNest

variable {nest : LoopNest} {ctx ctx' : Context} {env : Env Int64}

/-- A word for each loop. -/
abbrev LoopPoint (nest : LoopNest) := {a // a ∈ nest.leaves} → Int64

/-- An integer for each root. -/
abbrev RootPoint (nest : LoopNest) := {a // a ∈ nest.roots} → Int

/-- The assignment in which the loops of the nest are at a point. -/
def atPoint (nest : LoopNest) (ctx : Context) (env : Env Int64) (p : nest.LoopPoint) : Env Int64 :=
  nest.loops ctx env fun a => if h : a ∈ nest.leaves then p ⟨a, h⟩ else 0

/-- The points of the domains that the roots declare. -/
def declaredPoints (nest : LoopNest) (ctx : Context) (env : Env Int64) : Set nest.RootPoint :=
  {x | ∀ a, ∃ d, (ctx.axis a.1).domain? = some d ∧ (ctx.valuation env).InDomain d (x a)}

/-- A scheduled nest at sizes for which no part is empty. -/
structure MeetsSizes (nest : LoopNest) (ctx : Context) (env : Env Int64) : Prop where
  scheduled : Scheduled ctx nest
  threads : ∀ p ∈ nest.threads.toList, p.2.index < ctx.axes.size
  kind : ∀ a ∈ nest.roots, (ctx.axis a).kind ≠ .blackBox
  free : ∀ a : AxisId, a.index < ctx.axes.size → env (ctx.axisVar a) = none
  sizes : ∀ r ∈ nest.relations, ∀ e ∈ r.exprs, ctx.Attains env e (0 < ·)

end LoopNest

namespace NestBounds

/-- The points of the loops, each of which counts from zero up to the extent of its domain. -/
def loopPoints (bounds : NestBounds) (nest : LoopNest) (ctx : Context) (env : Env Int64) :
    Set nest.LoopPoint :=
  {p | ∀ a, ∃ d n, bounds.domains[a.1]? = some d ∧ (ctx.valuation env).value d.extent = some n ∧
    0 ≤ (p a).toInt ∧ (p a).toInt < n}

/-- The points of the loops at which all guards are true. -/
def guardedPoints (bounds : NestBounds) (nest : LoopNest) (ctx : Context) (env : Env Int64) :
    Set nest.LoopPoint :=
  {p ∈ bounds.loopPoints nest ctx env | ∀ g ∈ bounds.guards, ∃ w,
    ctx.EvalsTo (nest.atPoint ctx env p) g w ∧ w ≠ 0}

/-- The indices of the roots where the loops are. -/
def rootPoint (bounds : NestBounds) (nest : LoopNest) (ctx : Context) (env : Env Int64)
    (p : nest.LoopPoint) : nest.RootPoint := fun a =>
  (bounds.values[a.1]?.bind (ctx.valuation (nest.atPoint ctx env p)).value).getD 0

/-- The guards evaluate to truth values, and the indices of the roots evaluate. -/
structure Evaluates (bounds : NestBounds) (nest : LoopNest) (ctx : Context) (env : Env Int64)
    (p : nest.LoopPoint) : Prop where
  guards : ∀ g ∈ bounds.guards, ∃ w, ctx.EvalsTo (nest.atPoint ctx env p) g w ∧ (w = 0 ∨ w = 1)
  roots : ∀ a : {a // a ∈ nest.roots}, ∃ e w, bounds.values[a.1]? = some e ∧
    ctx.EvalsTo (nest.atPoint ctx env p) e w ∧ w.toInt = bounds.rootPoint nest ctx env p a

end NestBounds

instance : Inhabited NestBounds := ⟨⟨{}, {}, []⟩⟩

namespace LoopNest

variable {nest : LoopNest} {ctx : Context} {env : Env Int64}

theorem meetsSizes (hnest : Scheduled ctx nest)
    (hcalls : ∀ i < ctx.size, (ctx.node ⟨i⟩).callee? = none)
    (hthreads : ∀ p ∈ nest.threads.toList, p.2.index < ctx.axes.size)
    (hkind : ∀ a ∈ nest.roots, (ctx.axis a).kind ≠ .blackBox)
    (hfree : ∀ i < ctx.axes.size, env (ctx.axisVar ⟨i⟩) = none)
    (hsizes : ∀ r ∈ nest.relations, ∀ e ∈ r.exprs, ctx.Stored e ∧
      ∃ z ∈ (ctx.valuation env).value e, 0 < z) : nest.MeetsSizes ctx env := by
  refine ⟨hnest, hthreads, hkind, fun a ha => hfree a.index ha, fun r hr e he => ?_⟩
  obtain ⟨hstored, z, hz, hpos⟩ := hsizes r hr e he
  exact ⟨hstored.over_callFree hcalls, z, hz, hpos⟩

/-- The point that gives each loop its word. -/
def pointOf (nest : LoopNest) (f : AxisId → Int64) : nest.LoopPoint := fun a => f a.1

theorem atPoint_pointOf (f : AxisId → Int64) {loops : List (VarId × AxisId)}
    (h : nest.leaves.map (fun a => (ctx.axisVar a, a)) = loops) :
    nest.atPoint ctx env (nest.pointOf f) = fun v =>
      match loops.find? fun q => q.1 = v with
      | some q => some (f q.2)
      | none => env v := by
  subst h
  funext v
  rw [atPoint, LoopNest.loops, List.find?_map]
  simp only [Function.comp_def]
  cases hfind : nest.leaves.find? fun a => decide (ctx.axisVar a = v) with
  | none => rfl
  | some a => exact congrArg some (dif_pos (List.mem_of_find?_eq_some hfind))

end LoopNest

namespace NestBounds

variable {bounds : NestBounds} {nest : LoopNest} {ctx : Context} {env : Env Int64}

theorem pointOf_mem_loopPoints {f : AxisId → Int64}
    (h : ∀ a ∈ nest.leaves, ∃ d ∈ bounds.domains[a]?, ∃ n ∈ (ctx.valuation env).value d.extent,
      0 ≤ (f a).toInt ∧ (f a).toInt < n) :
    nest.pointOf f ∈ bounds.loopPoints nest ctx env := by
  intro a
  obtain ⟨d, hd, n, hn, hf⟩ := h a.1 a.2
  exact ⟨d, n, hd, hn, hf⟩

theorem pointOf_mem_guardedPoints {f : AxisId → Int64}
    (h : nest.pointOf f ∈ bounds.loopPoints nest ctx env)
    (hguards : ∀ g ∈ bounds.guards,
      (ctx.valuation (nest.atPoint ctx env (nest.pointOf f))).value g = some 1 ∧
        ctx.eval (nest.atPoint ctx env (nest.pointOf f)) g = some 1) :
    nest.pointOf f ∈ bounds.guardedPoints nest ctx env :=
  ⟨h, fun g hg => ⟨1, ⟨(hguards g hg).1, fun _ => (hguards g hg).2⟩, by decide⟩⟩

/-- A loop stays below the extent of its domain. -/
theorem loop_lt {p : nest.LoopPoint} (hp : p ∈ bounds.loopPoints nest ctx env) {a : AxisId}
    (ha : a ∈ nest.leaves) {n : Int}
    (hn : (bounds.domains[a]?.bind fun d => (ctx.valuation env).value d.extent) = some n) :
    0 ≤ (p ⟨a, ha⟩).toInt ∧ (p ⟨a, ha⟩).toInt < n := by
  obtain ⟨d, n', hd, hn', hlt⟩ := hp ⟨a, ha⟩
  rw [hd, Option.bind_some, hn', Option.some_inj] at hn
  exact hn ▸ hlt

/-- At a point of two loops, their variables have numbers below the extents. -/
theorem exists_atPoint_eq {p : nest.LoopPoint} (hp : p ∈ bounds.loopPoints nest ctx env)
    {outer inner : AxisId} {i j : VarId} {m n : Int}
    (hloops : nest.leaves.map (fun a => (ctx.axisVar a, a)) = [(i, outer), (j, inner)])
    (hm : (bounds.domains[outer]?.bind fun d => (ctx.valuation env).value d.extent) = some m)
    (hn : (bounds.domains[inner]?.bind fun d => (ctx.valuation env).value d.extent) = some n) :
    ∃ u w : Int, (0 ≤ u ∧ u < m) ∧ (0 ≤ w ∧ w < n) ∧ nest.atPoint ctx env p = fun v =>
      if i = v then some (.ofInt u) else if j = v then some (.ofInt w) else env v := by
  have hleaves : nest.leaves = [outer, inner] := by
    simpa [Function.comp_def] using congrArg (List.map Prod.snd) hloops
  obtain ⟨rfl, rfl⟩ : ctx.axisVar outer = i ∧ ctx.axisVar inner = j := by
    simpa [hleaves] using hloops
  have ho : outer ∈ nest.leaves := by simp [hleaves]
  have hi : inner ∈ nest.leaves := by simp [hleaves]
  refine ⟨(p ⟨outer, ho⟩).toInt, (p ⟨inner, hi⟩).toInt, loop_lt hp ho hm, loop_lt hp hi hn, ?_⟩
  funext v
  have hfind : nest.leaves.find? (fun a => ctx.axisVar a = v) =
      if ctx.axisVar outer = v then some outer else if ctx.axisVar inner = v then some inner
      else none := by
    rw [hleaves, List.find?_cons, List.find?_cons, List.find?_nil]
    split_ifs with houter hinner <;> simp [*]
  rw [Int64.ofInt_toInt, Int64.ofInt_toInt, LoopNest.atPoint, LoopNest.loops, hfind]
  split_ifs
  exacts [congrArg some (dif_pos ho), congrArg some (dif_pos hi), rfl]

end NestBounds

theorem Context.attainsDomain {ctx : Context} {env : Env Int64} {d : Domain} {P : Int → Prop}
    (hcalls : ∀ i < ctx.size, (ctx.node ⟨i⟩).callee? = none)
    (h : ctx.StoredDomain d ∧ (∃ z ∈ (ctx.valuation env).value d.min, True) ∧
      ∃ z ∈ (ctx.valuation env).value d.extent, P z) : ctx.AttainsDomain env d P :=
  ⟨⟨h.1.1.over_callFree hcalls, h.2.1⟩, h.1.2.over_callFree hcalls, h.2.2⟩

theorem LoopNest.loops_grows {α : Type} {nest : LoopNest} {ctx ctx' : Context} (hg : ctx.Grows ctx')
    (env : Env α) (p : AxisId → α) : nest.loops ctx' env p = nest.loops ctx env p := by
  funext v
  simp only [loops, hg.axisVar_eq]

namespace InferenceRun

variable {nest : LoopNest} {roots : Facts .axis Domain} {ctx ctx' : Context} {bounds : NestBounds}
  {env : Env Int64} {b₀ b declared : Box} {p : nest.LoopPoint} {x : AxisId → Int}

/-- The boxes that the domains of a run and those that the roots declare have at an assignment of
the sizes. -/
structure Measured (run : InferenceRun {} nest roots ctx bounds ctx') (env : Env Int64)
    (b₀ b declared : Box) : Prop where
  sized : nest.Sized ctx (ctx'.shallow env) roots b₀
  found : run.Found (ctx'.shallow env) b₀ b
  kind : ∀ a ∈ nest.roots, (ctx.axis a).kind ≠ .blackBox
  declared : ∀ a ∈ nest.roots, ∀ d, (ctx.axis a).domain? = some d →
    ctx.Denotes .callFree d.min ((ctx'.shallow env).Only (declared.min a)) ∧
      ctx.Denotes .callFree d.extent ((ctx'.shallow env).Only (declared.extent a))
  grows : run.found.ctx.Grows ctx'
  keeps : (ctx'.valuation env).Keeps

theorem exists_measured (run : InferenceRun {} nest roots ctx bounds ctx')
    (h : nest.MeetsSizes ctx env) (hmem : ∀ a, a ∈ roots ↔ a ∈ nest.roots)
    (hroots : ∀ (a : AxisId) (d : Domain), roots[a]? = some d → ctx.AttainsDomain env d (0 < ·))
    (hdeclared : ∀ a ∈ nest.roots, ∀ d, (ctx.axis a).domain? = some d →
      ctx.AttainsDomain env d fun _ => True) (hkeeps : (ctx'.valuation env).Keeps) :
    ∃ b₀ b declared, run.Measured env b₀ b declared := by
  obtain ⟨b₀, hb₀⟩ := Context.exists_box ctx' (A := .univ) (f := fun a => roots[a]?)
    fun a _ => hroots a
  obtain ⟨declared, hdecl⟩ := Context.exists_box ctx' (A := {a | a ∈ nest.roots})
    hdeclared
  have hsized : nest.Sized ctx (ctx'.shallow env) roots b₀ := by
    refine ⟨h.scheduled, h.threads, fun a ha => ?_, hmem, ⟨fun a d hd => (hb₀ a trivial d hd).1,
      fun a d hd => (hb₀ a trivial d hd).2.1, fun a ha => ?_⟩, fun r hr e he => ?_⟩
    · exact Option.map_eq_none_iff.2 (h.free a ha)
    · exact (hb₀ a trivial _ (Std.TreeMap.getElem?_eq_some_getElem ha)).2.2
    · obtain ⟨n, hn, hdenotes⟩ := (h.sizes r hr e he).denotes ctx'
      exact ⟨n, hn, hdenotes⟩
  obtain ⟨b, hfound⟩ := run.exists_found hsized (hkeeps.anti (ctx'.shallow_le env)) rfl
  have hgrows := run.found_grows hsized h.kind fun a ha d hd =>
    ⟨(hdecl a ha d hd).1.nodes, (hdecl a ha d hd).2.1.nodes⟩
  exact ⟨b₀, b, declared, hsized, hfound, h.kind,
    fun a ha d hd => ⟨(hdecl a ha d hd).1, (hdecl a ha d hd).2.1⟩, hgrows, hkeeps⟩

section Measured

variable {run : InferenceRun {} nest roots ctx bounds ctx'}

theorem Measured.exists_extent (h : run.Measured env b₀ b declared) {a : AxisId}
    (ha : a ∈ nest.axes) : ∃ d, bounds.domains[a]? = some d ∧
      (ctx'.valuation env).value d.extent = some (b.extent a) := by
  have hd := Std.TreeMap.getElem?_eq_some_getElem (h.found.mem a ha)
  exact ⟨_, hd, Valuation.value_mono (ctx'.shallow_le env)
    ((h.found.measures.extent a _ hd).value _ h.grows.le _ ⟨rfl, rfl⟩)⟩

theorem Measured.mem_loopPoints (h : run.Measured env b₀ b declared) :
    p ∈ bounds.loopPoints nest ctx' env ↔ ∀ a, 0 ≤ (p a).toInt ∧ (p a).toInt < b.extent a := by
  refine forall_congr' fun a => ?_
  obtain ⟨d, hd, hextent⟩ :=
    h.exists_extent (h.sized.scheduled.shaped.mem_axes_of_mem_leaves a.2)
  constructor
  · rintro ⟨d', n, hd', hn, hp⟩
    cases hd.symm.trans hd'
    cases hextent.symm.trans hn
    exact hp
  · exact fun hp => ⟨d, _, hd, hextent, hp⟩

/-- A point of the declared domain of a root. -/
theorem Measured.inDomain_iff (h : run.Measured env b₀ b declared) {a : AxisId}
    (ha : a ∈ nest.roots) {d : Domain} (hd : (ctx.axis a).domain? = some d) (z : Int) :
    (ctx'.valuation env).InDomain d z ↔
      declared.min a ≤ z ∧ z < declared.min a + declared.extent a := by
  obtain ⟨hmin, hextent⟩ := h.declared a ha d hd
  have hctx := (h.found.grows.trans h.grows).le
  have hm := Valuation.value_mono (ctx'.shallow_le env) (hmin.value _ hctx _ ⟨rfl, rfl⟩)
  have hn := Valuation.value_mono (ctx'.shallow_le env) (hextent.value _ hctx _ ⟨rfl, rfl⟩)
  constructor
  · rintro ⟨m, n, hm', hn', hz⟩
    cases hm.symm.trans hm'
    cases hn.symm.trans hn'
    exact hz
  · exact fun hz => ⟨_, _, hm, hn, hz⟩

theorem Measured.declared_eq (h : run.Measured env b₀ b declared) {a : AxisId}
    (ha : a ∈ nest.roots) (heq : roots[a]? = (ctx.axis a).domain?) :
    declared.min a = b.min a ∧ declared.extent a = b.extent a := by
  have hd := Std.TreeMap.getElem?_eq_some_getElem ((h.sized.mem_roots a).2 ha)
  obtain ⟨hmin, hextent⟩ := h.declared a ha _ (heq ▸ hd)
  have hsub := h.found.subset a _ hd
  have hctx := h.grows.le
  have hctx' := (h.found.grows.trans h.grows).le
  exact ⟨Option.some_inj.1 ((hmin.value _ hctx' _ ⟨rfl, rfl⟩).symm.trans
      ((h.found.measures.min a _ hsub).value _ hctx _ ⟨rfl, rfl⟩)),
    Option.some_inj.1 ((hextent.value _ hctx' _ ⟨rfl, rfl⟩).symm.trans
      ((h.found.measures.extent a _ hsub).value _ hctx _ ⟨rfl, rfl⟩))⟩

/-- What a run says of a point of the loops. -/
structure Attained (run : InferenceRun {} nest roots ctx bounds ctx') (env : Env Int64)
    (b declared : Box) (p : nest.LoopPoint) (x : AxisId → Int) : Prop where
  evaluates : bounds.Evaluates nest ctx' env p
  index : ∀ a, bounds.rootPoint nest ctx' env p a = x a.1
  enforces : (ctx'.valuation (nest.atPoint ctx' env p)).Enforces bounds.guards
    ((∀ a ∈ nest.axes, b.Contains x a) ∧ ∀ a ∈ nest.roots, declared.Contains x a)
    ((∀ a ∈ nest.axes, b.Contains x a) ∧ ∀ a ∈ nest.roots, a ∈ sureAxes nest b →
      roots[a]? ≠ (ctx.axis a).domain? → declared.Contains x a)

theorem Measured.attained (h : run.Measured env b₀ b declared)
    (hp : p ∈ bounds.loopPoints nest ctx' env)
    (hkeeps : (ctx'.valuation (nest.atPoint ctx' env p)).Keeps)
    (hleaves : ∀ a, x a.1 = (p a).toInt + b.min a.1) (hsolves : nest.Solves b x) :
    run.Attained env b declared p x := by
  have hgrows := h.found.grows.trans h.grows
  have hle := ctx'.shallow_le (nest.atPoint ctx' env p)
  have hshallow : ctx'.shallow (nest.atPoint ctx' env p) = ⟨ctx', 0, nest.loops ctx env.exact
      fun a => (if h : a ∈ nest.leaves then p ⟨a, h⟩ else 0).toInt⟩ := by
    rw [Context.shallow, LoopNest.atPoint, LoopNest.loops_grows hgrows, LoopNest.loops_exact]
  have hasked : run.Asked ctx' env.exact b₀ b declared
      (fun a => (if h : a ∈ nest.leaves then p ⟨a, h⟩ else 0).toInt) x := by
    refine ⟨h.sized, h.found, h.kind, h.declared, fun a ha => ?_, ?_, fun a ha => ?_, hsolves⟩
    · rw [dif_pos ha]
      exact h.mem_loopPoints.1 hp ⟨a, ha⟩
    · exact hshallow ▸ hkeeps.anti hle
    · rw [dif_pos ha]
      exact hleaves ⟨a, ha⟩
  obtain ⟨-, hvalues, henforces⟩ := hasked.enforces
  rw [← hshallow] at hvalues henforces
  have hν := (henforces.holds le_rfl).of_le hle
  have hindex : ∀ a : {a // a ∈ nest.roots}, ∃ e : ExprId, bounds.values[a.1]? = some e ∧
      ctx'.Over .callFree e ∧
        (ctx'.valuation (nest.atPoint ctx' env p)).value e = some (x a.1) := by
    intro a
    obtain ⟨e, he, hdenotes⟩ :=
      hvalues a.1 (h.sized.scheduled.shaped.mem_axes_of_mem_roots a.2)
    exact ⟨e, he, hdenotes.nodes,
      Valuation.value_mono hle (hdenotes.value _ le_rfl _ ⟨rfl, rfl⟩)⟩
  have hroot : ∀ a, bounds.rootPoint nest ctx' env p a = x a.1 := by
    intro a
    obtain ⟨e, he, -, hx⟩ := hindex a
    rw [NestBounds.rootPoint, he, Option.bind_some, hx, Option.getD_some]
  refine ⟨⟨fun g hg => ?_, fun a => ?_⟩, hroot, hν⟩
  · obtain ⟨q, hq⟩ := hν.bits g hg
    obtain ⟨w, hw, hwq⟩ := (henforces.nodes g hg).exists_evalsTo hkeeps hq
    refine ⟨w, hw, ?_⟩
    cases q
    · exact .inl (Int64.toInt_inj.1 hwq)
    · exact .inr (Int64.toInt_inj.1 hwq)
  · obtain ⟨e, he, hnodes, hx⟩ := hindex a
    obtain ⟨w, hw, hwx⟩ := hnodes.exists_evalsTo hkeeps hx
    exact ⟨e, w, he, hw, hwx.trans (hroot a).symm⟩

theorem Measured.exists_attained (h : run.Measured env b₀ b declared)
    (hp : p ∈ bounds.loopPoints nest ctx' env)
    (hkeeps : (ctx'.valuation (nest.atPoint ctx' env p)).Keeps) :
    ∃ x, (∀ a, x a.1 = (p a).toInt + b.min a.1) ∧ nest.Solves b x ∧
      run.Attained env b declared p x := by
  obtain ⟨x, hx, hsolves⟩ := h.sized.scheduled.exists_solves b
    fun a => if h : a ∈ nest.leaves then (p ⟨a, h⟩).toInt + b.min a else 0
  have hleaves : ∀ a, x a.1 = (p a).toInt + b.min a.1 := fun a => by rw [hx a.1 a.2, dif_pos a.2]
  exact ⟨x, hleaves, hsolves, h.attained hp hkeeps hleaves hsolves⟩

theorem Attained.mem_guardedPoints (h : run.Attained env b declared p x)
    (hp : p ∈ bounds.loopPoints nest ctx' env) :
    p ∈ bounds.guardedPoints nest ctx' env ↔ ∀ g ∈ bounds.guards,
      (ctx'.valuation (nest.atPoint ctx' env p)).value g = some 1 := by
  refine (and_iff_right hp).trans (forall₂_congr fun g hg => ?_)
  obtain ⟨w, hw, hbit⟩ := h.evaluates.guards g hg
  constructor
  · rintro ⟨w', hw', hne⟩
    have heq := hw.1.symm.trans hw'.1
    rw [Option.some_inj, Int64.toInt_inj] at heq
    rw [hw'.1, ← heq, hbit.resolve_left (heq ▸ hne)]
    rfl
  · intro hone
    have heq := hw.1.symm.trans hone
    refine ⟨w, hw, ?_⟩
    rintro rfl
    cases heq

/-- A guarded point lies in all domains, and in the declared ones as far as they are guarded. -/
theorem Measured.exists_contained (h : run.Measured env b₀ b declared)
    (hp : p ∈ bounds.guardedPoints nest ctx' env)
    (hkeeps : (ctx'.valuation (nest.atPoint ctx' env p)).Keeps) :
    ∃ x, (∀ a, x a.1 = (p a).toInt + b.min a.1) ∧ nest.Solves b x ∧
      run.Attained env b declared p x ∧ (∀ a ∈ nest.axes, b.Contains x a) ∧
        ∀ a ∈ nest.roots, a ∈ sureAxes nest b → roots[a]? ≠ (ctx.axis a).domain? →
          declared.Contains x a := by
  obtain ⟨x, hleaves, hsolves, hx⟩ := h.exists_attained hp.1 hkeeps
  exact ⟨x, hleaves, hsolves, hx, hx.enforces.sound ((hx.mem_guardedPoints hp.1).1 hp)⟩

variable (hkeeps : ∀ p ∈ bounds.loopPoints nest ctx' env,
  (ctx'.valuation (nest.atPoint ctx' env p)).Keeps)

include hkeeps in
/-- No point of the roots is run twice. -/
theorem Measured.injOn (h : run.Measured env b₀ b declared) :
    Set.InjOn (bounds.rootPoint nest ctx' env) (bounds.guardedPoints nest ctx' env) := by
  intro p hp q hq heq
  have hshaped := h.sized.scheduled.shaped
  obtain ⟨x, hxleaves, hxsolves, hx, hxin, -⟩ := h.exists_contained hp (hkeeps p hp.1)
  obtain ⟨y, hyleaves, hysolves, hy, hyin, -⟩ := h.exists_contained hq (hkeeps q hq.1)
  have hroot : ∀ a ∈ nest.roots, x a = y a := fun a ha =>
    (hx.index ⟨a, ha⟩).symm.trans ((congrFun heq ⟨a, ha⟩).trans (hy.index ⟨a, ha⟩))
  have hsame := h.sized.scheduled.point_unique h.found.covers hxsolves hysolves hxin hyin hroot
  funext a
  have hxy := hsame a.1 (hshaped.mem_axes_of_mem_leaves a.2)
  rw [hxleaves, hyleaves] at hxy
  exact Int64.toInt_inj.1 (by omega)

include hkeeps in
/-- No point is lost that lies in the working and in the declared domains of the roots. -/
theorem Measured.exists_guarded (h : run.Measured env b₀ b declared) {root : AxisId → Int}
    (hroot : ∀ a ∈ nest.roots, b.Contains root a)
    (hdeclared : ∀ a ∈ nest.roots, declared.Contains root a) :
    ∃ p ∈ bounds.guardedPoints nest ctx' env,
      ∀ a, bounds.rootPoint nest ctx' env p a = root a.1 := by
  have hshaped := h.sized.scheduled.shaped
  obtain ⟨x, hx, hcontains, hsolves⟩ := h.sized.scheduled.exists_point h.found.covers hroot
  let p : nest.LoopPoint := fun a => Int64.ofInt (x a.1 - b.min a.1)
  have hword : ∀ a, (p a).toInt = x a.1 - b.min a.1 := by
    intro a
    have ha := hshaped.mem_axes_of_mem_leaves a.2
    obtain ⟨d, -, hextent⟩ := h.exists_extent ha
    obtain ⟨hlo, hhi⟩ := hcontains a.1 ha
    have hmax := (h.keeps.inside _ _ hextent).2
    have hmin : Int64.minValue.toInt < 0 := by decide
    exact Word.toInt_ofInt ⟨by omega, by omega⟩
  have hp : p ∈ bounds.loopPoints nest ctx' env := by
    refine h.mem_loopPoints.2 fun a => ?_
    obtain ⟨hlo, hhi⟩ := hcontains a.1 (hshaped.mem_axes_of_mem_leaves a.2)
    rw [hword]
    omega
  have hattained := h.attained hp (hkeeps p hp) (fun a => by rw [hword]; omega) hsolves
  refine ⟨p, (hattained.mem_guardedPoints hp).2 (hattained.enforces.complete
    ⟨hcontains, fun a ha => ?_⟩), fun a => ?_⟩
  · rw [Box.Contains, hx a ha]
    exact hdeclared a ha
  · rw [hattained.index, hx a.1 a.2]

end Measured

end InferenceRun

end LoopBounds
