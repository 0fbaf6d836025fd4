import LoopBounds.Proofs.RoundTrip

/-!
# Indices from roots that start anywhere

Fused and rebased axes have to start at zero, or the indices do not go down.  Of a split only the
inner part is asked where it starts, and that is always zero: the index of the parent is divided
as it is.  So the parts lie in their domains if the parent does not start below zero and ends
before the product of the parts does, but not otherwise.
-/

namespace LoopBounds

/-! ## Room for the parts of a split -/

/-- The points of the parent of a split, counted from zero, are no more than those of its parts. -/
def AxisRelation.HasRoom (known : Facts .axis Domain) (ctx : Context) : AxisRelation → Prop
  | .reshape (.split parent outer inner _) => ∀ l x m n, known.Ranges ctx parent l x →
      known.Counts ctx outer m → known.Counts ctx inner n → 0 ≤ l ∧ l + x ≤ m * n
  | .reshape (.fuse ..) | .rebase .. | .singleton _ => True

/-- The box that starts at zero, unless it starts before, and ends where the other one ends. -/
def Box.fromZero (b : Box) : Box where
  min a := Min.min (b.min a) 0
  extent a := b.min a + b.extent a - Min.min (b.min a) 0

theorem Box.contains_fromZero {b : Box} {x : AxisId → Int} {a : AxisId} (h : b.Contains x a) :
    b.fromZero.Contains x a := by
  obtain ⟨hlo, hhi⟩ := h
  constructor <;> simp only [Box.fromZero] <;> omega

theorem Box.fromZero_of_nonneg {b : Box} {a : AxisId} (h : 0 ≤ b.min a) :
    b.fromZero.min a = 0 ∧ b.fromZero.extent a = b.min a + b.extent a := by
  simp only [Box.fromZero, min_eq_right h, sub_zero, and_self]

namespace AxisRelation

variable {known : Facts .axis Domain} {ctx : Context} {b : Box} {x : AxisId → Int}
  {r : AxisRelation}

theorem takesApart_zero (r : AxisRelation) (b : Box) : r.TakesApart b fun _ => 0 := by
  rcases r with (_ | _) | _ | _ <;> simp [TakesApart]

theorem HasRoom.split {parent outer inner : AxisId} {size : SplitBy} {l n m k : Int}
    (hparent : known.Ranges ctx parent l n) (houter : known.Counts ctx outer m)
    (hinner : known.Counts ctx inner k) (hmin : 0 ≤ l) (hfits : l + n ≤ m * k) :
    (AxisRelation.reshape (.split parent outer inner size)).HasRoom known ctx := by
  intro l' n' m' k' hparent' houter' hinner'
  obtain ⟨rfl, rfl⟩ := hparent'.unique hparent
  rw [houter'.unique houter, hinner'.unique hinner]
  exact ⟨hmin, hfits⟩

/-- A parent that counts from zero leaves its parts room. -/
theorem Measured.hasRoom (h : r.Measured known ctx)
    (hzero : ∀ a ∈ r.consumed, ∃ n, known.Counts ctx a n) : r.HasRoom known ctx := by
  rcases r with (⟨parent, outer, inner, size⟩ | ⟨outer, inner, fused⟩) | ⟨parent, rebased⟩ | a
  · obtain ⟨l, x, m, n, hx, hm, hn, hle⟩ := h
    obtain ⟨_, hparent⟩ := hzero parent (.head _)
    obtain ⟨rfl, rfl⟩ := hx.unique hparent.ranges
    exact .split hx hm hn le_rfl (by rwa [zero_add])
  · trivial
  · trivial
  · trivial

/-- There is as much room in a later context. -/
theorem HasRoom.mono {ctx' : Context} (hctx : ctx ≤ ctx') (hr : r.Measured known ctx)
    (h : r.HasRoom known ctx) : r.HasRoom known ctx' := by
  rcases r with (⟨parent, outer, inner, size⟩ | ⟨outer, inner, fused⟩) | ⟨parent, rebased⟩ | a
  · obtain ⟨l, x, m, n, hx, hm, hn, -⟩ := hr
    obtain ⟨hmin, hfits⟩ := h l x m n hx hm hn
    exact .split (hx.mono (fun _ _ => id) hctx) (hm.mono (fun _ _ => id) hctx)
      (hn.mono (fun _ _ => id) hctx) hmin hfits
  · trivial
  · trivial
  · trivial

/-- Where there is room for the parts of a split, and what is fused or rebased starts at zero, the
axes of a relation count from zero without losing points. -/
theorem Measured.fromZero (h : r.Measured known ctx) (hroom : r.HasRoom known ctx)
    (hb : ∀ a ∈ r.consumed ++ r.made, known.Ranges ctx a (b.min a) (b.extent a))
    (hzero : ∀ a ∈ r.fromZero, b.min a = 0) :
    r.Covers b.fromZero ∧ ∀ a ∈ r.consumed, b.fromZero.min a = 0 := by
  have hcounts : ∀ {a n}, a ∈ r.consumed ++ r.made → known.Counts ctx a n →
      b.fromZero.min a = 0 ∧ b.fromZero.extent a = n := by
    intro a n ha hn
    obtain ⟨hmin, rfl⟩ := (hb a ha).unique hn.ranges
    simpa [hmin] using Box.fromZero_of_nonneg (b := b) (a := a) hmin.ge
  rcases r with (⟨parent, outer, inner, size⟩ | ⟨outer, inner, fused⟩) | ⟨parent, rebased⟩ | a
  · obtain ⟨l, x, m, n, hx, hm, hn, -⟩ := h
    obtain ⟨hmin, hfits⟩ := hroom l x m n hx hm hn
    obtain ⟨rfl, rfl⟩ := hx.unique (hb parent (.head _))
    obtain ⟨hparent, hextent⟩ := Box.fromZero_of_nonneg hmin
    obtain ⟨houter, rfl⟩ := hcounts (.tail _ (.head _)) hm
    obtain ⟨hinner, rfl⟩ := hcounts (.tail _ (.tail _ (.head _))) hn
    refine ⟨⟨houter, hinner, hn.1, hextent ▸ hfits⟩, ?_⟩
    simp [consumed, hparent]
  · obtain ⟨k, l, m, n, hm, hn, hmn⟩ := h
    obtain ⟨rfl, rfl⟩ := hm.unique (hb outer (.head _))
    obtain ⟨rfl, rfl⟩ := hn.unique (hb inner (.tail _ (.head _)))
    obtain ⟨houter, houter'⟩ := Box.fromZero_of_nonneg (b := b) (hzero outer (.head _)).ge
    obtain ⟨hinner, hinner'⟩ := Box.fromZero_of_nonneg (b := b) (hzero inner (.tail _ (.head _))).ge
    rw [hzero outer (.head _), zero_add] at houter'
    rw [hzero inner (.tail _ (.head _)), zero_add] at hinner'
    obtain ⟨hfused, hfused'⟩ := hcounts (.tail _ (.tail _ (.head _))) hmn
    refine ⟨⟨hfused, hinner'.symm ▸ hn.1, by rw [hfused', houter', hinner']⟩, ?_⟩
    simp [consumed, houter, hinner]
  · obtain ⟨l, n, hn, hn'⟩ := h
    obtain ⟨rfl, rfl⟩ := hn.unique (hb parent (.head _))
    obtain ⟨hparent, hparent'⟩ := Box.fromZero_of_nonneg (b := b) (hzero parent (.head _)).ge
    rw [hzero parent (.head _), zero_add] at hparent'
    obtain ⟨hrebased, hrebased'⟩ := hcounts (.tail _ (.head _)) hn'
    refine ⟨⟨hrebased, hrebased'.trans hparent'.symm⟩, ?_⟩
    simp [consumed, hparent]
  · exact ⟨trivial, List.forall_mem_nil _⟩

end AxisRelation

/-! ## Points of nests -/

namespace LoopNest

variable {nest : LoopNest} {known : Facts .axis Domain} {ctx ctx' : Context} {b : Box}
  {x : AxisId → Int} {R : Reading}

/-- The box has the literal ends of the domains. -/
structure Ranged (nest : LoopNest) (known : Facts .axis Domain) (ctx : Context) (b : Box) :
    Prop where
  ranges : ∀ a ∈ nest.axes, known.Ranges ctx a (b.min a) (b.extent a)
  measured : ∀ r ∈ nest.relations, r.Measured known ctx

theorem exists_ranged (haxes : ∀ a ∈ nest.axes, ∃ m n, known.Ranges ctx a m n)
    (hrelations : ∀ r ∈ nest.relations, r.Measured known ctx) : ∃ b, nest.Ranged known ctx b := by
  choose! min extent hranges using haxes
  exact ⟨⟨min, extent⟩, hranges, hrelations⟩

theorem Ranged.mono (hctx : ctx ≤ ctx') (h : nest.Ranged known ctx b) :
    nest.Ranged known ctx' b :=
  ⟨fun a ha => (h.ranges a ha).mono (fun _ _ => id) hctx,
    fun r hr => (h.measured r hr).mono (fun _ _ => id) hctx⟩

theorem Ranged.spans (h : nest.Ranged known ctx b)
    (hR : ∀ {e z}, ctx.Literal e z → R.holds ctx e z) {a : AxisId} (ha : a ∈ nest.axes) :
    R.Spans b known ctx a :=
  (h.ranges a ha).spans hR

theorem Ranged.min_eq_zero (h : nest.Ranged known ctx b) {a : AxisId} (ha : a ∈ nest.axes)
    (hzero : Sweep.ZeroBased known ctx a) : b.min a = 0 := by
  obtain ⟨-, d, hd, hmin, -⟩ := h.ranges a ha
  obtain ⟨hstored, hzero⟩ := hzero d hd
  exact hmin.unique (Context.literal_of_isZero hstored hzero)

theorem Ranged.eq_of_counts (h : nest.Ranged known ctx b) {a : AxisId} (ha : a ∈ nest.axes)
    {n : Int} (hn : known.Counts ctx a n) : b.min a = 0 ∧ b.extent a = n :=
  (h.ranges a ha).unique hn.ranges

/-- Where there is room for the parts of every split, and what is fused or rebased starts at zero,
the domains of a nest may be counted from zero. -/
theorem Ranged.grounded (h : nest.Ranged known ctx b) (hshaped : Shaped ctx' nest)
    (hroom : ∀ r ∈ nest.relations, r.HasRoom known ctx)
    (hzero : ∀ r ∈ nest.relations, ∀ a ∈ r.fromZero, b.min a = 0) : nest.Grounded b.fromZero := by
  have hshift := fun r hr => (h.measured r hr).fromZero (hroom r hr)
    (fun a ha => h.ranges a (hshaped.mem_axes_of_mem_relation hr ha)) (hzero r hr)
  refine ⟨fun r hr => (hshift r hr).1, fun r hr => (hshift r hr).2, fun a ha => ?_⟩
  obtain ⟨hmin, hextent⟩ := h.eq_of_counts (hshaped.pinned a ha) (h.measured _ ha)
  simpa [hmin, hextent] using Box.fromZero_of_nonneg (b := b) hmin.ge

/-- A point of what a relation makes is a word of its domain. -/
theorem Ranged.holds_made (h : nest.Ranged known ctx b) (hshaped : Shaped ctx' nest) {a : AxisId}
    (ha : a ∈ nest.relations.flatMap AxisRelation.made)
    (hx : ∀ a ∈ nest.axes, b.fromZero.Contains x a) :
    Word.Fits (x a) ∧ ∀ w : Int64, w.toInt = x a → known.Holds ctx a w := by
  obtain ⟨r, hr, ha⟩ := List.mem_flatMap.1 ha
  have haxis := hshaped.mem_axes_of_mem_relation hr (List.mem_append_right _ ha)
  obtain ⟨n, hn⟩ := (h.measured r hr).made a ha
  obtain ⟨hmin, rfl⟩ := h.eq_of_counts haxis hn
  obtain ⟨hmin', hextent'⟩ := Box.fromZero_of_nonneg (b := b) hmin.ge
  have hcontains := hx a haxis
  rw [Box.Contains, hmin', hextent', hmin, zero_add, zero_add] at hcontains
  obtain ⟨-, d, -, hextent⟩ := id hn
  exact ⟨hextent.fits.of_le hcontains.1 hcontains.2.le,
    fun w hw => (hn.holds_iff w).2 (hw ▸ hcontains)⟩

theorem Ranged.spans_fromZero (h : nest.Ranged known ctx b)
    (hR : ∀ {e z}, ctx.Literal e z → R.holds ctx e z) {a : AxisId} (ha : a ∈ nest.axes)
    (hzero : b.min a = 0) : R.Spans b.fromZero known ctx a := by
  obtain ⟨hmin, hextent⟩ := Box.fromZero_of_nonneg (b := b) hzero.ge
  refine Facts.Ranges.spans ?_ hR
  rw [hmin, hextent, hzero, zero_add]
  exact hzero ▸ h.ranges a ha

end LoopNest

namespace Sweep

section

variable {nest : LoopNest} {known : Facts .axis Domain} {ctx : Context} {s : Session} {b : Box}
  {start : Facts .axis ExprId} {allowMissing : Bool} {env : Env Int64} {p : AxisId → Int64}

/-- If the indices go down then what is fused or rebased starts at zero. -/
theorem indicesDown_fromZero (hnest : LoopNest.Scheduled ctx nest) (hwf : s.ctx.WellFormed)
    (hbox : nest.Ranged known s.ctx b) (hstart : start.Seeds nest.roots s.ctx) :
    Yields False (indicesDown nest known allowMissing) start s fun _ _ _ =>
      ∀ r ∈ nest.relations, ∀ a ∈ r.fromZero, b.min a = 0 := by
  have hshaped := hnest.shaped
  have haxis : ∀ r ∈ nest.relations, ∀ a ∈ r.consumed ++ r.made, a ∈ nest.axes :=
    fun r hr a ha => hshaped.mem_axes_of_mem_relation hr ha
  -- The values do not matter here, so all loop variables may be taken to be zero.
  let zeros : Env Int64 := fun _ => some 0
  have hread : (Reading.exact True zeros.exact).Reads .univ (fun _ => 0) start s.ctx :=
    hstart.reads_exact (p := fun _ => 0) (fun _ _ => rfl) fun _ _ => Int64.toInt_zero
  have hfits : ∀ r : AxisRelation, r.FitsDown (fun _ => True) b fun _ => 0 := by
    rintro ((_ | _) | _ | _) <;> simp [AxisRelation.FitsDown]
  have hpos : ∀ r ∈ nest.relations, ∀ a, r.divisor? = some a → 0 < b.extent a := by
    intro r hr a ha
    refine (hbox.ranges a (haxis r hr a ?_)).1
    rcases r with (_ | _) | _ | _ <;> cases ha <;> simp [AxisRelation.consumed, AxisRelation.made]
  refine (indicesDown_yields (R := .exact True zeros.exact) (b := b) (c := False) False.elim hnest
    hwf (fun r hr a ha => ?_) False.elim hpos (fun r _ => r.takesApart_zero b)
      (fun r _ => hfits r) hread hstart.mem).mono ?_
  · exact hbox.spans (fun h => h.reads_exact _)
      (haxis r hr a (AxisRelation.mem_of_mem_fromZero ha))
  · rintro - - ctx' - ⟨-, hzero⟩ r hr a ha
    exact hbox.min_eq_zero (haxis r hr a (AxisRelation.mem_of_mem_fromZero ha)) (hzero r hr a ha)

/-- Where there is room for the parts of every split, the indices that go down from a point of the
roots inside their domains lie inside the domains of their axes. -/
theorem indicesDown_contained (hnest : LoopNest.Scheduled ctx nest) (hwf : s.ctx.WellFormed)
    (hbox : nest.Ranged known s.ctx b) (hstart : start.Seeds nest.roots s.ctx)
    (hzero : ∀ r ∈ nest.relations, ∀ a ∈ r.fromZero, b.min a = 0)
    (hroom : ∀ r ∈ nest.relations, r.HasRoom known s.ctx)
    (hp : ∀ a ∈ nest.roots, b.Contains (fun c => (p c).toInt) a)
    (henv : s.ctx.Places nest.roots p env) :
    Yields False (indicesDown nest known allowMissing) start s fun _ down ctx' =>
      ∀ a ∈ nest.axes, ∃ w, down.Evaluates ctx' env a w ∧ known.Holds s.ctx a w := by
  have hground := hbox.grounded hnest.shaped hroom hzero
  obtain ⟨x, hroots, hcontains, hsolves⟩ := hnest.exists_point (b := b.fromZero) hground.covers
    fun a ha => Box.contains_fromZero (hp a ha)
  -- A root has its word, and what is made counts from zero.
  have hword : ∀ a ∈ nest.axes, Word.Fits (x a) ∧
      ∀ w : Int64, w.toInt = x a → known.Holds s.ctx a w := by
    intro a ha
    by_cases hroot : a ∈ nest.roots
    · refine ⟨hroots a hroot ▸ Word.fits_toInt (p a), fun w hw => ?_⟩
      rw [(hbox.ranges a ha).holds_iff, hw, hroots a hroot]
      exact hp a hroot
    · rw [hnest.shaped.axes_eq, List.mem_append] at ha
      exact hbox.holds_made hnest.shaped (ha.resolve_left hroot) hcontains
  refine (indicesDown_at (c := False) hnest hwf hground (fun r hr a ha => ?_) False.elim
    ⟨hcontains, hsolves⟩ (fun a ha => (hword a ha).1) hstart henv
    fun a ha => (hroots a ha).symm).mono ?_
  · exact hbox.spans_fromZero (fun h => h.reads_word env) (hnest.shaped.mem_axes_of_mem_relation hr
      (AxisRelation.mem_of_mem_fromZero ha)) (hzero r hr a ha)
  · rintro - down ctx' - hdown a ha
    obtain ⟨w, hw, hwx⟩ := hdown a ha
    exact ⟨w, hw, (hword a ha).2 w hwx⟩

/-- If the indices go down from the loop variables of roots with literal domains, wherever these
start, then they lie in the domains of all axes at every point of the roots inside theirs, so long
as each split counts its parent from zero or has room for it. -/
theorem indicesDown_inDomain {nest : LoopNest} {roots known : Facts .axis Domain}
    {s s' sd sd' : Session} {rootVars down : Facts .axis ExprId} {missing missingDown : Bool}
    {p : AxisId → Int64} {env : Env Int64} (hnest : nest.OverRanges roots s.ctx)
    (hs : s.Reachable) (hdomains : ((domains nest missing).run.run roots).run s =
      ((.ok (), known), s'))
    (hliterals : known.Spelled s'.ctx) (hctx : s'.ctx ≤ sd.ctx) (hwf : sd.ctx.WellFormed)
    (hrootVars : rootVars.Seeds nest.roots sd.ctx)
    (hindices : ((indicesDown nest known missingDown).run.run rootVars).run sd =
      ((.ok (), down), sd'))
    (hroom : ∀ r ∈ nest.relations,
      (∀ a ∈ r.consumed, ∃ n, known.Counts s'.ctx a n) ∨ r.HasRoom known s'.ctx)
    (hp : ∀ a ∈ nest.roots, roots.Holds s.ctx a (p a)) (henv : sd'.ctx.Places nest.roots p env) :
    ∀ a ∈ nest.axes, ∃ w, down.Evaluates sd'.ctx env a w ∧ known.Holds s'.ctx a w := by
  obtain ⟨hg, hsub, haxes, hmeasured⟩ := domains_measure hnest hs hdomains hliterals
  have hscheduled := hnest.scheduled
  have hshaped := hscheduled.shaped
  obtain ⟨b, hbox⟩ := LoopNest.exists_ranged haxes hmeasured
  have hbox' := hbox.mono hctx
  obtain ⟨-, hg', hzero⟩ :=
    (indicesDown_fromZero hscheduled hwf hbox' hrootVars).post _ _ _ hindices
  have hroom' : ∀ r ∈ nest.relations, r.HasRoom known sd.ctx := fun r hr =>
    ((hroom r hr).elim (hmeasured r hr).hasRoom id).mono hctx (hmeasured r hr)
  have hinside : ∀ a ∈ nest.roots, b.Contains (fun c => (p c).toInt) a := fun a ha =>
    ((hbox.ranges a (hshaped.mem_axes_of_mem_roots ha)).holds_iff (p a)).1
      ((hp a ha).mono hsub hg.le)
  obtain ⟨-, -, hcontained⟩ := (indicesDown_contained hscheduled hwf hbox' hrootVars hzero hroom'
    hinside (henv.of_grows hg')).post _ _ _ hindices
  intro a ha
  obtain ⟨w, hw, hholds⟩ := hcontained a ha
  refine ⟨w, hw, ((hbox.ranges a ha).holds_iff w).2 ?_⟩
  exact ((hbox'.ranges a ha).holds_iff w).1 hholds

end

/-- The root over `[min, min + extent)`. -/
def rootFrom (min extent : Int64) : (AxisId × Domain) × Context := (do
  let domain : Domain := ⟨← Build.int min, ← Build.int extent⟩
  return (← declareAxis "i" (some domain) .dataParallel, domain) : Build _).run default

namespace RowsOf

variable (root : (AxisId × Domain) × Context)

/-- The root in rows of four, fused again, rebased, and split into one part. -/
def nest : LoopNest × Context := (raggedSchedule root.1.1).outcome root.2

def found : Facts .axis Domain × Session :=
  (domains (nest root).1 false).outcome (rootDomains root) ⟨(nest root).2, {}⟩

def start : Facts .axis ExprId × Session :=
  let (values, ctx) := (loopVars (nest root).1.roots).run (found root).2.ctx
  (values, ⟨ctx, {}⟩)

def down : Facts .axis ExprId × Session :=
  (indicesDown (nest root).1 (found root).1 false).outcome (start root).1 (start root).2

variable {root}

variable (root) in
theorem start_seeds : (found root).2.ctx.Grows (start root).2.ctx ∧
    (start root).1.Seeds (nest root).1.roots (start root).2.ctx := loopVars_seeds _ _

theorem nest_overRanges {m n : Int} (hwf : root.2.WellFormed)
    (hreg : root.1.1.index < root.2.axes.size)
    (hok : (raggedSchedule root.1.1).succeeds root.2 = true)
    (hthreads : (nest root).1.threads.toList = []) (hroots : (nest root).1.roots = [root.1.1])
    (hrange : (rootDomains root).Ranges (nest root).2 root.1.1 m n)
    (hfactors : ∀ r ∈ (nest root).1.relations, ∀ e ∈ r.exprs,
      ∃ w ∈ (nest root).2.literal? e, 0 < w.toInt ∧ (nest root).2.Literal e w.toInt) :
    (nest root).1.OverRanges (rootDomains root) (nest root).2 where
  scheduled := (raggedSchedule_scheduled hwf hreg).outcome hok
  threads := hthreads ▸ nofun
  mem_roots a := hroots ▸ mem_rootDomains root a
  roots a ha := by
    rw [hroots, List.mem_singleton] at ha
    exact ⟨m, n, ha ▸ hrange⟩
  factors r hr e he := by
    obtain ⟨w, -, hw⟩ := hfactors r hr e he
    exact ⟨w.toInt, hw⟩

/-- `[2, 8)`: the rows end where the root does. -/
def roomy : (AxisId × Domain) × Context := rootFrom 2 6

/-- `[5, 15)`: three rows hold the ten points, but not what the index is divided into. -/
def cramped : (AxisId × Domain) × Context := rootFrom 5 10

theorem nest_roomy_overRanges :
    (nest roomy).1.OverRanges (rootDomains roomy) (nest roomy).2 := by
  have hdomain : ∃ d ∈ (rootDomains roomy)[roomy.1.1]?,
      (nest roomy).2.Literal d.min 2 ∧ (nest roomy).2.Literal d.extent 6 := by decide +kernel
  exact nest_overRanges (by decide +kernel) (by decide +kernel) (by decide +kernel)
    (by decide +kernel) (by decide +kernel) ⟨by decide, hdomain⟩ (by decide +kernel)

theorem nest_cramped_overRanges :
    (nest cramped).1.OverRanges (rootDomains cramped) (nest cramped).2 := by
  have hdomain : ∃ d ∈ (rootDomains cramped)[cramped.1.1]?,
      (nest cramped).2.Literal d.min 5 ∧ (nest cramped).2.Literal d.extent 10 := by decide +kernel
  exact nest_overRanges (by decide +kernel) (by decide +kernel) (by decide +kernel)
    (by decide +kernel) (by decide +kernel) ⟨by decide, hdomain⟩ (by decide +kernel)

theorem found_spelled (h : ∀ p ∈ (found root).1.toList,
    ∃ w ∈ (found root).2.ctx.literal? p.2.extent,
      (found root).2.ctx.Literal p.2.extent w.toInt) :
    (found root).1.Spelled (found root).2.ctx := by
  intro a d hd
  obtain ⟨w, -, hw⟩ := h (a, d) (Std.TreeMap.mem_toList_iff_getElem?_eq_some.2 hd)
  exact ⟨w.toInt, hw⟩

theorem ranges {a : AxisId} {m n : Int} (hn : 0 < n)
    (h : ∃ d ∈ (found root).1[a]?,
      (found root).2.ctx.Literal d.min m ∧ (found root).2.ctx.Literal d.extent n) :
    (found root).1.Ranges (found root).2.ctx a m n := ⟨hn, h⟩

/-- The loop variable of the root at a word. -/
def rootAt (w : Int64) : Env Int64 := .ofList [(⟨0⟩, w)]

theorem holds_root {w : Int64} {m n : Int} (h : ∀ a ∈ (nest root).1.roots,
      ∃ d ∈ (rootDomains root)[a]?, (nest root).2.Literal d.min m ∧
        (nest root).2.Literal d.extent n) (hlo : m ≤ w.toInt) (hhi : w.toInt < m + n) :
    ∀ a ∈ (nest root).1.roots, (rootDomains root).Holds (nest root).2 a w := by
  intro a ha
  obtain ⟨d, hd, hmin, hextent⟩ := h a ha
  exact ⟨d, m, n, hd, hmin, hextent, hlo, hhi⟩

end RowsOf

open RowsOf

/-- The point 7 of `[2, 8)`. -/
theorem indicesDown_inDomain_roomy :
    (nest roomy).1.OverRanges (rootDomains roomy) (nest roomy).2 ∧
    (∀ a ∈ (nest roomy).1.roots, (rootDomains roomy).Holds (nest roomy).2 a 7) ∧
    ∀ a ∈ (nest roomy).1.axes, ∃ w, (down roomy).1.Evaluates (down roomy).2.ctx (rootAt 7) a w ∧
      (found roomy).1.Holds (found roomy).2.ctx a w := by
  have hwf : (nest roomy).2.WellFormed := nest_roomy_overRanges.scheduled.shaped.wellFormed
  have hwf' : (found roomy).2.ctx.WellFormed := by decide +kernel
  obtain ⟨hg, hseeds⟩ := start_seeds roomy
  have hrelations : (nest roomy).1.relations = [.reshape (.split ⟨0⟩ ⟨1⟩ ⟨2⟩ (.factor ⟨2⟩)),
      .reshape (.fuse ⟨1⟩ ⟨2⟩ ⟨3⟩), .rebase ⟨3⟩ ⟨4⟩, .reshape (.split ⟨4⟩ ⟨5⟩ ⟨6⟩ (.parts ⟨3⟩)),
      .singleton ⟨5⟩] := by decide +kernel
  have hroom : (AxisRelation.reshape (.split ⟨0⟩ ⟨1⟩ ⟨2⟩ (.factor ⟨2⟩))).HasRoom (found roomy).1
      (found roomy).2.ctx :=
    .split (l := 2) (n := 6) (m := 2) (k := 4) (ranges (by decide) (by decide +kernel))
      (ranges (by decide) (by decide +kernel)).counts
      (ranges (by decide) (by decide +kernel)).counts (by decide) (by decide)
  have hrebased : (found roomy).1.Counts (found roomy).2.ctx ⟨4⟩ 8 :=
    (ranges (by decide) (by decide +kernel)).counts
  have hroot : ∀ a ∈ (nest roomy).1.roots, (rootDomains roomy).Holds (nest roomy).2 a 7 :=
    holds_root (m := 2) (n := 6) (by decide +kernel) (by decide) (by decide)
  refine ⟨nest_roomy_overRanges, hroot, ?_⟩
  refine indicesDown_inDomain (p := fun _ => 7) nest_roomy_overRanges (.start _ true hwf)
    (run_eq_of_succeeds (by decide +kernel)) (found_spelled (by decide +kernel)) hg.le
    (hg.wellFormed hwf') hseeds (run_eq_of_succeeds (by decide +kernel)) ?_ hroot ?_
  · rw [hrelations]
    rintro r (_ | ⟨_, _ | ⟨_, _ | ⟨_, _ | ⟨_, _ | ⟨_, ⟨⟩⟩⟩⟩⟩⟩)
    · exact .inr hroom
    · exact .inr trivial
    · exact .inr trivial
    · exact .inl fun a ha => ⟨8, List.mem_singleton.1 ha ▸ hrebased⟩
    · exact .inr trivial
  · have hplaces : ∀ a ∈ (nest roomy).1.roots,
        rootAt 7 ((down roomy).2.ctx.axisVar a) = some 7 := by decide +kernel
    exact hplaces

/-- The point 14 of `[5, 15)` is in row three of three, which counts from zero. -/
theorem indicesDown_outside :
    ((nest cramped).1.OverRanges (rootDomains cramped) (nest cramped).2 ∧
      (⟨(nest cramped).2, {}⟩ : Session).Reachable) ∧
    (((domains (nest cramped).1 false).run.run (rootDomains cramped)).run ⟨(nest cramped).2, {}⟩ =
        ((.ok (), (found cramped).1), (found cramped).2) ∧
      (found cramped).1.Spelled (found cramped).2.ctx) ∧
    (start cramped).1.Seeds (nest cramped).1.roots (start cramped).2.ctx ∧
    ((indicesDown (nest cramped).1 (found cramped).1 false).run.run (start cramped).1).run
        (start cramped).2 = ((.ok (), (down cramped).1), (down cramped).2) ∧
    ∃ p : AxisId → Int64, ∃ env : Env Int64,
      (∀ a ∈ (nest cramped).1.roots, (rootDomains cramped).Holds (nest cramped).2 a (p a)) ∧
      (down cramped).2.ctx.Places (nest cramped).1.roots p env ∧
      ∃ a ∈ (nest cramped).1.axes, ∃ w, (down cramped).1.Evaluates (down cramped).2.ctx env a w ∧
        ¬(found cramped).1.Holds (found cramped).2.ctx a w := by
  have hpoint : ∃ a ∈ (nest cramped).1.axes, ∃ d ∈ (found cramped).1[a]?,
      ∃ e ∈ (down cramped).1[a]?, (found cramped).2.ctx.Literal d.min 0 ∧
        (found cramped).2.ctx.Literal d.extent 3 ∧
          (down cramped).2.ctx.eval (rootAt 14) e = some 3 := by decide +kernel
  have hplaces : ∀ a ∈ (nest cramped).1.roots,
      rootAt 14 ((down cramped).2.ctx.axisVar a) = some 14 := by decide +kernel
  obtain ⟨a, ha, d, hd, e, he, hmin, hextent, hw⟩ := hpoint
  have hrange : (found cramped).1.Ranges (found cramped).2.ctx a 0 3 :=
    ranges (by decide) ⟨d, hd, hmin, hextent⟩
  refine ⟨⟨nest_cramped_overRanges, .start _ true (by decide +kernel)⟩,
    ⟨run_eq_of_succeeds (by decide +kernel), found_spelled (by decide +kernel)⟩,
    (start_seeds cramped).2,
    run_eq_of_succeeds (by decide +kernel), fun _ => 14, rootAt 14,
    holds_root (m := 5) (n := 10) (by decide +kernel) (by decide) (by decide), hplaces,
    a, ha, 3, ⟨e, he, hw⟩, ?_⟩
  rw [hrange.holds_iff]
  decide

end Sweep

end LoopBounds
