import LoopBounds.Inference.Indices
import LoopBounds.Proofs.Points
import LoopBounds.Proofs.Reading
import LoopBounds.Proofs.Sweep

/-!
# Indices of points

Over a point that satisfies the relations of a nest, the indices that go up the relations are
read as the point has them, whichever way expressions are read.  So are those that go down, if
the domains count from zero and hold the point.
-/

namespace LoopBounds

namespace AxisRelation

variable {b : Box} {x : AxisId → Int}

/-- The integers that indices going up pass through are in range. -/
def FitsUp (fits : Int → Prop) (b : Box) (x : AxisId → Int) : AxisRelation → Prop
  | .reshape (.split parent outer inner _) => fits (x outer * b.extent inner) ∧
    fits (x outer * b.extent inner + x inner) ∧ fits (x parent)
  | .reshape (.fuse outer inner fused) => fits ((x fused).fdiv (b.extent inner)) ∧
    fits ((x fused).fdiv (b.extent inner) * b.extent inner) ∧
      fits ((x fused).fmod (b.extent inner)) ∧ fits (x outer) ∧ fits (x inner)
  | .rebase parent _ => fits (x parent)
  | .singleton _ => True

/-- How what a relation makes is found from what it consumes, where both count from zero. -/
def TakesApart (b : Box) (x : AxisId → Int) : AxisRelation → Prop
  | .reshape (.split parent outer inner _) =>
    x outer = (x parent).fdiv (b.extent inner) ∧ x inner = (x parent).fmod (b.extent inner)
  | .reshape (.fuse outer inner fused) => x fused = x outer * b.extent inner + x inner
  | .rebase parent rebased => x rebased = x parent
  | .singleton a => x a = 0

/-- The integers that indices going down pass through are in range. -/
def FitsDown (fits : Int → Prop) (b : Box) (x : AxisId → Int) : AxisRelation → Prop
  | .reshape (.split parent outer inner _) => fits (x outer) ∧ fits (x inner) ∧
    fits ((x parent).fdiv (b.extent inner) * b.extent inner)
  | .reshape (.fuse outer inner fused) => fits (x outer * b.extent inner) ∧ fits (x fused)
  | .rebase .. | .singleton _ => True

/-- The axis by whose extent a relation divides. -/
def divisor? : AxisRelation → Option AxisId
  | .reshape (.split _ _ inner _) | .reshape (.fuse _ inner _) => some inner
  | .rebase .. | .singleton _ => none

/-- The axes that have to start at zero for indices to go down a relation. -/
def fromZero : AxisRelation → List AxisId
  | .reshape (.split _ _ inner _) => [inner]
  | .reshape (.fuse outer inner _) => [outer, inner]
  | .rebase parent _ => [parent]
  | .singleton _ => []

theorem mem_of_mem_fromZero {r : AxisRelation} {a : AxisId} (h : a ∈ r.fromZero) :
    a ∈ r.consumed ++ r.made := by
  rcases r with (⟨parent, outer, inner, size⟩ | ⟨outer, inner, fused⟩) | ⟨parent, rebased⟩ | a <;>
    simp_all [fromZero, consumed, made, ← or_assoc]

theorem Covers.divisor_pos {r : AxisRelation} (h : r.Covers b) {a : AxisId}
    (ha : r.divisor? = some a) :
    0 < b.extent a := by
  rcases r with (⟨parent, outer, inner, size⟩ | ⟨outer, inner, fused⟩) | ⟨parent, rebased⟩ | a <;>
    cases ha
  · exact h.2.2.1
  · exact h.2.1

end AxisRelation

namespace Reading

/-- The domain of the axis is known, and its ends are read as the box has them. -/
def Spans (R : Reading) (b : Box) (known : Facts .axis Domain) (ctx : Context) (a : AxisId) :
    Prop :=
  ∃ d, known[a]? = some d ∧ R.holds ctx d.min (b.min a) ∧ R.holds ctx d.extent (b.extent a)

/-- The indices of some of the axes in the table are read as the point has them. -/
def Reads (R : Reading) (A : Set AxisId) (x : AxisId → Int) (t : Facts .axis ExprId)
    (ctx : Context) : Prop :=
  ∀ a ∈ A, ∀ e : ExprId, t[a]? = some e → R.holds ctx e (x a)

variable {R : Reading} {ctx ctx' : Context} {b : Box} {A : Set AxisId}
  {x : AxisId → Int} {a : AxisId}
  {known : Facts .axis Domain} {t : Facts .axis ExprId}

theorem Spans.grows (hwf : ctx.WellFormed) (hg : ctx.Grows ctx') (h : R.Spans b known ctx a) :
    R.Spans b known ctx' a := by
  obtain ⟨d, hd, hmin, hextent⟩ := h
  exact ⟨d, hd, R.grows hwf hg hmin, R.grows hwf hg hextent⟩

theorem Reads.grows (hwf : ctx.WellFormed) (hg : ctx.Grows ctx') (h : R.Reads A x t ctx) :
    R.Reads A x t ctx' :=
  fun a ha e he => R.grows hwf hg (h a ha e he)

theorem Reads.insert {e : ExprId} (h : R.Reads A x t ctx) (he : R.holds ctx e (x a)) :
    R.Reads A x (t.insert a e) ctx := by
  intro c hc e' he'
  rcases Handle.getElem?_insert_eq_some.1 he' with ⟨rfl, rfl⟩ | ⟨-, he'⟩
  exacts [he, h c hc e' he']

end Reading

namespace Sweep

variable {R : Reading} {ctx : Context} {s : Session} {b : Box} {A : Set AxisId} {x : AxisId → Int}
  {known : Facts .axis Domain} {t : Facts .axis ExprId} {parent outer inner fused rebased : AxisId}
  {r : AxisRelation} {allowMissing : Bool}

/-- The table has indices for more axes, which are read as the point has them. -/
def Adds (R : Reading) (A : Set AxisId) (x : AxisId → Int) (t : Facts .axis ExprId)
    (new : List AxisId) (t' : Facts .axis ExprId) (ctx : Context) : Prop :=
  R.Reads A x t' ctx ∧ ∀ a, a ∈ t' ↔ a ∈ new ∨ a ∈ t

theorem exists_reads (h : R.Reads A x t s.ctx) {a : AxisId} (hA : a ∈ A) (ha : a ∈ t) :
    ∃ e, t[a]? = some e ∧ R.holds s.ctx e (x a) :=
  ⟨_, Std.TreeMap.getElem?_eq_some_getElem ha,
    h a hA _ (Std.TreeMap.getElem?_eq_some_getElem ha)⟩

theorem setValue_yields {c : Prop} {key : AxisId} {value : ExprId} (hnew : key ∉ t)
    (h : R.Reads A x t s.ctx) (hvalue : R.holds s.ctx value (x key)) :
    Yields c (setValue key value) t s fun _ t' ctx => Adds R A x t [key] t' ctx := by
  unfold setValue
  refine .table ?_
  rw [Std.TreeMap.getElem?_eq_none hnew]
  refine .changeTable ⟨h.insert hvalue, fun a => ?_⟩
  rw [Std.TreeMap.mem_insert, Std.compare_eq_iff_eq, List.mem_singleton, eq_comm]

theorem setBoth_yields {c : Prop} {key key' : AxisId} {value value' : ExprId} (hne : key' ≠ key)
    (hnew : key ∉ t) (hnew' : key' ∉ t) (hwf : s.ctx.WellFormed) (h : R.Reads A x t s.ctx)
    (hvalue : R.holds s.ctx value (x key)) (hvalue' : R.holds s.ctx value' (x key')) :
    Yields c (do setValue key value; setValue key' value') t s fun _ t' ctx =>
      Adds R A x t [key, key'] t' ctx := by
  refine (setValue_yields hnew h hvalue).bind fun _ t₁ ctx₁ hg₁ ⟨h₁, hmem₁⟩ => ?_
  have hnew₁ : key' ∉ t₁ := by
    rw [hmem₁, List.mem_singleton]
    exact not_or.2 ⟨hne, hnew'⟩
  refine (setValue_yields (s := ⟨ctx₁, s.analyzer⟩) hnew₁ h₁ (R.grows hwf hg₁ hvalue')).mono
    fun _ t₂ ctx₂ _ ⟨h₂, hmem₂⟩ => ⟨h₂, fun a => ?_⟩
  rw [hmem₂, hmem₁, List.mem_singleton, List.mem_singleton, List.mem_pair]
  tauto

/-! ## Up -/

theorem combineSplit_yields {size : SplitBy} (hwf : s.ctx.WellFormed)
    (hp : R.Spans b known s.ctx parent) (hi : R.Spans b known s.ctx inner)
    (h : R.Reads A x t s.ctx) (hoA : outer ∈ A) (hiA : inner ∈ A) (ho : outer ∈ t)
    (hi' : inner ∈ t) (hnew : parent ∉ t)
    (heq : AxisRelation.Recombines b x (.reshape (.split parent outer inner size)))
    (hfits : AxisRelation.FitsUp R.fits b x (.reshape (.split parent outer inner size))) :
    Yields R.sure (combineSplit allowMissing known parent outer inner) t s fun _ t' ctx =>
      Adds R A x t [parent] t' ctx := by
  obtain ⟨outerValue, houter, hreadO⟩ := exists_reads h hoA ho
  obtain ⟨innerValue, hinner, hreadI⟩ := exists_reads h hiA hi'
  obtain ⟨d, hd, hmin, -⟩ := hp
  obtain ⟨e, he, -, hextent⟩ := hi
  obtain ⟨hfitsProd, hfitsSum, hfitsParent⟩ := hfits
  refine .table (.require houter ?_)
  refine .table (.require hinner ?_)
  refine .require he (.require hd ?_)
  refine .build (R.arith hwf hreadO hextent rfl ⟨hfitsProd, nofun⟩)
    fun product ctx₁ hg₁ hproduct => ?_
  have hwf₁ := hg₁.wellFormed hwf
  refine .build (R.arith hwf₁ hproduct (R.grows hwf hg₁ hreadI) rfl ⟨hfitsSum, nofun⟩)
    fun sum ctx₂ hg₂ hsum => ?_
  have hwf₂ := hg₂.wellFormed hwf₁
  have hg := hg₁.trans hg₂
  refine .build (R.offset_ensures hwf₂ hsum (R.grows hwf hg hmin) (heq ▸ hfitsParent))
    fun value ctx₃ hg₃ hvalue => ?_
  exact setValue_yields hnew (h.grows hwf (hg.trans hg₃)) (heq ▸ hvalue)

/-- A part of a fused index, counted from the least point of its domain. -/
theorem fusedPart_yields {α : Type} {f : ExprId → Sweep (Facts .axis ExprId) α}
    {Q : α → Facts .axis ExprId → Context → Prop} (op : Arith) {value extent min : ExprId}
    {z n m q y : Int} (hwf : s.ctx.WellFormed) (hvalue : R.holds s.ctx value z)
    (hextent : R.holds s.ctx extent n) (hmin : R.holds s.ctx min m) (hn : n ≠ 0)
    (hq : op.exact z n = some q) (hwithin : op.Within R.fits z n q) (hy : y = q + m)
    (hfits : R.fits y)
    (hf : ∀ r ctx, s.ctx.Grows ctx → R.holds ctx r y → Yields R.sure (f r) t ⟨ctx, s.analyzer⟩ Q) :
    Yields R.sure (do f (← Build.offset (← Attempt.divide op value extent) min)) t s Q := by
  refine .attempt (Attempt.divide_ensures (R.arith hwf hvalue hextent hq hwithin))
    (fun hsure => Attempt.divide_ok (R.isZero_eq_false hsure hextent hn))
    fun part ctx₁ hg₁ hpart => ?_
  refine .build (R.offset_ensures (hg₁.wellFormed hwf) hpart (R.grows hwf hg₁ hmin)
    (hy ▸ hfits)) fun r ctx₂ hg₂ hr => ?_
  exact hf r ctx₂ (hg₁.trans hg₂) (hy ▸ hr)

theorem takeApartFused_yields (hwf : s.ctx.WellFormed) (ho : R.Spans b known s.ctx outer)
    (hi : R.Spans b known s.ctx inner) (h : R.Reads A x t s.ctx) (hfA : fused ∈ A)
    (hf : fused ∈ t) (hne : inner ≠ outer) (hnewO : outer ∉ t) (hnewI : inner ∉ t)
    (hpos : 0 < b.extent inner)
    (heq : AxisRelation.Recombines b x (.reshape (.fuse outer inner fused)))
    (hfits : AxisRelation.FitsUp R.fits b x (.reshape (.fuse outer inner fused))) :
    Yields R.sure (takeApartFused allowMissing known outer inner fused) t s fun _ t' ctx =>
      Adds R A x t [outer, inner] t' ctx := by
  obtain ⟨value, hvalue, hread⟩ := exists_reads h hfA hf
  obtain ⟨d, hd, hmin, -⟩ := ho
  obtain ⟨e, he, hmin', hextent⟩ := hi
  obtain ⟨hfitsQ, hfitsM, hfitsR, hfitsO, hfitsI⟩ := hfits
  obtain ⟨hquotient, hrest⟩ := heq
  refine .table (.require hvalue ?_)
  refine .require hd (.require he ?_)
  refine fusedPart_yields .floorDiv hwf hread hextent hmin hpos.ne' (if_neg hpos.ne')
    ⟨hfitsQ, nofun⟩ hquotient hfitsO fun outerValue ctx₁ hg₁ houter => ?_
  have hwf₁ := hg₁.wellFormed hwf
  refine fusedPart_yields .floorMod hwf₁ (R.grows hwf hg₁ hread) (R.grows hwf hg₁ hextent)
    (R.grows hwf hg₁ hmin') hpos.ne' (if_neg hpos.ne') ⟨hfitsR, fun _ => ⟨hfitsQ, hfitsM⟩⟩ hrest
    hfitsI fun innerValue ctx₂ hg₂ hinner => ?_
  have hg := hg₁.trans hg₂
  exact setBoth_yields hne hnewO hnewI (hg₂.wellFormed hwf₁) (h.grows hwf hg)
    (R.grows hwf₁ hg₂ houter) hinner

theorem relationIndicesUp_yields (hwf : s.ctx.WellFormed)
    (hdistinct : (r.consumed ++ r.made).Nodup)
    (hknown : ∀ a ∈ r.consumed ++ r.made, R.Spans b known s.ctx a) (h : R.Reads A x t s.ctx)
    (hA : ∀ a ∈ r.consumed ++ r.made, a ∈ A) (hmade : ∀ a ∈ r.made, a ∈ t)
    (hnew : ∀ a ∈ r.consumed, a ∉ t)
    (hpos : ∀ a, r.divisor? = some a → 0 < b.extent a) (heq : r.Recombines b x)
    (hfits : r.FitsUp R.fits b x) :
    Yields R.sure (relationIndicesUp allowMissing known r) t s fun _ t' ctx =>
      Adds R A x t r.consumed t' ctx := by
  rcases r with (⟨parent, outer, inner, size⟩ | ⟨outer, inner, fused⟩) | ⟨parent, rebased⟩ | a
  · simp only [AxisRelation.consumed, AxisRelation.made, List.cons_append, List.nil_append,
      List.mem_cons, List.not_mem_nil, or_false, forall_eq_or_imp, forall_eq]
      at hknown hA hmade hnew
    exact combineSplit_yields hwf hknown.1 hknown.2.2 h hA.2.1 hA.2.2 hmade.1 hmade.2 hnew heq hfits
  · simp only [AxisRelation.consumed, AxisRelation.made, List.cons_append, List.nil_append,
      List.mem_cons, List.not_mem_nil, or_false, forall_eq_or_imp, forall_eq, List.nodup_cons,
      not_or] at hknown hA hmade hnew hdistinct
    exact takeApartFused_yields hwf hknown.1 hknown.2.1 h hA.2.2 hmade (Ne.symm hdistinct.1.1)
      hnew.1
      hnew.2 (hpos inner rfl) heq hfits
  · simp only [AxisRelation.consumed, AxisRelation.made, List.cons_append, List.nil_append,
      List.mem_cons, List.not_mem_nil, or_false, forall_eq_or_imp, forall_eq]
      at hknown hA hmade hnew
    obtain ⟨value, hvalue, hread⟩ := exists_reads h hA.2 hmade
    obtain ⟨d, hd, hmin, -⟩ := hknown.1
    have heq' : x parent = x rebased + b.min parent := heq
    refine .table (.require hvalue (.require hd ?_))
    refine .build (R.offset_ensures hwf hread hmin (heq' ▸ hfits)) fun v ctx₁ hg₁ hv => ?_
    exact setValue_yields hnew (h.grows hwf hg₁) (heq' ▸ hv)
  · exact .pure ⟨h, fun a => by simp [AxisRelation.consumed]⟩

/-- The indices that go up the relations of a nest are read as the point has them. -/
theorem indicesUp_yields {nest : LoopNest} (hnest : LoopNest.Scheduled ctx nest)
    (hwf : s.ctx.WellFormed)
    (hknown : ∀ r ∈ nest.relations, ∀ a ∈ r.consumed ++ r.made, R.Spans b known s.ctx a)
    (hcovers : nest.Covers b) (hsolves : nest.Solves b x)
    (hfits : ∀ r ∈ nest.relations, r.FitsUp R.fits b x) (h : R.Reads A x t s.ctx)
    (hA : ∀ r ∈ nest.relations, ∀ a ∈ r.consumed ++ r.made, a ∈ A)
    (hleaves : ∀ a, a ∈ t ↔ a ∈ nest.leaves) :
    Yields R.sure (indicesUp nest known allowMissing) t s fun _ t' ctx =>
      R.Reads A x t' ctx ∧ ∀ a ∈ nest.axes, a ∈ t' := by
  have hshaped := hnest.shaped
  refine (forM_yields (fun done t' ctx => s.ctx.Grows ctx ∧ R.Reads A x t' ctx ∧
    ∀ a, a ∈ t' ↔ a ∈ nest.leaves ∨ a ∈ done.reverse.flatMap AxisRelation.consumed)
    ⟨.refl _, h, fun a => by simp [hleaves]⟩ ?_).mono ?_
  · rintro done r rest t₁ ctx₁ hsplit hg₁ ⟨-, h₁, hmem₁⟩
    have hsplit' : nest.relations = rest.reverse ++ r :: done.reverse := by
      rw [← List.reverse_reverse nest.relations, hsplit]
      simp
    have hr : r ∈ nest.relations := hsplit' ▸ List.mem_append_right _ List.mem_cons_self
    refine (relationIndicesUp_yields (s := ⟨ctx₁, s.analyzer⟩) (hg₁.wellFormed hwf)
      (hnest.nodup_of_mem hr) (fun a ha => (hknown r hr a ha).grows hwf hg₁) h₁ (hA r hr)
      (fun a ha => ?_) (fun a ha => ?_) (fun a ha => (hcovers r hr).divisor_pos ha) (hsolves r hr)
      (hfits r hr)).mono ?_
    · exact (hmem₁ a).2 (hnest.mem_after hsplit' ha)
    · exact fun hold => ((hmem₁ a).1 hold).elim (hshaped.not_mem_after hsplit' ha).1
        (hshaped.not_mem_after hsplit' ha).2
    · rintro - t₂ ctx₂ hg₂ ⟨h₂, hmem₂⟩
      refine ⟨hg₁.trans hg₂, h₂, fun a => ?_⟩
      rw [hmem₂, hmem₁, List.reverse_append, List.flatMap_append, List.mem_append]
      simp only [List.reverse_singleton, List.flatMap_singleton]
      tauto
  · rintro - t' ctx - ⟨-, h', hmem'⟩
    refine ⟨h', fun a ha => ?_⟩
    rwa [hmem', List.reverse_reverse, ← List.mem_append, hshaped.perm.mem_iff]

/-! ## Down -/

/-- The domain of the axis starts at a literal zero. -/
def ZeroBased (known : Facts .axis Domain) (ctx : Context) (a : AxisId) : Prop :=
  ∀ d : Domain, known[a]? = some d → ctx.Stored d.min ∧ ctx.isZero d.min = true

theorem ZeroBased.mono {ctx' : Context} {a : AxisId} (hctx : ctx ≤ ctx')
    (h : ZeroBased known ctx a) : ZeroBased known ctx' a := by
  intro d hd
  obtain ⟨hstored, hzero⟩ := h d hd
  refine ⟨hstored.mono hctx, ?_⟩
  rwa [Context.isZero_eq hctx hstored]

theorem ZeroBased.restrict {ctx' : Context} {a : AxisId} (hctx : ctx ≤ ctx')
    (hspans : R.Spans b known ctx a) (h : ZeroBased known ctx' a) : ZeroBased known ctx a := by
  obtain ⟨d, hd, hmin, -⟩ := hspans
  intro d' hd'
  cases hd.symm.trans hd'
  have hzero := (h d hd).2
  rw [Context.isZero_eq hctx (R.stored hmin)] at hzero
  exact ⟨R.stored hmin, hzero⟩

/-- A domain that is not refused starts at zero. -/
theorem requireZeroMin_yields {c : Prop} {σ : Type} {t : σ} {pass : Pass} {a : AxisId} {d : Domain}
    (hd : known[a]? = some d) (hstored : s.ctx.Stored d.min)
    (hzero : c → ZeroBased known s.ctx a) :
    Yields c (requireZeroMin pass a d) t s fun _ t' ctx =>
      t' = t ∧ ctx = s.ctx ∧ ZeroBased known s.ctx a := by
  refine .context ?_
  by_cases h : s.ctx.isZero d.min = true
  · rw [if_neg (by simp [h])]
    refine .pure ⟨rfl, rfl, fun d' hd' => ?_⟩
    cases hd.symm.trans hd'
    exact ⟨hstored, h⟩
  · rw [if_pos (by simpa using h)]
    exact ⟨fun hc => absurd (hzero hc d hd).2 h, nofun⟩

section Down

variable {c : Prop} (hc : c → R.sure)
include hc

theorem takeApartSplit_yields {size : SplitBy} (hwf : s.ctx.WellFormed)
    (hzero : c → ZeroBased known s.ctx inner) (hi : R.Spans b known s.ctx inner)
    (h : R.Reads .univ x t s.ctx)
    (hp : parent ∈ t) (hne : inner ≠ outer) (hnewO : outer ∉ t) (hnewI : inner ∉ t)
    (hpos : 0 < b.extent inner)
    (heq : AxisRelation.TakesApart b x (.reshape (.split parent outer inner size)))
    (hfits : AxisRelation.FitsDown R.fits b x (.reshape (.split parent outer inner size))) :
    Yields c (takeApartSplit .indicesDown allowMissing known parent outer inner) t s
      fun _ t' ctx =>
      Adds R .univ x t [outer, inner] t' ctx ∧ ZeroBased known s.ctx inner := by
  obtain ⟨value, hvalue, hread⟩ := exists_reads h trivial hp
  obtain ⟨d, hd, hmin, hextent⟩ := hi
  obtain ⟨hquotient, hrest⟩ := heq
  obtain ⟨hfitsO, hfitsI, hfitsM⟩ := hfits
  refine .table (.require hvalue (.require hd ?_))
  refine (requireZeroMin_yields hd (R.stored hmin) hzero).bind ?_
  rintro - _ _ - ⟨rfl, rfl, hbased⟩
  refine .attempt (Attempt.divide_ensures (R.arith hwf hread hextent (if_neg hpos.ne')
    ⟨hquotient ▸ hfitsO, nofun⟩))
    (fun h => Attempt.divide_ok (R.isZero_eq_false (hc h) hextent hpos.ne'))
    fun outerValue ctx₁ hg₁ houter => ?_
  have hwf₁ := hg₁.wellFormed hwf
  have hextent₁ := R.grows hwf hg₁ hextent
  refine .attempt (Attempt.divide_ensures (R.arith hwf₁ (R.grows hwf hg₁ hread) hextent₁
    (if_neg hpos.ne') ⟨hrest ▸ hfitsI, fun _ => ⟨hquotient ▸ hfitsO, hfitsM⟩⟩))
    (fun h => Attempt.divide_ok (R.isZero_eq_false (hc h) hextent₁ hpos.ne'))
    fun innerValue ctx₂ hg₂ hinner => ?_
  have hg := hg₁.trans hg₂
  refine (setBoth_yields (s := ⟨ctx₂, s.analyzer⟩) hne hnewO hnewI (hg₂.wellFormed hwf₁)
    (h.grows hwf hg) (hquotient ▸ R.grows hwf₁ hg₂ houter) (hrest ▸ hinner)).mono ?_
  exact fun _ _ _ _ hadds => ⟨hadds, hbased⟩

omit hc in
theorem fuseIndices_yields (hwf : s.ctx.WellFormed) (hzeroO : c → ZeroBased known s.ctx outer)
    (hzeroI : c → ZeroBased known s.ctx inner) (ho : R.Spans b known s.ctx outer)
    (hi : R.Spans b known s.ctx inner)
    (h : R.Reads .univ x t s.ctx) (ho' : outer ∈ t) (hi' : inner ∈ t) (hnew : fused ∉ t)
    (heq : AxisRelation.TakesApart b x (.reshape (.fuse outer inner fused)))
    (hfits : AxisRelation.FitsDown R.fits b x (.reshape (.fuse outer inner fused))) :
    Yields c (relationIndicesDown allowMissing known (.reshape (.fuse outer inner fused))) t s
      fun _ t' ctx => Adds R .univ x t [fused] t' ctx ∧ ZeroBased known s.ctx outer ∧
        ZeroBased known s.ctx inner := by
  obtain ⟨outerValue, houter, hreadO⟩ := exists_reads h trivial ho'
  obtain ⟨innerValue, hinner, hreadI⟩ := exists_reads h trivial hi'
  obtain ⟨d, hd, hmin, -⟩ := ho
  obtain ⟨e, he, hmin', hextent⟩ := hi
  have heq' : x fused = x outer * b.extent inner + x inner := heq
  refine .table (.require houter ?_)
  refine .table (.require hinner (.require hd (.require he ?_)))
  refine (requireZeroMin_yields hd (R.stored hmin) hzeroO).bind ?_
  rintro - t _ - ⟨rfl, rfl, hbasedO⟩
  refine (requireZeroMin_yields he (R.stored hmin') hzeroI).bind ?_
  rintro - _ _ - ⟨rfl, rfl, hbasedI⟩
  refine .build (R.arith hwf hreadO hextent rfl ⟨hfits.1, nofun⟩) fun product ctx₁ hg₁ hp => ?_
  refine .build (R.arith (hg₁.wellFormed hwf) hp (R.grows hwf hg₁ hreadI) rfl
    ⟨heq' ▸ hfits.2, nofun⟩) fun sum ctx₂ hg₂ hsum => ?_
  refine (setValue_yields (s := ⟨ctx₂, s.analyzer⟩) hnew (h.grows hwf (hg₁.trans hg₂))
    (heq' ▸ hsum)).mono ?_
  exact fun _ _ _ _ hadds => ⟨hadds, hbasedO, hbasedI⟩

/-- Indices that go down a relation are read as the point has them, and the domains that the pass
looks at start at zero.  Under the condition the pass does not fail. -/
theorem relationIndicesDown_yields (hwf : s.ctx.WellFormed)
    (hdistinct : (r.consumed ++ r.made).Nodup)
    (hknown : ∀ a ∈ r.fromZero, R.Spans b known s.ctx a)
    (hzero : c → ∀ a ∈ r.fromZero, ZeroBased known s.ctx a) (h : R.Reads .univ x t s.ctx)
    (hold : ∀ a, a ∈ r.consumed ∨ r = .singleton a → a ∈ t) (hnew : ∀ a ∈ r.made, a ∉ t)
    (hpos : ∀ a, r.divisor? = some a → 0 < b.extent a) (heq : r.TakesApart b x)
    (hfits : r.FitsDown R.fits b x) :
    Yields c (relationIndicesDown allowMissing known r) t s fun _ t' ctx =>
      Adds R .univ x t r.made t' ctx ∧ ∀ a ∈ r.fromZero, ZeroBased known s.ctx a := by
  rcases r with (⟨parent, outer, inner, size⟩ | ⟨outer, inner, fused⟩) | ⟨parent, rebased⟩ | a
  · simp only [AxisRelation.consumed, AxisRelation.made, AxisRelation.fromZero, List.cons_append,
      List.nil_append, List.mem_cons, List.not_mem_nil, or_false, forall_eq_or_imp, forall_eq,
      List.nodup_cons, reduceCtorEq, not_or] at hknown hzero hold hnew hdistinct ⊢
    exact takeApartSplit_yields hc hwf hzero hknown h hold (Ne.symm hdistinct.2.1) hnew.1 hnew.2
      (hpos inner rfl) heq hfits
  · simp only [AxisRelation.consumed, AxisRelation.made, AxisRelation.fromZero, List.mem_cons,
      List.not_mem_nil, or_false, forall_eq_or_imp, forall_eq, reduceCtorEq]
      at hknown hzero hold hnew ⊢
    exact fuseIndices_yields hwf (fun h => (hzero h).1) (fun h => (hzero h).2) hknown.1 hknown.2 h
      hold.1 hold.2 hnew heq hfits
  · simp only [AxisRelation.consumed, AxisRelation.made, AxisRelation.fromZero, List.mem_cons,
      List.not_mem_nil, or_false, forall_eq, reduceCtorEq] at hknown hzero hold hnew ⊢
    obtain ⟨value, hvalue, hread⟩ := exists_reads h trivial hold
    obtain ⟨d, hd, hmin, -⟩ := hknown
    refine .table (.require hvalue (.require hd ?_))
    refine (requireZeroMin_yields hd (R.stored hmin) hzero).bind ?_
    rintro - _ _ - ⟨rfl, rfl, hbased⟩
    have heq' : x rebased = x parent := heq
    refine (setValue_yields hnew h (heq' ▸ hread)).mono ?_
    exact fun _ _ _ _ hadds => ⟨hadds, hbased⟩
  · refine .context ?_
    refine .build (R.constant 0 _) fun zero ctx₁ hg₁ hz => ?_
    have heq' : x a = 0 := heq
    refine .changeTable
      ⟨⟨(h.grows hwf hg₁).insert (heq' ▸ hz), fun c => ?_⟩, List.forall_mem_nil _⟩
    rw [Std.TreeMap.mem_insert, Std.compare_eq_iff_eq, AxisRelation.made]
    refine ⟨fun hc => .inr ?_, fun hc => .inr (hc.resolve_left List.not_mem_nil)⟩
    rcases hc with rfl | hc
    exacts [hold a (.inr rfl), hc]

/-- The indices that go down the relations of a nest are read as the point has them. -/
theorem indicesDown_yields {nest : LoopNest} (hnest : LoopNest.Scheduled ctx nest)
    (hwf : s.ctx.WellFormed)
    (hknown : ∀ r ∈ nest.relations, ∀ a ∈ r.fromZero, R.Spans b known s.ctx a)
    (hzero : c → ∀ r ∈ nest.relations, ∀ a ∈ r.fromZero, ZeroBased known s.ctx a)
    (hpos : ∀ r ∈ nest.relations, ∀ a, r.divisor? = some a → 0 < b.extent a)
    (hparts : ∀ r ∈ nest.relations, r.TakesApart b x)
    (hfits : ∀ r ∈ nest.relations, r.FitsDown R.fits b x) (h : R.Reads .univ x t s.ctx)
    (hroots : ∀ a, a ∈ t ↔ a ∈ nest.roots) :
    Yields c (indicesDown nest known allowMissing) t s fun _ t' ctx =>
      (R.Reads .univ x t' ctx ∧ ∀ a ∈ nest.axes, a ∈ t') ∧
        ∀ r ∈ nest.relations, ∀ a ∈ r.fromZero, ZeroBased known s.ctx a := by
  have hshaped := hnest.shaped
  refine (forM_yields (fun done t' ctx => s.ctx.Grows ctx ∧ R.Reads .univ x t' ctx ∧
    (∀ a, a ∈ t' ↔ a ∈ nest.roots ∨ a ∈ done.flatMap AxisRelation.made) ∧
      ∀ r ∈ done, ∀ a ∈ r.fromZero, ZeroBased known s.ctx a)
    ⟨.refl _, h, fun a => by simp [hroots], nofun⟩ ?_).mono ?_
  · rintro done r rest t₁ ctx₁ hsplit hg₁ ⟨-, h₁, hmem₁, hbased₁⟩
    have hr : r ∈ nest.relations := hsplit ▸ List.mem_append_right _ List.mem_cons_self
    refine (relationIndicesDown_yields (s := ⟨ctx₁, s.analyzer⟩) hc (hg₁.wellFormed hwf)
      (hnest.nodup_of_mem hr) (fun a ha => (hknown r hr a ha).grows hwf hg₁)
      (fun h a ha => (hzero h r hr a ha).mono hg₁.le) h₁
      (fun a ha => (hmem₁ a).2 (hnest.mem_before hsplit ha)) (fun a ha hold => ?_)
      (hpos r hr) (hparts r hr) (hfits r hr)).mono ?_
    · exact ((hmem₁ a).1 hold).elim (hshaped.not_mem_before hsplit ha).1
        (hshaped.not_mem_before hsplit ha).2
    · rintro - t₂ ctx₂ hg₂ ⟨⟨h₂, hmem₂⟩, hbased₂⟩
      refine ⟨hg₁.trans hg₂, h₂, fun a => ?_, fun r' hr' a ha => ?_⟩
      · rw [hmem₂, hmem₁, List.flatMap_append, List.mem_append, List.flatMap_singleton]
        tauto
      · rcases List.mem_append.1 hr' with hr' | hr'
        · exact hbased₁ r' hr' a ha
        · obtain rfl := List.mem_singleton.1 hr'
          exact (hbased₂ a ha).restrict hg₁.le (hknown r' hr a ha)
  · rintro - t' ctx - ⟨-, h', hmem', hbased⟩
    refine ⟨⟨h', fun a ha => ?_⟩, hbased⟩
    rwa [hmem', ← List.mem_append, ← hshaped.axes_eq]

end Down

end Sweep

end LoopBounds
