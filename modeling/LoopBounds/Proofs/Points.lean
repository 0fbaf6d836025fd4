import LoopBounds.Proofs.Assignment
import LoopBounds.Proofs.Nest

/-!
# Points of loop nests

A point gives every axis an integer, and a box every axis a least point and an extent.  A
relation puts an equation on the points of its axes: what it consumes is determined by what it
makes, and inside the box the other way round as well.
-/

namespace LoopBounds

/-- The least point and the extent of each axis. -/
structure Box where
  min : AxisId → Int
  extent : AxisId → Int

/-- The axis lies in its domain. -/
def Box.Contains (b : Box) (x : AxisId → Int) (a : AxisId) : Prop :=
  b.min a ≤ x a ∧ x a < b.min a + b.extent a

instance (b : Box) (x : AxisId → Int) (a : AxisId) : Decidable (b.Contains x a) :=
  inferInstanceAs (Decidable (_ ∧ _))

namespace Valuation

/-- The values of the loop variables. -/
def point (ν : Valuation) : AxisId → Int := fun a => (ν.env (ν.ctx.axisVar a)).getD 0

/-- The box that domains span. -/
def box (ν : Valuation) (known : Facts .axis Domain) : Box where
  min a := (known[a]?.bind fun d => ν.value d.min).getD 0
  extent a := (known[a]?.bind fun d => ν.value d.extent).getD 0

end Valuation

namespace AxisRelation

variable {b : Box} {x y : AxisId → Int}

/-- How the points of the axes hang together. -/
def Equation (b : Box) (x : AxisId → Int) : AxisRelation → Prop
  | .reshape (.split parent outer inner _) =>
    x parent - b.min parent = x outer * b.extent inner + x inner
  | .reshape (.fuse outer inner fused) =>
    x fused = (x outer - b.min outer) * b.extent inner + (x inner - b.min inner)
  | .rebase parent rebased => x parent = x rebased + b.min parent
  | .singleton _ => True

instance (b : Box) (x : AxisId → Int) : (r : AxisRelation) → Decidable (r.Equation b x)
  | .reshape (.split ..) => inferInstanceAs (Decidable (_ = _))
  | .reshape (.fuse ..) => inferInstanceAs (Decidable (_ = _))
  | .rebase .. => inferInstanceAs (Decidable (_ = _))
  | .singleton _ => inferInstanceAs (Decidable True)

theorem fuse_eq {outer inner fused : AxisId}
    (h : Equation b x (.reshape (.fuse outer inner fused))) (hinner : b.Contains x inner) :
    0 < b.extent inner ∧ (x fused).fdiv (b.extent inner) = x outer - b.min outer ∧
      (x fused).fmod (b.extent inner) = x inner - b.min inner := by
  have hpos : 0 < b.extent inner := by
    have := hinner.1
    have := hinner.2
    omega
  have hlo : 0 ≤ x inner - b.min inner := sub_nonneg.2 hinner.1
  have hhi : x inner - b.min inner < b.extent inner := by
    have := hinner.2
    omega
  rw [Equation] at h
  rw [h, Int.fdiv_eq_ediv_of_nonneg _ hpos.le, Int.fmod_eq_emod_of_nonneg _ hpos.le,
    add_comm, Int.add_mul_ediv_right _ _ hpos.ne', Int.add_mul_emod_self_right,
    Int.ediv_eq_zero_of_lt hlo hhi, Int.emod_eq_of_lt hlo hhi, zero_add]
  exact ⟨hpos, rfl, rfl⟩

/-- How what a relation consumes is found from what it makes, which counts from zero. -/
def Recombines (b : Box) (x : AxisId → Int) : AxisRelation → Prop
  | .reshape (.split parent outer inner _) =>
    x parent = x outer * b.extent inner + x inner + b.min parent
  | .reshape (.fuse outer inner fused) =>
    x outer = (x fused).fdiv (b.extent inner) + b.min outer ∧
      x inner = (x fused).fmod (b.extent inner) + b.min inner
  | .rebase parent rebased => x parent = x rebased + b.min parent
  | .singleton _ => True

/-- The axes that a relation makes count from zero and have a point for each of those consumed. -/
def Covers (b : Box) : AxisRelation → Prop
  | .reshape (.split parent outer inner _) => b.min outer = 0 ∧ b.min inner = 0 ∧
    0 < b.extent inner ∧ b.extent parent ≤ b.extent outer * b.extent inner
  | .reshape (.fuse outer inner fused) => b.min fused = 0 ∧ 0 < b.extent inner ∧
    b.extent fused = b.extent outer * b.extent inner
  | .rebase parent rebased => b.min rebased = 0 ∧ b.extent rebased = b.extent parent
  | .singleton _ => True

/-- What a relation makes counts from zero. -/
theorem Covers.min_made {r : AxisRelation} (h : r.Covers b) : ∀ a ∈ r.made, b.min a = 0 := by
  rcases r with (⟨parent, outer, inner, size⟩ | ⟨outer, inner, fused⟩) | ⟨parent, rebased⟩ | a
  · simpa [made] using ⟨h.1, h.2.1⟩
  · simpa [made] using h.1
  · simpa [made] using h.1
  · exact List.forall_mem_nil _

theorem Recombines.congr {r : AxisRelation} (h : r.Recombines b x)
    (hconsumed : ∀ a ∈ r.consumed, y a = x a) (hmade : ∀ a ∈ r.made, y a = x a) :
    r.Recombines b y := by
  rcases r with (⟨parent, outer, inner, size⟩ | ⟨outer, inner, fused⟩) | ⟨parent, rebased⟩ | a <;>
    simp_all [Recombines, consumed, made]

/-- The last row may run past the extent. -/
theorem lt_of_row_lt {row column rows columns extent : Int} (hcolumn : column < columns)
    (hcolumns : 0 < columns) (hrow : row < rows) (hextent : rows * columns = extent) :
    row * columns + column < extent := by
  have hle : (row + 1) * columns ≤ rows * columns :=
    mul_le_mul_of_nonneg_right hrow hcolumns.le
  rw [add_mul, one_mul] at hle
  omega

theorem fdiv_lt_of_lt_mul {z rows columns : Int} (hcolumns : 0 < columns)
    (hz : z < rows * columns) : z.fdiv columns < rows := by
  rw [Int.fdiv_eq_ediv_of_nonneg _ hcolumns.le]
  exact Int.ediv_lt_of_lt_mul hcolumns hz

theorem fmod_bounds {z columns : Int} (hcolumns : 0 < columns) :
    0 ≤ z.fmod columns ∧ z.fmod columns < columns :=
  ⟨Int.fmod_nonneg_of_pos _ hcolumns, Int.fmod_lt_of_pos _ hcolumns⟩

theorem fdiv_nonneg_of_pos {z columns : Int} (hz : 0 ≤ z) (hcolumns : 0 < columns) :
    0 ≤ z.fdiv columns := by
  rw [Int.fdiv_eq_ediv_of_nonneg _ hcolumns.le]
  exact Int.ediv_nonneg hz hcolumns.le

/-- What a relation consumes does not lie below its domain if what it makes does not. -/
theorem Recombines.min_le {r : AxisRelation} (h : r.Recombines b x) (hcovers : r.Covers b)
    (hmade : ∀ a ∈ r.made, b.min a ≤ x a) : ∀ a ∈ r.consumed, b.min a ≤ x a := by
  rcases r with (⟨parent, outer, inner, size⟩ | ⟨outer, inner, fused⟩) | ⟨parent, rebased⟩ | a
  · simp only [made, consumed, List.mem_cons, List.not_mem_nil, or_false, forall_eq_or_imp,
      forall_eq] at hmade ⊢
    obtain ⟨houter, hinner, hpos, -⟩ := hcovers
    have hprod : 0 ≤ x outer * b.extent inner :=
      mul_nonneg (houter ▸ hmade.1) hpos.le
    rw [Recombines] at h
    omega
  · simp only [made, consumed, List.mem_cons, List.not_mem_nil, or_false, forall_eq_or_imp,
      forall_eq] at hmade ⊢
    obtain ⟨hfused, hpos, -⟩ := hcovers
    have hquotient := fdiv_nonneg_of_pos (hfused ▸ hmade) hpos
    have hrest := fmod_bounds (z := x fused) hpos
    obtain ⟨houter, hinner⟩ := h
    constructor <;> omega
  · simp only [made, consumed, List.mem_cons, List.not_mem_nil, or_false, forall_eq] at hmade ⊢
    obtain ⟨hrebased, -⟩ := hcovers
    rw [Recombines] at h
    omega
  · exact List.forall_mem_nil _

/-- The points of what a relation consumes follow from those of what it makes. -/
theorem exists_recombined {r : AxisRelation} (hdistinct : (r.consumed ++ r.made).Nodup)
    (b : Box) (x : AxisId → Int) : ∃ y, (∀ a ∉ r.consumed, y a = x a) ∧ r.Recombines b y := by
  rcases r with (⟨parent, outer, inner, size⟩ | ⟨outer, inner, fused⟩) | ⟨parent, rebased⟩ | a
  · simp only [consumed, made, List.cons_append, List.nil_append, List.nodup_cons, List.mem_cons,
      List.not_mem_nil, or_false, not_or] at hdistinct ⊢
    obtain ⟨⟨hpo, hpi⟩, -⟩ := hdistinct
    refine ⟨Function.update x parent (x outer * b.extent inner + x inner + b.min parent),
      fun a ha => Function.update_of_ne ha _ _, ?_⟩
    simp [Recombines, Function.update_of_ne (Ne.symm hpo), Function.update_of_ne (Ne.symm hpi)]
  · simp only [consumed, made, List.cons_append, List.nil_append, List.nodup_cons, List.mem_cons,
      List.not_mem_nil, or_false, not_or] at hdistinct ⊢
    obtain ⟨⟨hoi, hof⟩, hif, -⟩ := hdistinct
    refine ⟨Function.update (Function.update x outer
      ((x fused).fdiv (b.extent inner) + b.min outer)) inner
        ((x fused).fmod (b.extent inner) + b.min inner), fun a ha => ?_, ?_⟩
    · rw [Function.update_of_ne ha.2, Function.update_of_ne ha.1]
    · simp [Recombines, Function.update_of_ne hoi, Function.update_of_ne (Ne.symm hof),
        Function.update_of_ne (Ne.symm hif)]
  · simp only [consumed, made, List.cons_append, List.nil_append, List.nodup_cons, List.mem_cons,
      List.not_mem_nil, or_false] at hdistinct ⊢
    refine ⟨Function.update x parent (x rebased + b.min parent),
      fun a ha => Function.update_of_ne ha _ _, ?_⟩
    simp [Recombines, Function.update_of_ne (Ne.symm hdistinct.1)]
  · exact ⟨x, fun _ _ => rfl, trivial⟩

/-- Inside the domains, the points of what a relation makes follow from those of what it
consumes. -/
theorem exists_parts {r : AxisRelation} (hdistinct : (r.consumed ++ r.made).Nodup)
    (hcovers : r.Covers b) (hx : ∀ a ∈ r.consumed, b.Contains x a) :
    ∃ y, (∀ a ∉ r.made, y a = x a) ∧ (∀ a ∈ r.made, b.Contains y a) ∧ r.Recombines b y := by
  rcases r with (⟨parent, outer, inner, size⟩ | ⟨outer, inner, fused⟩) | ⟨parent, rebased⟩ | a
  · simp only [consumed, made, List.cons_append, List.nil_append, List.nodup_cons, List.mem_cons,
      List.not_mem_nil, or_false, not_or, forall_eq_or_imp, forall_eq] at hdistinct hx ⊢
    obtain ⟨⟨hpo, hpi⟩, hoi, -⟩ := hdistinct
    obtain ⟨houter, hinner, hpos, hle⟩ := hcovers
    obtain ⟨hlo, hhi⟩ := hx
    have hquotient := fdiv_nonneg_of_pos (z := x parent - b.min parent) (by omega) hpos
    have hquotient' : (x parent - b.min parent).fdiv (b.extent inner) < b.extent outer :=
      fdiv_lt_of_lt_mul hpos (by omega)
    obtain ⟨hrest, hrest'⟩ := fmod_bounds (z := x parent - b.min parent) hpos
    refine ⟨Function.update (Function.update x outer ((x parent - b.min parent).fdiv
      (b.extent inner))) inner ((x parent - b.min parent).fmod (b.extent inner)), ?_, ?_, ?_⟩
    · intro a ha
      rw [Function.update_of_ne ha.2, Function.update_of_ne ha.1]
    · simp only [Box.Contains, Function.update_self, Function.update_of_ne hoi]
      omega
    · simp only [Recombines, Function.update_self, Function.update_of_ne hoi,
        Function.update_of_ne hpo, Function.update_of_ne hpi]
      have hdiv := Int.mul_fdiv_add_fmod (x parent - b.min parent) (b.extent inner)
      rw [mul_comm] at hdiv
      omega
  · simp only [consumed, made, List.cons_append, List.nil_append, List.nodup_cons, List.mem_cons,
      List.not_mem_nil, or_false, not_or, forall_eq_or_imp, forall_eq] at hdistinct hx ⊢
    obtain ⟨⟨hoi, hof⟩, hif, -⟩ := hdistinct
    obtain ⟨hfused, hpos, hextent⟩ := hcovers
    obtain ⟨houter, hinner⟩ := hx
    have hcontains : b.Contains (Function.update x fused
        ((x outer - b.min outer) * b.extent inner + (x inner - b.min inner))) inner := by
      rwa [Box.Contains, Function.update_of_ne hif]
    have hequation : Equation b (Function.update x fused
        ((x outer - b.min outer) * b.extent inner + (x inner - b.min inner)))
        (.reshape (.fuse outer inner fused)) := by
      simp [Equation, Function.update_of_ne hof, Function.update_of_ne hif]
    obtain ⟨-, hquotient, hrest⟩ := fuse_eq hequation hcontains
    refine ⟨Function.update x fused ((x outer - b.min outer) * b.extent inner +
      (x inner - b.min inner)), fun a ha => Function.update_of_ne ha _ _, ?_, ?_, ?_⟩
    · have hcolumn : x inner - b.min inner < b.extent inner := by
        have := hinner.2
        omega
      have hrow : x outer - b.min outer < b.extent outer := by
        have := houter.2
        omega
      have hlt := lt_of_row_lt hcolumn hpos hrow hextent.symm
      have hnonneg : 0 ≤ (x outer - b.min outer) * b.extent inner :=
        mul_nonneg (sub_nonneg.2 houter.1) hpos.le
      have hfirst := hinner.1
      rw [Box.Contains, Function.update_self]
      omega
    · rw [hquotient, Function.update_of_ne hof, sub_add_cancel]
    · rw [hrest, Function.update_of_ne hif, sub_add_cancel]
  · simp only [consumed, made, List.cons_append, List.nil_append, List.nodup_cons, List.mem_cons,
      List.not_mem_nil, or_false, forall_eq] at hdistinct hx ⊢
    obtain ⟨hrebased, hextent⟩ := hcovers
    obtain ⟨hlo, hhi⟩ := hx
    refine ⟨Function.update x rebased (x parent - b.min parent),
      fun a ha => Function.update_of_ne ha _ _, ?_, ?_⟩
    · rw [Box.Contains, Function.update_self]
      omega
    · simp [Recombines, Function.update_of_ne hdistinct.1]
  · exact ⟨x, fun _ _ => rfl, List.forall_mem_nil _, trivial⟩

/-- Inside the domains, the points of what a relation makes are determined. -/
theorem Recombines.made_unique {r : AxisRelation} (hx : r.Recombines b x) (hy : r.Recombines b y)
    (hcovers : r.Covers b) (hxmade : ∀ a ∈ r.made, b.Contains x a)
    (hymade : ∀ a ∈ r.made, b.Contains y a) (hconsumed : ∀ a ∈ r.consumed, x a = y a) :
    ∀ a ∈ r.made, x a = y a := by
  rcases r with (⟨parent, outer, inner, size⟩ | ⟨outer, inner, fused⟩) | ⟨parent, rebased⟩ | a
  · simp only [consumed, made, List.mem_cons, List.not_mem_nil, or_false, forall_eq_or_imp,
      forall_eq] at hxmade hymade hconsumed ⊢
    obtain ⟨houter, hinner, hpos, -⟩ := hcovers
    obtain ⟨hxlo, hxhi⟩ := hxmade.2
    obtain ⟨hylo, hyhi⟩ := hymade.2
    rw [Recombines] at hx hy
    have hsum : x outer * b.extent inner + x inner = y outer * b.extent inner + y inner := by omega
    have hxrow : (x outer * b.extent inner + x inner) / b.extent inner = x outer := by
      rw [add_comm, Int.add_mul_ediv_right _ _ hpos.ne',
        Int.ediv_eq_zero_of_lt (by omega) (by omega), zero_add]
    have hyrow : (y outer * b.extent inner + y inner) / b.extent inner = y outer := by
      rw [add_comm, Int.add_mul_ediv_right _ _ hpos.ne',
        Int.ediv_eq_zero_of_lt (by omega) (by omega), zero_add]
    have hrow : x outer = y outer := by rw [← hxrow, hsum, hyrow]
    rw [hrow] at hsum
    exact ⟨hrow, by omega⟩
  · simp only [consumed, made, List.mem_cons, List.not_mem_nil, or_false, forall_eq_or_imp,
      forall_eq] at hconsumed ⊢
    obtain ⟨hxo, hxi⟩ := hx
    obtain ⟨hyo, hyi⟩ := hy
    have hquotient : (x fused).fdiv (b.extent inner) = (y fused).fdiv (b.extent inner) := by omega
    have hrest : (x fused).fmod (b.extent inner) = (y fused).fmod (b.extent inner) := by omega
    rw [← Int.mul_fdiv_add_fmod (x fused) (b.extent inner), hquotient, hrest,
      Int.mul_fdiv_add_fmod]
  · simp only [consumed, made, List.mem_cons, List.not_mem_nil, or_false, forall_eq] at hconsumed ⊢
    rw [Recombines] at hx hy
    omega
  · exact List.forall_mem_nil _

/-- A split is exact if its parts have no point more than the parent. -/
def Exact (b : Box) : AxisRelation → Prop
  | .reshape (.split parent outer inner _) =>
    b.extent parent = b.extent outer * b.extent inner
  | .reshape (.fuse ..) | .rebase .. | .singleton _ => True

/-- Unless a split is ragged, what a relation consumes lies in its domain if what it makes does. -/
theorem Recombines.contains {r : AxisRelation} (h : r.Recombines b x) (hcovers : r.Covers b)
    (hexact : r.Exact b) (hmade : ∀ a ∈ r.made, b.Contains x a) :
    ∀ a ∈ r.consumed, b.Contains x a := by
  have hmin := h.min_le hcovers fun a ha => (hmade a ha).1
  suffices key : ∀ a ∈ r.consumed, x a < b.min a + b.extent a from
    fun a ha => ⟨hmin a ha, key a ha⟩
  rcases r with (⟨parent, outer, inner, size⟩ | ⟨outer, inner, fused⟩) | ⟨parent, rebased⟩ | a
  · simp only [consumed, made, List.mem_cons, List.not_mem_nil, or_false, forall_eq_or_imp,
      forall_eq] at hmade ⊢
    obtain ⟨houter, hinner, hpos, -⟩ := hcovers
    obtain ⟨⟨-, hohi⟩, -, hihi⟩ := hmade
    have hcolumn : x inner < b.extent inner := by omega
    have hrow : x outer < b.extent outer := by omega
    have hlt := lt_of_row_lt hcolumn hpos hrow (Eq.symm hexact)
    rw [Recombines] at h
    omega
  · simp only [consumed, made, List.mem_cons, List.not_mem_nil, or_false, forall_eq_or_imp,
      forall_eq] at hmade ⊢
    obtain ⟨hfused, hpos, hextent⟩ := hcovers
    obtain ⟨houter, hinner⟩ := h
    have hproduct : x fused < b.extent outer * b.extent inner := by
      have := hmade.2
      omega
    have hquotient := fdiv_lt_of_lt_mul hpos hproduct
    have hrest := fmod_bounds (z := x fused) hpos
    constructor <;> omega
  · simp only [consumed, made, List.mem_cons, List.not_mem_nil, or_false, forall_eq] at hmade ⊢
    obtain ⟨hrebased, hextent⟩ := hcovers
    have hhi := hmade.2
    rw [Recombines] at h
    omega
  · exact List.forall_mem_nil _

end AxisRelation

/-! ## Points of scheduled nests -/

namespace LoopNest

variable {ctx ctx' : Context} {nest nest' : LoopNest} {r : AxisRelation} {b : Box}
  {x y : AxisId → Int}

/-- The point satisfies the relations of the nest. -/
def Solves (nest : LoopNest) (b : Box) (x : AxisId → Int) : Prop :=
  ∀ r ∈ nest.relations, r.Recombines b x

/-- The domains that relations make have a point for each of those consumed. -/
def Covers (nest : LoopNest) (b : Box) : Prop := ∀ r ∈ nest.relations, r.Covers b

theorem Step.forall_relations (hstep : Step ctx nest r ctx' nest') {P : AxisRelation → Prop} :
    (∀ r' ∈ nest'.relations, P r') ↔ (∀ r' ∈ nest.relations, P r') ∧ P r := by
  simp only [hstep.relations, List.mem_append, List.mem_singleton, or_imp, forall_and, forall_eq]

/-- What a step makes does not matter for the relations before it. -/
theorem Solves.congr (hshaped : Shaped ctx nest) (h : nest.Solves b x)
    (hxy : ∀ a ∈ nest.axes, y a = x a) : nest.Solves b y :=
  fun r hr => (h r hr).congr (fun a ha => hxy a (hshaped.mem_axes_of_mem_consumed hr ha))
    fun a ha => hxy a (hshaped.mem_axes_of_mem_made hr ha)

/-- The points of the leaves may be chosen at will. -/
theorem Scheduled.exists_solves (h : Scheduled ctx nest) (b : Box) :
    ∀ leaf : AxisId → Int, ∃ x, (∀ a ∈ nest.leaves, x a = leaf a) ∧ nest.Solves b x := by
  refine h.shaped_induction (P := fun _ nest => ∀ leaf : AxisId → Int,
    ∃ x, (∀ a ∈ nest.leaves, x a = leaf a) ∧ nest.Solves b x)
    (fun _ _ _ _ leaf => ⟨leaf, fun _ _ => rfl, nofun⟩) (fun _ _ _ _ _ ih => ih)
    (fun ctx ctx' nest nest' r hshaped hstep ih leaf => ?_) (fun _ _ _ ih => ih)
  have hnodup := hshaped.nodup_consumed_made hstep
  obtain ⟨leaf', hleaf', hr⟩ := AxisRelation.exists_recombined hnodup b leaf
  obtain ⟨x, hx, hsolves⟩ := ih leaf'
  classical
  let y : AxisId → Int := fun a => if a ∈ r.made then leaf a else x a
  have hnew : ∀ a ∈ r.made, y a = leaf a := fun a ha => if_pos ha
  have hold : ∀ a ∈ nest.axes, y a = x a := fun a ha =>
    if_neg fun hmade => hshaped.not_mem_axes hstep hmade ha
  refine ⟨y, fun a ha => ?_,
    hstep.forall_relations.2 ⟨hsolves.congr hshaped hold, hr.congr (fun a ha => ?_) fun a ha => ?_⟩⟩
  · rcases hshaped.leaf_cases hstep ha with hmade | ⟨hleaf, hc⟩
    · exact hnew a hmade
    · rw [hold a (hshaped.mem_axes_of_mem_leaves hleaf), hx a hleaf, hleaf' a hc]
  · have hleaf := hstep.mem_leaves_of_mem_consumed ha
    rw [hold a (hshaped.mem_axes_of_mem_leaves hleaf), hx a hleaf]
  · rw [hnew a ha, hleaf' a fun hc => (List.nodup_append.1 hnodup).2.2 a hc a ha rfl]

/-- No axis lies below its domain if no leaf does. -/
theorem Scheduled.min_le (h : Scheduled ctx nest) (hcovers : nest.Covers b)
    (hsolves : nest.Solves b x) (hleaves : ∀ a ∈ nest.leaves, b.min a ≤ x a) :
    ∀ a ∈ nest.axes, b.min a ≤ x a := by
  refine h.shaped_induction (P := fun _ nest => nest.Covers b → nest.Solves b x →
    (∀ a ∈ nest.leaves, b.min a ≤ x a) → ∀ a ∈ nest.axes, b.min a ≤ x a)
    (fun _ _ _ _ _ _ hleaves => hleaves) (fun _ _ _ _ _ ih => ih) ?_ (fun _ _ _ ih => ih)
    hcovers hsolves hleaves
  intro ctx ctx' nest nest' r hshaped hstep ih hcovers hsolves hleaves a ha
  obtain ⟨hcovers, hrcovers⟩ := hstep.forall_relations.1 hcovers
  obtain ⟨hsolves, hr⟩ := hstep.forall_relations.1 hsolves
  have hmade : ∀ a ∈ r.made, b.min a ≤ x a := fun a ha =>
    hleaves a (hstep.mem_leaves_of_mem_made ha)
  rw [hstep.axes, List.mem_append] at ha
  rcases ha with ha | ha
  · refine ih hcovers hsolves (fun a ha => ?_) a ha
    by_cases hc : a ∈ r.consumed
    · exact hr.min_le hrcovers hmade a hc
    · exact hleaves a (hstep.mem_leaves ha hc)
  · exact hmade a ha

/-- Every point of the roots inside their domains comes from one inside all domains. -/
theorem Scheduled.exists_point (h : Scheduled ctx nest) (hcovers : nest.Covers b)
    {root : AxisId → Int} (hroot : ∀ a ∈ nest.roots, b.Contains root a) :
    ∃ x, (∀ a ∈ nest.roots, x a = root a) ∧ (∀ a ∈ nest.axes, b.Contains x a) ∧
      nest.Solves b x := by
  refine h.shaped_induction (P := fun _ nest => nest.Covers b →
    (∀ a ∈ nest.roots, b.Contains root a) → ∃ x, (∀ a ∈ nest.roots, x a = root a) ∧
      (∀ a ∈ nest.axes, b.Contains x a) ∧ nest.Solves b x)
    (fun _ _ _ _ _ hroot => ⟨root, fun _ _ => rfl, hroot, nofun⟩) (fun _ _ _ _ _ ih => ih) ?_
    (fun _ _ _ ih => ih) hcovers hroot
  intro ctx ctx' nest nest' r hshaped hstep ih hcovers hroot
  obtain ⟨hcovers, hrcovers⟩ := hstep.forall_relations.1 hcovers
  obtain ⟨x, hx, hcontains, hsolves⟩ := ih hcovers (hstep.roots ▸ hroot)
  obtain ⟨y, hy, hmade, hr⟩ := AxisRelation.exists_parts (hshaped.nodup_consumed_made hstep)
    hrcovers fun a ha => hcontains a
      (hshaped.mem_axes_of_mem_leaves (hstep.mem_leaves_of_mem_consumed ha))
  have hold : ∀ a ∈ nest.axes, y a = x a := fun a ha =>
    hy a fun hmade => hshaped.not_mem_axes hstep hmade ha
  refine ⟨y, fun a ha => ?_, fun a ha => ?_,
    hstep.forall_relations.2 ⟨hsolves.congr hshaped hold, hr⟩⟩
  · rw [hstep.roots] at ha
    rw [hold a (hshaped.mem_axes_of_mem_roots ha), hx a ha]
  · rw [hstep.axes, List.mem_append] at ha
    rcases ha with ha | ha
    · rw [Box.Contains, hold a ha]
      exact hcontains a ha
    · exact hmade a ha

/-- Inside the domains, the points of the roots determine all others. -/
theorem Scheduled.point_unique (h : Scheduled ctx nest) (hcovers : nest.Covers b)
    (hx : nest.Solves b x) (hy : nest.Solves b y) (hxin : ∀ a ∈ nest.axes, b.Contains x a)
    (hyin : ∀ a ∈ nest.axes, b.Contains y a) (hroots : ∀ a ∈ nest.roots, x a = y a) :
    ∀ a ∈ nest.axes, x a = y a := by
  refine h.shaped_induction (P := fun _ nest => nest.Covers b → nest.Solves b x →
    nest.Solves b y → (∀ a ∈ nest.axes, b.Contains x a) → (∀ a ∈ nest.axes, b.Contains y a) →
      (∀ a ∈ nest.roots, x a = y a) → ∀ a ∈ nest.axes, x a = y a)
    (fun _ _ _ _ _ _ _ _ _ hroots => hroots) (fun _ _ _ _ _ ih => ih) ?_ (fun _ _ _ ih => ih)
    hcovers hx hy hxin hyin hroots
  intro ctx ctx' nest nest' r hshaped hstep ih hcovers hx hy hxin hyin hroots a ha
  obtain ⟨hcovers, hrcovers⟩ := hstep.forall_relations.1 hcovers
  obtain ⟨hx, hxr⟩ := hstep.forall_relations.1 hx
  obtain ⟨hy, hyr⟩ := hstep.forall_relations.1 hy
  simp only [hstep.axes, List.mem_append, or_imp, forall_and] at hxin hyin
  have hold := ih hcovers hx hy hxin.1 hyin.1 (hstep.roots ▸ hroots)
  rw [hstep.axes, List.mem_append] at ha
  rcases ha with ha | ha
  · exact hold a ha
  · exact hxr.made_unique hyr hrcovers hxin.2 hyin.2 (fun a ha => hold a
      (hshaped.mem_axes_of_mem_leaves (hstep.mem_leaves_of_mem_consumed ha))) a ha

end LoopNest

end LoopBounds
