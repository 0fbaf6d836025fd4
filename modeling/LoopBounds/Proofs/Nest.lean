import LoopBounds.LoopNest.Basic
import LoopBounds.Proofs.Build

/-!
# Scheduled nests

A scheduling step replaces adjacent leaves by fresh axes and records how the ones are made from
the others.  All that is proved about scheduled nests goes by induction on the steps, each of
which leaves the axes and relations that were there before as they are.
-/

namespace LoopBounds

namespace AxisRelation

/-- The leaves that a relation takes away. -/
def consumed : AxisRelation → List AxisId
  | .reshape (.split parent _ _ _) => [parent]
  | .reshape (.fuse outer inner _) => [outer, inner]
  | .rebase parent _ => [parent]
  | .singleton _ => []

/-- The leaves that a relation puts in their place. -/
def made : AxisRelation → List AxisId
  | .reshape (.split _ outer inner _) => [outer, inner]
  | .reshape (.fuse _ _ fused) => [fused]
  | .rebase _ rebased => [rebased]
  | .singleton _ => []

/-- The expressions that a relation mentions. -/
def exprs : AxisRelation → List ExprId
  | .reshape (.split _ _ _ size) => [size.extent]
  | .reshape (.fuse ..) | .rebase .. | .singleton _ => []

end AxisRelation

namespace Schedule

variable {α β : Type} {m : Schedule α} {f : α → Schedule β} {ctx : Context}
  {Q : α → Context → Prop} {S : β → Context → Prop}

/-- If the step does not fail then its result and the context it leaves satisfy `Q`. -/
def Ensures (m : Schedule α) (ctx : Context) (Q : α → Context → Prop) : Prop :=
  ∀ x ctx', m.run.run ctx = (.ok x, ctx') → Q x ctx'

/-- What a schedule that does not fail makes of a context. -/
def outcome [Inhabited α] (m : Schedule α) (ctx : Context) : α × Context :=
  match m.run.run ctx with
  | (.ok x, ctx') => (x, ctx')
  | (.error _, ctx') => (default, ctx')

def succeeds (m : Schedule α) (ctx : Context) : Bool := (m.run.run ctx).1.isOk

theorem Ensures.outcome [Inhabited α] (h : Ensures m ctx Q) (hok : m.succeeds ctx = true) :
    Q (m.outcome ctx).1 (m.outcome ctx).2 := by
  rw [succeeds] at hok
  rw [Schedule.outcome]
  rcases hrun : m.run.run ctx with ⟨x | e, ctx'⟩
  · exact absurd hok (by simp [hrun, Except.isOk, Except.toBool])
  · exact h _ _ hrun

theorem run_eq_of_succeeds [Inhabited α] (hok : m.succeeds ctx = true) :
    m.run.run ctx = (.ok (m.outcome ctx).1, (m.outcome ctx).2) :=
  Ensures.outcome (Q := fun x ctx' => m.run.run ctx = (.ok x, ctx')) (fun _ _ => id) hok

theorem Ensures.pure {x : α} (h : Q x ctx) : Ensures (pure x : Schedule α) ctx Q := by
  rintro _ _ ⟨⟩
  exact h

theorem Ensures.throw {e : InferError} : Ensures (throw e : Schedule α) ctx Q := nofun

theorem Ensures.bind (hm : Ensures m ctx Q) (hf : ∀ x ctx', Q x ctx' → Ensures (f x) ctx' S) :
    Ensures (m >>= f) ctx S := by
  intro y ctx₂ hrun
  rcases hfirst : m.run.run ctx with ⟨r, ctx₁⟩
  simp only [ExceptT.run_bind, StateT.run_bind, hfirst] at hrun
  cases r with
  | error e => cases hrun
  | ok x => exact hf x ctx₁ (hm x ctx₁ hfirst) y ctx₂ hrun

theorem Ensures.mono {R : α → Context → Prop} (h : Ensures m ctx Q)
    (hQ : ∀ x ctx', Q x ctx' → R x ctx') : Ensures m ctx R :=
  fun x ctx' hrun => hQ x ctx' (h x ctx' hrun)

theorem Ensures.build {b : Build α} (h : Q (b.run ctx).1 (b.run ctx).2) :
    Ensures (liftM b : Schedule α) ctx Q := by
  rintro _ _ ⟨⟩
  exact h

theorem Ensures.get {f : Context → Schedule β} (h : Ensures (f ctx) ctx S) :
    Ensures ((liftM (get : Build Context) : Schedule Context) >>= f) ctx S := h

end Schedule

namespace LoopNest

variable {ctx ctx' : Context} {nest nest' : LoopNest} {r : AxisRelation}

/-- The nest that a step makes: adjacent leaves give way to fresh axes. -/
structure Step (ctx : Context) (nest : LoopNest) (r : AxisRelation) (ctx' : Context)
    (nest' : LoopNest) : Prop where
  le : ctx ≤ ctx'
  wellFormed : ctx.WellFormed → ctx'.WellFormed
  leaves : ∃ before after, nest.leaves = before ++ r.consumed ++ after ∧
    nest'.leaves = before ++ r.made ++ after
  axes : nest'.axes = nest.axes ++ r.made
  relations : nest'.relations = nest.relations ++ [r]
  roots : nest'.roots = nest.roots
  fresh : ∀ a ∈ r.made, ctx.axes.size ≤ a.index ∧ a.index < ctx'.axes.size
  distinct : r.made.Nodup
  pinned : ∀ a, r = .singleton a → a ∈ nest.leaves
  stored : ∀ e ∈ r.exprs, ctx'.Stored e
  kind : (∀ a ∈ r.consumed, (ctx.axis a).kind ≠ .blackBox) →
    ∀ a ∈ r.made, (ctx'.axis a).kind ≠ .blackBox

/-! ## Deriving axes -/

/-- `ctx'` is `ctx` with one more axis `a` of the given kind. -/
structure Gains (ctx : Context) (a : AxisId) (kind : AxisKind) (ctx' : Context) : Prop where
  le : ctx ≤ ctx'
  wellFormed : ctx.WellFormed → ctx'.WellFormed
  index : a.index = ctx.axes.size
  size : ctx'.axes.size = ctx.axes.size + 1
  kind : (ctx'.axis a).kind = kind

/-- The context with one more variable and an axis that runs over it. -/
def addAxis (ctx : Context) (x : Variable) (kind : AxisKind) : Context :=
  { ctx with
    vars := ctx.vars.push x
    axes := ctx.axes.push { var := ⟨ctx.vars.size⟩, domain? := none, kind, thread? := none } }

theorem axis_addAxis (x : Variable) (kind : AxisKind) (a : AxisId) :
    (addAxis ctx x kind).axis a =
      if a.index = ctx.axes.size then
        { var := ⟨ctx.vars.size⟩, domain? := none, kind, thread? := none }
      else ctx.axis a := by
  rw [Context.axis, addAxis, Array.getElem?_push]
  split
  · rfl
  · rfl

theorem addAxis_gains (ctx : Context) (x : Variable) (kind : AxisKind) :
    Gains ctx ⟨ctx.axes.size⟩ kind (addAxis ctx x kind) := by
  have hle : ctx ≤ addAxis ctx x kind :=
    ⟨List.prefix_rfl, by simp [addAxis], by simp [addAxis], le_rfl, fun f _ => .refl _⟩
  refine ⟨hle, fun hwf => ⟨hwf.call, fun f b hb => ?_, fun f d hd => ?_, fun a d hd => ?_,
    fun a ha => ?_, fun a b ha hb hab => ?_⟩, rfl, by simp [addAxis], by simp [axis_addAxis]⟩
  · exact (hwf.body f b hb).mono hle
  · exact (hwf.codomain f d hd).mono hle
  · rw [axis_addAxis] at hd
    split at hd
    · cases hd
    · exact (hwf.domain a d hd).mono hle
  · have hvar := hwf.axisVar a
    rw [Context.axisVar, axis_addAxis]
    simp only [addAxis, Array.size_push] at ha ⊢
    split
    · exact Nat.lt_succ_self _
    · exact Nat.lt_succ_of_lt (hvar (by omega))
  · have hva := hwf.axisVar a
    have hvb := hwf.axisVar b
    simp only [addAxis, Array.size_push] at ha hb
    rw [Context.axisVar, Context.axisVar, axis_addAxis, axis_addAxis] at hab
    split at hab <;> split at hab
    · next ha' hb' => exact Handle.ext_index (ha'.trans hb'.symm)
    · next ha' hb' =>
      have hlt := hvb (by omega)
      rw [Context.axisVar, ← hab] at hlt
      exact absurd hlt (Nat.lt_irrefl _)
    · next ha' hb' =>
      have hlt := hva (by omega)
      rw [Context.axisVar, hab] at hlt
      exact absurd hlt (Nat.lt_irrefl _)
    · exact hwf.axisVar_inj a b (by omega) (by omega) hab

theorem deriveAxis_ensures (parent : AxisId) (name : String) (kind : AxisKind) (ctx : Context) :
    Schedule.Ensures (deriveAxis parent name kind) ctx fun a ctx' => Gains ctx a kind ctx' :=
  .build (Q := fun a ctx' => Gains ctx a kind ctx')
    (addAxis_gains ctx ⟨name, (ctx.var (ctx.axisVar parent)).type⟩ kind)

/-! ## Steps -/

theorem leafIndex_ensures (a : AxisId) :
    Schedule.Ensures (nest.leafIndex a) ctx fun i ctx' =>
      ctx' = ctx ∧ ∃ rest, nest.leaves.drop i = a :: rest := by
  unfold leafIndex
  split
  · next i hi =>
    obtain ⟨hlt, rfl, -⟩ := List.idxOf?_eq_some_iff.1 hi
    exact .pure ⟨rfl, _, List.drop_eq_getElem_cons hlt⟩
  · exact .get .throw

/-- Replacing leaves by fresh axes is a step. -/
theorem replace_step {ctx ctx' : Context} {i : Nat} {rest : List AxisId}
    (hle : ctx ≤ ctx') (hwf : ctx.WellFormed → ctx'.WellFormed)
    (hleaves : nest.leaves.drop i = r.consumed ++ rest)
    (hfresh : ∀ a ∈ r.made, ctx.axes.size ≤ a.index ∧ a.index < ctx'.axes.size)
    (hdistinct : r.made.Nodup) (hpinned : ∀ a, r ≠ .singleton a)
    (hstored : ∀ e ∈ r.exprs, ctx'.Stored e)
    (hkind : (∀ a ∈ r.consumed, (ctx.axis a).kind ≠ .blackBox) →
      ∀ a ∈ r.made, (ctx'.axis a).kind ≠ .blackBox) :
    Step ctx nest r ctx' (nest.replace i r.consumed.length r.made r) := by
  refine ⟨hle, hwf, ⟨nest.leaves.take i, rest, ?_, ?_⟩, rfl, rfl, rfl, hfresh, hdistinct,
    fun a ha => absurd ha (hpinned a), hstored, hkind⟩
  · rw [List.append_assoc, ← hleaves, List.take_append_drop]
  · rw [replace, ← List.drop_drop, hleaves, List.drop_left]

/-- A split derives two axes from a leaf, whatever it calls them. -/
theorem split_ensures {parent : AxisId} {size : SplitBy}
    {Q : LoopNest × AxisId × AxisId → Context → Prop}
    (h : ∀ i rest, nest.leaves.drop i = parent :: rest → ∀ name₁ name₂, Schedule.Ensures (do
      let outer ← deriveAxis parent name₁ (ctx.axis parent).kind
      let inner ← deriveAxis parent name₂ (ctx.axis parent).kind
      let r := AxisRelation.reshape (.split parent outer inner size)
      return (nest.replace i 1 [outer, inner] r, outer, inner)) ctx Q) :
    Schedule.Ensures (nest.split parent size) ctx Q := by
  refine (leafIndex_ensures parent).bind ?_
  rintro i ctx ⟨rfl, rest, hrest⟩
  refine .get ?_
  dsimp only
  split
  · split
    · exact .throw
    · exact h i rest hrest _ _
  · exact h i rest hrest _ _

theorem split_step {parent : AxisId} {size : SplitBy} (hsize : ctx.Stored size.extent) :
    Schedule.Ensures (nest.split parent size) ctx fun p ctx' => ∃ r, Step ctx nest r ctx' p.1 := by
  refine split_ensures fun i rest hrest name₁ name₂ => ?_
  refine (deriveAxis_ensures _ _ _ _).bind fun outer ctx₁ h₁ => ?_
  refine (deriveAxis_ensures _ _ _ _).bind fun inner ctx₂ h₂ => ?_
  have hindex := h₂.index.trans h₁.size
  have hkind₁ := (congrArg Axis.kind (Context.axis_eq h₂.le (a := outer)
    (by rw [h₁.size, h₁.index]; exact Nat.lt_succ_self _))).trans h₁.kind
  refine .pure ⟨_, replace_step (r := .reshape (.split parent outer inner size))
    (h₁.le.trans h₂.le) (h₂.wellFormed ∘ h₁.wellFormed) hrest ?_ ?_ nofun ?_ ?_⟩
  · simp only [AxisRelation.made, List.mem_cons, List.not_mem_nil, or_false,
      forall_eq_or_imp, forall_eq, h₂.size, h₁.size, h₁.index, hindex]
    omega
  · simp [AxisRelation.made, ← Handle.index_inj, h₁.index, hindex]
  · simpa [AxisRelation.exprs] using hsize.mono (h₁.le.trans h₂.le)
  · simp only [AxisRelation.consumed, AxisRelation.made, List.mem_cons, List.not_mem_nil,
      or_false, forall_eq_or_imp, forall_eq, hkind₁, h₂.kind]
    exact fun h => ⟨h, h⟩

theorem fuse_step {outer inner : AxisId} :
    Schedule.Ensures (nest.fuse outer inner) ctx fun p ctx' => ∃ r, Step ctx nest r ctx' p.1 := by
  refine (leafIndex_ensures outer).bind ?_
  rintro i ctx ⟨rfl, rest, hrest⟩
  refine (leafIndex_ensures inner).bind ?_
  rintro j ctx ⟨rfl, rest', hrest'⟩
  refine .get ?_
  dsimp only
  split
  · exact .throw
  next hj =>
  rw [not_ne_iff] at hj
  subst hj
  refine (deriveAxis_ensures _ _ _ _).bind fun fused ctx₁ h₁ => ?_
  have hleaves : nest.leaves.drop i = outer :: inner :: rest' := by
    rw [hrest, ← hrest', ← List.drop_drop, hrest]
    rfl
  refine .pure ⟨_, replace_step (r := .reshape (.fuse outer inner fused)) h₁.le h₁.wellFormed
    hleaves ?_ (List.nodup_singleton _) nofun ?_ ?_⟩
  · simp [AxisRelation.made, h₁.size, h₁.index]
  · simp [AxisRelation.exprs]
  · simp only [AxisRelation.consumed, AxisRelation.made, List.mem_cons, List.not_mem_nil,
      or_false, forall_eq_or_imp, forall_eq, h₁.kind]
    rintro ⟨houter, hinner⟩
    rw [AxisKind.join]
    split
    exacts [hinner, houter]

theorem rebase_step {parent : AxisId} :
    Schedule.Ensures (nest.rebase parent) ctx fun p ctx' => ∃ r, Step ctx nest r ctx' p.1 := by
  refine (leafIndex_ensures parent).bind ?_
  rintro i ctx ⟨rfl, rest, hrest⟩
  refine .get ?_
  refine (deriveAxis_ensures _ _ _ _).bind fun rebased ctx₁ h₁ => ?_
  refine .pure ⟨_, replace_step (r := .rebase parent rebased) h₁.le h₁.wellFormed hrest ?_
    (List.nodup_singleton _) nofun ?_ ?_⟩
  · simp [AxisRelation.made, h₁.size, h₁.index]
  · simp [AxisRelation.exprs]
  · simp [AxisRelation.consumed, AxisRelation.made, h₁.kind]

theorem singleton_step {a : AxisId} :
    Schedule.Ensures (nest.singleton a) ctx fun nest' ctx' => ∃ r, Step ctx nest r ctx' nest' := by
  refine (leafIndex_ensures a).bind ?_
  rintro i ctx ⟨rfl, rest, hrest⟩
  have ha : a ∈ nest.leaves := List.mem_of_mem_drop (i := i) (hrest ▸ List.mem_cons_self)
  refine .pure ⟨.singleton a, le_rfl, id, ⟨nest.leaves, [], ?_, ?_⟩, ?_, rfl, rfl, nofun,
    List.nodup_nil, ?_, nofun, fun _ => nofun⟩
  · simp [AxisRelation.consumed]
  · simp [AxisRelation.made]
  · simp [AxisRelation.made]
  · rintro _ ⟨⟩
    exact ha

theorem bind_ensures {a thread : AxisId} :
    Schedule.Ensures (nest.bind a thread) ctx fun nest' ctx' =>
      ctx' = ctx ∧ ∃ threads, nest' = { nest with threads } := by
  refine (leafIndex_ensures a).bind ?_
  rintro i ctx ⟨rfl, -⟩
  exact .pure ⟨rfl, _, rfl⟩

/-! ## Scheduled nests -/

/-- The nests that scheduling steps make from distinct roots.  Between the steps more may be
stored and declared. -/
inductive Scheduled : Context → LoopNest → Prop
  | ofRoots {ctx : Context} (hwf : ctx.WellFormed) (name : String) {roots : List AxisId}
    (hdistinct : roots.Nodup) (hroots : ∀ a ∈ roots, a.index < ctx.axes.size) :
    Scheduled ctx (ofRoots name roots)
  | store {ctx ctx' : Context} {nest : LoopNest} (h : Scheduled ctx nest) (hctx : ctx ≤ ctx')
    (hwf : ctx'.WellFormed) : Scheduled ctx' nest
  | split {ctx ctx' : Context} {nest nest' : LoopNest} {parent outer inner : AxisId}
    {size : SplitBy} (h : Scheduled ctx nest) (hsize : ctx.Stored size.extent)
    (hrun : (nest.split parent size).run.run ctx = (.ok (nest', outer, inner), ctx')) :
    Scheduled ctx' nest'
  | fuse {ctx ctx' : Context} {nest nest' : LoopNest} {outer inner fused : AxisId}
    (h : Scheduled ctx nest)
    (hrun : (nest.fuse outer inner).run.run ctx = (.ok (nest', fused), ctx')) :
    Scheduled ctx' nest'
  | rebase {ctx ctx' : Context} {nest nest' : LoopNest} {parent rebased : AxisId}
    (h : Scheduled ctx nest)
    (hrun : (nest.rebase parent).run.run ctx = (.ok (nest', rebased), ctx')) :
    Scheduled ctx' nest'
  | singleton {ctx ctx' : Context} {nest nest' : LoopNest} {a : AxisId} (h : Scheduled ctx nest)
    (hrun : (nest.singleton a).run.run ctx = (.ok nest', ctx')) : Scheduled ctx' nest'
  | bind {ctx ctx' : Context} {nest nest' : LoopNest} {a thread : AxisId}
    (h : Scheduled ctx nest) (hrun : (nest.bind a thread).run.run ctx = (.ok nest', ctx')) :
    Scheduled ctx' nest'

/-- What holds of the roots and is kept by each step holds of a scheduled nest. -/
theorem Scheduled.step_induction {P : Context → LoopNest → Prop}
    (roots : ∀ (ctx : Context) name (as : List AxisId), ctx.WellFormed → as.Nodup →
      (∀ a ∈ as, a.index < ctx.axes.size) → P ctx (LoopNest.ofRoots name as))
    (store : ∀ ctx ctx' nest, ctx ≤ ctx' → ctx'.WellFormed → P ctx nest → P ctx' nest)
    (step : ∀ ctx ctx' nest nest' r, P ctx nest → Step ctx nest r ctx' nest' → P ctx' nest')
    (threads : ∀ ctx nest threads, P ctx nest → P ctx { nest with threads })
    (h : Scheduled ctx nest) : P ctx nest := by
  induction h with
  | ofRoots hwf name hdistinct hroots => exact roots _ _ _ hwf hdistinct hroots
  | store _ hctx hwf ih => exact store _ _ _ hctx hwf ih
  | split _ hsize hrun ih =>
      obtain ⟨r, hr⟩ := split_step hsize _ _ hrun
      exact step _ _ _ _ r ih hr
  | fuse _ hrun ih =>
      obtain ⟨r, hr⟩ := fuse_step _ _ hrun
      exact step _ _ _ _ r ih hr
  | rebase _ hrun ih =>
      obtain ⟨r, hr⟩ := rebase_step _ _ hrun
      exact step _ _ _ _ r ih hr
  | singleton _ hrun ih =>
      obtain ⟨r, hr⟩ := singleton_step _ _ hrun
      exact step _ _ _ _ r ih hr
  | bind _ hrun ih =>
      obtain ⟨rfl, ts, rfl⟩ := bind_ensures _ _ hrun
      exact threads _ _ ts ih

/-- How the axes, leaves and relations of a nest hang together.  Every axis is a root or made by
one relation, it is a leaf or consumed by one relation, and a relation only takes what was there
before it. -/
structure Arranged (ctx : Context) (nest : LoopNest) : Prop where
  registered : ∀ a ∈ nest.axes, a.index < ctx.axes.size
  nodup : nest.axes.Nodup
  axes_eq : nest.axes = nest.roots ++ nest.relations.flatMap AxisRelation.made
  perm : (nest.leaves ++ nest.relations.flatMap AxisRelation.consumed).Perm nest.axes
  before : ∀ done rest r, nest.relations = done ++ r :: rest →
    ∀ a, (a ∈ r.consumed ∨ r = .singleton a) → a ∈ nest.roots ++ done.flatMap AxisRelation.made

theorem Arranged.mono (h : Arranged ctx nest) (hsize : ctx.axes.size ≤ ctx'.axes.size) :
    Arranged ctx' nest :=
  ⟨fun a ha => (h.registered a ha).trans_le hsize, h.nodup, h.axes_eq, h.perm, h.before⟩

theorem Arranged.mem_axes_of_mem_leaves (h : Arranged ctx nest) {a : AxisId}
    (ha : a ∈ nest.leaves) : a ∈ nest.axes :=
  h.perm.mem_iff.1 (List.mem_append_left _ ha)

theorem Arranged.mem_axes_of_mem_consumed (h : Arranged ctx nest) (hr : r ∈ nest.relations)
    {a : AxisId} (ha : a ∈ r.consumed) : a ∈ nest.axes :=
  h.perm.mem_iff.1 (List.mem_append_right _ (List.mem_flatMap.2 ⟨r, hr, ha⟩))

theorem Arranged.mem_axes_of_mem_made (h : Arranged ctx nest) (hr : r ∈ nest.relations)
    {a : AxisId} (ha : a ∈ r.made) : a ∈ nest.axes :=
  h.axes_eq ▸ List.mem_append_right _ (List.mem_flatMap.2 ⟨r, hr, ha⟩)

theorem Arranged.mem_axes_of_mem_relation (h : Arranged ctx nest) (hr : r ∈ nest.relations)
    {a : AxisId} (ha : a ∈ r.consumed ++ r.made) : a ∈ nest.axes := by
  rcases List.mem_append.1 ha with ha | ha
  exacts [h.mem_axes_of_mem_consumed hr ha, h.mem_axes_of_mem_made hr ha]

theorem Arranged.mem_axes_of_mem_roots (h : Arranged ctx nest) {a : AxisId}
    (ha : a ∈ nest.roots) : a ∈ nest.axes :=
  h.axes_eq ▸ List.mem_append_left _ ha

/-- An axis that is pinned was there before. -/
theorem Arranged.pinned (h : Arranged ctx nest) (a : AxisId)
    (ha : .singleton a ∈ nest.relations) : a ∈ nest.axes := by
  obtain ⟨done, rest, hsplit⟩ := List.append_of_mem ha
  rw [h.axes_eq, hsplit, List.flatMap_append, ← List.append_assoc]
  exact List.mem_append_left _ (h.before done rest _ hsplit a (.inr rfl))

/-- Axes that a step makes are new. -/
theorem Arranged.not_mem_axes (h : Arranged ctx nest) (hstep : Step ctx nest r ctx' nest')
    {a : AxisId} (ha : a ∈ r.made) : a ∉ nest.axes :=
  fun hmem => absurd (h.registered a hmem) (Nat.not_lt.2 (hstep.fresh a ha).1)

theorem Step.mem_leaves_of_mem_consumed (hstep : Step ctx nest r ctx' nest') {a : AxisId}
    (ha : a ∈ r.consumed) : a ∈ nest.leaves := by
  obtain ⟨before, after, hleaves, -⟩ := hstep.leaves
  rw [hleaves]
  simp [ha]

theorem Step.mem_leaves_of_mem_made (hstep : Step ctx nest r ctx' nest') {a : AxisId}
    (ha : a ∈ r.made) : a ∈ nest'.leaves := by
  obtain ⟨before, after, -, hleaves⟩ := hstep.leaves
  rw [hleaves]
  simp [ha]

/-- The other leaves stay. -/
theorem Step.mem_leaves (hstep : Step ctx nest r ctx' nest') {a : AxisId} (ha : a ∈ nest.leaves)
    (hnew : a ∉ r.consumed) : a ∈ nest'.leaves := by
  obtain ⟨before, after, hold, hleaves⟩ := hstep.leaves
  rw [hold] at ha
  rw [hleaves]
  simp only [List.mem_append] at ha ⊢
  tauto

theorem Arranged.nodup_consumed_made (h : Arranged ctx nest) (hstep : Step ctx nest r ctx' nest') :
    (r.consumed ++ r.made).Nodup := by
  obtain ⟨before, after, hleaves, -⟩ := hstep.leaves
  have hnodup := (h.perm.nodup_iff.2 h.nodup).of_append_left
  rw [hleaves] at hnodup
  refine hnodup.of_append_left.of_append_right.append hstep.distinct fun a ha hmade => ?_
  exact h.not_mem_axes hstep hmade
    (h.mem_axes_of_mem_leaves (hstep.mem_leaves_of_mem_consumed ha))

/-- A leaf after a step is new or was a leaf before. -/
theorem Arranged.leaf_cases (h : Arranged ctx nest) (hstep : Step ctx nest r ctx' nest')
    {a : AxisId}
    (ha : a ∈ nest'.leaves) : a ∈ r.made ∨ a ∈ nest.leaves ∧ a ∉ r.consumed := by
  obtain ⟨before, after, hold, hleaves⟩ := hstep.leaves
  have hnodup := (h.perm.nodup_iff.2 h.nodup).of_append_left
  rw [hold] at hnodup
  rw [hleaves] at ha
  rw [hold]
  simp only [List.mem_append, List.nodup_append] at ha hnodup ⊢
  rcases ha with (ha | ha) | ha
  · exact .inr ⟨.inl (.inl ha), fun hc => hnodup.1.2.2 a ha a hc rfl⟩
  · exact .inl ha
  · exact .inr ⟨.inr ha, fun hc => hnodup.2.2 a (.inr hc) a ha rfl⟩

theorem Arranged.step (h : Arranged ctx nest) (hstep : Step ctx nest r ctx' nest') :
    Arranged ctx' nest' := by
  have hsize : ctx.axes.size ≤ ctx'.axes.size := by simpa using hstep.le.axes.length_le
  have h' := h.mono hsize
  refine ⟨fun a ha => ?_, ?_, ?_, ?_, fun done rest r' hsplit a ha => ?_⟩
  · rw [hstep.axes, List.mem_append] at ha
    rcases ha with ha | ha
    exacts [h'.registered a ha, (hstep.fresh a ha).2]
  · rw [hstep.axes]
    refine h.nodup.append hstep.distinct fun a ha hmade => h.not_mem_axes hstep hmade ha
  · rw [hstep.axes, hstep.roots, hstep.relations, h.axes_eq]
    simp
  · obtain ⟨before, after, hold, hnew⟩ := hstep.leaves
    have hperm := h.perm
    rw [hold, List.perm_iff_count] at hperm
    rw [hnew, hstep.axes, hstep.relations, List.perm_iff_count]
    intro a
    have hcount := hperm a
    simp only [List.count_append, List.flatMap_append, List.flatMap_singleton] at hcount ⊢
    omega
  · rw [hstep.relations] at hsplit
    rw [hstep.roots]
    rcases List.eq_nil_or_concat rest with rfl | ⟨rest, last, rfl⟩
    · obtain ⟨rfl, hr⟩ := List.append_inj' hsplit rfl
      cases hr
      rw [← h.axes_eq]
      refine h.mem_axes_of_mem_leaves ?_
      rcases ha with ha | ha
      exacts [hstep.mem_leaves_of_mem_consumed ha, hstep.pinned a ha]
    · rw [List.concat_eq_append, ← List.cons_append, ← List.append_assoc] at hsplit
      exact h.before done rest r' (List.append_inj' hsplit rfl).1 a ha

theorem arranged_ofRoots (name : String) {roots : List AxisId} (hdistinct : roots.Nodup)
    (hroots : ∀ a ∈ roots, a.index < ctx.axes.size) : Arranged ctx (ofRoots name roots) :=
  ⟨hroots, hdistinct, by simp [ofRoots], by simp [ofRoots], by simp [ofRoots]⟩

/-- A nest that hangs together, over what is stored. -/
structure Shaped (ctx : Context) (nest : LoopNest) : Prop extends Arranged ctx nest where
  wellFormed : ctx.WellFormed
  stored : ∀ r ∈ nest.relations, ∀ e ∈ r.exprs, ctx.Stored e

theorem Shaped.mono (h : Shaped ctx nest) (hctx : ctx ≤ ctx') (hwf : ctx'.WellFormed) :
    Shaped ctx' nest :=
  ⟨h.toArranged.mono (by simpa using hctx.axes.length_le), hwf,
    fun r hr e he => (h.stored r hr e he).mono hctx⟩

theorem Shaped.step (h : Shaped ctx nest) (hstep : Step ctx nest r ctx' nest') :
    Shaped ctx' nest' := by
  refine ⟨h.toArranged.step hstep, hstep.wellFormed h.wellFormed, fun r' hr => ?_⟩
  rw [hstep.relations, List.mem_append, List.mem_singleton] at hr
  rcases hr with hr | rfl
  exacts [fun e he => (h.stored r' hr e he).mono hstep.le, hstep.stored]

theorem Scheduled.shaped (h : Scheduled ctx nest) : Shaped ctx nest := by
  refine h.step_induction (fun ctx name as hwf hdistinct has => ?_)
    (fun ctx ctx' nest hctx hwf ih => ih.mono hctx hwf)
    (fun ctx ctx' nest nest' r ih hstep => ih.step hstep) (fun ctx nest threads ih => ?_)
  · exact ⟨arranged_ofRoots name hdistinct has, hwf, nofun⟩
  · exact ⟨⟨ih.registered, ih.nodup, ih.axes_eq, ih.perm, ih.before⟩, ih.wellFormed, ih.stored⟩

/-- An induction in which each step starts from a nest that hangs together. -/
theorem Scheduled.shaped_induction {P : Context → LoopNest → Prop}
    (roots : ∀ (ctx : Context) name (as : List AxisId), Shaped ctx (LoopNest.ofRoots name as) →
      P ctx (LoopNest.ofRoots name as))
    (store : ∀ ctx ctx' nest, Shaped ctx nest → ctx ≤ ctx' → P ctx nest → P ctx' nest)
    (step : ∀ ctx ctx' nest nest' r, Shaped ctx nest → Step ctx nest r ctx' nest' → P ctx nest →
      P ctx' nest')
    (threads : ∀ ctx nest threads, P ctx nest → P ctx { nest with threads })
    (h : Scheduled ctx nest) : P ctx nest := by
  refine (h.step_induction (P := fun ctx nest => Shaped ctx nest ∧ P ctx nest)
    (fun ctx name as hwf hdistinct has => ?_)
    (fun ctx ctx' nest hctx hwf ih => ⟨ih.1.mono hctx hwf, store _ _ _ ih.1 hctx ih.2⟩)
    (fun ctx ctx' nest nest' r ih hstep => ⟨ih.1.step hstep, step _ _ _ _ r ih.1 hstep ih.2⟩)
    (fun ctx nest ts ih => ⟨?_, threads ctx nest ts ih.2⟩)).2
  · have hshaped := (Scheduled.ofRoots hwf name hdistinct has).shaped
    exact ⟨hshaped, roots ctx name as hshaped⟩
  · obtain ⟨⟨hreg, hnodup, haxes, hperm, hbefore⟩, hwf, hstored⟩ := ih.1
    exact ⟨⟨hreg, hnodup, haxes, hperm, hbefore⟩, hwf, hstored⟩

/-- No step makes a black box of other axes. -/
theorem Scheduled.kind_ne (h : Scheduled ctx nest)
    (hroots : ∀ a ∈ nest.roots, (ctx.axis a).kind ≠ .blackBox) :
    ∀ a ∈ nest.axes, (ctx.axis a).kind ≠ .blackBox := by
  refine h.shaped_induction (P := fun ctx nest => (∀ a ∈ nest.roots,
      (ctx.axis a).kind ≠ .blackBox) → ∀ a ∈ nest.axes, (ctx.axis a).kind ≠ .blackBox)
    (fun _ _ _ _ h => h) (fun ctx ctx' nest hshaped hctx ih hroots a ha => ?_)
    (fun ctx ctx' nest nest' r hshaped hstep ih hroots a ha => ?_) (fun _ _ _ ih => ih) hroots
  · rw [Context.axis_eq hctx (hshaped.registered a ha)]
    refine ih (fun b hb => ?_) a ha
    rw [← Context.axis_eq hctx (hshaped.registered b (hshaped.mem_axes_of_mem_roots hb))]
    exact hroots b hb
  · have hkind : ∀ b ∈ nest.axes, (ctx'.axis b).kind = (ctx.axis b).kind := fun b hb =>
      congrArg Axis.kind (Context.axis_eq hstep.le (hshaped.registered b hb))
    have hold : ∀ b ∈ nest.axes, (ctx.axis b).kind ≠ .blackBox :=
      ih fun b hb => hkind b (hshaped.mem_axes_of_mem_roots hb) ▸ hroots b (hstep.roots ▸ hb)
    rw [hstep.axes, List.mem_append] at ha
    rcases ha with ha | ha
    · exact hkind a ha ▸ hold a ha
    · refine hstep.kind (fun b hb => hold b (hshaped.mem_axes_of_mem_leaves ?_)) a ha
      obtain ⟨before, after, hleaves, -⟩ := hstep.leaves
      rw [hleaves]
      simp [hb]

/-- What a relation takes away or pins was there before it. -/
theorem Scheduled.mem_before (h : Scheduled ctx nest) {done rest : List AxisRelation}
    (hsplit : nest.relations = done ++ r :: rest) {a : AxisId}
    (ha : a ∈ r.consumed ∨ r = .singleton a) :
    a ∈ nest.roots ∨ a ∈ done.flatMap AxisRelation.made :=
  List.mem_append.1 (h.shaped.before done rest r hsplit a ha)

/-- What a relation makes is a leaf or taken away after it. -/
theorem Scheduled.mem_after (h : Scheduled ctx nest) {done rest : List AxisRelation}
    (hsplit : nest.relations = done ++ r :: rest) {a : AxisId} (ha : a ∈ r.made) :
    a ∈ nest.leaves ∨ a ∈ rest.flatMap AxisRelation.consumed := by
  refine h.shaped_induction (P := fun _ nest => ∀ (done rest : List AxisRelation)
      (r : AxisRelation), nest.relations = done ++ r :: rest →
        ∀ a ∈ r.made, a ∈ nest.leaves ∨ a ∈ rest.flatMap AxisRelation.consumed)
    (fun ctx name as _ done rest r hsplit => ?_) (fun _ _ _ _ _ ih => ih)
    (fun ctx ctx' nest nest' r' hshaped hstep ih done rest r hsplit a ha => ?_)
    (fun _ _ _ ih => ih) done rest r hsplit a ha
  · simp [LoopNest.ofRoots] at hsplit
  · rw [hstep.relations] at hsplit
    rcases List.eq_nil_or_concat rest with rfl | ⟨rest, last, rfl⟩
    · obtain ⟨-, hr⟩ := List.append_inj' hsplit rfl
      cases hr
      exact .inl (hstep.mem_leaves_of_mem_made ha)
    · rw [List.concat_eq_append, ← List.cons_append, ← List.append_assoc] at hsplit
      obtain ⟨hbefore, hlast⟩ := List.append_inj' hsplit rfl
      cases hlast
      rw [List.concat_eq_append, List.flatMap_append, List.flatMap_singleton, List.mem_append]
      rcases ih done rest r hbefore a ha with hleaf | hconsumed
      · by_cases hc : a ∈ r'.consumed
        exacts [.inr (.inr hc), .inl (hstep.mem_leaves hleaf hc)]
      · exact .inr (.inl hconsumed)

/-- What a relation takes away is no leaf and is taken away once. -/
theorem Arranged.not_mem_after (h : Arranged ctx nest) {done rest : List AxisRelation}
    (hsplit : nest.relations = done ++ r :: rest) {a : AxisId} (ha : a ∈ r.consumed) :
    a ∉ nest.leaves ∧ a ∉ rest.flatMap AxisRelation.consumed := by
  have hnodup := h.perm.nodup_iff.2 h.nodup
  rw [hsplit, List.flatMap_append, List.flatMap_cons] at hnodup
  constructor
  · intro hleaf
    exact (List.nodup_append.1 hnodup).2.2 a hleaf a
      (List.mem_append_right _ (List.mem_append_left _ ha)) rfl
  · intro hrest
    exact (List.nodup_append.1 hnodup.of_append_right.of_append_right).2.2 a ha a hrest rfl

/-- What a relation makes was not there before it. -/
theorem Arranged.not_mem_before (h : Arranged ctx nest) {done rest : List AxisRelation}
    (hsplit : nest.relations = done ++ r :: rest) {a : AxisId} (ha : a ∈ r.made) :
    a ∉ nest.roots ∧ a ∉ done.flatMap AxisRelation.made := by
  have hnodup := h.nodup
  rw [h.axes_eq, hsplit, List.flatMap_append, List.flatMap_cons] at hnodup
  constructor
  · intro hroot
    exact (List.nodup_append.1 hnodup).2.2 a hroot a
      (List.mem_append_right _ (List.mem_append_left _ ha)) rfl
  · intro hdone
    exact (List.nodup_append.1 hnodup.of_append_right).2.2 a hdone a (List.mem_append_left _ ha) rfl

theorem Scheduled.nodup_of_mem (h : Scheduled ctx nest) (hr : r ∈ nest.relations) :
    (r.consumed ++ r.made).Nodup := by
  refine h.shaped_induction
    (P := fun _ nest => ∀ r ∈ nest.relations, (r.consumed ++ r.made).Nodup)
    (fun _ _ _ _ => nofun) (fun _ _ _ _ _ ih => ih)
    (fun ctx ctx' nest nest' r' hshaped hstep ih r hr => ?_) (fun _ _ _ ih => ih) r hr
  rw [hstep.relations, List.mem_append, List.mem_singleton] at hr
  rcases hr with hr | rfl
  exacts [ih r hr, hshaped.nodup_consumed_made hstep]

end LoopNest

end LoopBounds
