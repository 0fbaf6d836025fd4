import LoopBounds.Proofs.Nest

/-!
# Histories of nests

A nest is worked on by calls, some of which fail.  A call that fails leaves the nest and the
context as they were and any other call is a scheduling step, so that the order of the axes and
relations survives every history.
-/

namespace LoopBounds

/-- The axes that a relation reads. -/
def AxisRelation.inputs : AxisRelation → List AxisId
  | .reshape (.split parent _ _ _) => [parent]
  | .reshape (.fuse outer inner _) => [outer, inner]
  | .rebase parent _ => [parent]
  | .singleton a => [a]

theorem AxisRelation.mem_inputs {r : AxisRelation} {a : AxisId} :
    a ∈ r.inputs ↔ a ∈ r.consumed ∨ r = .singleton a := by
  cases r with
  | reshape r => cases r <;> simp [inputs, consumed]
  | rebase parent rebased => simp [inputs, consumed]
  | singleton b => simp [inputs, consumed, eq_comm]

namespace Schedule

variable {α β : Type} {m : Schedule α} {f : α → Schedule β} {ctx : Context}

/-- If the step fails then it leaves the context as it was. -/
def Recovers (m : Schedule α) (ctx : Context) : Prop :=
  ∀ e ctx', m.run.run ctx = (.error e, ctx') → ctx' = ctx

theorem Recovers.throw {e : InferError} : Recovers (throw e : Schedule α) ctx := by
  rintro _ _ ⟨⟩
  rfl

theorem Recovers.get {f : Context → Schedule β} (h : Recovers (f ctx) ctx) :
    Recovers ((liftM (get : Build Context) : Schedule Context) >>= f) ctx := h

/-- What comes first only looks at the context. -/
theorem Recovers.bind (hm : Recovers m ctx) (hkeep : Ensures m ctx fun _ ctx' => ctx' = ctx)
    (hf : ∀ x, Recovers (f x) ctx) : Recovers (m >>= f) ctx := by
  intro e ctx₂ hrun
  rcases hfirst : m.run.run ctx with ⟨r, ctx₁⟩
  simp only [ExceptT.run_bind, StateT.run_bind, hfirst] at hrun
  cases r with
  | error e' =>
      obtain ⟨-, rfl⟩ := Prod.mk.inj hrun
      exact hm e' _ hfirst
  | ok x =>
      obtain rfl := hkeep x ctx₁ hfirst
      exact hf x e ctx₂ hrun

theorem succeeds_pure {x : α} : (pure x : Schedule α).succeeds ctx = true := rfl

theorem succeeds_build_bind {b : Build α} (hf : ∀ x ctx', (f x).succeeds ctx' = true) :
    ((liftM b : Schedule α) >>= f).succeeds ctx = true :=
  hf (b.run ctx).1 (b.run ctx).2

/-- What cannot fail recovers. -/
theorem Recovers.of_succeeds (h : m.succeeds ctx = true) : Recovers m ctx := by
  intro e ctx' hrun
  rw [succeeds, hrun] at h
  cases h

theorem Recovers.pure {x : α} : Recovers (pure x : Schedule α) ctx := .of_succeeds succeeds_pure

end Schedule

namespace LoopNest

open Schedule

variable {ctx ctx' : Context} {nest nest' : LoopNest}

theorem leafIndex_recovers (nest : LoopNest) (a : AxisId) : Recovers (nest.leafIndex a) ctx := by
  unfold leafIndex
  split
  · exact .pure
  · exact .get .throw

/-- Looking up a leaf may come before anything that recovers. -/
theorem recovers_leafIndex_bind {α : Type} {a : AxisId} {f : Nat → Schedule α}
    (hf : ∀ i, Recovers (f i) ctx) : Recovers (nest.leafIndex a >>= f) ctx :=
  (leafIndex_recovers nest a).bind ((leafIndex_ensures a).mono fun _ _ h => h.1) hf

theorem split_recovers (nest : LoopNest) (parent : AxisId) (size : SplitBy) (ctx : Context) :
    Recovers (nest.split parent size) ctx := by
  refine recovers_leafIndex_bind fun i => .get ?_
  have hderive : ∀ name₁ name₂, Recovers (do
      let outer ← deriveAxis parent name₁ (ctx.axis parent).kind
      let inner ← deriveAxis parent name₂ (ctx.axis parent).kind
      let r := AxisRelation.reshape (.split parent outer inner size)
      return (nest.replace i 1 [outer, inner] r, outer, inner)) ctx := fun _ _ =>
    .of_succeeds (succeeds_build_bind fun _ _ => succeeds_build_bind fun _ _ => succeeds_pure)
  dsimp only
  split
  · split
    · exact .throw
    · exact hderive _ _
  · exact hderive _ _

theorem fuse_recovers (nest : LoopNest) (outer inner : AxisId) (ctx : Context) :
    Recovers (nest.fuse outer inner) ctx := by
  refine recovers_leafIndex_bind fun i => recovers_leafIndex_bind fun j => .get ?_
  dsimp only
  split
  · exact .throw
  · exact .of_succeeds (succeeds_build_bind fun _ _ => succeeds_pure)

theorem rebase_recovers (nest : LoopNest) (parent : AxisId) (ctx : Context) :
    Recovers (nest.rebase parent) ctx := by
  refine recovers_leafIndex_bind fun i => .get ?_
  exact .of_succeeds (succeeds_build_bind fun _ _ => succeeds_pure)

theorem singleton_recovers (nest : LoopNest) (a : AxisId) (ctx : Context) :
    Recovers (nest.singleton a) ctx :=
  recovers_leafIndex_bind fun _ => .pure

theorem bind_recovers (nest : LoopNest) (a thread : AxisId) (ctx : Context) :
    Recovers (nest.bind a thread) ctx :=
  recovers_leafIndex_bind fun _ => .pure

/-! ## Calls -/

/-- A call on a nest. -/
inductive Call where
  | split (parent : AxisId) (size : SplitBy)
  | fuse (outer inner : AxisId)
  | rebase (parent : AxisId)
  | singleton (a : AxisId)
  | bind (a thread : AxisId)
  deriving DecidableEq, Repr

/-- The expressions that a call mentions. -/
def Call.exprs : Call → List ExprId
  | .split _ size => [size.extent]
  | .fuse .. | .rebase _ | .singleton _ | .bind .. => []

/-- The nest after a call. -/
def Call.run (nest : LoopNest) : Call → Schedule LoopNest
  | .split parent size => return (← nest.split parent size).1
  | .fuse outer inner => return (← nest.fuse outer inner).1
  | .rebase parent => return (← nest.rebase parent).1
  | .singleton a => nest.singleton a
  | .bind a thread => nest.bind a thread

/-- What a call reports, and the context and the nest that it leaves. -/
def perform (ctx : Context) (nest : LoopNest) (call : Call) :
    Option InferError × Context × LoopNest :=
  match (call.run nest).run.run ctx with
  | (.ok nest', ctx') => (none, ctx', nest')
  | (.error e, ctx') => (some e, ctx', nest)

theorem Call.run_recovers (nest : LoopNest) (call : Call) (ctx : Context) :
    Recovers (call.run nest) ctx := by
  have hreturn {α : Type} {m : Schedule (LoopNest × α)} (hm : Recovers m ctx) :
      Recovers (return (← m).1) ctx := by
    intro e ctx' hrun
    rcases hfirst : m.run.run ctx with ⟨r, ctx₁⟩
    simp only [ExceptT.run_bind, StateT.run_bind, hfirst] at hrun
    cases r with
    | error e' =>
        obtain ⟨-, rfl⟩ := Prod.mk.inj hrun
        exact hm e' _ hfirst
    | ok x => cases hrun
  cases call with
  | split parent size => exact hreturn (split_recovers nest parent size ctx)
  | fuse outer inner => exact hreturn (fuse_recovers nest outer inner ctx)
  | rebase parent => exact hreturn (rebase_recovers nest parent ctx)
  | singleton a => exact singleton_recovers nest a ctx
  | bind a thread => exact bind_recovers nest a thread ctx

/-- A call that does not fail is a step, or binds a leaf to a thread. -/
theorem Call.run_ensures (call : Call) (hstored : ∀ e ∈ call.exprs, ctx.Stored e) :
    Ensures (call.run nest) ctx fun nest' ctx' => (∃ r, Step ctx nest r ctx' nest') ∨
      ctx' = ctx ∧ ∃ threads, nest' = { nest with threads } := by
  cases call with
  | split parent size =>
      exact (split_step (hstored _ List.mem_cons_self)).bind fun p ctx' h => .pure (.inl h)
  | fuse outer inner => exact fuse_step.bind fun p ctx' h => .pure (.inl h)
  | rebase parent => exact rebase_step.bind fun p ctx' h => .pure (.inl h)
  | singleton a => exact singleton_step.mono fun _ _ => .inl
  | bind a thread => exact bind_ensures.mono fun _ _ => .inr

/-- A call that reports an error changes nothing. -/
theorem perform_error {call : Call} {e : InferError}
    (herror : (perform ctx nest call).1 = some e) :
    (perform ctx nest call).2 = (ctx, nest) := by
  rw [perform] at herror ⊢
  rcases hrun : (call.run nest).run.run ctx with ⟨nest' | e', ctx'⟩
  · rw [call.run_recovers nest ctx _ _ hrun]
  · rw [hrun] at herror
    cases herror

/-- The nests that calls make from distinct roots, whether they fail or not.  Between the calls
the context may change in any way that keeps its axes. -/
inductive History (roots : List AxisId) : Context → LoopNest → Prop
  | ofRoots {ctx : Context} (name : String) (hdistinct : roots.Nodup)
    (hroots : ∀ a ∈ roots, a.index < ctx.axes.size) : History roots ctx (ofRoots name roots)
  | change {ctx ctx' : Context} {nest : LoopNest} (h : History roots ctx nest)
    (hsize : ctx.axes.size ≤ ctx'.axes.size) : History roots ctx' nest
  | call {ctx : Context} {nest : LoopNest} (h : History roots ctx nest) (call : Call)
    (hstored : ∀ e ∈ call.exprs, ctx.Stored e) :
    History roots (perform ctx nest call).2.1 (perform ctx nest call).2.2

variable {roots : List AxisId}

/-- A call leaves things as they are, is a step, or binds a leaf to a thread. -/
theorem perform_cases (nest : LoopNest) (call : Call) (hstored : ∀ e ∈ call.exprs, ctx.Stored e) :
    (perform ctx nest call).2 = (ctx, nest) ∨
      (∃ r, Step ctx nest r (perform ctx nest call).2.1 (perform ctx nest call).2.2) ∨
      ∃ threads, (perform ctx nest call).2 = (ctx, { nest with threads }) := by
  cases hreport : (perform ctx nest call).1 with
  | some e => exact .inl (perform_error hreport)
  | none =>
      rw [perform] at hreport ⊢
      rcases hrun : (call.run nest).run.run ctx with ⟨e | nest', ctx'⟩
      · rw [hrun] at hreport
        cases hreport
      · obtain hstep | ⟨rfl, threads, rfl⟩ := call.run_ensures hstored _ _ hrun
        · exact .inr (.inl hstep)
        · exact .inr (.inr ⟨threads, rfl⟩)

theorem perform_le (call : Call) (hstored : ∀ e ∈ call.exprs, ctx.Stored e) :
    ctx ≤ (perform ctx nest call).2.1 := by
  obtain h | ⟨r, hstep⟩ | ⟨threads, h⟩ := perform_cases nest call hstored
  · rw [h]
  · exact hstep.le
  · rw [h]

theorem Arranged.perform (h : Arranged ctx nest) (call : Call)
    (hstored : ∀ e ∈ call.exprs, ctx.Stored e) :
    Arranged (perform ctx nest call).2.1 (perform ctx nest call).2.2 ∧
      (perform ctx nest call).2.2.roots = nest.roots := by
  obtain hsame | ⟨r, hstep⟩ | ⟨threads, hbound⟩ := perform_cases nest call hstored
  · rw [hsame]
    exact ⟨h, rfl⟩
  · exact ⟨h.step hstep, hstep.roots⟩
  · rw [hbound]
    exact ⟨⟨h.registered, h.nodup, h.axes_eq, h.perm, h.before⟩, rfl⟩

theorem History.arranged (h : History roots ctx nest) :
    Arranged ctx nest ∧ nest.roots = roots := by
  induction h with
  | ofRoots name hdistinct hroots => exact ⟨arranged_ofRoots name hdistinct hroots, rfl⟩
  | change _ hsize ih => exact ⟨ih.1.mono hsize, ih.2⟩
  | call _ call hstored ih =>
      obtain ⟨harranged, hroots⟩ := ih.1.perform call hstored
      exact ⟨harranged, hroots.trans ih.2⟩

/-- The context and the nest after one call after the other. -/
def performAll (ctx : Context) (nest : LoopNest) (calls : List Call) : Context × LoopNest :=
  calls.foldl (fun s call => (perform s.1 s.2 call).2) (ctx, nest)

theorem History.performAll (calls : List Call) (h : History roots ctx nest)
    (hstored : ∀ call ∈ calls, ∀ e ∈ call.exprs, ctx.Stored e) :
    History roots (performAll ctx nest calls).1 (performAll ctx nest calls).2 := by
  induction calls generalizing ctx nest with
  | nil => exact h
  | cons call calls ih =>
      have hcall := hstored call List.mem_cons_self
      refine ih (h.call call hcall) fun later hlater e he => ?_
      exact (hstored later (List.mem_cons_of_mem _ hlater) e he).mono (perform_le call hcall)

/-! ## What every history keeps -/

/-- The order of a nest with the given roots. -/
structure Orderly (roots : List AxisId) (ctx : Context) (nest : LoopNest) : Prop where
  axes_nodup : nest.axes.Nodup
  startsWithRoots : roots <+: nest.axes
  madeOnce : ∀ a ∈ nest.axes, a ∉ roots → nest.relations.countP (fun r => a ∈ r.made) = 1
  consumedOnce : ∀ a, nest.relations.countP (fun r => a ∈ r.consumed) ≤ 1
  leaves_nodup : nest.leaves.Nodup
  mem_leaves : ∀ a, a ∈ nest.leaves ↔ a ∈ nest.axes ∧ ∀ r ∈ nest.relations, a ∉ r.consumed
  inputsBefore : ∀ done rest r, nest.relations = done ++ r :: rest →
    ∀ a ∈ r.inputs, a ∈ roots ∨ ∃ q ∈ done, a ∈ q.made
  unchanged : ∀ call e, (perform ctx nest call).1 = some e →
    (perform ctx nest call).2 = (ctx, nest)

/-- The relations over which `a` is counted are no more than the places at which it stands. -/
theorem countP_mem_le_count (f : AxisRelation → List AxisId) (a : AxisId)
    (rs : List AxisRelation) : rs.countP (fun r => a ∈ f r) ≤ (rs.flatMap f).count a := by
  induction rs with
  | nil => rfl
  | cons r rs ih =>
      rw [List.countP_cons, List.flatMap_cons, List.count_append, Nat.add_comm]
      apply Nat.add_le_add _ ih
      split
      · next ha => exact List.count_pos_iff.2 (by simpa using ha)
      · exact Nat.zero_le _

theorem Arranged.countP_made (h : Arranged ctx nest) {a : AxisId} (ha : a ∈ nest.axes)
    (hroot : a ∉ nest.roots) : nest.relations.countP (fun r => a ∈ r.made) = 1 := by
  have hnodup := h.nodup
  rw [h.axes_eq] at hnodup ha
  have hmade := (List.mem_append.1 ha).resolve_left hroot
  have hle := countP_mem_le_count AxisRelation.made a nest.relations
  rw [List.count_eq_one_of_mem hnodup.of_append_right hmade] at hle
  obtain ⟨r, hr, har⟩ := List.mem_flatMap.1 hmade
  have hpos : 0 < nest.relations.countP (fun r => a ∈ r.made) :=
    List.countP_pos_iff.2 ⟨r, hr, by simpa using har⟩
  omega

theorem Arranged.countP_consumed (h : Arranged ctx nest) (a : AxisId) :
    nest.relations.countP (fun r => a ∈ r.consumed) ≤ 1 := by
  have hnodup := (h.perm.nodup_iff.2 h.nodup).of_append_right
  calc nest.relations.countP (fun r => a ∈ r.consumed)
      ≤ (nest.relations.flatMap AxisRelation.consumed).count a := countP_mem_le_count _ a _
    _ ≤ 1 := List.nodup_iff_count_le_one.1 hnodup a

theorem Arranged.mem_leaves_iff (h : Arranged ctx nest) (a : AxisId) :
    a ∈ nest.leaves ↔ a ∈ nest.axes ∧ ∀ r ∈ nest.relations, a ∉ r.consumed := by
  have hnodup := h.perm.nodup_iff.2 h.nodup
  constructor
  · intro ha
    refine ⟨h.mem_axes_of_mem_leaves ha, fun r hr hc => ?_⟩
    exact (List.nodup_append.1 hnodup).2.2 a ha a (List.mem_flatMap.2 ⟨r, hr, hc⟩) rfl
  · rintro ⟨ha, hfree⟩
    refine (List.mem_append.1 (h.perm.mem_iff.2 ha)).resolve_right fun hc => ?_
    obtain ⟨r, hr, hc⟩ := List.mem_flatMap.1 hc
    exact hfree r hr hc

/-- Whatever is called, the nest stays in order, and a call that fails changes nothing. -/
theorem History.orderly (h : History roots ctx nest) : Orderly roots ctx nest := by
  obtain ⟨harranged, rfl⟩ := h.arranged
  constructor
  case axes_nodup => exact harranged.nodup
  case startsWithRoots => exact harranged.axes_eq ▸ List.prefix_append _ _
  case madeOnce => exact fun a ha hroot => harranged.countP_made ha hroot
  case consumedOnce => exact harranged.countP_consumed
  case leaves_nodup => exact (harranged.perm.nodup_iff.2 harranged.nodup).of_append_left
  case mem_leaves => exact harranged.mem_leaves_iff
  case inputsBefore =>
      intro done rest r hsplit a ha
      have hbefore := harranged.before done rest r hsplit a (AxisRelation.mem_inputs.1 ha)
      rw [List.mem_append, List.mem_flatMap] at hbefore
      exact hbefore
  case unchanged => exact fun call e => perform_error

/-- Two loops, the expressions four and zero, and no domains. -/
def twoLoops : (AxisId × AxisId × ExprId × ExprId) × Context := (do
  let i ← declareAxis "i" none .dataParallel
  let j ← declareAxis "j" none .dataParallel
  return (i, j, ← Build.int 4, ← Build.int 0) : Build _).run default

/-- Calls on two loops: a split, two that fail, a fusion of what was split with the other loop,
and then one of each other kind on the same leaf. -/
def mixedCalls : List Call :=
  let (i, j, four, zero) := twoLoops.1
  [.split i (.factor four), .fuse j i, .split j (.parts zero), .fuse ⟨3⟩ j, .rebase ⟨4⟩,
    .singleton ⟨5⟩, .bind ⟨5⟩ i, .split ⟨5⟩ (.parts four)]

/-- The context and the nest that the calls on two loops leave. -/
def mixed : Context × LoopNest :=
  performAll twoLoops.2 (ofRoots "mixed" [twoLoops.1.1, twoLoops.1.2.1]) mixedCalls

theorem orderly_mixed : Orderly [twoLoops.1.1, twoLoops.1.2.1] mixed.1 mixed.2 :=
  History.orderly (.performAll mixedCalls (.ofRoots "mixed" (by decide +kernel) (by decide +kernel))
    (by decide +kernel))

example : mixed.2.leaves = [⟨2⟩, ⟨6⟩, ⟨7⟩] ∧ mixed.2.relations.length = 5 := by decide +kernel

end LoopNest

end LoopBounds
