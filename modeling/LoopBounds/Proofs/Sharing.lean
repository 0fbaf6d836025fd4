import LoopBounds.Proofs.BoundsSafety

/-!
# Equal trees have equal handles

Whatever is called, expressions enter a context through one function, over operands that are
stored.  So in every context that calls lead to from the empty one, handles stand for trees one to
one, and no call changes what an earlier one stored.
-/

namespace LoopBounds

open Tracks

/-! ## Calls -/

section Calls

variable (E : Set ExprId)

/-- Constructors, declarations, substitution and inspection. -/
inductive BuildCall : {α : Type} → [Mentions α] → Build α → Prop
  | inspect : BuildCall (get : Build Context)
  | constant (w : Int64) (t : Scalar) : BuildCall (Build.constant w t)
  | var (v : VarId) : BuildCall (Build.var v)
  | axis (i : AxisId) : BuildCall (Build.axis i)
  | arith (op : Arith) {a b : ExprId} (ha : a ∈ E) (hb : b ∈ E) : BuildCall (Build.arith op a b)
  | addConst (w : Int64) {a : ExprId} (ha : a ∈ E) : BuildCall (Build.addConst a w)
  | mulConst (w : Int64) {a : ExprId} (ha : a ∈ E) : BuildCall (Build.mulConst a w)
  | compare (op : Comparison) {a b : ExprId} (ha : a ∈ E) (hb : b ∈ E) :
      BuildCall (Build.compare op a b)
  | conj {a b : ExprId} (ha : a ∈ E) (hb : b ∈ E) : BuildCall (Build.conj a b)
  | disj {a b : ExprId} (ha : a ∈ E) (hb : b ∈ E) : BuildCall (Build.disj a b)
  | negation {a : ExprId} (ha : a ∈ E) : BuildCall (Build.negation a)
  | all {es : List ExprId} (hes : ∀ e ∈ es, e ∈ E) : BuildCall (Build.all es)
  | substitute {images : Env ExprId} {e : ExprId} (himages : mentioned images ⊆ E) (he : e ∈ E) :
      BuildCall (substitute images e)
  | declareVar (name : String) (type : Scalar) : BuildCall (declareVar name type)
  | declareDim (name : String) (kind : DimKind) : BuildCall (declareDim name kind)
  | declareAxis (name : String) {domain? : Option Domain} (kind : AxisKind)
      (hdomain : mentioned domain? ⊆ E) : BuildCall (declareAxis name domain? kind)
  | declareThread (tag : String) : BuildCall (declareThread tag)
  | addAxis {axis : Axis} (haxis : mentioned axis ⊆ E) : BuildCall (addAxis axis)
  | addFun {f : IndexFun} (hf : mentioned f ⊆ E) : BuildCall (addFun f)
  | constantFun (name : String) {e : ExprId} (he : e ∈ E) : BuildCall (Build.constantFun name e)
  | setCodomain (f : FunId) {d : Domain} (hd : mentioned d ⊆ E) : BuildCall (Build.setCodomain f d)
  | domainOfExtent {e : ExprId} (he : e ∈ E) : BuildCall (Domain.ofExtent e)
  | domainLiteral (first extent : Int64) : BuildCall (Domain.literal first extent)
  | domainBetween {a b : ExprId} (ha : a ∈ E) (hb : b ∈ E) : BuildCall (Domain.between a b)
  | domainLast {d : Domain} (hd : mentioned d ⊆ E) : BuildCall d.last
  | setOfDomain {d : Domain} (hd : mentioned d ⊆ E) : BuildCall (ValueSet.ofDomain d)

/-- Division and calls of functions. -/
inductive AttemptCall : {α : Type} → [Mentions α] → Attempt α → Prop
  | divide (op : Arith) {a b : ExprId} (ha : a ∈ E) (hb : b ∈ E) :
      AttemptCall (Attempt.divide op a b)
  | declareFun (name : String) {codomain? : Option Domain} (dims : List DimId)
      (params : List VarId) {body? : Option ExprId} (hcodomain : mentioned codomain? ⊆ E)
      (hbody : mentioned body? ⊆ E) :
      AttemptCall (Attempt.declareFun name codomain? dims params body?)
  | setBody (f : FunId) {e : ExprId} (he : e ∈ E) : AttemptCall (Attempt.setBody f e)
  | instantiate (f : FunId) {args : List ExprId} (dims : List DimId) (hargs : ∀ a ∈ args, a ∈ E) :
      AttemptCall (Attempt.instantiate f args dims)
  | call (f : FunId) {args : List ExprId} (dims : List DimId) (hargs : ∀ a ∈ args, a ∈ E) :
      AttemptCall (Attempt.call f args dims)
  | inline (onlySimple : Bool) {e : ExprId} (he : e ∈ E) :
      AttemptCall (Attempt.inline onlySimple e)
  | inlineDomain (onlySimple : Bool) {d : Domain} (hd : mentioned d ⊆ E) :
      AttemptCall (Attempt.inlineDomain onlySimple d)
  | relax {e : ExprId} (he : e ∈ E) : AttemptCall (Attempt.relax e)
  | invert (f : FunId) {e : ExprId} (he : e ∈ E) : AttemptCall (Attempt.invert e f)

/-- Questions to an analyzer, and the sets that are worked out with one. -/
inductive QueryCall : {α : Type} → [Mentions α] → Query α → Prop
  | learn (v : VarId) {d : Domain} (hd : mentioned d ⊆ E) : QueryCall (Query.learn v d)
  | bound (e : ExprId) : QueryCall (Query.bound e)
  | simplify {e : ExprId} (he : e ∈ E) : QueryCall (Query.simplify e)
  | proves {e : ExprId} (he : e ∈ E) : QueryCall (Query.proves e)
  | provesEqual {a b : ExprId} (ha : a ∈ E) (hb : b ∈ E) : QueryCall (Query.provesEqual a b)
  | coversExactly {s : ValueSet} {d : Domain} (hs : mentioned s ⊆ E) (hd : mentioned d ⊆ E) :
      QueryCall (s.coversExactly d)
  | toDomain? {s : ValueSet} (hs : mentioned s ⊆ E) : QueryCall s.toDomain?
  | union {s t : ValueSet} (hs : mentioned s ⊆ E) (ht : mentioned t ⊆ E) : QueryCall (s.union t)
  | valuesOf {sets : Env ValueSet} {e : ExprId} (hsets : mentioned sets ⊆ E) (he : e ∈ E) :
      QueryCall (Query.valuesOf sets e)

/-- Passes over a nest or an operation. -/
inductive SweepCall : {σ α : Type} → [Mentions σ] → [Mentions α] → Sweep σ α → Prop
  | setDomain {t : Table} [Keyed t] (key : Handle t) {d : Domain} (hd : mentioned d ⊆ E) :
      SweepCall (Sweep.setDomain key d)
  | setValue {t : Table} [Keyed t] (key : Handle t) {e : ExprId} (he : e ∈ E) :
      SweepCall (Sweep.setValue key e)
  | domains {nest : LoopNest} (allowMissing : Bool) (hnest : mentioned nest ⊆ E) :
      SweepCall (Sweep.domains nest allowMissing)
  | dimDomains {op : Operation} (allowMissing : Bool) (hop : mentioned op ⊆ E) :
      SweepCall (Sweep.dimDomains op allowMissing)
  | indicesUp (nest : LoopNest) {known : Facts .axis Domain} (allowMissing : Bool)
      (hknown : mentioned known ⊆ E) : SweepCall (Sweep.indicesUp nest known allowMissing)
  | indicesDown (nest : LoopNest) {known : Facts .axis Domain} (allowMissing : Bool)
      (hknown : mentioned known ⊆ E) : SweepCall (Sweep.indicesDown nest known allowMissing)
  | dimValues (op : Operation) {known : Facts .dim Domain} (allowMissing : Bool)
      (hknown : mentioned known ⊆ E) : SweepCall (Sweep.dimValues op known allowMissing)
  | setsUp (nest : LoopNest) {known : Facts .axis Domain} (hknown : mentioned known ⊆ E) :
      SweepCall (Sweep.setsUp nest known)
  | masksUp (nest : LoopNest) (allowMissing : Bool) : SweepCall (Sweep.masksUp nest allowMissing)
  | masksDown (nest : LoopNest) (allowMissing : Bool) :
      SweepCall (Sweep.masksDown nest allowMissing)
  | checksUp (nest : LoopNest) {known : Facts .axis Domain} (hknown : mentioned known ⊆ E) :
      SweepCall (Sweep.checksUp nest known)

/-- Scheduling steps and the bounds of a scheduled nest. -/
inductive ScheduleCall : {α : Type} → [Mentions α] → Schedule α → Prop
  | split {nest : LoopNest} (parent : AxisId) {size : SplitBy} (hnest : mentioned nest ⊆ E)
      (hsize : mentioned size ⊆ E) : ScheduleCall (nest.split parent size)
  | fuse {nest : LoopNest} (outer inner : AxisId) (hnest : mentioned nest ⊆ E) :
      ScheduleCall (nest.fuse outer inner)
  | rebase {nest : LoopNest} (parent : AxisId) (hnest : mentioned nest ⊆ E) :
      ScheduleCall (nest.rebase parent)
  | singleton {nest : LoopNest} (a : AxisId) (hnest : mentioned nest ⊆ E) :
      ScheduleCall (nest.singleton a)
  | bind {nest : LoopNest} (a thread : AxisId) (hnest : mentioned nest ⊆ E) :
      ScheduleCall (nest.bind a thread)
  | guards (config : Config) (nest : LoopNest) {known : Facts .axis Domain}
      {values : Facts .axis ExprId} (hknown : mentioned known ⊆ E)
      (hvalues : mentioned values ⊆ E) : ScheduleCall (guards config nest known values)
  | inferBoundsFrom (config : Config) {nest : LoopNest} {roots : Facts .axis Domain}
      (hnest : mentioned nest ⊆ E) (hroots : mentioned roots ⊆ E) :
      ScheduleCall (inferBoundsFrom config nest roots)
  | inferBounds (config : Config) {nest : LoopNest} (hnest : mentioned nest ⊆ E) :
      ScheduleCall (inferBounds config nest)

end Calls

/-- The programs that call the operations on a context, on handles of a given set and on what
earlier calls return.  Analyzers and tables are data of the program. -/
inductive Program : Set ExprId → {α : Type} → [Mentions α] → Build α → Prop
  | pure {E : Set ExprId} {α : Type} [Mentions α] {x : α} (hx : mentioned x ⊆ E) :
      Program E (Pure.pure x)
  | bind {E : Set ExprId} {α β : Type} [Mentions α] [Mentions β] {p : Build α} {f : α → Build β}
      (hp : Program E p) (hf : ∀ x, Program (E ∪ mentioned x) (f x)) : Program E (p >>= f)
  | build {E : Set ExprId} {α : Type} [Mentions α] {b : Build α} (h : BuildCall E b) : Program E b
  | attempt {E : Set ExprId} {α : Type} [Mentions α] {q : Attempt α} (h : AttemptCall E q) :
      Program E q.run
  | query {E : Set ExprId} {α : Type} [Mentions α] {q : Query α} {an : Analyzer}
      (han : mentioned an ⊆ E) (h : QueryCall E q) : Program E (q.runOn an)
  | sweep {E : Set ExprId} {σ α : Type} [Mentions σ] [Mentions α] {q : Sweep σ α} {an : Analyzer}
      {table : σ} (han : mentioned an ⊆ E) (htable : mentioned table ⊆ E) (h : SweepCall E q) :
      Program E (Query.runOn an (q.run.run table))
  | schedule {E : Set ExprId} {α : Type} [Mentions α] {q : Schedule α} (h : ScheduleCall E q) :
      Program E q.run
  /-- The function that a rewrite calls is a program that keeps a state and may fail. -/
  | rewrite {E : Set ExprId} {ε σ : Type} [Mentions σ]
      {visit : ExprId → ExceptT ε (StateT σ Build) (Option ExprId)} {e : ExprId} {state : σ}
      (hvisit : ∀ e t, Program (insert e E ∪ mentioned t) ((visit e).run.run t)) (he : e ∈ E)
      (hstate : mentioned state ⊆ E) : Program E ((rewrite visit e).run.run state)

/-- The contexts that programs lead to from the empty one. -/
inductive Reached : Context → Prop
  | empty : Reached {}
  | step {ctx : Context} {E : Set ExprId} {α : Type} [Mentions α] {p : Build α}
      (hctx : Reached ctx) (hE : ∀ e ∈ E, ctx.Stored e) (hp : Program E p) :
      Reached (p.run ctx).2

/-! ## Calls are safe -/

section Calls

variable {E : Set ExprId} {α σ : Type} [Mentions α] [Mentions σ]

theorem BuildCall.safe {b : Build α} (h : BuildCall E b) : Safe E b := by
  cases h with
  | inspect => exact Build.get_safe
  | constant w t => exact Build.constant_safe w t
  | var v => exact Build.var_safe v
  | axis i => exact Build.axis_safe i
  | arith op ha hb => exact Build.arith_safe op ha hb
  | addConst w ha => exact Build.addConst_safe w ha
  | mulConst w ha => exact Build.mulConst_safe w ha
  | compare op ha hb => exact Build.compare_safe op ha hb
  | conj ha hb => exact Build.conj_safe ha hb
  | disj ha hb => exact Build.disj_safe ha hb
  | negation ha => exact Build.negation_safe ha
  | all hes => exact Build.all_safe hes
  | substitute himages he => exact substitute_safe himages he
  | declareVar name type => exact Build.declareVar_safe name type
  | declareDim name kind => exact Build.declareDim_safe name kind
  | declareAxis name kind hdomain => exact Build.declareAxis_safe name kind hdomain
  | declareThread tag => exact Build.declareThread_safe tag
  | addAxis haxis => exact Build.addAxis_safe haxis
  | addFun hf => exact Build.addFun_safe hf
  | constantFun name he => exact Build.constantFun_safe name he
  | setCodomain f hd => exact Build.setCodomain_safe f hd
  | domainOfExtent he => exact Domain.ofExtent_safe he
  | domainLiteral first extent => exact Domain.literal_safe first extent
  | domainBetween ha hb => exact Domain.between_safe ha hb
  | domainLast hd => exact Domain.last_safe hd
  | setOfDomain hd => exact ValueSet.ofDomain_safe hd

theorem AttemptCall.safe {q : Attempt α} (h : AttemptCall E q) : Safe E q := by
  cases h with
  | divide op ha hb => exact Attempt.divide_safe op ha hb
  | declareFun name dims params hcodomain hbody =>
      exact Attempt.declareFun_safe name dims params hcodomain hbody
  | setBody f he => exact Attempt.setBody_safe f he
  | instantiate f dims hargs => exact Attempt.instantiate_safe f dims hargs
  | call f dims hargs => exact Attempt.call_safe f dims hargs
  | inline onlySimple he => exact Attempt.inline_safe onlySimple he
  | inlineDomain onlySimple hd => exact Attempt.inlineDomain_safe onlySimple hd
  | relax he => exact Attempt.relax_safe he
  | invert f he => exact Attempt.invert_safe f he

theorem QueryCall.safe {q : Query α} (h : QueryCall E q) : Safe E q := by
  cases h with
  | learn v hd => exact Query.learn_safe v hd
  | bound e => exact Query.bound_safe e
  | simplify he => exact Query.simplify_safe he
  | proves he => exact Query.proves_safe he
  | provesEqual ha hb => exact Query.provesEqual_safe ha hb
  | coversExactly hs hd => exact ValueSet.coversExactly_safe hs hd
  | toDomain? hs => exact ValueSet.toDomain?_safe hs
  | union hs ht => exact ValueSet.union_safe hs ht
  | valuesOf hsets he => exact Query.valuesOf_safe hsets he

theorem SweepCall.safe {q : Sweep σ α} (h : SweepCall E q) : Safe E q := by
  cases h with
  | setDomain key hd => exact Sweep.setDomain_safe key hd
  | setValue key he => exact Sweep.setValue_safe key he
  | domains allowMissing hnest => exact Sweep.domains_safe allowMissing hnest
  | dimDomains allowMissing hop => exact Sweep.dimDomains_safe allowMissing hop
  | indicesUp nest allowMissing hknown => exact Sweep.indicesUp_safe nest allowMissing hknown
  | indicesDown nest allowMissing hknown => exact Sweep.indicesDown_safe nest allowMissing hknown
  | dimValues op allowMissing hknown => exact Sweep.dimValues_safe op allowMissing hknown
  | setsUp nest hknown => exact Sweep.setsUp_safe nest hknown
  | masksUp nest allowMissing => exact Sweep.masksUp_safe nest allowMissing
  | masksDown nest allowMissing => exact Sweep.masksDown_safe nest allowMissing
  | checksUp nest hknown => exact Sweep.checksUp_safe nest hknown

theorem ScheduleCall.safe {q : Schedule α} (h : ScheduleCall E q) : Safe E q := by
  cases h with
  | split parent hnest hsize => exact LoopNest.split_safe parent hnest hsize
  | fuse outer inner hnest => exact LoopNest.fuse_safe outer inner hnest
  | rebase parent hnest => exact LoopNest.rebase_safe parent hnest
  | singleton a hnest => exact LoopNest.singleton_safe a hnest
  | bind a thread hnest => exact LoopNest.bind_safe a thread hnest
  | guards config nest hknown hvalues => exact guards_safe nest hknown hvalues
  | inferBoundsFrom config hnest hroots => exact inferBoundsFrom_safe hnest hroots
  | inferBounds config hnest => exact inferBounds_safe hnest

end Calls

theorem Program.safe {E : Set ExprId} {α : Type} [Mentions α] {p : Build α} (h : Program E p) :
    Safe E p := by
  induction h with
  | pure hx => exact safe_pure hx
  | bind hp hf ihp ihf => exact ihp.bind ihf
  | build h => exact h.safe
  | attempt h => exact h.safe
  | query han h => exact Query.runOn_safe han h.safe
  | sweep han htable h =>
      exact Query.runOn_safe han ((h.safe _).weaken (Set.union_subset subset_rfl htable))
  | schedule h => exact h.safe
  | @rewrite E ε σ _ visit e state hvisit he hstate ih =>
      have hlift : ∀ {α : Type} [Mentions α] {E : Set ExprId} {b : Build α}, Safe E b →
          Safe E (liftM b : ExceptT ε (StateT σ Build) α) :=
        fun hb => except_lift_safe (state_lift_safe hb)
      have h := rewrite_safe hlift ih he
      exact (h state).weaken (Set.union_subset subset_rfl hstate)

/-! ## Handles and trees -/

namespace Reached

variable {ctx : Context}

theorem sound (h : Reached ctx) : Sound ctx := by
  induction h with
  | empty =>
      rintro e (he | ⟨f, hf, -⟩ | ⟨a, ha, -⟩)
      · exact absurd he (Nat.not_lt_zero _)
      · exact absurd hf (Array.not_mem_empty f)
      · exact absurd ha (Array.not_mem_empty a)
  | step hctx hE hp ih => exact (hp.safe.leaves ih hE).sound

/-- Operands come before the expressions that use them, and handles stand for trees one to one.  A
program interns nodes over handles that it has and over no others, what it returns is stored, and
what was stored stays as it was. -/
theorem handles_eq_trees (hctx : Reached ctx) :
    (∀ e, ctx.Stored e → ∀ c ∈ (ctx.node e).children, c.index < e.index) ∧
      (∀ a b, ctx.Stored a → ctx.Stored b → (ctx.tree a = ctx.tree b ↔ a = b)) ∧
      ∀ {E : Set ExprId} {α : Type} [Mentions α] {p : Build α}, Program E p →
        (∀ e ∈ E, ctx.Stored e) →
        Interning E p ∧ (∀ e ∈ mentioned (p.run ctx).1, (p.run ctx).2.Stored e) ∧
          ∀ e, ctx.Stored e → (p.run ctx).2.Stored e ∧ (p.run ctx).2.entry e = ctx.entry e ∧
            (p.run ctx).2.tree e = ctx.tree e := by
  refine ⟨fun e _ c hc => ctx.child_lt hc, fun a b ha hb => ⟨Context.tree_inj ha hb, ?_⟩, ?_⟩
  · rintro rfl
    rfl
  · intro E α _ p hp hE
    have h := hp.safe.leaves hctx.sound hE
    refine ⟨hp.safe, h.stored, fun e he => ?_⟩
    exact ⟨h.appends.stored he, h.appends.entry_eq he, h.appends.tree_eq he⟩

end Reached

/-- The expression `(n + 1) * 2`. -/
def doubledSum : Build ExprId := do
  let x ← Build.var (← declareVar "n" .int32)
  Build.mulConst (← Build.addConst x 1) 2

/-- Simplifying stores `n * 2 + 2` and leaves `(n + 1) * 2` as it is. -/
theorem Reached.handles_eq_trees_doubledSum :
    let ctx := (doubledSum.run {}).2
    let simplified := ((Query.simplify ⟨4⟩).runOn {}).run ctx
    Reached ctx ∧ Program {⟨4⟩} ((Query.simplify ⟨4⟩).runOn {}) ∧ ctx.Stored ⟨4⟩ ∧
      simplified.1.1 = ⟨6⟩ ∧ simplified.2.Stored ⟨6⟩ ∧ simplified.2.tree ⟨4⟩ = ctx.tree ⟨4⟩ ∧
      ∀ a b, ctx.Stored a → ctx.Stored b → (ctx.tree a = ctx.tree b ↔ a = b) := by
  have hprogram : Program ∅ doubledSum :=
    .bind (.build (.declareVar "n" .int32)) fun v => .bind (.build (.var v)) fun _ =>
      .bind (.build (.addConst 1 (.inr rfl))) fun _ => .build (.mulConst 2 (.inr rfl))
  have hctx : Reached (doubledSum.run {}).2 := .step .empty (fun _ he => he.elim) hprogram
  have hquery : Program {⟨4⟩} ((Query.simplify ⟨4⟩).runOn {}) :=
    .query mentioned_new (.simplify rfl)
  have hstored : (doubledSum.run {}).2.Stored ⟨4⟩ := by decide +kernel
  obtain ⟨-, htrees, hkept⟩ := Reached.handles_eq_trees hctx
  obtain ⟨-, hresult, hkept⟩ := hkept hquery fun e he => he ▸ hstored
  have hanswer : (((Query.simplify ⟨4⟩).runOn {}).run (doubledSum.run {}).2).1.1 = ⟨6⟩ := by
    decide +kernel
  exact ⟨hctx, hquery, hstored, hanswer, hresult _ (.inl hanswer.symm), (hkept _ hstored).2.2,
    htrees⟩

end LoopBounds
