import LoopBounds.Inference.Bounds
import LoopBounds.Inference.Masks
import LoopBounds.Inference.Sets
import LoopBounds.Proofs.Affine
import LoopBounds.Proofs.Tree

/-!
# Where handles come from

A computation gets handles of expressions from its arguments, from the context and from what it
stores.  It is safe when it interns no node over any other handle, which passes through every layer
of state and failure, so it is shown once for each function.  A safe computation only appends
expressions, and all handles that it returns or keeps are stored if those it starts from are.
-/

namespace LoopBounds

/-! ## Handles in data -/

/-- Data that mention expressions. -/
class Mentions (α : Type) where
  exprs : α → Set ExprId

/-- The expressions that a value mentions. -/
def mentioned {α : Type} [Mentions α] (x : α) : Set ExprId := Mentions.exprs x

section Instances

variable {α β : Type} [Mentions α] [Mentions β]

instance : Mentions ExprId := ⟨fun e => {e}⟩
instance : Mentions Unit := ⟨fun _ => ∅⟩
instance : Mentions Bool := ⟨fun _ => ∅⟩
instance : Mentions Int64 := ⟨fun _ => ∅⟩
instance : Mentions UInt32 := ⟨fun _ => ∅⟩
instance : Mentions Nat := ⟨fun _ => ∅⟩
instance : Mentions Interval := ⟨fun _ => ∅⟩
instance : Mentions VarId := ⟨fun _ => ∅⟩
instance : Mentions DimId := ⟨fun _ => ∅⟩
instance : Mentions FunId := ⟨fun _ => ∅⟩
instance : Mentions AxisId := ⟨fun _ => ∅⟩
instance : Mentions DimDefinition := ⟨fun _ => ∅⟩

instance : Mentions (Option α) := ⟨fun x? => {e | ∃ x, x? = some x ∧ e ∈ mentioned x}⟩
instance : Mentions (List α) := ⟨fun xs => {e | ∃ x ∈ xs, e ∈ mentioned x}⟩
instance : Mentions (α × β) := ⟨fun p => mentioned p.1 ∪ mentioned p.2⟩
instance {ε : Type} : Mentions (Except ε α) := ⟨fun r => {e | ∃ x, r = .ok x ∧ e ∈ mentioned x}⟩
instance : Mentions (Env α) := ⟨fun env => {e | ∃ v x, env v = some x ∧ e ∈ mentioned x}⟩
instance {t : Table} : Mentions (Facts t α) :=
  ⟨fun facts => {e | ∃ (k : Handle t) (x : α), facts[k]? = some x ∧ e ∈ mentioned x}⟩

instance : Mentions Domain := ⟨fun d => {d.min, d.extent}⟩
instance : Mentions ValueSet := ⟨fun s => mentioned s.lo? ∪ mentioned s.hi?⟩
instance : Mentions SetTable := ⟨fun table => mentioned table.sets⟩
instance : Mentions Affine := ⟨fun f => {e | ∃ t ∈ f.terms, e = t.1}⟩
instance : Mentions NestBounds :=
  ⟨fun b => mentioned b.domains ∪ mentioned b.values ∪ mentioned b.guards⟩
instance : Mentions SplitBy := ⟨fun size => {size.extent}⟩

instance {κ : Type} : Mentions (Reshape κ) where
  exprs
    | .split _ _ _ size => mentioned size
    | .fuse .. => ∅

instance : Mentions AxisRelation where
  exprs
    | .reshape r => mentioned r
    | .rebase .. | .singleton _ => ∅

instance : Mentions DimRelation where
  exprs
    | .reshape r => mentioned r
    | .change .. => ∅

instance : Mentions LoopNest := ⟨fun nest => mentioned nest.relations⟩
instance : Mentions Operation := ⟨fun op => mentioned op.relations⟩

end Instances

instance : Mentions IndexFun := ⟨fun f => mentioned f.body? ∪ mentioned f.codomain?⟩
instance : Mentions Axis := ⟨fun axis => mentioned axis.domain?⟩

/-- The handles in a context: those of its expressions, and those in its functions and axes. -/
instance : Mentions Context := ⟨fun ctx => {e | ctx.Stored e ∨
  (∃ f ∈ ctx.funs, e ∈ mentioned f) ∨ ∃ axis ∈ ctx.axes, e ∈ mentioned axis}⟩

instance : Mentions Analyzer := ⟨fun an =>
  mentioned (an.bindings : Facts .var Domain) ∪ mentioned (an.simplified : Facts .expr ExprId)⟩

section Membership

variable {α β : Type} [Mentions α] [Mentions β] {e e' : ExprId} {E : Set ExprId}

@[simp] theorem mem_mentioned_expr : e' ∈ mentioned e ↔ e' = e := Iff.rfl

@[simp] theorem mentioned_unit (x : Unit) : mentioned x = ∅ := rfl

@[simp] theorem mentioned_bool (b : Bool) : mentioned b = ∅ := rfl

@[simp] theorem mentioned_interval (i : Interval) : mentioned i = ∅ := rfl

@[simp] theorem mem_mentioned_option {x? : Option α} :
    e ∈ mentioned x? ↔ ∃ x, x? = some x ∧ e ∈ mentioned x := Iff.rfl

theorem mentioned_none : mentioned (none : Option α) ⊆ E := by
  rintro _ ⟨_, ⟨⟩, _⟩

@[simp] theorem mem_mentioned_list {xs : List α} :
    e ∈ mentioned xs ↔ ∃ x ∈ xs, e ∈ mentioned x := Iff.rfl

theorem mentioned_nil : mentioned ([] : List α) ⊆ E := by
  rintro _ ⟨_, ⟨⟩, _⟩

@[simp] theorem mentioned_pair {x : α} {y : β} : mentioned (x, y) = mentioned x ∪ mentioned y := rfl

@[simp] theorem mentioned_ok {ε : Type} {x : α} :
    mentioned (Except.ok x : Except ε α) = mentioned x := by
  ext e
  exact ⟨fun ⟨_, hx, he⟩ => by cases hx; exact he, fun he => ⟨x, rfl, he⟩⟩

@[simp] theorem mentioned_error {ε : Type} {err : ε} :
    mentioned (Except.error err : Except ε α) = ∅ := by
  rw [Set.eq_empty_iff_forall_notMem]
  rintro e ⟨x, hx, -⟩
  cases hx

@[simp] theorem mem_mentioned_domain {d : Domain} :
    e ∈ mentioned d ↔ e = d.min ∨ e = d.extent := Iff.rfl

theorem mentioned_fn (ctx : Context) (f : FunId) : mentioned (ctx.fn f) ⊆ mentioned ctx := by
  intro e he
  rw [Context.fn] at he
  cases hf : ctx.funs[f.index]? with
  | some g =>
      rw [hf, Option.getD_some] at he
      exact .inr (.inl ⟨g, Array.mem_of_getElem? hf, he⟩)
  | none =>
      rw [hf, Option.getD_none] at he
      rcases he with ⟨_, ⟨⟩, _⟩ | ⟨_, ⟨⟩, _⟩

theorem body_mem {ctx : Context} {f : FunId} (h : (ctx.fn f).body? = some e) :
    e ∈ mentioned ctx :=
  mentioned_fn ctx f (.inl ⟨e, h, rfl⟩)

theorem codomain_mem {ctx : Context} {f : FunId} {d : Domain}
    (h : (ctx.fn f).codomain? = some d) : mentioned d ⊆ mentioned ctx :=
  fun _ he => mentioned_fn ctx f (.inr ⟨d, h, he⟩)

theorem domain_mem {ctx : Context} {i : AxisId} {d : Domain} (h : (ctx.axis i).domain? = some d) :
    mentioned d ⊆ mentioned ctx := by
  intro e he
  rw [Context.axis] at h
  cases hi : ctx.axes[i.index]? with
  | some axis =>
      rw [hi, Option.getD_some] at h
      exact .inr (.inr ⟨axis, Array.mem_of_getElem? hi, d, h, he⟩)
  | none =>
      rw [hi, Option.getD_none] at h
      cases h

theorem mentioned_set {env : Env α} {v : VarId} {x : α} :
    mentioned (env.set v x) ⊆ mentioned env ∪ mentioned x := by
  rintro e ⟨w, y, hy, he⟩
  by_cases hw : w = v
  · subst hw
    rw [Env.set_self, Option.some_inj] at hy
    exact .inr (hy ▸ he)
  · rw [Env.set_of_ne env x hw] at hy
    exact .inl ⟨w, y, hy, he⟩

@[simp] theorem mentioned_empty : mentioned (Env.empty : Env α) = ∅ := by
  rw [Set.eq_empty_iff_forall_notMem]
  rintro e ⟨v, x, hx, -⟩
  cases hx

end Membership

/-! ## Safe computations -/

/-- A computation that only interns nodes over handles of a set, over those that the context
holds and over what its steps return. -/
inductive Interning : Set ExprId → {α : Type} → [Mentions α] → Build α → Prop
  | pure {E : Set ExprId} {α : Type} [Mentions α] {x : α} (hx : mentioned x ⊆ E) :
      Interning E (Pure.pure x)
  | bind {E : Set ExprId} {α β : Type} [Mentions α] [Mentions β] {b : Build α} {f : α → Build β}
      (hb : Interning E b) (hf : ∀ x, Interning (E ∪ mentioned x) (f x)) : Interning E (b >>= f)
  | inspect {E : Set ExprId} : Interning E (get : Build Context)
  | intern {E : Set ExprId} {node : Node} (hchildren : ∀ c ∈ node.children, c ∈ E) :
      Interning E (intern node)
  /-- Symbols may be declared and changed. -/
  | symbols {E : Set ExprId} {α : Type} [Mentions α] {b : Build α}
      (hentries : ∀ ctx, (b.run ctx).2.entries = ctx.entries)
      (hsymbols : ∀ ctx, mentioned (b.run ctx).2 ⊆ E ∪ mentioned ctx)
      (hresult : ∀ ctx, mentioned (b.run ctx).1 ⊆ E) : Interning E b

/-- All handles that a context holds are stored. -/
def Sound (ctx : Context) : Prop := ∀ e ∈ mentioned ctx, ctx.Stored e

/-- What a computation leaves behind. -/
structure Leaves {α : Type} [Mentions α] (ctx : Context) (x : α) (ctx' : Context) : Prop where
  appends : ctx.Appends ctx'
  sound : Sound ctx'
  stored : ∀ e ∈ mentioned x, ctx'.Stored e

namespace Interning

variable {E E' : Set ExprId} {α : Type} [Mentions α] {b : Build α}

theorem weaken (h : Interning E b) (hE : E ⊆ E') : Interning E' b := by
  induction h generalizing E' with
  | pure hx => exact .pure (hx.trans hE)
  | bind hb hf ihb ihf => exact .bind (ihb hE) fun x => ihf x (Set.union_subset_union_left _ hE)
  | inspect => exact .inspect
  | intern hchildren => exact .intern fun c hc => hE (hchildren c hc)
  | symbols hentries hsymbols hresult =>
      exact .symbols hentries (fun ctx => (hsymbols ctx).trans (Set.union_subset_union_left _ hE))
        fun ctx => (hresult ctx).trans hE

theorem leaves_intern {ctx : Context} {node : Node} (hctx : Sound ctx)
    (hstored : ∀ c ∈ node.children, ctx.Stored c) :
    Leaves ctx ((LoopBounds.intern node).run ctx).1 ((LoopBounds.intern node).run ctx).2 := by
  have hrun : (LoopBounds.intern node).run ctx = ctx.intern node := rfl
  rw [hrun, Context.intern]
  split
  · next e he =>
    refine ⟨.refl ctx, hctx, ?_⟩
    rintro _ rfl
    exact (Build.node_of_find? he).1
  · next hnew =>
    have hlt : ∀ c ∈ node.children, c.index < ctx.size := hstored
    rw [dif_pos hlt]
    have happends : ctx.Appends (ctx.push node hnew hlt) := by
      simp [Context.Appends, Context.push]
    refine ⟨happends, ?_, ?_⟩
    · rintro e (he | he)
      · exact he
      · exact happends.stored (hctx e (.inr he))
    · rintro _ rfl
      simp [Context.Stored, Context.push, Context.size]

/-- The expressions that are there stay, and all handles that are kept or returned are stored. -/
theorem leaves {ctx : Context} (h : Interning E b) (hctx : Sound ctx)
    (hE : ∀ e ∈ E, ctx.Stored e) : Leaves ctx (b.run ctx).1 (b.run ctx).2 := by
  induction h generalizing ctx with
  | pure hx => exact ⟨.refl ctx, hctx, fun e he => hE e (hx he)⟩
  | bind hb hf ihb ihf =>
      have hfirst := ihb hctx hE
      have hnext := ihf _ hfirst.sound fun e he =>
        he.elim (fun he => hfirst.appends.stored (hE e he)) (hfirst.stored e)
      exact ⟨hfirst.appends.trans hnext.appends, hnext.sound, hnext.stored⟩
  | inspect => exact ⟨.refl ctx, hctx, hctx⟩
  | intern hchildren => exact leaves_intern hctx fun c hc => hE c (hchildren c hc)
  | @symbols E α _ b hentries hsymbols hresult =>
      have happends : ctx.Appends (b.run ctx).2 := by
        rw [Context.Appends, hentries]
      refine ⟨happends, fun e he => ?_, fun e he => happends.stored (hE e (hresult ctx he))⟩
      rcases hsymbols ctx he with he | he
      exacts [happends.stored (hE e he), happends.stored (hctx e he)]

end Interning

/-- A monad with a notion of computations that only intern nodes over handles they have. -/
class Tracks (m : Type → Type) [Monad m] where
  Safe : {α : Type} → [Mentions α] → Set ExprId → m α → Prop
  pure : ∀ {α : Type} [Mentions α] {E : Set ExprId} {x : α}, mentioned x ⊆ E → Safe E (pure x)
  bind : ∀ {α β : Type} [Mentions α] [Mentions β] {E : Set ExprId} {q : m α} {f : α → m β},
    Safe E q → (∀ x, Safe (E ∪ mentioned x) (f x)) → Safe E (q >>= f)
  weaken : ∀ {α : Type} [Mentions α] {E E' : Set ExprId} {q : m α}, E ⊆ E' → Safe E q → Safe E' q

export Tracks (Safe)

instance : Tracks Build where
  Safe E b := Interning E b
  pure := .pure
  bind := .bind
  weaken hE hb := hb.weaken hE

/-- Asks an analyzer and gives it back with the answer. -/
def Query.runOn {α : Type} (an : Analyzer) (query : Query α) : Build (α × Analyzer) := fun ctx =>
  let (x, session) := query ⟨ctx, an⟩
  ((x, session.analyzer), session.ctx)

instance : Tracks Query where
  Safe E q := ∀ an, Interning (E ∪ mentioned an) (q.runOn an)
  pure {_ _ _ x} hx an := .pure (x := (x, an))
    (Set.union_subset (hx.trans Set.subset_union_left) Set.subset_union_right)
  bind hq hf an := by
    refine Interning.bind (hq an) fun p => (hf p.1 p.2).weaken ?_
    rintro e ((he | he) | he)
    exacts [.inl (.inl he), .inr (.inl he), .inr (.inr he)]
  weaken hE hq an := (hq an).weaken (Set.union_subset_union_left _ hE)

namespace Tracks

variable {m : Type → Type} [Monad m] [Tracks m] {α β : Type} [Mentions α] [Mentions β]
  {E E' : Set ExprId} {q : m α} {f : α → m β}

theorem Safe.bind (hq : Safe E q) (hf : ∀ x, Safe (E ∪ mentioned x) (f x)) : Safe E (q >>= f) :=
  Tracks.bind hq hf

theorem Safe.weaken (hq : Safe E q) (hE : E ⊆ E') : Safe E' q := Tracks.weaken hE hq

theorem safe_pure {x : α} (hx : mentioned x ⊆ E) : Safe E (Pure.pure x : m α) := Tracks.pure hx

theorem Safe.map [LawfulMonad m] {g : α → β} (hq : Safe E q)
    (hg : ∀ x, mentioned (g x) ⊆ E ∪ mentioned x) : Safe E (g <$> q) := by
  rw [map_eq_pure_bind]
  exact hq.bind fun x => safe_pure (hg x)

theorem Safe.some [LawfulMonad m] (hq : Safe E q) : Safe E (some <$> q) :=
  hq.map fun x e ⟨_, hx, he⟩ => by
    cases hx
    exact .inr he

theorem safe_foldlM {γ : Type} {f : β → γ → m β} {xs : List γ} {init : β}
    (hinit : mentioned init ⊆ E) (hf : ∀ y, ∀ x ∈ xs, Safe (E ∪ mentioned y) (f y x)) :
    Safe E (xs.foldlM f init) := by
  induction xs generalizing E init with
  | nil => exact safe_pure hinit
  | cons x xs ih =>
      rw [List.foldlM_cons]
      have hhead := (hf init x List.mem_cons_self).weaken (Set.union_subset subset_rfl hinit)
      refine hhead.bind fun y => ih Set.subset_union_right fun z w hw => ?_
      exact (hf z w (List.mem_cons_of_mem _ hw)).weaken
        (Set.union_subset_union_left _ Set.subset_union_left)

theorem safe_forM {γ : Type} {f : γ → m Unit} {xs : List γ} (hf : ∀ x ∈ xs, Safe E (f x)) :
    Safe E (xs.forM f) := by
  induction xs with
  | nil => exact safe_pure (Set.empty_subset _)
  | cons x xs ih =>
      refine (hf x List.mem_cons_self).bind fun _ => ?_
      exact (ih fun y hy => hf y (List.mem_cons_of_mem _ hy)).weaken Set.subset_union_left

theorem safe_mapM [LawfulMonad m] {γ : Type} {f : γ → m β} {xs : List γ}
    (hf : ∀ x ∈ xs, Safe E (f x)) : Safe E (xs.mapM f) := by
  induction xs generalizing E with
  | nil => exact safe_pure mentioned_nil
  | cons x xs ih =>
      rw [List.mapM_cons]
      refine (hf x List.mem_cons_self).bind fun y => ?_
      have hrest := ih fun z hz => (hf z (List.mem_cons_of_mem _ hz)).weaken
        (Set.subset_union_left (s := E) (t := mentioned y))
      refine hrest.bind fun ys => safe_pure ?_
      rintro e ⟨z, hz, he⟩
      rcases List.mem_cons.1 hz with rfl | hz
      exacts [.inl (.inr he), .inr ⟨z, hz, he⟩]

end Tracks

open Tracks

section Layers

variable {m : Type → Type} [Monad m] [Tracks m]

/-- What a computation that may fail returns when it does not is stored. -/
instance {ε : Type} : Tracks (ExceptT ε m) where
  Safe E q := Safe E q.run
  pure h := Tracks.pure fun e ⟨_, hx, he⟩ => by
    cases hx
    exact h he
  bind hq hf := Tracks.bind hq fun r => by
    cases r with
    | error e => exact Tracks.pure nofun
    | ok x => exact Tracks.weaken (by rw [mentioned_ok]) (hf x)
  weaken h := Tracks.weaken h

instance {σ : Type} [Mentions σ] : Tracks (StateT σ m) where
  Safe E q := ∀ t, Safe (E ∪ mentioned t) (q.run t)
  pure h t := Tracks.pure
    (Set.union_subset_iff.2 ⟨h.trans Set.subset_union_left, Set.subset_union_right⟩)
  bind hq hf t := Tracks.bind (hq t) fun p => Tracks.weaken (by
    rw [show mentioned p = mentioned p.1 ∪ mentioned p.2 from rfl]
    rintro e ((he | he) | he)
    exacts [.inl (.inl he), .inr (.inl he), .inr (.inr he)]) (hf p.1 p.2)
  weaken h hq t := Tracks.weaken (Set.union_subset_union_left _ h) (hq t)

instance : Tracks (OptionT m) where
  Safe E q := Safe E q.run
  pure h := Tracks.pure fun e ⟨_, hx, he⟩ => by
    cases hx
    exact h he
  bind hq hf := Tracks.bind hq fun r => by
    cases r with
    | none => exact Tracks.pure nofun
    | some x =>
        refine Tracks.weaken (Set.union_subset_union_right _ ?_) (hf x)
        exact fun e he => ⟨x, rfl, he⟩
  weaken h := Tracks.weaken h

end Layers

/-! ## Storing expressions -/

namespace Build

variable {E : Set ExprId} {a b e : ExprId} {node : Node}

theorem intern_safe (hchildren : ∀ c ∈ node.children, c ∈ E) : Safe E (intern node) :=
  Interning.intern hchildren

theorem get_safe : Safe E (get : Build Context) := Interning.inspect

/-- The operands of a node are among the handles of the context. -/
theorem mem_mentioned_of_child {ctx : Context} {c : ExprId} (hc : c ∈ (ctx.node e).children) :
    c ∈ mentioned ctx := by
  by_cases he : ctx.Stored e
  · exact .inl (he.child hc)
  · rw [Context.node_of_not_stored he] at hc
    cases hc

theorem constant_safe (w : Int64) (t : Scalar) : Safe E (constant w t) := intern_safe nofun

theorem boolean_safe (t : Bool) : Safe E (boolean t) := constant_safe _ _

theorem constantLike_safe (w : Int64) (e : ExprId) : Safe E (constantLike w e) :=
  get_safe.bind fun _ => constant_safe _ _

theorem var_safe (v : VarId) : Safe E (var v) := intern_safe nofun

theorem axis_safe (i : AxisId) : Safe E (axis i) := get_safe.bind fun _ => var_safe _

theorem folded_safe {fold : Option Int64 → Option Int64 → Bool → Fold} {t : Scalar}
    (hnode : node.children = [a, b]) (ha : a ∈ E) (hb : b ∈ E) :
    Safe E (folded fold t node a b) := by
  refine get_safe.bind fun ctx => ?_
  split
  · exact constant_safe _ _
  · exact safe_pure (Set.singleton_subset_iff.2 (.inl ha))
  · exact safe_pure (Set.singleton_subset_iff.2 (.inl hb))
  · apply intern_safe
    rw [hnode]
    simp [ha, hb]

theorem arith_safe (op : Arith) (ha : a ∈ E) (hb : b ∈ E) : Safe E (arith op a b) :=
  get_safe.bind fun _ => folded_safe rfl (.inl ha) (.inl hb)

theorem compare_safe (op : Comparison) (ha : a ∈ E) (hb : b ∈ E) : Safe E (compare op a b) :=
  folded_safe rfl ha hb

theorem conj_safe (ha : a ∈ E) (hb : b ∈ E) : Safe E (conj a b) := folded_safe rfl ha hb

theorem disj_safe (ha : a ∈ E) (hb : b ∈ E) : Safe E (disj a b) := folded_safe rfl ha hb

theorem addConst_safe (w : Int64) (ha : a ∈ E) : Safe E (addConst a w) :=
  (constantLike_safe w a).bind fun _ => arith_safe .add (.inl ha) (.inr rfl)

theorem mulConst_safe (w : Int64) (ha : a ∈ E) : Safe E (mulConst a w) :=
  (constantLike_safe w a).bind fun _ => arith_safe .mul (.inl ha) (.inr rfl)

theorem offset_safe (ha : a ∈ E) (hb : b ∈ E) : Safe E (offset a b) := by
  refine get_safe.bind fun ctx => ?_
  split
  · exact safe_pure (Set.singleton_subset_iff.2 (.inl ha))
  · exact arith_safe .add (.inl ha) (.inl hb)

theorem negation_safe (he : e ∈ E) : Safe E (negation e) := by
  refine get_safe.bind fun ctx => ?_
  split
  · exact boolean_safe _
  · next a hn =>
    refine safe_pure (Set.singleton_subset_iff.2 (.inr ?_))
    exact mem_mentioned_of_child (e := e) (by simp [hn, Node.children])
  · exact intern_safe fun c hc => List.mem_singleton.1 hc ▸ .inl he

theorem all_safe {es : List ExprId} (hes : ∀ e ∈ es, e ∈ E) : Safe E (all es) :=
  (boolean_safe true).bind fun _ => safe_foldlM (Set.singleton_subset_iff.2 (.inr rfl))
    fun _ e he => conj_safe (.inr rfl) (.inl (.inl (hes e he)))

theorem division_safe (op : Arith) (ha : a ∈ E) (hb : b ∈ E) : Safe E (division op a b) := by
  refine get_safe.bind fun ctx => ?_
  split
  · apply intern_safe
    simp [Node.children, ha, hb]
  · exact arith_safe op (.inl ha) (.inl hb)

/-- A node that does not fit its new operands is stored over the old ones. -/
theorem rebuild_safe {operands : List ExprId} (hchildren : ∀ c ∈ node.children, c ∈ E)
    (hoperands : ∀ e ∈ operands, e ∈ E) : Safe E (rebuild node operands) := by
  unfold rebuild
  split
  case h_1 | h_2 => exact division_safe _ (hoperands _ (by simp)) (hoperands _ (by simp))
  case h_3 => exact arith_safe _ (hoperands _ (by simp)) (hoperands _ (by simp))
  case h_4 => exact compare_safe _ (hoperands _ (by simp)) (hoperands _ (by simp))
  case h_5 => exact conj_safe (hoperands _ (by simp)) (hoperands _ (by simp))
  case h_6 => exact disj_safe (hoperands _ (by simp)) (hoperands _ (by simp))
  case h_7 => exact negation_safe (hoperands _ (by simp))
  case h_8 => exact intern_safe hoperands
  case h_9 => exact intern_safe hchildren

/-! ## Declaring symbols -/

theorem declareVar_safe (name : String) (type : Scalar) : Safe E (declareVar name type) :=
  Interning.symbols (fun _ => rfl) (fun _ _ => .inr) fun _ => nofun

theorem declareDim_safe (name : String) (kind : DimKind) : Safe E (declareDim name kind) :=
  Interning.symbols (fun _ => rfl) (fun _ _ => .inr) fun _ => nofun

theorem addAxis_safe {axis : Axis} (haxis : mentioned axis ⊆ E) : Safe E (addAxis axis) := by
  refine Interning.symbols (fun _ => rfl) (fun ctx e he => ?_) fun _ => nofun
  obtain he | he | ⟨axis', hmem, he⟩ := he
  · exact .inr (.inl he)
  · exact .inr (.inr (.inl he))
  · rcases Array.mem_push.1 hmem with hmem | rfl
    exacts [.inr (.inr (.inr ⟨axis', hmem, he⟩)), .inl (haxis he)]

theorem addFun_safe {f : IndexFun} (hf : mentioned f ⊆ E) : Safe E (addFun f) := by
  refine Interning.symbols (fun _ => rfl) (fun ctx e he => ?_) fun _ => nofun
  obtain he | ⟨g, hmem, he⟩ | he := he
  · exact .inr (.inl he)
  · rcases Array.mem_push.1 hmem with hmem | rfl
    exacts [.inr (.inr (.inl ⟨g, hmem, he⟩)), .inl (hf he)]
  · exact .inr (.inr (.inr he))

theorem mem_of_mem_modify {fs : Array IndexFun} {i : Nat} {change : IndexFun → IndexFun}
    {g : IndexFun} (h : g ∈ fs.modify i change) : ∃ f ∈ fs, g = f ∨ g = change f := by
  obtain ⟨j, hj, rfl⟩ := Array.mem_iff_getElem.1 h
  have hj' : j < fs.size := by simpa using hj
  refine ⟨fs[j], Array.getElem_mem hj', ?_⟩
  rw [Array.getElem_modify]
  split
  exacts [.inr rfl, .inl rfl]

theorem modifyFun_safe {change : IndexFun → IndexFun} (f : FunId)
    (hchange : ∀ g, mentioned (change g) ⊆ E ∪ mentioned g) : Safe E (modifyFun f change) := by
  refine Interning.symbols (fun _ => rfl) (fun ctx e he => ?_) fun _ => nofun
  obtain he | ⟨g, hmem, he⟩ | he := he
  · exact .inr (.inl he)
  · obtain ⟨g, hg, rfl | rfl⟩ := mem_of_mem_modify hmem
    · exact .inr (.inr (.inl ⟨g, hg, he⟩))
    · exact (hchange g he).imp id fun he => .inr (.inl ⟨g, hg, he⟩)
  · exact .inr (.inr (.inr he))

theorem declareAxis_safe (name : String) {domain? : Option Domain} (kind : AxisKind)
    (hdomain : mentioned domain? ⊆ E) : Safe E (declareAxis name domain? kind) :=
  get_safe.bind fun _ => (declareVar_safe _ _).bind fun _ =>
    addAxis_safe fun _ he => .inl (.inl (hdomain he))

theorem declareThread_safe (tag : String) : Safe E (declareThread tag) :=
  (declareVar_safe _ _).bind fun _ => addAxis_safe nofun

theorem deriveAxis_safe (parent : AxisId) (name : String) (kind : AxisKind) :
    Safe E (deriveAxis parent name kind) :=
  get_safe.bind fun _ => (declareVar_safe _ _).bind fun _ => addAxis_safe nofun

theorem constantFun_safe (name : String) (he : e ∈ E) : Safe E (constantFun name e) := by
  refine (constantLike_safe 1 e).bind fun one => addFun_safe ?_
  rintro c (⟨_, ⟨⟩, rfl⟩ | ⟨_, ⟨⟩, rfl | rfl⟩)
  exacts [.inl he, .inl he, .inr rfl]

theorem setCodomain_safe (f : FunId) {d : Domain} (hd : mentioned d ⊆ E) :
    Safe E (setCodomain f d) := by
  refine modifyFun_safe f fun g => ?_
  rintro c (hc | ⟨_, ⟨⟩, hc⟩)
  exacts [.inr (.inl hc), .inl (hd hc)]

end Build

namespace Domain

variable {E : Set ExprId} {a b : ExprId} {d : Domain}

theorem mentioned_subset_iff : mentioned d ⊆ E ↔ d.min ∈ E ∧ d.extent ∈ E := by
  rw [show mentioned d = {d.min, d.extent} from rfl, Set.pair_subset_iff]

theorem ofExtent_safe (ha : a ∈ E) : Safe E (ofExtent a) :=
  (Build.constantLike_safe 0 a).bind fun _ =>
    safe_pure (mentioned_subset_iff.2 ⟨.inr rfl, .inl ha⟩)

theorem literal_safe (first extent : Int64) : Safe E (literal first extent) :=
  (Build.constant_safe _ _).bind fun _ => (Build.constant_safe _ _).bind fun _ =>
    safe_pure (mentioned_subset_iff.2 ⟨.inl (.inr rfl), .inr rfl⟩)

theorem between_safe (ha : a ∈ E) (hb : b ∈ E) : Safe E (between a b) :=
  (Build.arith_safe .sub hb ha).bind fun _ =>
    safe_pure (mentioned_subset_iff.2 ⟨.inl ha, .inr rfl⟩)

theorem last_safe (hd : mentioned d ⊆ E) : Safe E d.last := by
  obtain ⟨hmin, hextent⟩ := mentioned_subset_iff.1 hd
  exact (Build.arith_safe .add hmin hextent).bind fun _ => Build.addConst_safe (-1) (.inr rfl)

end Domain

/-! ## Layers -/

section Layers

variable {m : Type → Type} [Monad m] [Tracks m] {α σ ε : Type} [Mentions α] [Mentions σ]
  {E : Set ExprId} {q : m α}

theorem throw_safe {err : ε} : Safe E (throw err : ExceptT ε m α) := by
  apply Tracks.safe_pure (m := m)
  rw [mentioned_error]
  exact Set.empty_subset E

omit [Mentions α] in
/-- What follows a failure does not run. -/
theorem throw_bind_safe [LawfulMonad m] {β : Type} [Mentions β] {err : ε}
    {f : α → ExceptT ε m β} : Safe E ((throw err : ExceptT ε m α) >>= f) := by
  have hthrow : ((throw err : ExceptT ε m α) >>= f) = throw err := ExceptT.ext (by simp)
  rw [hthrow]
  exact throw_safe

theorem except_lift_safe [LawfulMonad m] (hq : Safe E q) :
    Safe E (ExceptT.lift q : ExceptT ε m α) :=
  Safe.map hq fun x => by
    rw [mentioned_ok]
    exact Set.subset_union_right

theorem state_lift_safe (hq : Safe E q) : Safe E (StateT.lift q : StateT σ m α) := by
  intro t
  refine (hq.weaken Set.subset_union_left).bind fun x => safe_pure ?_
  rintro e (he | he)
  exacts [.inr he, .inl (.inr he)]

theorem state_get_safe : Safe E (get : StateT σ m σ) := fun _ =>
  safe_pure (m := m) (Set.union_subset Set.subset_union_right Set.subset_union_right)

theorem state_modify_safe {change : σ → σ} (h : ∀ t, mentioned (change t) ⊆ E ∪ mentioned t) :
    Safe E (modify change : StateT σ m PUnit) := fun t =>
  safe_pure (m := m) (Set.union_subset nofun (h t))

end Layers

namespace Facts

variable {t : Table} {α : Type} [Mentions α] {facts : Facts t α} {k : Handle t} {x : α}

theorem mentioned_of_getElem? (h : facts[k]? = some x) : mentioned x ⊆ mentioned facts :=
  fun _ he => ⟨k, x, h, he⟩

@[simp] theorem mentioned_empty : mentioned ({} : Facts t α) = ∅ := by
  rw [Set.eq_empty_iff_forall_notMem]
  rintro e ⟨k, x, hx, -⟩
  simp at hx

theorem mentioned_insert (facts : Facts t α) (k : Handle t) (x : α) :
    mentioned (facts.insert k x) ⊆ mentioned facts ∪ mentioned x := by
  rintro e ⟨k', y, hy, he⟩
  rcases Handle.getElem?_insert_eq_some.1 hy with ⟨-, rfl⟩ | ⟨-, hy⟩
  exacts [.inr he, .inl ⟨k', y, hy, he⟩]

end Facts

end LoopBounds
