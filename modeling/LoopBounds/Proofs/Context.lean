import Mathlib
import LoopBounds.Expr.Build

/-!
# Growth of contexts

A context grows by storing more; what is stored stays where it is.  Building expressions grows
the table of expressions only, and keeps every handle inside its table.  An expression made
from others mentions no variable or function that these do not mention.
-/

namespace LoopBounds

namespace Handle

variable {t : Table} {α : Type} {m : Std.TreeMap (Handle t) α} {k k' : Handle t} {x y : α}

/-- The entry that a handle has in a table that was added to. -/
theorem getElem?_insert_eq_some :
    (m.insert k x)[k']? = some y ↔ k' = k ∧ y = x ∨ k' ≠ k ∧ m[k']? = some y := by
  simp only [Std.TreeMap.getElem?_insert, Std.compare_eq_iff_eq]
  by_cases h : k = k'
  · subst h
    simp [eq_comm]
  · simp [h, Ne.symm h]

/-- A new entry takes the place of none. -/
theorem getElem?_insert_of_notMem (hnew : k ∉ m) (h : m[k']? = some y) :
    (m.insert k x)[k']? = some y := by
  refine getElem?_insert_eq_some.2 (.inr ⟨?_, h⟩)
  rintro rfl
  exact hnew (Std.TreeMap.mem_iff_isSome_getElem?.2 (h ▸ rfl))

end Handle

/-- The function that a node calls. -/
def Node.callee? : Node → Option FunId
  | .call f _ _ => some f
  | _ => none

/-- A class of nodes that only restricts which variables and functions are mentioned. -/
structure NodeClass where
  mem : Node → Prop
  const : ∀ v t, mem (.const v t)
  arith : ∀ op a b, mem (.arith op a b)
  compare : ∀ op a b, mem (.compare op a b)
  and : ∀ a b, mem (.and a b)
  or : ∀ a b, mem (.or a b)
  not : ∀ a, mem (.not a)
  call : ∀ f as bs ds, mem (.call f as ds) → mem (.call f bs ds)

namespace NodeClass

/-- Every node. -/
def all : NodeClass where
  mem _ := True
  const _ _ := trivial
  arith _ _ _ := trivial
  compare _ _ _ := trivial
  and _ _ := trivial
  or _ _ := trivial
  not _ := trivial
  call _ _ _ _ _ := trivial

/-- Every node that is no call. -/
def callFree : NodeClass where
  mem n := ∀ f as ds, n ≠ .call f as ds
  const _ _ := by simp
  arith _ _ _ := by simp
  compare _ _ _ := by simp
  and _ _ := by simp
  or _ _ := by simp
  not _ := by simp
  call f as _ ds h := absurd rfl (h f as ds)

end NodeClass

/-- `g` is `f`, perhaps with a body or a codomain that `f` lacks. -/
structure IndexFun.Refines (f g : IndexFun) : Prop where
  params : g.params = f.params
  dims : g.dims = f.dims
  body : ∀ b, f.body? = some b → g.body? = some b
  codomain : ∀ d, f.codomain? = some d → g.codomain? = some d

theorem IndexFun.Refines.refl (f : IndexFun) : f.Refines f :=
  ⟨rfl, rfl, fun _ => id, fun _ => id⟩

theorem IndexFun.Refines.trans {f g h : IndexFun} (hfg : f.Refines g) (hgh : g.Refines h) :
    f.Refines h :=
  ⟨hgh.params.trans hfg.params, hgh.dims.trans hfg.dims,
    fun b hb => hgh.body b (hfg.body b hb), fun d hd => hgh.codomain d (hfg.codomain d hd)⟩

namespace Context

/-- The handle refers to a stored expression. -/
def Stored (ctx : Context) (e : ExprId) : Prop := e.index < ctx.size

/-- `ctx'` holds all that `ctx` holds, at the same handles.  A function that had no body or no
codomain may have got one. -/
structure Extends (ctx ctx' : Context) : Prop where
  entries : ctx.entries.toList <+: ctx'.entries.toList
  vars : ctx.vars.toList <+: ctx'.vars.toList
  axes : ctx.axes.toList <+: ctx'.axes.toList
  funs : ctx.funs.size ≤ ctx'.funs.size
  fn : ∀ f : FunId, f.index < ctx.funs.size → (ctx.fn f).Refines (ctx'.fn f)

instance : Preorder Context where
  le := Extends
  le_refl ctx := ⟨List.prefix_rfl, List.prefix_rfl, List.prefix_rfl, le_rfl, fun f _ => .refl _⟩
  le_trans _ _ _ h k := ⟨h.entries.trans k.entries, h.vars.trans k.vars, h.axes.trans k.axes,
    h.funs.trans k.funs, fun f hf => (h.fn f hf).trans (k.fn f (hf.trans_le h.funs))⟩

theorem getElem?_of_prefix {α : Type} {xs ys : Array α} (h : xs.toList <+: ys.toList) {i : Nat}
    (hi : i < xs.size) : ys[i]? = xs[i]? := by
  obtain ⟨zs, hzs⟩ := h
  rw [← Array.getElem?_toList, ← Array.getElem?_toList, ← hzs]
  exact List.getElem?_append_left (by simpa using hi)

variable {ctx ctx' W : Context} {e : ExprId}

theorem le_of_entries (hentries : ctx.entries.toList <+: ctx'.entries.toList)
    (hvars : ctx'.vars = ctx.vars) (haxes : ctx'.axes = ctx.axes) (hfuns : ctx'.funs = ctx.funs) :
    ctx ≤ ctx' :=
  ⟨hentries, hvars ▸ List.prefix_rfl, haxes ▸ List.prefix_rfl, hfuns ▸ le_rfl, fun f _ => by
    rw [fn, fn, hfuns]
    exact .refl _⟩

theorem Stored.mono (h : ctx ≤ ctx') (he : ctx.Stored e) : ctx'.Stored e := by
  have hlen := h.entries.length_le
  simp only [Array.length_toList] at hlen
  exact Nat.lt_of_lt_of_le he hlen

theorem entry_eq (h : ctx ≤ ctx') (he : ctx.Stored e) : ctx'.entry e = ctx.entry e := by
  rw [entry, entry, getElem?_of_prefix h.entries he]

theorem node_eq (h : ctx ≤ ctx') (he : ctx.Stored e) : ctx'.node e = ctx.node e := by
  rw [node, node, entry_eq h he]

theorem exists_node_of_literal? {w : Int64} (h : ctx.literal? e = some w) :
    ∃ t, ctx.node e = .const w t := by
  rw [literal?] at h
  split at h
  · next t hn =>
    cases h
    exact ⟨t, hn⟩
  · cases h

theorem literal?_eq (h : ctx ≤ ctx') (he : ctx.Stored e) :
    ctx'.literal? e = ctx.literal? e := by
  rw [literal?, literal?, node_eq h he]

theorem isZero_eq (h : ctx ≤ ctx') (he : ctx.Stored e) : ctx'.isZero e = ctx.isZero e := by
  rw [isZero, isZero, literal?_eq h he]

theorem axis_eq (h : ctx ≤ ctx') {a : AxisId} (ha : a.index < ctx.axes.size) :
    ctx'.axis a = ctx.axis a := by
  rw [axis, axis, getElem?_of_prefix h.axes ha]

theorem axisVar_eq (h : ctx ≤ ctx') {a : AxisId} (ha : a.index < ctx.axes.size) :
    ctx'.axisVar a = ctx.axisVar a := by
  rw [axisVar, axisVar, axis_eq h ha]

theorem node_of_not_stored (h : ¬ ctx.Stored e) : ctx.node e = .const 0 .bool := by
  rw [node, entry, Array.getElem?_eq_none (Nat.le_of_not_lt h)]
  rfl

/-- No node is stored twice. -/
theorem eq_of_node_eq {e' : ExprId} (he : ctx.Stored e) (he' : ctx.Stored e')
    (h : ctx.node e = ctx.node e') : e = e' := by
  have hindex : ∀ {c}, ctx.Stored c → ctx.index[ctx.node c]? = some c := by
    intro c hc
    rw [ctx.index_eq_some_iff, node, entry, Array.getElem?_eq_getElem hc]
    rfl
  exact Option.some_inj.1 ((hindex he).symm.trans (h ▸ hindex he'))

theorem Stored.child (he : ctx.Stored e) {c : ExprId} (hc : c ∈ (ctx.node e).children) :
    ctx.Stored c :=
  Nat.lt_trans (ctx.child_lt hc) he

/-! ## Expressions over a class of nodes -/

/-- The expression and its sub-expressions are stored nodes of a class. -/
inductive Over (ctx : Context) (K : NodeClass) : ExprId → Prop
  | mk {e : ExprId} (stored : ctx.Stored e) (mem : K.mem (ctx.node e))
      (children : ∀ c ∈ (ctx.node e).children, Over ctx K c) : Over ctx K e

variable {K : NodeClass}

theorem Over.stored (h : ctx.Over K e) : ctx.Stored e := by
  cases h
  assumption

theorem Over.mem (h : ctx.Over K e) : K.mem (ctx.node e) := by
  cases h
  assumption

theorem Over.child (h : ctx.Over K e) {c : ExprId} (hc : c ∈ (ctx.node e).children) :
    ctx.Over K c := by
  cases h with
  | mk _ _ children => exact children c hc

theorem Over.mono (h : ctx ≤ ctx') (he : ctx.Over K e) : ctx'.Over K e := by
  induction he with
  | mk stored mem _ ih =>
      have hnode := node_eq h stored
      exact ⟨stored.mono h, hnode ▸ mem, fun c hc => ih c (hnode ▸ hc)⟩

/-- An expression that was stored before is still over the same nodes. -/
theorem Over.restrict (h : ctx ≤ ctx') (hs : ctx.Stored e) (he : ctx'.Over K e) :
    ctx.Over K e := by
  induction he with
  | mk _ mem _ ih =>
      have hnode := node_eq h hs
      exact ⟨hs, hnode ▸ mem, fun c hc => ih c (hnode ▸ hc) (hs.child hc)⟩

theorem over_all {ctx : Context} {e : ExprId} (he : ctx.Stored e) : ctx.Over .all e :=
  ⟨he, trivial, fun _ hc => over_all (he.child hc)⟩
termination_by e.index
decreasing_by exact ctx.child_lt hc

/-! ## Well-formed contexts -/

/-- The ends of a domain are stored. -/
def StoredDomain (ctx : Context) (d : Domain) : Prop := ctx.Stored d.min ∧ ctx.Stored d.extent

theorem StoredDomain.mono (h : ctx ≤ ctx') {d : Domain} (hd : ctx.StoredDomain d) :
    ctx'.StoredDomain d :=
  ⟨hd.1.mono h, hd.2.mono h⟩

/-- Every handle kept in a table refers into its table, and every axis has a variable of its
own. -/
structure WellFormed (ctx : Context) : Prop where
  call : ∀ e f args dims, ctx.node e = .call f args dims → f.index < ctx.funs.size
  body : ∀ f b, (ctx.fn f).body? = some b → ctx.Stored b
  codomain : ∀ f d, (ctx.fn f).codomain? = some d → ctx.StoredDomain d
  domain : ∀ a d, (ctx.axis a).domain? = some d → ctx.StoredDomain d
  axisVar : ∀ a : AxisId, a.index < ctx.axes.size → (ctx.axisVar a).index < ctx.vars.size
  axisVar_inj : ∀ a b : AxisId, a.index < ctx.axes.size → b.index < ctx.axes.size →
    ctx.axisVar a = ctx.axisVar b → a = b

/-- Well-formedness is a matter of the entries of the tables. -/
theorem wellFormed_iff : ctx.WellFormed ↔
    (∀ i < ctx.size, ∀ f ∈ (ctx.node ⟨i⟩).callee?, f.index < ctx.funs.size) ∧
    (∀ i < ctx.funs.size, (∀ b ∈ (ctx.fn ⟨i⟩).body?, ctx.Stored b) ∧
      ∀ d ∈ (ctx.fn ⟨i⟩).codomain?, ctx.StoredDomain d) ∧
    (∀ i < ctx.axes.size, (∀ d ∈ (ctx.axis ⟨i⟩).domain?, ctx.StoredDomain d) ∧
      (ctx.axisVar ⟨i⟩).index < ctx.vars.size) ∧
    ∀ i < ctx.axes.size, ∀ j < ctx.axes.size, ctx.axisVar ⟨i⟩ = ctx.axisVar ⟨j⟩ → i = j := by
  constructor
  · intro h
    refine ⟨fun i _ f hf => ?_, fun i _ => ⟨h.body ⟨i⟩, h.codomain ⟨i⟩⟩,
      fun i hi => ⟨h.domain ⟨i⟩, h.axisVar ⟨i⟩ hi⟩,
      fun i hi j hj hij => congrArg Handle.index (h.axisVar_inj ⟨i⟩ ⟨j⟩ hi hj hij)⟩
    cases hn : ctx.node ⟨i⟩ <;> simp only [hn, Node.callee?, Option.mem_def, reduceCtorEq,
      Option.some_inj] at hf
    exact hf ▸ h.call _ _ _ _ hn
  · rintro ⟨hcall, hfun, haxis, hinj⟩
    refine ⟨fun e f args dims hn => ?_, fun f b hb => ?_, fun f d hd => ?_, fun a d hd => ?_,
      fun a ha => (haxis a.index ha).2,
      fun a b ha hb hab => Handle.ext_index (hinj a.index ha b.index hb hab)⟩
    · have he : ctx.Stored e := by
        by_contra he
        cases (node_of_not_stored he).symm.trans hn
      exact hcall e.index he f (by rw [hn]; rfl)
    · have hf : f.index < ctx.funs.size := by
        by_contra hf
        rw [fn, Array.getElem?_eq_none (Nat.le_of_not_lt hf)] at hb
        cases hb
      exact (hfun f.index hf).1 b hb
    · have hf : f.index < ctx.funs.size := by
        by_contra hf
        rw [fn, Array.getElem?_eq_none (Nat.le_of_not_lt hf)] at hd
        cases hd
      exact (hfun f.index hf).2 d hd
    · have ha : a.index < ctx.axes.size := by
        by_contra ha
        rw [axis, Array.getElem?_eq_none (Nat.le_of_not_lt ha)] at hd
        cases hd
      exact (haxis a.index ha).1 d hd

instance (ctx : Context) (e : ExprId) : Decidable (ctx.Stored e) :=
  inferInstanceAs (Decidable (e.index < ctx.size))

instance (ctx : Context) (d : Domain) : Decidable (ctx.StoredDomain d) :=
  inferInstanceAs (Decidable (_ ∧ _))

instance (ctx : Context) : Decidable ctx.WellFormed := decidable_of_iff _ wellFormed_iff.symm

/-- `ctx'` is `ctx` with more expressions. -/
structure Grows (ctx ctx' : Context) : Prop where
  le : ctx ≤ ctx'
  vars : ctx'.vars = ctx.vars
  axes : ctx'.axes = ctx.axes
  funs : ctx'.funs = ctx.funs
  wellFormed : ctx.WellFormed → ctx'.WellFormed

theorem Grows.refl (ctx : Context) : ctx.Grows ctx := ⟨le_rfl, rfl, rfl, rfl, id⟩

theorem Grows.trans {ctx'' : Context} (h : ctx.Grows ctx') (k : ctx'.Grows ctx'') :
    ctx.Grows ctx'' :=
  ⟨h.le.trans k.le, k.vars.trans h.vars, k.axes.trans h.axes, k.funs.trans h.funs,
    k.wellFormed ∘ h.wellFormed⟩

theorem Grows.fn_eq (h : ctx.Grows ctx') (f : FunId) : ctx'.fn f = ctx.fn f := by
  rw [fn, fn, h.funs]

theorem Grows.axis_eq (h : ctx.Grows ctx') (a : AxisId) : ctx'.axis a = ctx.axis a := by
  rw [axis, axis, h.axes]

theorem Grows.axisVar_eq (h : ctx.Grows ctx') (a : AxisId) : ctx'.axisVar a = ctx.axisVar a := by
  rw [axisVar, axisVar, h.axis_eq]

theorem Grows.callDepth_eq (h : ctx.Grows ctx') : ctx'.callDepth = ctx.callDepth := by
  rw [callDepth, callDepth, h.funs]

end Context

end LoopBounds
