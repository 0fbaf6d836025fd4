import LoopBounds.IndexFun.Inline
import LoopBounds.Proofs.Parts

/-!
# Unfolding functions

A call is unfolded when its function has a body, one that is affine if only simple functions are
wanted.  Bodies call functions in turn.  There are finitely many functions, so where no chain of
such calls goes on for ever, calls nest no deeper than there are functions.
-/

namespace LoopBounds

theorem not_rel_self_of_acc {α : Type} {R : α → α → Prop} {a : α} (h : Acc R a) : ¬ R a a := by
  induction h with
  | intro a _ ih => exact fun hR => ih a hR hR

namespace Context

variable {ctx ctx' : Context} {onlySimple : Bool} {f g : FunId} {e : ExprId} {v : VarId}

/-- The variable is a parameter of a function. -/
def IsParam (ctx : Context) (v : VarId) : Prop := ∃ f, v ∈ (ctx.fn f).params

/-- The node gives an argument for each dimension of the function that it calls, if it is a
call. -/
def Made (ctx : Context) (n : Node) : Prop :=
  ∀ f args dims, n = .call f args dims →
    args.length = dims.length ∧ ∀ d ∈ (ctx.fn f).dims, d ∈ dims

/-- What declaring a function makes sure of: there is a parameter for each dimension, and the body
mentions parameters only. -/
structure Declared (ctx : Context) (f : FunId) : Prop where
  arity : (ctx.fn f).params.length = (ctx.fn f).dims.length
  closed : ∀ body, (ctx.fn f).body? = some body → ∀ v ∈ ctx.freeVars body, v ∈ (ctx.fn f).params

/-- Calls of the function are replaced by its body. -/
def Unfolds (ctx : Context) (onlySimple : Bool) (f : FunId) : Prop :=
  ¬ ((ctx.fn f).body?.isNone ∨ (onlySimple ∧ ctx.isComplex f))

/-- The body of `f` calls `g`, which is unfolded in turn. -/
def LeadsTo (ctx : Context) (onlySimple : Bool) (f g : FunId) : Prop :=
  ∃ body c args dims, (ctx.fn f).body? = some body ∧ ctx.Within body c ∧
    ctx.node c = .call g args dims ∧ ctx.Unfolds onlySimple g

/-- Calls that are unfolded nest less than `n` deep in `f`. -/
def NestsWithin (ctx : Context) (onlySimple : Bool) : Nat → FunId → Prop
  | 0, _ => False
  | n + 1, f => ∀ g, ctx.LeadsTo onlySimple f g → ctx.NestsWithin onlySimple n g

/-- The function that the node calls, if it is unfolded, nests less than `n` deep. -/
def Nests (ctx : Context) (onlySimple : Bool) (n : Nat) (node : Node) : Prop :=
  ∀ f args dims, node = .call f args dims → ctx.Unfolds onlySimple f →
    ctx.NestsWithin onlySimple n f

/-! ## Growth -/

theorem isAffine_def (ctx : Context) (e : ExprId) : ctx.isAffine e =
    match ctx.node e with
    | .const .. | .var _ => true
    | .arith .add a b | .arith .sub a b => ctx.isAffine a && ctx.isAffine b
    | .arith .mul a b =>
      ((ctx.literal? a).isSome && ctx.isAffine b) || ((ctx.literal? b).isSome && ctx.isAffine a)
    | _ => false := by
  rw [isAffine]
  split <;> simp_all

theorem isAffine_eq (h : ctx ≤ ctx') (e : ExprId) (he : ctx.Stored e) :
    ctx'.isAffine e = ctx.isAffine e := by
  have operand : ∀ c ∈ (ctx.node e).children, ctx'.isAffine c = ctx.isAffine c ∧
      ctx'.literal? c = ctx.literal? c := fun c hc =>
    ⟨isAffine_eq h c (he.child hc), literal?_eq h (he.child hc)⟩
  rw [isAffine_def, isAffine_def, node_eq h he]
  cases hn : ctx.node e with
  | arith op a b =>
      obtain ⟨ha, hla⟩ := operand a (by simp [hn, Node.children])
      obtain ⟨hb, hlb⟩ := operand b (by simp [hn, Node.children])
      cases op <;> simp only [ha, hla, hb, hlb]
  | _ => rfl
termination_by e.index
decreasing_by exact ctx.child_lt hc

theorem Grows.isComplex_eq (h : ctx.Grows ctx') (hwf : ctx.WellFormed) (f : FunId) :
    ctx'.isComplex f = ctx.isComplex f := by
  rw [isComplex, isComplex, h.fn_eq]
  cases hbody : (ctx.fn f).body? with
  | none => rfl
  | some body => exact congrArg not (isAffine_eq h.le body (hwf.body f body hbody))

theorem Grows.isParam (h : ctx.Grows ctx') : ctx'.IsParam v ↔ ctx.IsParam v := by
  simp only [IsParam, h.fn_eq]

theorem Grows.made (h : ctx.Grows ctx') {n : Node} : ctx'.Made n ↔ ctx.Made n := by
  simp only [Made, h.fn_eq]

theorem Grows.unfolds (h : ctx.Grows ctx') (hwf : ctx.WellFormed) :
    ctx'.Unfolds onlySimple f ↔ ctx.Unfolds onlySimple f := by
  rw [Unfolds, Unfolds, h.fn_eq, h.isComplex_eq hwf]

theorem Grows.leadsTo (h : ctx.Grows ctx') (hwf : ctx.WellFormed)
    (hlead : ctx'.LeadsTo onlySimple f g) : ctx.LeadsTo onlySimple f g := by
  obtain ⟨body, c, args, dims, hbody, hc, hn, hg⟩ := hlead
  rw [h.fn_eq] at hbody
  have hstored := hwf.body f body hbody
  have hc := hc.restrict h.le hstored
  rw [node_eq h.le (hc.stored hstored)] at hn
  exact ⟨body, c, args, dims, hbody, hc, hn, (h.unfolds hwf).1 hg⟩

theorem Grows.nestsWithin (h : ctx.Grows ctx') (hwf : ctx.WellFormed) {n : Nat}
    (hf : ctx.NestsWithin onlySimple n f) : ctx'.NestsWithin onlySimple n f := by
  induction n generalizing f with
  | zero => exact hf
  | succ n ih => exact fun g hg => ih (hf g (h.leadsTo hwf hg))

theorem Grows.nests (h : ctx.Grows ctx') (hwf : ctx.WellFormed) {n : Nat} {node : Node}
    (hn : ctx.Nests onlySimple n node) : ctx'.Nests onlySimple n node :=
  fun f args dims hnode hf => h.nestsWithin hwf (hn f args dims hnode ((h.unfolds hwf).1 hf))

theorem Declared.mono (h : ctx.Declared f) (hg : ctx.Grows ctx') (hwf : ctx.WellFormed) :
    ctx'.Declared f := by
  refine ⟨?_, fun body hbody v hv => ?_⟩
  · rw [hg.fn_eq]
    exact h.arity
  · rw [hg.fn_eq] at hbody ⊢
    have hstored := hwf.body f body hbody
    obtain ⟨c, hc, hn⟩ := mem_freeVars.1 hv
    have hc := hc.restrict hg.le hstored
    rw [node_eq hg.le (hc.stored hstored)] at hn
    exact h.closed body hbody v (mem_freeVars.2 ⟨c, hc, hn⟩)

theorem index_lt_of_mem_params (hv : v ∈ (ctx.fn f).params) : f.index < ctx.funs.size := by
  by_contra hf
  rw [fn, Array.getElem?_eq_none (Nat.le_of_not_lt hf)] at hv
  cases hv

theorem IsParam.mono (hctx : ctx ≤ ctx') (h : ctx.IsParam v) : ctx'.IsParam v := by
  obtain ⟨f, hv⟩ := h
  exact ⟨f, (hctx.fn f (index_lt_of_mem_params hv)).params ▸ hv⟩

theorem Declared.restrict (hctx : ctx ≤ ctx') (hwf : ctx.WellFormed)
    (hf : f.index < ctx.funs.size) (h : ctx'.Declared f) : ctx.Declared f := by
  have hrefines := hctx.fn f hf
  refine ⟨?_, fun body hbody v hv => ?_⟩
  · rw [← hrefines.params, ← hrefines.dims]
    exact h.arity
  · rw [← hrefines.params]
    exact h.closed body (hrefines.body body hbody) v
      (freeVars_subset hctx (hwf.body f body hbody) hv)

/-! ## Depth -/

theorem NestsWithin.mono {m n : Nat} (hmn : m ≤ n) (h : ctx.NestsWithin onlySimple m f) :
    ctx.NestsWithin onlySimple n f := by
  induction m generalizing n f with
  | zero => exact h.elim
  | succ m ih =>
      obtain ⟨n, rfl⟩ : ∃ k, n = k + 1 := Nat.exists_eq_succ_of_ne_zero (by omega)
      exact fun g hg => ih (by omega) (h g hg)

/-- A function whose calls do not lead on for ever nests within any set of functions that holds
what it leads to. -/
theorem nestsWithin_of_acc (h : Acc (fun g f => ctx.LeadsTo onlySimple f g) f) (s : Finset FunId)
    (hf : f ∈ s) (hs : ∀ f ∈ s, ∀ g, ctx.LeadsTo onlySimple f g → g ∈ s) :
    ctx.NestsWithin onlySimple s.card f := by
  classical
  induction h generalizing s with
  | intro f hacc ih =>
      obtain ⟨n, hn⟩ : ∃ n, s.card = n + 1 :=
        Nat.exists_eq_succ_of_ne_zero (Finset.card_ne_zero_of_mem hf)
      rw [hn]
      intro g hg
      -- What `g` leads to does not lead back to `f`.
      let reached := s.filter (Relation.ReflTransGen (ctx.LeadsTo onlySimple) g)
      have hnot : ¬ Relation.ReflTransGen (ctx.LeadsTo onlySimple) g f := fun hback =>
        not_rel_self_of_acc (Acc.intro f hacc).transGen
          (Relation.transGen_swap.2 (Relation.TransGen.head' hg hback))
      have hcard : reached.card ≤ n := by
        have hlt : reached.card < s.card :=
          Finset.card_lt_card (Finset.filter_ssubset.2 ⟨f, hf, hnot⟩)
        omega
      refine (ih g hg reached ?_ ?_).mono hcard
      · exact Finset.mem_filter.2 ⟨hs f hf g hg, .refl⟩
      · intro a ha b hb
        obtain ⟨has, hga⟩ := Finset.mem_filter.1 ha
        exact Finset.mem_filter.2 ⟨hs a has b hb, hga.tail hb⟩

/-- Where calls do not lead on for ever they nest less deep than there are functions. -/
theorem nestsWithin_funs (hwf : ctx.WellFormed) (hf : f.index < ctx.funs.size)
    (h : Acc (fun g f => ctx.LeadsTo onlySimple f g) f) :
    ctx.NestsWithin onlySimple ctx.funs.size f := by
  let ids : Finset FunId := (Finset.range ctx.funs.size).map ⟨Handle.mk, fun _ _ => Handle.mk.inj⟩
  have hmem : ∀ g : FunId, g ∈ ids ↔ g.index < ctx.funs.size := by
    rintro ⟨i⟩
    rw [Finset.mem_map]
    constructor
    · rintro ⟨j, hj, hji⟩
      cases hji
      exact Finset.mem_range.1 hj
    · exact fun hi => ⟨i, Finset.mem_range.2 hi, rfl⟩
  have hcard : ids.card = ctx.funs.size := by simp [ids]
  rw [← hcard]
  refine nestsWithin_of_acc h ids ((hmem f).2 hf) fun a _ b hb => (hmem b).2 ?_
  obtain ⟨body, c, args, dims, -, -, hn, -⟩ := hb
  exact hwf.call c b args dims hn

theorem funs_size_le_callDepth : ctx.funs.size ≤ ctx.callDepth := by
  rw [callDepth]
  omega

/-! ## Checks -/

theorem forall_node {p : Node → Prop} (hconst : p (.const 0 .bool))
    (h : ∀ i < ctx.size, p (ctx.node ⟨i⟩)) (e : ExprId) : p (ctx.node e) := by
  by_cases he : ctx.Stored e
  · exact h e.index he
  · exact node_of_not_stored he ▸ hconst

theorem forall_fn {p : FunId → Prop} (h : ∀ i < ctx.funs.size, p ⟨i⟩)
    (hdefault : ∀ f, ctx.fn f = default → p f) (f : FunId) : p f := by
  by_cases hf : f.index < ctx.funs.size
  · exact h f.index hf
  · apply hdefault
    rw [fn, Array.getElem?_eq_none (Nat.le_of_not_lt hf)]
    rfl

instance (ctx : Context) (n : Node) : Decidable (ctx.Made n) :=
  match n with
  | .call f args dims =>
    decidable_of_iff (args.length = dims.length ∧ ∀ d ∈ (ctx.fn f).dims, d ∈ dims)
      ⟨fun h _ _ _ hn => by cases hn; exact h, fun h => h f args dims rfl⟩
  | .const .. | .var _ | .arith .. | .compare .. | .and .. | .or .. | .not _ => isTrue nofun

instance (ctx : Context) (f : FunId) : Decidable (ctx.Declared f) :=
  decidable_of_iff ((ctx.fn f).params.length = (ctx.fn f).dims.length ∧
      ∀ body ∈ (ctx.fn f).body?, ∀ v ∈ ctx.freeVars body, v ∈ (ctx.fn f).params)
    ⟨fun h => ⟨h.1, h.2⟩, fun h => ⟨h.1, h.2⟩⟩

instance (ctx : Context) (v : VarId) : Decidable (ctx.IsParam v) :=
  decidable_of_iff (∃ i < ctx.funs.size, v ∈ (ctx.fn ⟨i⟩).params) <| by
    exact ⟨fun ⟨i, _, hv⟩ => ⟨⟨i⟩, hv⟩, fun ⟨f, hv⟩ => ⟨f.index, index_lt_of_mem_params hv, hv⟩⟩

theorem declared_of_default (h : ctx.fn f = default) : ctx.Declared f := by
  refine ⟨by rw [h]; rfl, fun body hbody => ?_⟩
  rw [h] at hbody
  cases hbody

/-- Functions that only call functions declared before them do not lead on for ever. -/
theorem acc_of_lower (h : ∀ i < ctx.funs.size, ∀ body ∈ (ctx.fn ⟨i⟩).body?,
      ∀ c ∈ (ctx.subexprs body).toList, ∀ g ∈ (ctx.node c).callee?, g.index < i) (f : FunId) :
    Acc (fun g f => ctx.LeadsTo onlySimple f g) f := by
  refine ⟨f, fun g ⟨body, c, args, dims, hbody, hc, hn, _⟩ => ?_⟩
  have hf : f.index < ctx.funs.size := by
    by_contra hf
    rw [fn, Array.getElem?_eq_none (Nat.le_of_not_lt hf)] at hbody
    cases hbody
  have hlt : g.index < f.index :=
    h f.index hf body hbody c (Std.TreeSet.mem_toList.2 (mem_subexprs.2 hc)) g (by rw [hn]; rfl)
  exact acc_of_lower h g
termination_by f.index

end Context

end LoopBounds
