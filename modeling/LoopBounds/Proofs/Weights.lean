import LoopBounds.Proofs.Affine
import LoopBounds.Proofs.Tree

/-!
# Weights of expressions

The connectives of an expression, written out as a tree, are counted in two ways: all of them, or
those nested in one another.  Both counts give an expression with two operands the join of what
these weigh, and affine forms are treated with any such join: no arithmetic on forms makes them
heavier.
-/

namespace LoopBounds

/-- A way to join the weights of operands. -/
structure Join where
  op : Nat → Nat → Nat
  comm : ∀ m n, op m n = op n m
  assoc : ∀ m n k, op (op m n) k = op m (op n k)
  zero : ∀ n, op 0 n = n
  mono : ∀ {m n} (k), m ≤ n → op m k ≤ op n k

namespace Join

/-- Everything is counted. -/
def sum : Join := ⟨(· + ·), Nat.add_comm, Nat.add_assoc, Nat.zero_add, fun k h => by omega⟩

/-- The heaviest operand counts. -/
def max : Join :=
  ⟨Nat.max, Nat.max_comm, Nat.max_assoc, Nat.zero_max, fun _ h => max_le_max h le_rfl⟩

variable (j : Join) {m n k m' n' : Nat}

theorem op_le_op (hm : m ≤ m') (hn : n ≤ n') : j.op m n ≤ j.op m' n' := by
  calc j.op m n ≤ j.op m' n := j.mono n hm
    _ = j.op n m' := j.comm m' n
    _ ≤ j.op n' m' := j.mono m' hn
    _ = j.op m' n' := j.comm n' m'

theorem op_zero (n : Nat) : j.op n 0 = n := by rw [j.comm, j.zero]

theorem le_left (m n : Nat) : m ≤ j.op m n := by
  calc m = j.op m 0 := (j.op_zero m).symm
    _ ≤ j.op m n := j.op_le_op le_rfl (Nat.zero_le n)

theorem le_right (m n : Nat) : n ≤ j.op m n := j.comm n m ▸ j.le_left n m

/-- The joined weight of a list. -/
def total {α : Type} (weight : α → Nat) (xs : List α) : Nat :=
  xs.foldr (fun x n => j.op (weight x) n) 0

variable {α β : Type} {weight weight' : α → Nat} {x : α} {xs : List α}

@[simp] theorem total_nil : j.total weight [] = 0 := rfl

@[simp] theorem total_cons (x : α) (xs : List α) :
    j.total weight (x :: xs) = j.op (weight x) (j.total weight xs) := rfl

theorem total_map (f : β → α) (ys : List β) :
    j.total weight (ys.map f) = j.total (fun y => weight (f y)) ys := by
  induction ys with
  | nil => rfl
  | cons y ys ih => rw [List.map_cons, total_cons, total_cons, ih]

theorem total_congr (h : ∀ x ∈ xs, weight' x = weight x) :
    j.total weight' xs = j.total weight xs := by
  induction xs with
  | nil => rfl
  | cons x xs ih =>
      rw [total_cons, total_cons, h x List.mem_cons_self,
        ih fun y hy => h y (List.mem_cons_of_mem x hy)]

theorem total_le {weight' : β → Nat} {ys : List β}
    (h : List.Forall₂ (fun x y => weight' y ≤ weight x) xs ys) :
    j.total weight' ys ≤ j.total weight xs := by
  induction h with
  | nil => exact le_rfl
  | cons hhead _ ih => exact j.op_le_op hhead ih

/-- Two parts of a list that share no member weigh no more than the whole. -/
theorem total_filter_le {p q : α → Bool} (hpq : ∀ x, p x → ¬ q x) (xs : List α) :
    j.op (j.total weight (xs.filter p)) (j.total weight (xs.filter q)) ≤ j.total weight xs := by
  induction xs with
  | nil => rw [List.filter_nil, List.filter_nil, total_nil, j.zero]
  | cons x xs ih =>
      rw [List.filter_cons, List.filter_cons]
      by_cases hp : p x
      · rw [if_pos hp, if_neg (hpq x hp), total_cons, total_cons, j.assoc]
        exact j.op_le_op le_rfl ih
      · rw [if_neg hp]
        by_cases hq : q x
        · rw [if_pos hq, total_cons, total_cons, ← j.assoc, j.comm _ (weight x), j.assoc]
          exact j.op_le_op le_rfl ih
        · rw [if_neg hq, total_cons]
          exact ih.trans (j.le_right _ _)

end Join

/-! ## Weights of trees -/

mutual

/-- The connectives of a tree, joined by `j`. -/
def Tree.weight (j : Join) : Tree → Nat
  | .const _ _ | .var _ => 0
  | .arith _ a b | .compare _ a b => j.op (a.weight j) (b.weight j)
  | .and a b | .or a b => j.op (a.weight j) (b.weight j) + 1
  | .not a => a.weight j + 1
  | .call _ args _ => Tree.listWeight j args

def Tree.listWeight (j : Join) : List Tree → Nat
  | [] => 0
  | t :: ts => j.op (t.weight j) (Tree.listWeight j ts)

end

theorem Tree.listWeight_eq_total (j : Join) (ts : List Tree) :
    Tree.listWeight j ts = j.total (Tree.weight j) ts := by
  induction ts with
  | nil => rw [Tree.listWeight, Join.total_nil]
  | cons t ts ih => rw [Tree.listWeight, Join.total_cons, ih]

namespace Context

/-- The connectives of an expression, written out as a tree and joined by `j`. -/
def weight (ctx : Context) (j : Join) (e : ExprId) : Nat := (ctx.tree e).weight j

/-- The number of connectives of an expression, written out as a tree. -/
def connectives (ctx : Context) (e : ExprId) : Nat := ctx.weight .sum e

/-- How deep the connectives of an expression are nested. -/
def nesting (ctx : Context) (e : ExprId) : Nat := ctx.weight .max e

/-- What a node weighs over its operands. -/
def nodeWeight (ctx : Context) (j : Join) : Node → Nat
  | .const _ _ | .var _ => 0
  | .arith _ a b | .compare _ a b => j.op (ctx.weight j a) (ctx.weight j b)
  | .and a b | .or a b => j.op (ctx.weight j a) (ctx.weight j b) + 1
  | .not a => ctx.weight j a + 1
  | .call _ args _ => j.total (ctx.weight j) args

variable {ctx ctx' : Context} {j : Join} {e a b : ExprId} {n : Node}

theorem weight_eq_nodeWeight (ctx : Context) (j : Join) (e : ExprId) :
    ctx.weight j e = ctx.nodeWeight j (ctx.node e) := by
  rw [weight, tree_eq_unfoldNode]
  cases ctx.node e with
  | const w t | var v => simp only [unfoldNode, Tree.weight, nodeWeight]
  | arith op a b | compare op a b | and a b | or a b =>
      simp only [unfoldNode, Tree.weight, nodeWeight, weight]
  | not a => simp only [unfoldNode, Tree.weight, nodeWeight, weight]
  | call f args dims =>
      rw [unfoldNode, Tree.weight, Tree.listWeight_eq_total, Join.total_map, nodeWeight]
      rfl

theorem weight_of_node (h : ctx.node e = n) : ctx.weight j e = ctx.nodeWeight j n :=
  h ▸ weight_eq_nodeWeight ctx j e

theorem Appends.weight_eq (h : ctx.Appends ctx') (he : ctx.Stored e) :
    ctx'.weight j e = ctx.weight j e := by
  rw [weight, weight, h.tree_eq he]

theorem Appends.nodeWeight_eq (h : ctx.Appends ctx') (hn : ∀ c ∈ n.children, ctx.Stored c) :
    ctx'.nodeWeight j n = ctx.nodeWeight j n := by
  cases n with
  | const w t | var v => rfl
  | arith op a b | compare op a b | and a b | or a b =>
      rw [nodeWeight, nodeWeight, h.weight_eq (hn a (by simp [Node.children])),
        h.weight_eq (hn b (by simp [Node.children]))]
  | not a => rw [nodeWeight, nodeWeight, h.weight_eq (hn a (by simp [Node.children]))]
  | call f args dims =>
      exact j.total_congr fun a ha => h.weight_eq (hn a (by simpa [Node.children] using ha))

/-- An expression nests its connectives no deeper than the expressions before it reach. -/
theorem nesting_le_index (ctx : Context) (e : ExprId) : ctx.nesting e ≤ e.index := by
  have hchild : ∀ c ∈ (ctx.node e).children, ctx.weight .max c + 1 ≤ e.index := fun c hc =>
    Nat.succ_le_of_lt ((nesting_le_index ctx c).trans_lt (ctx.child_lt hc))
  rw [nesting, weight_eq_nodeWeight]
  cases hn : ctx.node e with
  | const w t | var v => exact Nat.zero_le _
  | arith op a b | compare op a b =>
      have ha := hchild a (by simp [hn, Node.children])
      have hb := hchild b (by simp [hn, Node.children])
      exact Nat.max_le.2 ⟨Nat.le_of_succ_le ha, Nat.le_of_succ_le hb⟩
  | and a b | or a b =>
      have ha := hchild a (by simp [hn, Node.children])
      have hb := hchild b (by simp [hn, Node.children])
      exact Nat.succ_le_of_lt (Nat.max_lt.2 ⟨ha, hb⟩)
  | not a => exact hchild a (by simp [hn, Node.children])
  | call f args dims =>
      have hargs : ∀ as : List ExprId, (∀ a ∈ as, ctx.weight .max a + 1 ≤ e.index) →
          Join.max.total (ctx.weight .max) as ≤ e.index := by
        intro as has
        induction as with
        | nil => exact Nat.zero_le _
        | cons a as ih =>
            have hhead := has a List.mem_cons_self
            have htail := ih fun c hc => has c (List.mem_cons_of_mem a hc)
            exact Nat.max_le.2 ⟨by omega, htail⟩
      exact hargs args fun a ha => hchild a (by simpa [hn, Node.children] using ha)
termination_by e.index
decreasing_by exact ctx.child_lt hc

/-- The expression is stored and weighs at most `w`, however weights are joined. -/
structure AtMost (ctx : Context) (e : ExprId) (w : Join → Nat) : Prop where
  stored : ctx.Stored e
  weight_le : ∀ j, ctx.weight j e ≤ w j

theorem AtMost.mono {w w' : Join → Nat} (h : ctx.AtMost e w) (hctx : ctx.Appends ctx')
    (hw : ∀ j, w j ≤ w' j) : ctx'.AtMost e w' :=
  ⟨hctx.stored h.stored, fun j => hctx.weight_eq h.stored ▸ (h.weight_le j).trans (hw j)⟩

/-- The parts of a conjunction weigh less. -/
theorem AtMost.parts_lt {w : Join → Nat} {a b : ExprId} (h : ctx.AtMost e w)
    (hn : ctx.node e = .and a b) (j : Join) : ctx.weight j a < w j ∧ ctx.weight j b < w j := by
  have hle := h.weight_le j
  rw [weight_of_node hn, nodeWeight] at hle
  exact ⟨(Nat.lt_succ_of_le (j.le_left _ _)).trans_le hle,
    (Nat.lt_succ_of_le (j.le_right _ _)).trans_le hle⟩

theorem atMost_self (he : ctx.Stored e) : ctx.AtMost e (ctx.weight · e) := ⟨he, fun _ => le_rfl⟩

end Context

/-! ## Weights of affine forms -/

namespace Affine

variable {ctx ctx' : Context} {e : ExprId} {f g h : Affine} {w w' : Join → Nat}

/-- The atoms of the form are stored and weigh at most `w` together. -/
structure AtMost (ctx : Context) (f : Affine) (w : Join → Nat) : Prop where
  stored : ∀ t ∈ f.terms, ctx.Stored t.1
  weight_le : ∀ j : Join, j.total (fun t => ctx.weight j t.1) f.terms ≤ w j

theorem AtMost.mono (h : AtMost ctx f w) (hctx : ctx.Appends ctx') (hw : ∀ j, w j ≤ w' j) :
    AtMost ctx' f w' := by
  refine ⟨fun t ht => hctx.stored (h.stored t ht), fun j => ?_⟩
  rw [j.total_congr fun t ht => hctx.weight_eq (h.stored t ht)]
  exact (h.weight_le j).trans (hw j)

theorem atMost_ofConst (ctx : Context) (c : Int64) (w : Join → Nat) : AtMost ctx (ofConst c) w :=
  ⟨nofun, fun _ => Nat.zero_le _⟩

theorem atMost_atom (he : ctx.AtMost e w) : AtMost ctx (atom e) w := by
  refine ⟨fun t ht => ?_, fun j => ?_⟩
  · rw [List.mem_singleton.1 ht]
    exact he.stored
  · rw [atom, Join.total_cons, Join.total_nil, j.op_zero]
    exact he.weight_le j

theorem total_addTerms (j : Join) (weight : ExprId → Nat) {xs ys zs : List (ExprId × Int64)}
    (hz : addTerms xs ys = some zs) : j.total (fun t => weight t.1) zs ≤
      j.op (j.total (fun t => weight t.1) xs) (j.total (fun t => weight t.1) ys) := by
  fun_induction addTerms xs ys generalizing zs with
  | case1 ys =>
      cases hz
      exact j.le_right _ _
  | case2 xs _ =>
      cases hz
      exact j.le_left _ _
  | case3 e a xs f b ys hlt ih =>
      obtain ⟨rest, hrest, hz⟩ := Option.bind_eq_some_iff.1 hz
      cases hz
      rw [Join.total_cons, Join.total_cons, j.assoc]
      exact j.op_le_op le_rfl (ih hrest)
  | case4 e a xs f b ys hlt hgt ih =>
      obtain ⟨rest, hrest, hz⟩ := Option.bind_eq_some_iff.1 hz
      cases hz
      rw [Join.total_cons, j.total_cons _ ys, ← j.assoc, j.comm _ (weight f), j.assoc]
      exact j.op_le_op le_rfl (ih hrest)
  | case5 e a xs f b ys hlt hgt ih =>
      obtain ⟨c, hc, hz⟩ := Option.bind_eq_some_iff.1 hz
      obtain ⟨rest, hrest, hz⟩ := Option.bind_eq_some_iff.1 hz
      have hrest := ih hrest
      have htails := j.op_le_op (j.le_right (weight e) (j.total (fun t => weight t.1) xs))
        (j.le_right (weight f) (j.total (fun t => weight t.1) ys))
      split at hz
      · cases hz
        exact hrest.trans htails
      · cases hz
        rw [Join.total_cons, Join.total_cons, Join.total_cons, j.assoc]
        exact j.op_le_op le_rfl (hrest.trans (j.op_le_op le_rfl (j.le_right _ _)))

theorem atMost_add (hf : AtMost ctx f w) (hg : AtMost ctx g w') (hh : f.add g = some h) :
    AtMost ctx h fun j => j.op (w j) (w' j) := by
  obtain ⟨ts, hts, hh⟩ := Option.bind_eq_some_iff.1 hh
  obtain ⟨c, hc, hh⟩ := Option.bind_eq_some_iff.1 hh
  cases hh
  refine ⟨fun t ht => ?_, fun j => ?_⟩
  · obtain ⟨u, hu, hut⟩ := mem_addTerms hts ht
    exact hut ▸ hu.elim (hf.stored u) (hg.stored u)
  · exact (total_addTerms j (ctx.weight j) hts).trans (j.op_le_op (hf.weight_le j) (hg.weight_le j))

theorem atoms_scaleTerms {c : Int64} {xs ys : List (ExprId × Int64)}
    (h : (xs.mapM fun (e, a) => return (e, ← Word.mul a c)) = some ys) :
    ys.map Prod.fst = xs.map Prod.fst := by
  induction xs generalizing ys with
  | nil =>
      cases h
      rfl
  | cons x xs ih =>
      rw [List.mapM_cons] at h
      obtain ⟨y, hy, h⟩ := Option.bind_eq_some_iff.1 h
      obtain ⟨a, -, hy⟩ := Option.bind_eq_some_iff.1 hy
      obtain ⟨rest, hrest, h⟩ := Option.bind_eq_some_iff.1 h
      cases hy
      cases h
      rw [List.map_cons, List.map_cons, ih hrest]

/-- A form weighs as much as its atoms. -/
theorem AtMost.of_atoms (hf : AtMost ctx f w)
    (hatoms : g.terms.map Prod.fst = f.terms.map Prod.fst) : AtMost ctx g w := by
  refine ⟨fun t ht => ?_, fun j => ?_⟩
  · have hmem : t.1 ∈ f.terms.map Prod.fst := hatoms ▸ List.mem_map_of_mem ht
    obtain ⟨u, hu, hut⟩ := List.mem_map.1 hmem
    exact hut ▸ hf.stored u hu
  · have htotal : j.total (ctx.weight j) (g.terms.map Prod.fst) =
        j.total (fun t => ctx.weight j t.1) g.terms := j.total_map Prod.fst g.terms
    rw [hatoms, j.total_map] at htotal
    exact htotal ▸ hf.weight_le j

theorem atMost_scale {c : Int64} (hf : AtMost ctx f w) (hg : f.scale c = some g) :
    AtMost ctx g w := by
  rw [scale] at hg
  split at hg
  · cases hg
    exact atMost_ofConst ctx 0 w
  · obtain ⟨ts, hts, hg⟩ := Option.bind_eq_some_iff.1 hg
    obtain ⟨k, -, hg⟩ := Option.bind_eq_some_iff.1 hg
    cases hg
    exact hf.of_atoms (atoms_scaleTerms hts)

theorem atMost_sub (hf : AtMost ctx f w) (hg : AtMost ctx g w') (hh : f.sub g = some h) :
    AtMost ctx h fun j => j.op (w j) (w' j) := by
  obtain ⟨k, hk, hh⟩ := Option.bind_eq_some_iff.1 hh
  exact atMost_add hf (atMost_scale hg hk) hh

/-- Every atom goes either into the quotient or into the remainder. -/
theorem atMost_splitBy (hf : AtMost ctx f w) (d : Int64) : ∃ u v : Join → Nat,
    AtMost ctx (f.splitBy d).1 u ∧ AtMost ctx (f.splitBy d).2 v ∧ ∀ j, j.op (u j) (v j) ≤ w j := by
  have hparts : f.terms.partition (fun t => t.2 % d = 0) =
      (f.terms.filter (fun t => t.2 % d = 0), f.terms.filter (not ∘ fun t => t.2 % d = 0)) :=
    List.partition_eq_filter_filter
  refine ⟨fun j => j.total (fun t => ctx.weight j t.1) (f.terms.filter fun t => t.2 % d = 0),
    fun j => j.total (fun t => ctx.weight j t.1) (f.terms.filter (not ∘ fun t => t.2 % d = 0)),
    ?_, ?_, fun j => ?_⟩
  · refine AtMost.of_atoms (f := ⟨f.terms.filter fun t => t.2 % d = 0, 0⟩)
      ⟨fun t ht => hf.stored t (List.mem_of_mem_filter ht), fun j => le_rfl⟩ ?_
    rw [splitBy, hparts, List.map_map]
    rfl
  · refine AtMost.of_atoms (f := ⟨f.terms.filter (not ∘ fun t => t.2 % d = 0), 0⟩)
      ⟨fun t ht => hf.stored t (List.mem_of_mem_filter ht), fun j => le_rfl⟩ ?_
    rw [splitBy, hparts]
  · refine (j.total_filter_le (fun t ht => ?_) f.terms).trans (hf.weight_le j)
    simp only [Function.comp_apply, ht, Bool.not_true, Bool.false_eq_true, not_false_eq_true]

/-- Reading an expression as a form makes nothing heavier. -/
theorem atMost_ofExpr (he : ctx.Stored e) : AtMost ctx (ofExpr ctx e) (ctx.weight · e) := by
  have hforms : ctx.Stored e → AtMost ctx (ofExpr ctx e) (ctx.weight · e) := by
    refine ofExpr_induction ctx (M := fun e f => ctx.Stored e → AtMost ctx f (ctx.weight · e))
      (fun e he => atMost_atom (Context.atMost_self he)) (fun e w t _ _ => atMost_ofConst ctx w _)
      ?_ ?_ ?_ ?_ e
    · intro e a b f g h hn hf hg hh he
      have hsum := atMost_add (hf (he.child (by simp [hn, Node.children])))
        (hg (he.child (by simp [hn, Node.children]))) hh
      exact hsum.mono (.refl ctx) fun j => (Context.weight_of_node hn).ge
    · intro e a b f g h hn hf hg hh he
      have hdiff := atMost_sub (hf (he.child (by simp [hn, Node.children])))
        (hg (he.child (by simp [hn, Node.children]))) hh
      exact hdiff.mono (.refl ctx) fun j => (Context.weight_of_node hn).ge
    · intro e a b f c h hn _ hf hh he
      have hscaled := atMost_scale (hf (he.child (by simp [hn, Node.children]))) hh
      refine hscaled.mono (.refl ctx) fun j => ?_
      rw [Context.weight_of_node hn]
      exact j.le_left _ _
    · intro e a b f c h hn _ hf hh he
      have hscaled := atMost_scale (hf (he.child (by simp [hn, Node.children]))) hh
      refine hscaled.mono (.refl ctx) fun j => ?_
      rw [Context.weight_of_node hn]
      exact j.le_right _ _
  exact hforms he

end Affine

end LoopBounds
