import LoopBounds.Proofs.Context

/-!
# Trees of expressions

A handle stands for the tree that it unfolds to.  What is appended to a context does not change
the trees that are there, and since no node is stored twice, two stored handles with the same tree
are equal.
-/

namespace LoopBounds

/-- An expression written out, without sharing. -/
inductive Tree where
  | const (value : Int64) (type : Scalar)
  | var (v : VarId)
  | arith (op : Arith) (lhs rhs : Tree)
  | compare (op : Comparison) (lhs rhs : Tree)
  | and (lhs rhs : Tree)
  | or (lhs rhs : Tree)
  | not (arg : Tree)
  | call (fn : FunId) (args : List Tree) (dims : List DimId)

namespace Context

def tree (ctx : Context) (e : ExprId) : Tree :=
  match _h : ctx.node e with
  | .const w t => .const w t
  | .var v => .var v
  | .arith op a b => .arith op (ctx.tree a) (ctx.tree b)
  | .compare op a b => .compare op (ctx.tree a) (ctx.tree b)
  | .and a b => .and (ctx.tree a) (ctx.tree b)
  | .or a b => .or (ctx.tree a) (ctx.tree b)
  | .not a => .not (ctx.tree a)
  | .call f args dims => .call f (args.attach.map fun ⟨a, _⟩ => ctx.tree a) dims
termination_by e.index
decreasing_by
  all_goals (apply ctx.child_lt; rw [_h]; simp [Node.children])
  assumption

/-- A node over trees in place of its operands. -/
def unfoldNode (ctx : Context) : Node → Tree
  | .const w t => .const w t
  | .var v => .var v
  | .arith op a b => .arith op (ctx.tree a) (ctx.tree b)
  | .compare op a b => .compare op (ctx.tree a) (ctx.tree b)
  | .and a b => .and (ctx.tree a) (ctx.tree b)
  | .or a b => .or (ctx.tree a) (ctx.tree b)
  | .not a => .not (ctx.tree a)
  | .call f args dims => .call f (args.map ctx.tree) dims

theorem tree_eq_unfoldNode (ctx : Context) (e : ExprId) :
    ctx.tree e = ctx.unfoldNode (ctx.node e) := by
  rw [tree]
  split
  case h_8 f args dims hn =>
    rw [hn, unfoldNode, ← List.attach_map_subtype_val args, List.map_map,
      List.attach_map_subtype_val]
    rfl
  all_goals
    next hn =>
    rw [hn]
    rfl

/-- The expressions of `ctx` stand unchanged at the head of those of `ctx'`. -/
def Appends (ctx ctx' : Context) : Prop := ctx.entries.toList <+: ctx'.entries.toList

variable {ctx ctx' ctx'' : Context} {e a b : ExprId}

theorem Appends.refl (ctx : Context) : ctx.Appends ctx := List.prefix_rfl

theorem Appends.trans (h : ctx.Appends ctx') (h' : ctx'.Appends ctx'') : ctx.Appends ctx'' :=
  List.IsPrefix.trans h h'

theorem Grows.appends (h : ctx.Grows ctx') : ctx.Appends ctx' := h.le.entries

theorem Appends.stored (h : ctx.Appends ctx') (he : ctx.Stored e) : ctx'.Stored e := by
  have hlen := h.length_le
  simp only [Array.length_toList] at hlen
  exact Nat.lt_of_lt_of_le he hlen

theorem Appends.entry_eq (h : ctx.Appends ctx') (he : ctx.Stored e) :
    ctx'.entry e = ctx.entry e := by
  rw [entry, entry, getElem?_of_prefix h he]

theorem Appends.node_eq (h : ctx.Appends ctx') (he : ctx.Stored e) : ctx'.node e = ctx.node e := by
  rw [node, node, h.entry_eq he]

theorem unfoldNode_congr {n : Node} (h : ∀ c ∈ n.children, ctx'.tree c = ctx.tree c) :
    ctx'.unfoldNode n = ctx.unfoldNode n := by
  cases n with
  | const w t => rfl
  | var v => rfl
  | arith op a b | compare op a b | and a b | or a b =>
      simp only [unfoldNode, h a (by simp [Node.children]), h b (by simp [Node.children])]
  | not a => simp only [unfoldNode, h a (by simp [Node.children])]
  | call f args dims => exact congrArg (Tree.call f · dims) (List.map_congr_left h)

theorem Appends.tree_eq {e : ExprId} (h : ctx.Appends ctx') (he : ctx.Stored e) :
    ctx'.tree e = ctx.tree e := by
  rw [tree_eq_unfoldNode, tree_eq_unfoldNode, h.node_eq he]
  exact unfoldNode_congr fun c hc => h.tree_eq (he.child hc)
termination_by e.index
decreasing_by exact ctx.child_lt hc

theorem eq_of_map_tree_eq {as bs : List ExprId}
    (h : ∀ c ∈ as, ∀ d ∈ bs, ctx.tree c = ctx.tree d → c = d)
    (htrees : as.map ctx.tree = bs.map ctx.tree) : as = bs := by
  induction as generalizing bs with
  | nil => exact (List.map_eq_nil_iff.1 htrees.symm).symm
  | cons a as ih =>
      obtain ⟨b, bs, rfl, hb, hbs⟩ := List.map_eq_cons_iff.1 htrees.symm
      have hhead := h a List.mem_cons_self b List.mem_cons_self hb.symm
      have htail := ih (fun c hc d hd => h c (List.mem_cons_of_mem _ hc) d
        (List.mem_cons_of_mem _ hd)) hbs.symm
      rw [hhead, htail]

/-- Nodes with the same tree are equal once their operands are. -/
theorem unfoldNode_inj {m n : Node}
    (h : ∀ c ∈ m.children, ∀ d ∈ n.children, ctx.tree c = ctx.tree d → c = d)
    (htree : ctx.unfoldNode m = ctx.unfoldNode n) : m = n := by
  cases m <;> cases n <;> simp only [unfoldNode, reduceCtorEq, Tree.const.injEq, Tree.var.injEq,
    Tree.arith.injEq, Tree.compare.injEq, Tree.and.injEq, Tree.or.injEq, Tree.not.injEq,
    Tree.call.injEq] at htree
  case const.const => rw [htree.1, htree.2]
  case var.var => rw [htree]
  case arith.arith a b _ a' b' =>
    obtain ⟨rfl, ha, hb⟩ := htree
    rw [h a (by simp [Node.children]) a' (by simp [Node.children]) ha,
      h b (by simp [Node.children]) b' (by simp [Node.children]) hb]
  case compare.compare a b _ a' b' =>
    obtain ⟨rfl, ha, hb⟩ := htree
    rw [h a (by simp [Node.children]) a' (by simp [Node.children]) ha,
      h b (by simp [Node.children]) b' (by simp [Node.children]) hb]
  case and.and a b a' b' =>
    rw [h a (by simp [Node.children]) a' (by simp [Node.children]) htree.1,
      h b (by simp [Node.children]) b' (by simp [Node.children]) htree.2]
  case or.or a b a' b' =>
    rw [h a (by simp [Node.children]) a' (by simp [Node.children]) htree.1,
      h b (by simp [Node.children]) b' (by simp [Node.children]) htree.2]
  case not.not a a' =>
    rw [h a (by simp [Node.children]) a' (by simp [Node.children]) htree]
  case call.call f args dims f' args' dims' =>
    obtain ⟨rfl, hargs, rfl⟩ := htree
    have heq : args = args' := eq_of_map_tree_eq h hargs
    rw [heq]

/-- Stored handles with the same tree are equal. -/
theorem tree_inj {a b : ExprId} (ha : ctx.Stored a) (hb : ctx.Stored b)
    (h : ctx.tree a = ctx.tree b) :
    a = b := by
  apply eq_of_node_eq ha hb
  have htree : ctx.unfoldNode (ctx.node a) = ctx.unfoldNode (ctx.node b) := by
    rwa [← tree_eq_unfoldNode, ← tree_eq_unfoldNode]
  apply unfoldNode_inj _ htree
  intro c hc d hd
  exact tree_inj (ha.child hc) (hb.child hd)
termination_by a.index
decreasing_by exact ctx.child_lt hc

end Context

end LoopBounds
