import LoopBounds.Proofs.Parts
import LoopBounds.Proofs.Rewriting
import LoopBounds.Proofs.TruthValues

/-!
# Rebuilding a node

A node that is rebuilt over other operands is a literal, one of the operands, what an operand
negates, or a node of the same kind.  Whichever it is, it evaluates to what the old node
evaluates to where the new operands evaluate to what the old ones do.
-/

namespace LoopBounds

namespace Node

def withChildren : Node → List ExprId → Node
  | .arith op _ _, [a, b] => .arith op a b
  | .compare op _ _, [a, b] => .compare op a b
  | .and _ _, [a, b] => .and a b
  | .or _ _, [a, b] => .or a b
  | .not _, [a] => .not a
  | .call f _ dims, args => .call f args dims
  | node, _ => node

@[simp] theorem withChildren_children (n : Node) : n.withChildren n.children = n := by
  cases n <;> rfl

theorem children_withChildren {n : Node} {operands : List ExprId}
    (hlen : operands.length = n.children.length) :
    (n.withChildren operands).children = operands := by
  cases n with
  | const w t | var v => exact (List.length_eq_zero_iff.1 hlen).symm
  | arith op c d | compare op c d | and c d | or c d =>
      obtain ⟨a, b, rfl⟩ := List.length_eq_two.1 hlen
      rfl
  | not c =>
      obtain ⟨a, rfl⟩ := List.length_eq_one_iff.1 hlen
      rfl
  | call f args dims => rfl

/-- A node gets its operands back. -/
theorem withChildren_withChildren {n : Node} {operands : List ExprId}
    (hlen : operands.length = n.children.length) :
    (n.withChildren operands).withChildren n.children = n := by
  cases n with
  | const w t | var v => rw [List.length_eq_zero_iff.1 hlen]; rfl
  | arith op c d | compare op c d | and c d | or c d =>
      obtain ⟨a, b, rfl⟩ := List.length_eq_two.1 hlen
      rfl
  | not c =>
      obtain ⟨a, rfl⟩ := List.length_eq_one_iff.1 hlen
      rfl
  | call f args dims => rfl

theorem withChildren_eq_var {n : Node} {operands : List ExprId} {v : VarId} :
    n.withChildren operands = .var v ↔ n = .var v := by
  unfold withChildren
  split <;> simp

theorem of_withChildren_eq_not {n : Node} {operands : List ExprId} {a : ExprId}
    (hlen : operands.length = n.children.length) (h : n.withChildren operands = .not a) :
    operands = [a] :=
  (children_withChildren hlen).symm.trans (congrArg children h)

theorem of_withChildren_eq_call {n : Node} {operands args : List ExprId} {f : FunId}
    {dims : List DimId} (hlen : operands.length = n.children.length)
    (h : n.withChildren operands = .call f args dims) :
    ∃ args', n = .call f args' dims ∧ args'.length = args.length := by
  have hargs : operands = args := (children_withChildren hlen).symm.trans (congrArg children h)
  have hn := withChildren_withChildren hlen
  rw [h] at hn
  exact ⟨n.children, hn.symm, hargs ▸ hlen.symm⟩

/-- How a node over two operands folds. -/
def fold : Node → Option Int64 → Option Int64 → Bool → Fold
  | .arith op _ _ => op.fold
  | .compare op _ _ => op.fold
  | .and _ _ => foldAnd
  | .or _ _ => foldOr
  | .const .. | .var _ | .not _ | .call .. => fun _ _ _ => .node

end Node

/-- What `r` may be, stored in `ctx'`, when a node was rebuilt in `ctx`. -/
inductive Rebuilds (ctx ctx' : Context) : Node → List ExprId → ExprId → Prop
  | node {n operands r} (hr : ctx'.Stored r) (hn : ctx'.node r = n.withChildren operands) :
    Rebuilds ctx ctx' n operands r
  | literal {n a b r w t} (hr : ctx'.Stored r) (hn : ctx'.node r = .const w t)
    (hfold : n.fold (ctx.literal? a) (ctx.literal? b) (a == b) = .literal w) :
    Rebuilds ctx ctx' n [a, b] r
  | lhs {n a b} (hfold : n.fold (ctx.literal? a) (ctx.literal? b) (a == b) = .lhs) :
    Rebuilds ctx ctx' n [a, b] a
  | rhs {n a b} (hfold : n.fold (ctx.literal? a) (ctx.literal? b) (a == b) = .rhs) :
    Rebuilds ctx ctx' n [a, b] b
  | negated {c a r w t} (ha : ctx.node a = .const w t) (hr : ctx'.Stored r)
    (hn : ctx'.node r = .const (truth (w = 0)) .bool) : Rebuilds ctx ctx' (.not c) [a] r
  | inner {c a b} (ha : ctx.node a = .not b) : Rebuilds ctx ctx' (.not c) [a] b

namespace Build

variable {ctx : Context} {n : Node} {a b e : ExprId} {operands : List ExprId}

theorem intern_rebuilds (n : Node) (operands : List ExprId)
    (hstored : ∀ c ∈ (n.withChildren operands).children, ctx.Stored c)
    (hcall : ∀ f args dims, n.withChildren operands = .call f args dims →
      f.index < ctx.funs.size) :
    Ensures (intern (n.withChildren operands)) ctx fun r ctx' =>
      Rebuilds ctx ctx' n operands r :=
  Ensures.mono (intern_ensures (K := .all) trivial
    (fun c hc => Context.over_all (hstored c hc)) hcall)
    fun _ _ _ ⟨hr, hn⟩ => .node hr.stored hn

theorem folded_rebuilds {t : Scalar} (hstored : ∀ c ∈ [a, b], ctx.Stored c)
    (hchildren : (n.withChildren [a, b]).children = [a, b])
    (hcall : ∀ f args dims, n.withChildren [a, b] ≠ .call f args dims) :
    Ensures (folded n.fold t (n.withChildren [a, b]) a b) ctx fun r ctx' =>
      Rebuilds ctx ctx' n [a, b] r := by
  refine Ensures.get ?_
  split
  · next v hv =>
    exact (intern_ensures (n := .const v t) (K := .all) trivial nofun nofun).mono
      fun r ctx' _ ⟨hr, hn⟩ => .literal hr.stored hn hv
  · next hv => exact .pure (.lhs hv)
  · next hv => exact .pure (.rhs hv)
  · apply intern_rebuilds
    · rwa [hchildren]
    · exact fun f args dims h => absurd h (hcall f args dims)

theorem negation_rebuilds (c : ExprId) (ha : ctx.Stored a) :
    Ensures (negation a) ctx fun r ctx' => Rebuilds ctx ctx' (.not c) [a] r := by
  refine Ensures.get ?_
  split
  · next w t hn =>
    exact (intern_ensures (n := .const (truth (w = 0)) .bool) (K := .all) trivial nofun nofun).mono
      fun r ctx' _ ⟨hr, hn'⟩ => .negated hn hr.stored hn'
  · next b hn => exact .pure (.inner hn)
  · exact intern_rebuilds (.not c) [a]
      (by simpa [Node.withChildren, Node.children] using ha) nofun

theorem arith_rebuilds (op : Arith) (c d : ExprId) (hstored : ∀ x ∈ [a, b], ctx.Stored x) :
    Ensures (arith op a b) ctx fun r ctx' => Rebuilds ctx ctx' (.arith op c d) [a, b] r :=
  Ensures.get (folded_rebuilds (n := .arith op c d) hstored rfl nofun)

theorem division_rebuilds (op : Arith) (c d : ExprId) (hstored : ∀ x ∈ [a, b], ctx.Stored x) :
    Ensures (division op a b) ctx fun r ctx' => Rebuilds ctx ctx' (.arith op c d) [a, b] r := by
  refine Ensures.get ?_
  split
  · exact intern_rebuilds (.arith op c d) [a, b] hstored nofun
  · exact arith_rebuilds op c d hstored

theorem rebuild_rebuilds (hlen : operands.length = n.children.length)
    (hstored : ∀ c ∈ operands, ctx.Stored c)
    (hcall : ∀ f args dims, n = .call f args dims → f.index < ctx.funs.size) :
    Ensures (rebuild n operands) ctx fun r ctx' => Rebuilds ctx ctx' n operands r := by
  have hleaf : n.children = [] → Ensures (intern n) ctx fun r ctx' =>
      Rebuilds ctx ctx' n operands r := by
    intro hnil
    rw [hnil] at hlen
    rw [List.length_eq_zero_iff.1 hlen, ← hnil]
    have h := @intern_rebuilds ctx n n.children
    rw [Node.withChildren_children] at h
    exact h (by simp [hnil]) hcall
  cases n with
  | const w t => exact hleaf rfl
  | var v => exact hleaf rfl
  | arith op c d =>
      obtain ⟨a, b, rfl⟩ := List.length_eq_two.1 hlen
      cases op with
      | floorDiv => exact division_rebuilds .floorDiv c d hstored
      | floorMod => exact division_rebuilds .floorMod c d hstored
      | add | sub | mul | min | max => exact arith_rebuilds _ c d hstored
  | compare op c d =>
      obtain ⟨a, b, rfl⟩ := List.length_eq_two.1 hlen
      exact folded_rebuilds (n := .compare op c d) hstored rfl nofun
  | and c d =>
      obtain ⟨a, b, rfl⟩ := List.length_eq_two.1 hlen
      exact folded_rebuilds (n := .and c d) hstored rfl nofun
  | or c d =>
      obtain ⟨a, b, rfl⟩ := List.length_eq_two.1 hlen
      exact folded_rebuilds (n := .or c d) hstored rfl nofun
  | not c =>
      obtain ⟨a, rfl⟩ := List.length_eq_one_iff.1 hlen
      exact negation_rebuilds c (hstored a List.mem_cons_self)
  | call f args dims =>
      exact intern_rebuilds (.call f args dims) operands hstored fun _ _ _ h => by
        cases h
        exact hcall f args dims rfl

end Build

section Visits

variable {m : Type → Type} [Monad m] [MonadLiftT Build m] {ctx : Context} {e : ExprId}
  {operands : List ExprId} {visit : ExprId → m (Option ExprId)} {R : ExprId → Context → Prop}

/-- A node is rebuilt unless its operands are the old ones, and then visited. -/
theorem Rules.visitNode_ensures (L : Rules m) (he : ctx.Stored e)
    (hrebuild : L.Ensures (liftM (Build.rebuild (ctx.node e) operands)) ctx fun r ctx' =>
      Rebuilds ctx ctx' (ctx.node e) operands r)
    (hvisit : ∀ r ctx', ctx.Grows ctx' → Rebuilds ctx ctx' (ctx.node e) operands r →
      L.Ensures (do return (← visit r).getD r) ctx' R) :
    L.Ensures (visitNode visit e (ctx.node e) operands) ctx R := by
  rw [visitNode]
  split
  · next heq =>
    have hsame : Rebuilds ctx ctx (ctx.node e) operands e :=
      .node he (by rw [heq, Node.withChildren_children])
    apply L.bind (L.pure (Q := fun r ctx' => r = e ∧ ctx' = ctx) ⟨rfl, rfl⟩)
    rintro _ _ hg ⟨rfl, rfl⟩
    exact hvisit _ _ hg hsame
  · exact L.bind hrebuild hvisit

theorem StoringRules.visitNode_ensures (L : StoringRules m) (hwf : ctx.WellFormed)
    (he : ctx.Stored e) (hlen : operands.length = (ctx.node e).children.length)
    (hstored : ∀ c ∈ operands, ctx.Stored c)
    (hvisit : ∀ r ctx', ctx.Grows ctx' → Rebuilds ctx ctx' (ctx.node e) operands r →
      L.Ensures (do return (← visit r).getD r) ctx' R) :
    L.Ensures (Rules.visitNode visit e (ctx.node e) operands) ctx R :=
  L.toRules.visitNode_ensures he (L.lift (Build.rebuild_rebuilds hlen hstored
    fun f args dims hn => hwf.call e f args dims hn)) hvisit

end Visits

theorem forall_of_forall₂ {α β : Type} {R : α → β → Prop} {p : β → Prop} {xs : List α}
    {ys : List β} (h : List.Forall₂ R xs ys) (hp : ∀ x ∈ xs, ∀ y, R x y → p y) : ∀ y ∈ ys, p y := by
  induction h with
  | nil => exact nofun
  | cons hxy _ ih =>
      rw [List.forall_mem_cons]
      exact ⟨hp _ List.mem_cons_self _ hxy, ih fun x hx => hp x (List.mem_cons_of_mem _ hx)⟩

theorem forall₂_pair {α β : Type} {R : α → β → Prop} {c d : α} {ys : List β}
    (h : List.Forall₂ R [c, d] ys) : ∃ a b, R c a ∧ R d b ∧ ys = [a, b] := by
  cases h with
  | cons hca hrest =>
      cases hrest with
      | cons hdb hnil =>
          cases hnil
          exact ⟨_, _, hca, hdb, rfl⟩

namespace Rebuilds

variable {ctx ctx' : Context} {n : Node} {r : ExprId} {operands : List ExprId}

theorem stored (h : Rebuilds ctx ctx' n operands r) (hg : ctx ≤ ctx')
    (hstored : ∀ c ∈ operands, ctx.Stored c) : ctx'.Stored r := by
  cases h with
  | node hr => exact hr
  | literal hr => exact hr
  | lhs => exact (hstored _ (by simp)).mono hg
  | rhs => exact (hstored _ (by simp)).mono hg
  | negated _ hr => exact hr
  | inner ha =>
      refine Context.Stored.mono hg ((hstored _ List.mem_cons_self).child ?_)
      simp [ha, Node.children]

theorem mono {ctx₁ ctx₁' : Context} (h : Rebuilds ctx ctx' n operands r) (hctx : ctx ≤ ctx₁)
    (hctx' : ctx' ≤ ctx₁') (hstored : ∀ c ∈ operands, ctx.Stored c) :
    Rebuilds ctx₁ ctx₁' n operands r := by
  have hliteral : ∀ c ∈ operands, ctx₁.literal? c = ctx.literal? c := fun c hc =>
    Context.literal?_eq hctx (hstored c hc)
  cases h with
  | node hr hn => exact .node (hr.mono hctx') ((Context.node_eq hctx' hr).trans hn)
  | literal hr hn hfold =>
      refine .literal (hr.mono hctx') ((Context.node_eq hctx' hr).trans hn) ?_
      rwa [hliteral _ (by simp), hliteral _ (by simp)]
  | lhs hfold =>
      apply Rebuilds.lhs
      rwa [hliteral _ (by simp), hliteral _ (by simp)]
  | rhs hfold =>
      apply Rebuilds.rhs
      rwa [hliteral _ (by simp), hliteral _ (by simp)]
  | negated ha hr hn =>
      refine .negated ((Context.node_eq hctx (hstored _ (by simp))).trans ha) (hr.mono hctx') ?_
      exact (Context.node_eq hctx' hr).trans hn
  | inner ha => exact .inner ((Context.node_eq hctx (hstored _ (by simp))).trans ha)

/-- What holds of the parts of the operands and of all literals holds of the parts of the result,
but perhaps not of the node itself. -/
theorem each_or {p : Node → Prop} (h : Rebuilds ctx ctx' n operands r) (hg : ctx ≤ ctx')
    (hlen : operands.length = n.children.length) (hconst : ∀ w t, p (.const w t))
    (hstored : ∀ c ∈ operands, ctx.Stored c) (hoperands : ∀ c ∈ operands, ctx.Each p c) :
    ctx'.Each p r ∨ ctx'.node r = n.withChildren operands ∧
      ∀ c ∈ (ctx'.node r).children, ctx'.Each p c := by
  have hold : ∀ c ∈ operands, ctx'.Each p c := fun c hc => (hoperands c hc).mono hg (hstored c hc)
  have hliteral : ∀ {w t}, ctx'.node r = .const w t → ctx'.Each p r := fun hn =>
    Context.each_iff.2 ⟨hn ▸ hconst _ _, by simp [hn, Node.children]⟩
  cases h with
  | node _ hn =>
      right
      rw [hn, Node.children_withChildren hlen]
      exact ⟨rfl, hold⟩
  | literal _ hn => exact .inl (hliteral hn)
  | lhs => exact .inl (hold _ (by simp))
  | rhs => exact .inl (hold _ (by simp))
  | negated _ _ hn => exact .inl (hliteral hn)
  | @inner c a _ ha =>
      have hn := (Context.node_eq hg (hstored a (by simp))).trans ha
      exact .inl ((hold a (by simp)).child (by simp [hn, Node.children]))

theorem each {p : Node → Prop} (h : Rebuilds ctx ctx' n operands r) (hg : ctx ≤ ctx')
    (hlen : operands.length = n.children.length) (hconst : ∀ w t, p (.const w t))
    (hstored : ∀ c ∈ operands, ctx.Stored c) (hoperands : ∀ c ∈ operands, ctx.Each p c)
    (hn : p (n.withChildren operands)) : ctx'.Each p r := by
  rcases h.each_or hg hlen hconst hstored hoperands with h | ⟨hr, hchildren⟩
  · exact h
  · exact Context.each_iff.2 ⟨hr ▸ hn, hchildren⟩

theorem var {v : VarId} (h : Rebuilds ctx ctx' n operands r) (hn : n = .var v) :
    ctx'.Stored r ∧ ctx'.node r = .var v := by
  subst hn
  cases h with
  | node hr hn => exact ⟨hr, hn⟩
  | literal _ _ hfold => cases hfold
  | lhs hfold => cases hfold
  | rhs hfold => cases hfold

variable {A : Arithmetic} {ν ν' : Valuation} {e a b c d : ExprId} {z : Int}

theorem sees (hν : ctx ≤ ν.ctx) (ha : ctx.Stored a) (hb : ctx.Stored b) :
    Fold.Sees (ctx.literal? a) (ctx.literal? b) (a == b) (ν.reading A a) (ν.reading A b) := by
  have hliteral : ∀ {c w}, ctx.Stored c → ctx.literal? c = some w →
      ν.reading A c = some w.toInt := by
    intro c w hc hw
    rw [Valuation.reading_eq_some]
    rw [← Context.literal?_eq hν hc] at hw
    obtain ⟨t, hn⟩ := Context.exists_node_of_literal? hw
    exact .const hn
  exact ⟨fun _ => hliteral ha, fun _ => hliteral hb, fun h => by rw [eq_of_beq h]⟩

/-- A fold over two operands gives the value of the node. -/
theorem gives_fold (hν : ctx ≤ ν.ctx) (hn : ν'.ctx.node e = n) (hchildren : n.children = [c, d])
    (ha : ctx.Stored a) (hb : ctx.Stored b) (hz : ν'.Evaluates A e z)
    (hca : ∀ x, ν'.Evaluates A c x → ν.Evaluates A a x)
    (hdb : ∀ x, ν'.Evaluates A d x → ν.Evaluates A b x) :
    (n.fold (ctx.literal? a) (ctx.literal? b) (a == b)).Gives (ν.reading A a)
      (ν.reading A b) z := by
  have hsees : Fold.Sees (ctx.literal? a) (ctx.literal? b) (a == b) (ν.reading A a)
      (ν.reading A b) := sees hν ha hb
  have hca' : ∀ x, ν'.reading A c = some x → ν.reading A a = some x := by
    simpa only [Valuation.reading_eq_some] using hca
  have hdb' : ∀ x, ν'.reading A d = some x → ν.reading A b = some x := by
    simpa only [Valuation.reading_eq_some] using hdb
  cases n <;> simp only [Node.children, List.cons.injEq, and_true, reduceCtorEq] at hchildren
  case arith op =>
    obtain ⟨rfl, rfl⟩ := hchildren
    obtain ⟨x, y, hx, hy, hxy⟩ := hz.arith_inv hn
    apply Arith.fold_gives hsees
    rw [hca' x (Valuation.reading_eq_some.2 hx), hdb' y (Valuation.reading_eq_some.2 hy)]
    exact A.exact hxy
  case compare op =>
    obtain ⟨rfl, rfl⟩ := hchildren
    obtain ⟨x, y, hx, hy, rfl⟩ := hz.compare_inv hn
    apply Comparison.fold_gives hsees
    rw [hca' x (Valuation.reading_eq_some.2 hx), hdb' y (Valuation.reading_eq_some.2 hy)]
    rfl
  case and =>
    obtain ⟨rfl, rfl⟩ := hchildren
    exact foldAnd_gives hsees (((Valuation.evaluates_and hn).1 hz).mono hca' hdb')
  case or =>
    obtain ⟨rfl, rfl⟩ := hchildren
    exact foldOr_gives hsees (((Valuation.evaluates_or hn).1 hz).mono hca' hdb')
  case not => simp at hchildren
  case call => trivial

theorem of_node (hctx : ν'.ctx = ν.ctx) (hdepth : ν'.depth = ν.depth) (hn : ν'.ctx.node e = n)
    (hr : ν.ctx.node r = n.withChildren operands) (hvar : ∀ v, n ≠ .var v)
    (hoperands : List.Forall₂ (fun c d => ∀ x, ν'.Evaluates A c x → ν.Evaluates A d x)
      n.children operands) (hz : ν'.Evaluates A e z) : ν.Evaluates A r z := by
  cases n with
  | const w t =>
      cases hz.unique (.const hn)
      exact .const hr
  | var v => exact absurd rfl (hvar v)
  | arith op c d =>
      obtain ⟨a, b, hca, hdb, rfl⟩ := forall₂_pair hoperands
      obtain ⟨x, y, hx, hy, hxy⟩ := hz.arith_inv hn
      exact .arith hr (hca x hx) (hdb y hy) hxy
  | compare op c d =>
      obtain ⟨a, b, hca, hdb, rfl⟩ := forall₂_pair hoperands
      obtain ⟨x, y, hx, hy, rfl⟩ := hz.compare_inv hn
      exact .compare hr (hca x hx) (hdb y hy)
  | and c d =>
      obtain ⟨a, b, hca, hdb, rfl⟩ := forall₂_pair hoperands
      have hz := (Valuation.evaluates_and hn).1 hz
      refine (Valuation.evaluates_and hr).2 (hz.mono ?_ ?_)
      · simpa only [Valuation.reading_eq_some] using hca
      · simpa only [Valuation.reading_eq_some] using hdb
  | or c d =>
      obtain ⟨a, b, hca, hdb, rfl⟩ := forall₂_pair hoperands
      have hz := (Valuation.evaluates_or hn).1 hz
      refine (Valuation.evaluates_or hr).2 (hz.mono ?_ ?_)
      · simpa only [Valuation.reading_eq_some] using hca
      · simpa only [Valuation.reading_eq_some] using hdb
  | not c =>
      obtain ⟨x, hx, hbit, rfl⟩ := hz.not_inv hn
      cases hoperands with
      | cons hca hrest =>
          cases hrest
          exact .not hr (hca x hx) hbit
  | call f args dims =>
      obtain ⟨body, μ, hbody, hμ, hz⟩ := hz.call_inv hn
      have hμ' : ν.Calls (ν'.reading A) f args dims μ := by
        rwa [Valuation.Calls, ← hctx, ← hdepth]
      refine .of_call hr (hctx ▸ hbody) (Valuation.calls_congr (hoperands.imp ?_) hμ') hz
      intro c d hcd x
      simpa only [Valuation.reading_eq_some] using hcd x

/-- What a node is rebuilt as evaluates to what the node does, when the new operands evaluate to
what the old ones do. -/
theorem evaluates (h : Rebuilds ctx ctx' n operands r) (hg : ctx ≤ ctx') (hν : ctx' ≤ ν.ctx)
    (hctx : ν'.ctx = ν.ctx) (hdepth : ν'.depth = ν.depth) (hn : ν'.ctx.node e = n)
    (hvar : ∀ v, n ≠ .var v) (hstored : ∀ c ∈ operands, ctx.Stored c)
    (hoperands : List.Forall₂ (fun c d => ∀ x, ν'.Evaluates A c x → ν.Evaluates A d x)
      n.children operands) (hz : ν'.Evaluates A e z) : ν.Evaluates A r z := by
  have hpair : ∀ {a b}, operands = [a, b] → n.fold (ctx.literal? a) (ctx.literal? b) (a == b) ≠
      .node → (n.fold (ctx.literal? a) (ctx.literal? b) (a == b)).Gives (ν.reading A a)
        (ν.reading A b) z := by
    rintro a b rfl hfold
    obtain ⟨c, d, hchildren, hca, hdb⟩ : ∃ c d, n.children = [c, d] ∧
        (∀ x, ν'.Evaluates A c x → ν.Evaluates A a x) ∧
        (∀ x, ν'.Evaluates A d x → ν.Evaluates A b x) := by
      obtain ⟨c, d, hca, hdb, hchildren⟩ := forall₂_pair hoperands.flip
      exact ⟨c, d, hchildren, hca, hdb⟩
    exact gives_fold (hg.trans hν) hn hchildren (hstored a (by simp)) (hstored b (by simp)) hz hca
      hdb
  cases h with
  | node hr hnr =>
      have hnode := (Context.node_eq hν hr).trans hnr
      exact of_node hctx hdepth hn hnode hvar hoperands hz
  | literal hr hnr hfold =>
      have hgives := hpair rfl (by simp [hfold])
      rw [hfold] at hgives
      obtain rfl : z = _ := hgives
      exact .const ((Context.node_eq hν hr).trans hnr)
  | lhs hfold =>
      have hgives := hpair rfl (by simp [hfold])
      rw [hfold] at hgives
      exact Valuation.reading_eq_some.1 hgives
  | rhs hfold =>
      have hgives := hpair rfl (by simp [hfold])
      rw [hfold] at hgives
      exact Valuation.reading_eq_some.1 hgives
  | negated ha hr hnr =>
      obtain ⟨x, hx, -, rfl⟩ := hz.not_inv hn
      cases hoperands with
      | cons hc _ =>
          have hnode := (Context.node_eq (hg.trans hν) (hstored _ List.mem_cons_self)).trans ha
          obtain rfl := (hc x hx).unique (.const hnode)
          have hz := Valuation.Evaluates.const (A := A) ((Context.node_eq hν hr).trans hnr)
          rw [toInt_truth] at hz
          simpa only [Word.toInt_eq_zero_iff] using hz
  | inner ha =>
      obtain ⟨x, hx, -, rfl⟩ := hz.not_inv hn
      cases hoperands with
      | cons hc _ =>
          -- The operand is a negation, so its operand is a truth value.
          have hnode := (Context.node_eq (hg.trans hν) (hstored _ List.mem_cons_self)).trans ha
          obtain ⟨y, hy, hbit, rfl⟩ := (hc x hx).not_inv hnode
          rcases hbit with rfl | rfl
          exacts [hy, hy]

end Rebuilds

end LoopBounds
