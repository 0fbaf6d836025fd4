import LoopBounds.Proofs.Inlining
import LoopBounds.Proofs.Literals
import LoopBounds.Proofs.Types

/-!
# Relaxing calls bounds sizes from above

Relaxing puts the last point of its codomain in place of a call, from the innermost calls outwards.
Sizes are monotone in the calls they are made from, so whatever points of their codomains the calls
stand for, the size does not exceed what it is relaxed to.
-/

namespace LoopBounds

/-- Integers that stand for variables and for calls. -/
structure Interpretation where
  env : Env Int
  calls : ExprId → Option Int

/-- Every variable stands for an integer. -/
def Interpretation.of (vals : VarId → Int) (calls : ExprId → Option Int) : Interpretation :=
  ⟨fun v => some (vals v), calls⟩

namespace Node

/-- The exact value of a node whose operands have the values `vals`; a call is not looked into. -/
def valueOver (env : Env Int) (called : Option Int) (vals : ExprId → Option Int) :
    Node → Option Int
  | const w _ => some w.toInt
  | var v => env v
  | arith op a b => (vals a).bind fun x => (vals b).bind (op.exact x)
  | compare op a b => (vals a).bind fun x => (vals b).map fun y => (op.exact x y).toInt
  | and a b => (vals a).bind fun x =>
      if x = 0 then some 0 else (vals b).map fun y => (decide (y ≠ 0)).toInt
  | or a b => (vals a).bind fun x =>
      if x = 0 then (vals b).map fun y => (decide (y ≠ 0)).toInt else some 1
  | not a => (vals a).map fun x => (decide (x = 0)).toInt
  | call .. => called

theorem valueOver_congr {env : Env Int} {called : Option Int} {vals vals' : ExprId → Option Int}
    {n : Node} (h : ∀ c ∈ n.children, vals c = vals' c) :
    n.valueOver env called vals = n.valueOver env called vals' := by
  cases n <;> simp_all [valueOver, children]

end Node

namespace Context

/-- The exact value of an expression whose calls have the values that they are given. -/
def valueUnder (ctx : Context) (I : Interpretation) (e : ExprId) : Option Int :=
  (ctx.node e).valueOver I.env (I.calls e) fun c =>
    if _h : c ∈ (ctx.node e).children then ctx.valueUnder I c else none
termination_by e.index
decreasing_by exact ctx.child_lt _h

variable {ctx ctx' : Context} {I : Interpretation} {e r a b c : ExprId}

theorem valueUnder_eq : ctx.valueUnder I e =
    (ctx.node e).valueOver I.env (I.calls e) (ctx.valueUnder I) := by
  rw [valueUnder]
  apply Node.valueOver_congr
  intro c hc
  rw [dif_pos hc]

theorem valueUnder_const {w : Int64} {t : Scalar} (hn : ctx.node e = .const w t) :
    ctx.valueUnder I e = some w.toInt := by
  rw [valueUnder_eq, hn, Node.valueOver]

theorem valueUnder_var {v : VarId} (hn : ctx.node e = .var v) : ctx.valueUnder I e = I.env v := by
  rw [valueUnder_eq, hn, Node.valueOver]

theorem valueUnder_arith {op : Arith} (hn : ctx.node e = .arith op a b) :
    ctx.valueUnder I e =
      (ctx.valueUnder I a).bind fun x => (ctx.valueUnder I b).bind (op.exact x) := by
  rw [valueUnder_eq, hn, Node.valueOver]

theorem valueUnder_literal {w : Int64} (h : ctx.literal? e = some w) :
    ctx.valueUnder I e = some w.toInt := by
  obtain ⟨t, hn⟩ := exists_node_of_literal? h
  exact valueUnder_const hn

/-- What is stored later does not matter. -/
theorem valueUnder_mono (h : ctx ≤ ctx') {e : ExprId} (he : ctx.Stored e) :
    ctx'.valueUnder I e = ctx.valueUnder I e := by
  rw [valueUnder_eq, valueUnder_eq, node_eq h he]
  apply Node.valueOver_congr
  intro c hc
  exact valueUnder_mono h (he.child hc)
termination_by e.index
decreasing_by exact ctx.child_lt hc

/-- Calls may stand for the values that their bodies give. -/
theorem valueUnder_value (ν : Valuation) (e : ExprId) :
    ν.ctx.valueUnder ⟨ν.env, ν.value⟩ e = ν.value e := by
  have hoperand : ∀ c ∈ (ν.ctx.node e).children,
      ν.ctx.valueUnder ⟨ν.env, ν.value⟩ c = ν.value c := fun c hc => valueUnder_value ν c
  rw [valueUnder_eq, Node.valueOver_congr hoperand]
  cases hn : ν.ctx.node e with
  | const w t => exact (Valuation.value_const hn).symm
  | var v => exact (Valuation.value_var hn).symm
  | arith op a b => exact (Valuation.value_arith hn).symm
  | compare op a b => exact (Valuation.value_compare hn).symm
  | and a b => exact (Valuation.value_and hn).symm
  | or a b => exact (Valuation.value_or hn).symm
  | not a => exact (Valuation.value_not hn).symm
  | call f args dims => rfl
termination_by e.index
decreasing_by exact ν.ctx.child_lt hc

/-! ## Sizes -/

/-- What sizes are written with: literals, variables, calls of complex functions that declare a
codomain, sums, minima and maxima, multiples and quotients. -/
inductive IsSize (ctx : Context) : ExprId → Prop
  | const {e w t} (hn : ctx.node e = .const w t) : IsSize ctx e
  | var {e v} (hn : ctx.node e = .var v) : IsSize ctx e
  | call {e f args dims d} (hn : ctx.node e = .call f args dims) (hf : ctx.isComplex f = true)
      (hd : (ctx.fn f).codomain? = some d) : IsSize ctx e
  | both {e op a b} (hn : ctx.node e = .arith op a b) (hop : op = .add ∨ op = .min ∨ op = .max)
      (ha : IsSize ctx a) (hb : IsSize ctx b) : IsSize ctx e
  | timesLeft {e a b w} (hn : ctx.node e = .arith .mul a b) (ha : ctx.literal? a = some w)
      (hw : 0 ≤ w.toInt) (hb : IsSize ctx b) : IsSize ctx e
  | timesRight {e a b w} (hn : ctx.node e = .arith .mul a b) (ha : IsSize ctx a)
      (hb : ctx.literal? b = some w) (hw : 0 ≤ w.toInt) : IsSize ctx e
  | quotient {e a b w} (hn : ctx.node e = .arith .floorDiv a b) (ha : IsSize ctx a)
      (hb : ctx.literal? b = some w) (hw : 0 < w.toInt) : IsSize ctx e

/-- The calls of an expression that are not in the arguments of other calls. -/
def outermostCalls (ctx : Context) (e : ExprId) : List ExprId :=
  match ctx.node e with
  | .call .. => [e]
  | _ => (ctx.node e).children.attach.flatMap fun ⟨c, _⟩ => ctx.outermostCalls c
termination_by e.index
decreasing_by exact ctx.child_lt ‹_›

theorem outermostCalls_call {f : FunId} {args : List ExprId} {dims : List DimId}
    (hn : ctx.node e = .call f args dims) : ctx.outermostCalls e = [e] := by
  rw [outermostCalls]
  split <;> simp_all

theorem mem_outermostCalls (hn : (ctx.node e).callee? = none) {d : ExprId}
    (hd : d ∈ (ctx.node e).children) (hc : c ∈ ctx.outermostCalls d) :
    c ∈ ctx.outermostCalls e := by
  rw [outermostCalls]
  split
  · next h =>
    rw [h] at hn
    cases hn
  · exact List.mem_flatMap.2 ⟨⟨d, hd⟩, List.mem_attach _ _, hc⟩

/-- The integer lies in the codomain of the function that the expression calls. -/
def CallInside (ctx : Context) (I : Interpretation) (c : ExprId) (z : Int) : Prop :=
  ∃ f d m n, (ctx.node c).callee? = some f ∧ (ctx.fn f).codomain? = some d ∧
    ctx.valueUnder I d.min = some m ∧ ctx.valueUnder I d.extent = some n ∧ m ≤ z ∧ z < m + n

end Context

/-! ## Folding under an interpretation -/

namespace Rebuilds

variable {ctx ctx' : Context} {I : Interpretation} {op : Arith} {a b c d r : ExprId}

theorem sees_under (ctx : Context) (I : Interpretation) (a b : ExprId) :
    Fold.Sees (ctx.literal? a) (ctx.literal? b) (a == b) (ctx.valueUnder I a)
      (ctx.valueUnder I b) :=
  ⟨fun _ => Context.valueUnder_literal, fun _ => Context.valueUnder_literal,
    fun h => by rw [eq_of_beq h]⟩

/-- A node that does not fold stays. -/
theorem node_eq {n : Node} {operands : List ExprId} (h : Rebuilds ctx ctx' n operands r)
    (hfold : n.fold = fun _ _ _ => .node) (hnot : ∀ a, n ≠ .not a) :
    ctx'.node r = n.withChildren operands := by
  cases h with
  | node _ hn => exact hn
  | literal _ _ hfold' =>
      rw [hfold] at hfold'
      cases hfold'
  | lhs hfold' =>
      rw [hfold] at hfold'
      cases hfold'
  | rhs hfold' =>
      rw [hfold] at hfold'
      cases hfold'
  | negated => exact absurd rfl (hnot _)
  | inner => exact absurd rfl (hnot _)

/-- An operator that is rebuilt has the value of the operator. -/
theorem valueUnder_arith {x y z : Int} (h : Rebuilds ctx ctx' (.arith op c d) [a, b] r)
    (hctx : ctx ≤ ctx') (ha : ctx.Stored a) (hb : ctx.Stored b)
    (hx : ctx.valueUnder I a = some x) (hy : ctx.valueUnder I b = some y)
    (hz : op.exact x y = some z) : ctx'.valueUnder I r = some z := by
  have hgives : (op.fold (ctx.literal? a) (ctx.literal? b) (a == b)).Gives (some x) (some y) z := by
    apply Arith.fold_gives (hx ▸ hy ▸ sees_under ctx I a b)
    exact hz
  cases h with
  | node _ hn =>
      rw [Context.valueUnder_arith hn, Context.valueUnder_mono hctx ha,
        Context.valueUnder_mono hctx hb, hx, hy]
      exact hz
  | literal _ hn hfold =>
      rw [← show Node.fold (.arith op c d) = op.fold from rfl, hfold] at hgives
      rw [Context.valueUnder_const hn, ← show z = _ from hgives]
  | lhs hfold =>
      rw [← show Node.fold (.arith op c d) = op.fold from rfl, hfold] at hgives
      rw [Context.valueUnder_mono hctx ha, hx]
      exact hgives
  | rhs hfold =>
      rw [← show Node.fold (.arith op c d) = op.fold from rfl, hfold] at hgives
      rw [Context.valueUnder_mono hctx hb, hy]
      exact hgives

/-- No call is left at the head unless an operand is one. -/
theorem callee?_arith (h : Rebuilds ctx ctx' (.arith op c d) [a, b] r) (hctx : ctx ≤ ctx')
    (ha : ctx.Stored a) (hb : ctx.Stored b) (hcall : (ctx.node a).callee? = none)
    (hcall' : (ctx.node b).callee? = none) : (ctx'.node r).callee? = none := by
  cases h with
  | node _ hn =>
      rw [hn]
      rfl
  | literal _ hn =>
      rw [hn]
      rfl
  | lhs => rw [Context.node_eq hctx ha, hcall]
  | rhs => rw [Context.node_eq hctx hb, hcall']

end Rebuilds

theorem Build.constantLike_under {ctx : Context} (w : Int64) (e : ExprId) :
    Ensures (constantLike w e) ctx fun r ctx' => ctx'.Stored r ∧ ∃ t, ctx'.node r = .const w t := by
  apply Ensures.get
  apply (intern_ensures (K := .all) (n := .const w (ctx.typeOf e)) trivial nofun nofun).mono
  intro r ctx' _ h
  exact ⟨h.1.stored, _, h.2⟩

/-- A literal that is no unit is not left out, so a sum with it is a literal or stays a sum. -/
theorem Rebuilds.callee?_addConst {ctx ctx' : Context} {s c r : ExprId} {w : Int64}
    (h : Rebuilds ctx ctx' (.arith .add s c) [s, c] r) (hc : ctx.literal? c = some w) (hw : w ≠ 0) :
    (ctx'.node r).callee? = none := by
  have hsame : (s == c) = true → ctx.literal? s = ctx.literal? c := fun h => by rw [eq_of_beq h]
  cases h with
  | node _ hn =>
      rw [hn]
      rfl
  | literal _ hn =>
      rw [hn]
      rfl
  | lhs hfold =>
      obtain ⟨-, ⟨u, hu, hcu⟩ | ⟨-, hop⟩⟩ := (Arith.fold_eq_lhs_iff hsame).1 hfold
      · cases hu
        exact absurd (Option.some_inj.1 (hc.symm.trans hcu)) hw
      · cases hop
  | rhs hfold => cases hc.symm.trans (Arith.fold_eq_rhs_iff.1 hfold).1

/-- The last point of a domain is the sum of its ends less one, and it is never a call. -/
theorem Domain.last_under {ctx : Context} {d : Domain} (hd : ctx.StoredDomain d) :
    Build.Ensures d.last ctx fun r ctx' => ctx'.Stored r ∧ (ctx'.node r).callee? = none ∧
      ∀ I m n, ctx.valueUnder I d.min = some m → ctx.valueUnder I d.extent = some n →
        ctx'.valueUnder I r = some (m + n - 1) := by
  apply (Build.arith_rebuilds .add d.min d.extent (by simp [hd.1, hd.2])).bind
  intro s ctx₁ hg₁ hs
  have hs₁ : ctx₁.Stored s := hs.stored hg₁.le (by simp [hd.1, hd.2])
  apply (Build.constantLike_under (-1) s).bind
  rintro c ctx₂ hg₂ ⟨hc, t, hn⟩
  have hliteral : ctx₂.literal? c = some (-1) := by rw [Context.literal?, hn]
  have hs₂ := hs₁.mono hg₂.le
  have hstored : ∀ x ∈ [s, c], ctx₂.Stored x := by simp [hs₂, hc]
  apply (Build.arith_rebuilds .add s c hstored).mono
  intro r ctx₃ hg₃ hr
  refine ⟨hr.stored hg₃.le hstored, hr.callee?_addConst hliteral (by decide), ?_⟩
  intro I m n hm hext
  have hsum := hs.valueUnder_arith hg₁.le hd.1 hd.2 hm hext rfl
  rw [← Context.valueUnder_mono hg₂.le hs₁] at hsum
  exact hr.valueUnder_arith hg₃.le hs₂ hc hsum (Context.valueUnder_literal hliteral) rfl

/-! ## The traversal -/

namespace Relaxing

variable {depth : Nat} {ctx ctx' ctx₀ : Context} {e r : ExprId}

/-- What is put in place of an expression. -/
def visit (depth : Nat) (e : ExprId) : Attempt (Option ExprId) := do
  let ctx ← get
  match ctx.node e with
  | .call f args dims =>
    if ctx.isComplex f then
      match (ctx.fn f).codomain? with
      | some d => some <$> d.last
      | none => return none
    else some <$> Attempt.relaxWithin depth (← Attempt.instantiate f args dims)
  | _ => return none

theorem relaxWithin_succ (depth : Nat) (e : ExprId) :
    Attempt.relaxWithin (depth + 1) e = rewrite (visit depth) e :=
  rfl

theorem visit_stored (hwf : ctx.WellFormed) (hr : ctx.Stored r)
    (hrelax : ∀ ctx e, ctx.WellFormed → ctx.Stored e →
      Attempt.Yields False (Attempt.relaxWithin depth e) ctx fun s ctx' => ctx'.Stored s) :
    Attempt.Yields False (visit depth r) ctx fun o ctx' => ∀ s, o = some s → ctx'.Stored s := by
  apply Attempt.Yields.get
  split
  · next f args dims hn =>
    split
    · split
      · next d hd =>
        rw [map_eq_pure_bind]
        apply Attempt.Yields.bind (.build (Domain.last_under (hwf.codomain f d hd)))
        intro s ctx₁ _ hs
        apply Attempt.Yields.pure
        rintro _ ⟨⟩
        exact hs.1
      · apply Attempt.Yields.pure
        rintro _ ⟨⟩
    · have hargs : ∀ a ∈ args, ctx.Stored a := fun a ha =>
        hr.child (by rwa [hn, Node.children])
      apply Attempt.Yields.bind (Inlining.instantiate_stored id hwf hargs)
      intro s ctx₁ hg₁ hs
      rw [map_eq_pure_bind]
      apply Attempt.Yields.bind (hrelax ctx₁ s (hg₁.wellFormed hwf) hs)
      intro t ctx₂ _ ht
      apply Attempt.Yields.pure
      rintro _ ⟨⟩
      exact ht
  · apply Attempt.Yields.pure
    rintro _ ⟨⟩

theorem relaxWithin_stored (hwf : ctx.WellFormed) (he : ctx.Stored e) :
    Attempt.Yields False (Attempt.relaxWithin depth e) ctx fun r ctx' => ctx'.Stored r := by
  induction depth generalizing ctx e with
  | zero => exact Attempt.Yields.pure he
  | succ depth ih =>
      rw [relaxWithin_succ]
      apply (Attempt.rules False).rewrite_stored (W := fun _ => True) (fun _ => id) _ hwf trivial he
      intro ctx r hwf _ hr
      exact (visit_stored hwf hr fun ctx e => ih).ensures

variable {vals : VarId → Int} {outer : ExprId → Int} {inner : ExprId → Option Int}

/-- `r` is no call, and where `e` has the value `x` it has the value `y`. -/
structure Valued (vals : VarId → Int) (outer : ExprId → Int) (inner : ExprId → Option Int)
    (ctx₀ ctx : Context) (e r : ExprId) (x y : Int) : Prop where
  callee? : (ctx.node r).callee? = none
  before : ctx₀.valueUnder (.of vals fun c => some (outer c)) e = some x
  after : ctx.valueUnder (.of vals inner) r = some y

/-- The value of `r` is at least that of `e`. -/
def Dominates (vals : VarId → Int) (outer : ExprId → Int) (inner : ExprId → Option Int)
    (ctx₀ ctx : Context) (e r : ExprId) : Prop :=
  ∃ x y, Valued vals outer inner ctx₀ ctx e r x y ∧ x ≤ y

/-- What a part `e` of the expression in `ctx₀` has become in `ctx`. -/
structure Becomes (vals : VarId → Int) (outer : ExprId → Int) (inner : ExprId → Option Int)
    (ctx₀ ctx : Context) (e r : ExprId) : Prop where
  stored : ctx.Stored r
  literal : ∀ w, ctx₀.literal? e = some w → ctx.literal? r = some w
  dominates : ctx₀.IsSize e →
    (∀ c ∈ ctx₀.outermostCalls e, ctx₀.CallInside (.of vals inner) c (outer c)) →
    Dominates vals outer inner ctx₀ ctx e r

theorem Dominates.mono (hctx : ctx ≤ ctx') (hr : ctx.Stored r)
    (h : Dominates vals outer inner ctx₀ ctx e r) : Dominates vals outer inner ctx₀ ctx' e r := by
  obtain ⟨x, y, hxy, hle⟩ := h
  refine ⟨x, y, ⟨?_, hxy.before, ?_⟩, hle⟩
  · rw [Context.node_eq hctx hr, hxy.callee?]
  · rw [Context.valueUnder_mono hctx hr, hxy.after]

theorem Becomes.mono (hctx : ctx ≤ ctx') (h : Becomes vals outer inner ctx₀ ctx e r) :
    Becomes vals outer inner ctx₀ ctx' e r :=
  ⟨h.stored.mono hctx, fun w hw => by rw [Context.literal?_eq hctx h.stored, h.literal w hw],
    fun hsize hinside => (h.dominates hsize hinside).mono hctx h.stored⟩

theorem Becomes.valued {w : Int64} (h : Becomes vals outer inner ctx₀ ctx e r)
    (hw : ctx₀.literal? e = some w) : Valued vals outer inner ctx₀ ctx e r w.toInt w.toInt := by
  have hr := h.literal w hw
  refine ⟨?_, Context.valueUnder_literal hw, Context.valueUnder_literal hr⟩
  obtain ⟨t, hn⟩ := Context.exists_node_of_literal? hr
  rw [hn]
  rfl

theorem Valued.arith {op : Arith} {a b a' b' : ExprId} {x y x' y' z z' : Int}
    (ha : Valued vals outer inner ctx₀ ctx a a' x x')
    (hb : Valued vals outer inner ctx₀ ctx b b' y y') (hn : ctx₀.node e = .arith op a b)
    (hr : Rebuilds ctx ctx' (.arith op a b) [a', b'] r) (hctx : ctx ≤ ctx')
    (hstored : ctx.Stored a') (hstored' : ctx.Stored b') (hz : op.exact x y = some z)
    (hz' : op.exact x' y' = some z') (hle : z ≤ z') : Dominates vals outer inner ctx₀ ctx' e r := by
  refine ⟨z, z', ⟨?_, ?_, ?_⟩, hle⟩
  · exact hr.callee?_arith hctx hstored hstored' ha.callee? hb.callee?
  · rw [Context.valueUnder_arith hn, ha.before, hb.before]
    exact hz
  · exact hr.valueUnder_arith hctx hstored hstored' ha.after hb.after hz'

/-- Operators that sizes are made with are monotone, so a size that is rebuilt over parts that
dominate the old ones dominates the old size. -/
theorem dominates_rebuilt {operands : List ExprId} (hsize : ctx₀.IsSize e)
    (hcall : (ctx₀.node e).callee? = none)
    (hinside : ∀ c ∈ ctx₀.outermostCalls e, ctx₀.CallInside (.of vals inner) c (outer c))
    (hoperands : List.Forall₂ (Becomes vals outer inner ctx₀ ctx) (ctx₀.node e).children operands)
    (hctx : ctx ≤ ctx') (hr : Rebuilds ctx ctx' (ctx₀.node e) operands r) :
    Dominates vals outer inner ctx₀ ctx' e r := by
  have hbelow : ∀ d ∈ (ctx₀.node e).children, ∀ c ∈ ctx₀.outermostCalls d,
      ctx₀.CallInside (.of vals inner) c (outer c) := fun d hd c hc =>
    hinside c (Context.mem_outermostCalls hcall hd hc)
  cases hsize with
  | @const _ w t hn =>
      rw [hn] at hr
      have hnr := hr.node_eq rfl (by simp)
      refine ⟨w.toInt, w.toInt, ⟨?_, Context.valueUnder_const hn, Context.valueUnder_const hnr⟩,
        le_rfl⟩
      rw [hnr]
      rfl
  | @var _ v hn =>
      rw [hn] at hr
      have hnr := hr.node_eq rfl (by simp)
      refine ⟨vals v, vals v, ⟨?_, Context.valueUnder_var hn, Context.valueUnder_var hnr⟩, le_rfl⟩
      rw [hnr]
      rfl
  | call hn =>
      rw [hn] at hcall
      cases hcall
  | @both _ op a b hn hop ha hb =>
      rw [hn] at hoperands hr hbelow
      obtain ⟨a', b', ha', hb', rfl⟩ := forall₂_pair hoperands
      obtain ⟨x, x', hx, hxx⟩ := ha'.dominates ha (hbelow a (by simp [Node.children]))
      obtain ⟨y, y', hy, hyy⟩ := hb'.dominates hb (hbelow b (by simp [Node.children]))
      rcases hop with rfl | rfl | rfl
      · exact hx.arith hy hn hr hctx ha'.stored hb'.stored rfl rfl (add_le_add hxx hyy)
      · exact hx.arith hy hn hr hctx ha'.stored hb'.stored rfl rfl (min_le_min hxx hyy)
      · exact hx.arith hy hn hr hctx ha'.stored hb'.stored rfl rfl (max_le_max hxx hyy)
  | @timesLeft _ a b w hn ha hw hb =>
      rw [hn] at hoperands hr hbelow
      obtain ⟨a', b', ha', hb', rfl⟩ := forall₂_pair hoperands
      obtain ⟨y, y', hy, hyy⟩ := hb'.dominates hb (hbelow b (by simp [Node.children]))
      apply (ha'.valued ha).arith hy hn hr hctx ha'.stored hb'.stored rfl rfl
      exact mul_le_mul_of_nonneg_left hyy hw
  | @timesRight _ a b w hn ha hb hw =>
      rw [hn] at hoperands hr hbelow
      obtain ⟨a', b', ha', hb', rfl⟩ := forall₂_pair hoperands
      obtain ⟨x, x', hx, hxx⟩ := ha'.dominates ha (hbelow a (by simp [Node.children]))
      apply hx.arith (hb'.valued hb) hn hr hctx ha'.stored hb'.stored rfl rfl
      exact mul_le_mul_of_nonneg_right hxx hw
  | @quotient _ a b w hn ha hb hw =>
      rw [hn] at hoperands hr hbelow
      obtain ⟨a', b', ha', hb', rfl⟩ := forall₂_pair hoperands
      obtain ⟨x, x', hx, hxx⟩ := ha'.dominates ha (hbelow a (by simp [Node.children]))
      apply hx.arith (hb'.valued hb) hn hr hctx ha'.stored hb'.stored (if_neg hw.ne')
        (if_neg hw.ne')
      exact Interval.fdiv_mono hxx hw

theorem visit_other {c : Prop} (h : (ctx.node r).callee? = none) :
    Attempt.Yields c (visit depth r) ctx fun o ctx' => o = none ∧ ctx' = ctx := by
  apply Attempt.Yields.get
  split
  · next hn =>
    rw [hn] at h
    cases h
  · exact Attempt.Yields.pure ⟨rfl, rfl⟩

/-- A call that is visited is replaced by the last point of a codomain that holds its value. -/
theorem visit_call {f : FunId} {args args' : List ExprId} {dims : List DimId} {d : Domain}
    (hwf : ctx₀.WellFormed) (hg : ctx₀.Grows ctx) (hn : ctx₀.node e = .call f args dims)
    (hf : ctx₀.isComplex f = true) (hd : (ctx₀.fn f).codomain? = some d)
    (hinside : ctx₀.CallInside (.of vals inner) e (outer e))
    (hnr : ctx.node r = .call f args' dims) :
    Attempt.Yields False (visit depth r) ctx fun o ctx' => ∃ s, o = some s ∧ ctx'.Stored s ∧
      Dominates vals outer inner ctx₀ ctx' e s := by
  obtain ⟨_, _, m, n, hcallee, hdomain, hm, hext, -, hlt⟩ := hinside
  rw [hn] at hcallee
  cases hcallee
  cases hd.symm.trans hdomain
  obtain ⟨hmin, hextent⟩ := hwf.codomain f d hd
  rw [← Context.valueUnder_mono hg.le hmin] at hm
  rw [← Context.valueUnder_mono hg.le hextent] at hext
  apply Attempt.Yields.get
  simp only [hnr, hg.isComplex_eq hwf, hf, if_true, hg.fn_eq, hd, map_eq_pure_bind]
  apply Attempt.Yields.bind (.build (Domain.last_under ⟨hmin.mono hg.le, hextent.mono hg.le⟩))
  rintro s ctx₁ _ ⟨hs, hcall, hlast⟩
  apply Attempt.Yields.pure
  have hvalue : ctx₀.valueUnder (.of vals fun c => some (outer c)) e = some (outer e) := by
    rw [Context.valueUnder_eq, hn]
    rfl
  exact ⟨s, rfl, hs, outer e, m + n - 1, ⟨hcall, hvalue, hlast _ m n hm hext⟩, by omega⟩

/-- What is left of a part after it was rebuilt and visited. -/
theorem visit_becomes {operands : List ExprId} (hwf : ctx₀.WellFormed) (hg : ctx₀.Grows ctx)
    (hg' : ctx.Grows ctx')
    (hoperands : List.Forall₂ (Becomes vals outer inner ctx₀ ctx) (ctx₀.node e).children operands)
    (hr : Rebuilds ctx ctx' (ctx₀.node e) operands r) :
    Attempt.Yields False (visit depth r) ctx' fun o ctx'' =>
      Becomes vals outer inner ctx₀ ctx'' e (o.getD r) := by
  have hr' : ctx'.Stored r :=
    hr.stored hg'.le (forall_of_forall₂ hoperands fun _ _ _ h => h.stored)
  by_cases hsize : ctx₀.IsSize e ∧
      ∀ c ∈ ctx₀.outermostCalls e, ctx₀.CallInside (.of vals inner) c (outer c)
  · obtain ⟨hsize, hinside⟩ := hsize
    by_cases hcall : (ctx₀.node e).callee? = none
    · have hdominates := dominates_rebuilt hsize hcall hinside hoperands hg'.le hr
      have hnone : (ctx'.node r).callee? = none := by
        obtain ⟨_, _, hvalued, -⟩ := hdominates
        exact hvalued.callee?
      apply (visit_other hnone).mono
      rintro _ _ - ⟨rfl, rfl⟩
      refine ⟨hr', fun w hw => ?_, fun _ _ => hdominates⟩
      obtain ⟨t, hn⟩ := Context.exists_node_of_literal? hw
      rw [hn] at hr
      have hnr := hr.node_eq rfl (by simp)
      change _ = Node.const w t at hnr
      rw [Option.getD_none, Context.literal?, hnr]
    · cases hsize with
      | @call _ f args dims d hn hf hd =>
          rw [hn] at hr
          have hnr := hr.node_eq rfl (by simp)
          have hself : e ∈ ctx₀.outermostCalls e := by
            rw [Context.outermostCalls_call hn]
            exact List.mem_singleton_self e
          apply (visit_call hwf (hg.trans hg') hn hf hd (hinside e hself) hnr).mono
          rintro _ ctx'' - ⟨s, rfl, hs, hdominates⟩
          refine ⟨hs, fun w hw => ?_, fun _ _ => hdominates⟩
          obtain ⟨t, hn'⟩ := Context.exists_node_of_literal? hw
          cases hn.symm.trans hn'
      | const hn | var hn | both hn | timesLeft hn | timesRight hn | quotient hn =>
          rw [hn] at hcall
          exact absurd rfl hcall
  · have hwf' := hg'.wellFormed (hg.wellFormed hwf)
    apply (visit_stored hwf' hr' fun _ _ => relaxWithin_stored).mono
    intro o ctx'' hg'' ho
    refine ⟨?_, fun w hw => absurd ?_ hsize, fun h h' => absurd ⟨h, h'⟩ hsize⟩
    · cases o with
      | none => exact hr'.mono hg''.le
      | some s => exact ho s rfl
    · -- A literal is a size without calls.
      obtain ⟨t, hn⟩ := Context.exists_node_of_literal? hw
      refine ⟨.const hn, fun c hc => ?_⟩
      rw [Context.outermostCalls] at hc
      split at hc
      · next hn' => cases hn.symm.trans hn'
      · obtain ⟨⟨d, hd⟩, -, -⟩ := List.mem_flatMap.1 hc
        rw [hn] at hd
        cases hd

/-- Every part of a size becomes something that dominates it. -/
theorem traverses (hwf : ctx₀.WellFormed) : (Attempt.rules False).Traverses (visit depth)
    (fun ctx e => ctx₀.Grows ctx ∧ ctx₀.Stored e) (Becomes vals outer inner ctx₀) where
  grows hg h := ⟨h.1.trans hg, h.2⟩
  stored h := h.2.mono h.1.le
  child h hc := ⟨h.1, h.2.child (Context.node_eq h.1.le h.2 ▸ hc)⟩
  lasts hg h := h.mono hg.le
  visits := by
    rintro ctx e operands ⟨hg, he⟩ hoperands
    have hstored := forall_of_forall₂ hoperands fun _ _ _ h => h.stored
    apply (Attempt.rules False).visitNode_ensures (hg.wellFormed hwf) (he.mono hg.le)
      hoperands.length_eq.symm hstored
    intro r ctx₁ hg₁ hr
    rw [Context.node_eq hg.le he] at hoperands hr
    apply (Attempt.rules False).bind (visit_becomes hwf hg hg₁ hoperands hr).ensures
    intro o ctx₂ _ ho
    exact (Attempt.rules False).pure ho

end Relaxing

/-- Relaxing the calls of a size bounds it from above, at every assignment and whatever points of
their codomains its outermost calls stand for.  Calls that are left in the ends of codomains may
have any values. -/
theorem Attempt.le_relax {ctx ctx' : Context} {e r : ExprId} (hwf : ctx.WellFormed)
    (he : ctx.Stored e) (hsize : ctx.IsSize e)
    (hrun : (relax e).run.run ctx = (.ok r, ctx')) (vals : VarId → Int) (outer : ExprId → Int)
    (inner : ExprId → Option Int)
    (hinside : ∀ c ∈ ctx.outermostCalls e, ctx.CallInside (.of vals inner) c (outer c)) :
    ∃ x y, ctx.valueUnder (.of vals fun c => some (outer c)) e = some x ∧
      ctx'.valueUnder (.of vals inner) r = some y ∧ x ≤ y := by
  have hyields : Attempt.Yields False (relax e) ctx fun r ctx' =>
      Relaxing.Becomes vals outer inner ctx ctx' e r := by
    obtain ⟨depth, hdepth⟩ : ∃ depth, ctx.callDepth = depth + 1 :=
      Nat.exists_eq_succ_of_ne_zero (by simp [Context.callDepth])
    apply Attempt.Yields.get
    rw [hdepth, Relaxing.relaxWithin_succ]
    exact (Attempt.rules False).rewrite_ensures (Relaxing.traverses hwf) ⟨.refl ctx, he⟩
  obtain ⟨-, -, hbecomes⟩ := hyields
  rw [hrun] at hbecomes
  obtain ⟨x, y, hvalued, hle⟩ := (hbecomes r rfl).dominates hsize hinside
  exact ⟨x, y, hvalued.before, hvalued.after, hle⟩

/-- The size `floordiv(max(f(g(x)) * 4, x) + g(x), 2)`, where `g` halves and gives less than eight,
and `f` gives one of `1, …, n`. -/
def tableSize : Context × ExprId :=
  let declare : Attempt ExprId := do
    let n ← Build.var (← declareVar "n" .int32)
    let x ← Build.var (← declareVar "x" .int32)
    let p ← declareVar "p" .int32
    let d ← declareDim "d" .uniform
    let half ← Attempt.floorDiv (← Build.var p) (← Build.int 2)
    let f ← Attempt.declareFun "f" (some ⟨← Build.int 1, n⟩) [d] [p] none
    let g ← Attempt.declareFun "g" (some (← Domain.literal 0 8)) [d] [p] (some half)
    let offset ← Attempt.call g [x] [d]
    let rows ← Build.mulConst (← Attempt.call f [offset] [d]) 4
    Attempt.floorDiv (← Build.add (← Build.maximum rows x) offset) (← Build.int 2)
  match declare.run.run default with
  | (.ok e, ctx) => (ctx, e)
  | (.error _, ctx) => (ctx, ⟨0⟩)

namespace tableSize

/-- The values of `n` and `x`. -/
def vals (v : VarId) : Int := if v.index = 0 then 10 else 5

/-- The values of `f(g(x))` and of `g(x)`. -/
def calls (c : ExprId) : Int := if c.index = 9 then 10 else 2

/-- Calls in the ends of codomains have the values of their bodies. -/
def bodies : ExprId → Option Int := (⟨tableSize.1, 2, fun v => some (vals v)⟩ : Valuation).value

theorem isSize : tableSize.1.IsSize tableSize.2 := by
  have hx : tableSize.1.IsSize ⟨1⟩ :=
    .var (show tableSize.1.node ⟨1⟩ = .var ⟨1⟩ by decide +kernel)
  have hg : tableSize.1.IsSize ⟨8⟩ :=
    .call (show tableSize.1.node ⟨8⟩ = .call ⟨1⟩ [⟨1⟩] [⟨0⟩] by decide +kernel)
      (by decide +kernel) (show _ = some (⟨⟨6⟩, ⟨7⟩⟩ : Domain) by decide +kernel)
  have hf : tableSize.1.IsSize ⟨9⟩ :=
    .call (show tableSize.1.node ⟨9⟩ = .call ⟨0⟩ [⟨8⟩] [⟨0⟩] by decide +kernel)
      (by decide +kernel) (show _ = some (⟨⟨5⟩, ⟨0⟩⟩ : Domain) by decide +kernel)
  have hrows : tableSize.1.IsSize ⟨11⟩ :=
    .timesRight (show tableSize.1.node ⟨11⟩ = .arith .mul ⟨9⟩ ⟨10⟩ by decide +kernel) hf
      (show _ = some 4 by decide +kernel) (by decide)
  have hmax : tableSize.1.IsSize ⟨12⟩ :=
    .both (show tableSize.1.node ⟨12⟩ = .arith .max ⟨11⟩ ⟨1⟩ by decide +kernel) (.inr (.inr rfl))
      hrows hx
  have hsum : tableSize.1.IsSize ⟨13⟩ :=
    .both (show tableSize.1.node ⟨13⟩ = .arith .add ⟨12⟩ ⟨8⟩ by decide +kernel) (.inl rfl) hmax hg
  exact .quotient
    (show tableSize.1.node tableSize.2 = .arith .floorDiv ⟨13⟩ ⟨3⟩ by decide +kernel) hsum
    (show tableSize.1.literal? ⟨3⟩ = some 2 by decide +kernel) (by decide)

theorem callsInside : ∀ c ∈ tableSize.1.outermostCalls tableSize.2,
    tableSize.1.CallInside (.of vals bodies) c (calls c) := by
  have hcalls : tableSize.1.outermostCalls tableSize.2 = [⟨9⟩, ⟨8⟩] := by decide +kernel
  rw [hcalls]
  simp only [List.forall_mem_cons, List.not_mem_nil, false_implies, implies_true, and_true]
  constructor
  · exact ⟨⟨0⟩, ⟨⟨5⟩, ⟨0⟩⟩, 1, 10, by decide +kernel, by decide +kernel, by decide +kernel,
      by decide +kernel, by decide +kernel, by decide +kernel⟩
  · exact ⟨⟨1⟩, ⟨⟨6⟩, ⟨7⟩⟩, 0, 8, by decide +kernel, by decide +kernel, by decide +kernel,
      by decide +kernel, by decide +kernel, by decide +kernel⟩

end tableSize

/-- The size is `21` where `f(g(x))` is `10` and `g(x)` is `2`, and it is relaxed to more. -/
theorem Attempt.le_relax_tableSize :
    tableSize.1.valueUnder (.of tableSize.vals fun c => some (tableSize.calls c)) tableSize.2 =
        some 21 ∧
      ∃ r ctx' y, (relax tableSize.2).run.run tableSize.1 = (.ok r, ctx') ∧
        ctx'.valueUnder (.of tableSize.vals tableSize.bodies) r = some y ∧ 21 ≤ y := by
  have hvalue : tableSize.1.valueUnder (.of tableSize.vals fun c => some (tableSize.calls c))
      tableSize.2 = some 21 := by decide +kernel
  have hok : ((relax tableSize.2).run.run tableSize.1).1.isOk = true := by decide +kernel
  rcases hrun : (relax tableSize.2).run.run tableSize.1 with ⟨_ | r, ctx'⟩
  · rw [hrun] at hok
    cases hok
  · obtain ⟨x, y, hx, hy, hle⟩ := le_relax (by decide +kernel) (by decide +kernel)
      tableSize.isSize hrun tableSize.vals tableSize.calls tableSize.bodies tableSize.callsInside
    cases hvalue.symm.trans hx
    exact ⟨hvalue, r, ctx', y, rfl, hy, hle⟩

end LoopBounds
