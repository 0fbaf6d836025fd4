import LoopBounds.Proofs.Evaluation

/-!
# Admissible assignments

The assignments under which the answers of an analyzer are meant to hold.  Variables stay in
their known domains, calls in the codomains of their functions, connectives see truth values,
and no value that the expressions of the context take, the bodies of the functions they call
included, is the least or the greatest word or lies beyond them.
-/

namespace LoopBounds

/-- The operands that are read as truth values. -/
def Node.conditions : Node → List ExprId
  | .and a b | .or a b => [a, b]
  | .not a => [a]
  | .const .. | .var _ | .arith .. | .compare .. | .call .. => []

/-- The integer stands for a truth value. -/
def IsBit (x : Int) : Prop := x = 0 ∨ x = 1

theorem isBit_toInt (b : Bool) : IsBit b.toInt := by
  cases b
  exacts [.inl rfl, .inr rfl]

theorem IsBit.toInt_ne_zero {x : Int} (h : IsBit x) : (decide (x ≠ 0)).toInt = x := by
  rcases h with rfl | rfl <;> rfl

/-- The node gives truth values. -/
def Node.IsCondition : Node → Prop
  | .compare .. | .and .. | .or .. | .not _ => True
  | .const .. | .var _ | .arith .. | .call .. => False

theorem Node.isCondition_iff {n : Node} : n.IsCondition ↔ (∃ op a b, n = .compare op a b) ∨
    (∃ a b, n = .and a b) ∨ (∃ a b, n = .or a b) ∨ ∃ a, n = .not a := by
  cases n <;> simp [IsCondition]

theorem Valuation.isBit_of_isCondition {ν : Valuation} {e : ExprId} {z : Int}
    (hn : (ν.ctx.node e).IsCondition) (hz : ν.value e = some z) : IsBit z := by
  cases hnode : ν.ctx.node e with
  | const | var | arith | call => simp [hnode, Node.IsCondition] at hn
  | compare op a b =>
      obtain ⟨x, y, -, -, rfl⟩ := (value_compare_eq_some hnode).1 hz
      exact isBit_toInt _
  | and a b =>
      obtain ⟨-, rfl⟩ | ⟨x, y, -, -, -, rfl⟩ := (value_and_eq_some hnode).1 hz
      exacts [.inl rfl, isBit_toInt _]
  | or a b =>
      obtain ⟨-, y, -, rfl⟩ | ⟨-, rfl⟩ := (value_or_eq_some hnode).1 hz
      exacts [isBit_toInt _, .inr rfl]
  | not a =>
      obtain ⟨x, -, rfl⟩ := (value_not_eq_some hnode).1 hz
      exact isBit_toInt _

namespace Valuation

variable {ν μ : Valuation} {e : ExprId}

/-- `x` is one of the values `[min, min + extent)`. -/
def InDomain (ν : Valuation) (d : Domain) (x : Int) : Prop :=
  ∃ m n, ν.value d.min = some m ∧ ν.value d.extent = some n ∧ m ≤ x ∧ x < m + n

/-- `ν` with the variables of `μ` in front of its own. -/
def shadow (ν μ : Valuation) : Valuation := { ν with env := fun v => (μ.env v).or (ν.env v) }

theorem shadow_self (ν : Valuation) : ν.shadow ν = ν := by
  obtain ⟨ctx, depth, env⟩ := ν
  simp only [shadow, Valuation.mk.injEq, true_and]
  funext v
  exact Option.or_self

/-- What the expressions of a context lead to: their operands, the bodies of the functions they
call, at the arguments, and the ends of the codomains.  The ends are read with the variables of
the caller, and those of `ν` behind them. -/
inductive Reaches (ν : Valuation) : Valuation → ExprId → Prop
  | top (e : ExprId) : Reaches ν ν e
  | child {μ e c} (h : Reaches ν μ e) (hc : c ∈ (ν.ctx.node e).children) : Reaches ν μ c
  | body {μ μ' e f args dims b} (h : Reaches ν μ e) (hn : ν.ctx.node e = .call f args dims)
    (hb : (ν.ctx.fn f).body? = some b) (hμ : μ.enter f args dims = some μ') : Reaches ν μ' b
  | codomain {μ e f args dims d x} (h : Reaches ν μ e) (hn : ν.ctx.node e = .call f args dims)
    (hd : (ν.ctx.fn f).codomain? = some d) (hx : x = d.min ∨ x = d.extent) :
    Reaches ν (ν.shadow μ) x

/-- The assignment keeps to what an analyzer takes for granted. -/
structure Admits (ν : Valuation) (domains : Env Domain) : Prop where
  inDomain : ∀ v d x, domains v = some d → ν.env v = some x → ν.InDomain d x
  inCodomain : ∀ μ e f args dims d x, ν.Reaches μ e → ν.ctx.node e = .call f args dims →
    (ν.ctx.fn f).codomain? = some d → μ.value e = some x → (ν.shadow μ).InDomain d x
  isBit : ∀ e, ∀ c ∈ (ν.ctx.node e).conditions, ∀ x, ν.value c = some x → IsBit x
  inside : ∀ μ e x, ν.Reaches μ e → μ.value e = some x → Word.Inside x

theorem Reaches.ctx_eq (h : ν.Reaches μ e) : μ.ctx = ν.ctx := by
  induction h with
  | top _ => rfl
  | child _ _ ih => exact ih
  | body _ _ _ hμ ih => exact (enter_ctx hμ).trans ih
  | codomain => rfl

theorem Reaches.needs {μ' : Valuation} {c : ExprId} (h : ν.Reaches μ e) (hc : μ.Needs e μ' c) :
    ν.Reaches μ' c := by
  have hctx := h.ctx_eq
  cases hc with
  | operand hmem => exact h.child (hctx ▸ Node.required_subset _ hmem)
  | andRight hn => exact h.child (by simp [← hctx, hn, Node.children])
  | orRight hn => exact h.child (by simp [← hctx, hn, Node.children])
  | argument hn _ ha =>
      have hmem := mem_of_argument? ha
      exact h.child (by simpa [← hctx, hn, Node.children] using hmem)
  | body hn hb hμ => exact h.body (hctx ▸ hn) (hctx ▸ hb) hμ

theorem Reaches.demands {μ' : Valuation} {c : ExprId} (h : ν.Reaches μ e)
    (hc : μ.Demands e μ' c) : ν.Reaches μ' c := by
  induction hc with
  | self => exact h
  | step _ hc ih => exact ih.needs hc

theorem Admits.staysInside {domains : Env Domain} (h : ν.Admits domains) (e : ExprId) :
    ν.StaysInside e :=
  fun μ c x hd => h.inside μ c x ((Reaches.top e).demands hd)

/-- Evaluation gives the exact value just when the remainders that it meets can be computed. -/
theorem Admits.eval_iff {domains : Env Domain} (h : ν.Admits domains) {env : Env Int64}
    (henv : ν.env = env.exact) {w : Int64} (hw : ν.value e = some w.toInt) :
    ν.ctx.evalWithin ν.depth env e = some w ↔ ν.RemaindersFit e := by
  constructor
  · exact remaindersFit_of_eval henv
  · intro hfit
    obtain ⟨w', hw'⟩ := exists_eval henv hw (h.staysInside e) hfit
    have heq := (value_of_eval henv hw').symm.trans hw
    rw [Option.some_inj, Int64.toInt_inj] at heq
    exact heq ▸ hw'

/-- Domains of variables without a value do not matter. -/
theorem Admits.congr {domains domains' : Env Domain} (h : ν.Admits domains)
    (hd : ∀ v d x, domains' v = some d → ν.env v = some x → domains v = some d) :
    ν.Admits domains' :=
  ⟨fun v d x hv hx => h.inDomain v d x (hd v d x hv hx) hx, h.inCodomain, h.isBit, h.inside⟩

/-! ## Contexts without calls -/

/-- No stored expression is a call, the connectives see truth values, and every value is inside
the word. -/
def Plain (ν : Valuation) : Prop :=
  ∀ i < ν.ctx.size, (ν.ctx.node ⟨i⟩).callee? = none ∧
    (∀ c ∈ (ν.ctx.node ⟨i⟩).conditions, ∀ x ∈ ν.value c, IsBit x) ∧
    ∀ x ∈ ν.value ⟨i⟩, Word.Inside x

instance (x : Int) : Decidable (IsBit x) := inferInstanceAs (Decidable (_ ∨ _))

instance (x : Int) : Decidable (Word.Inside x) := inferInstanceAs (Decidable (_ ∧ _))

instance (ν : Valuation) (d : Domain) (x : Int) : Decidable (ν.InDomain d x) :=
  decidable_of_iff (∃ m ∈ ν.value d.min, ∃ n ∈ ν.value d.extent, m ≤ x ∧ x < m + n)
    ⟨fun ⟨m, hm, n, hn, hx⟩ => ⟨m, n, hm, hn, hx⟩, fun ⟨m, n, hm, hn, hx⟩ => ⟨m, hm, n, hn, hx⟩⟩

instance (ν : Valuation) : Decidable ν.Plain :=
  inferInstanceAs (Decidable (∀ i < ν.ctx.size, _ ∧ _ ∧ _))

theorem Plain.not_call (h : ν.Plain) {f : FunId} {args : List ExprId} {dims : List DimId} :
    ν.ctx.node e ≠ .call f args dims := by
  intro hn
  have he : ν.ctx.Stored e := by
    by_contra he
    cases (Context.node_of_not_stored he).symm.trans hn
  have hcallee := (h e.index he).1
  rw [hn] at hcallee
  cases hcallee

theorem Plain.eq_of_reaches (h : ν.Plain) (hμ : ν.Reaches μ e) : μ = ν := by
  induction hμ with
  | top _ => rfl
  | child _ _ ih => exact ih
  | body _ hn => exact absurd hn h.not_call
  | codomain _ hn => exact absurd hn h.not_call

/-- Without calls, an assignment is admissible once the known domains hold it. -/
theorem Plain.admits {domains : Env Domain} (h : ν.Plain)
    (hdom : ∀ v d x, domains v = some d → ν.env v = some x → ν.InDomain d x) :
    ν.Admits domains where
  inDomain := hdom
  inCodomain _ _ _ _ _ _ _ _ hn _ _ := absurd hn h.not_call
  isBit e c hc x hx := by
    by_cases he : ν.ctx.Stored e
    · exact (h e.index he).2.1 c hc x hx
    · rw [Context.node_of_not_stored he] at hc
      cases hc
  inside μ e x hμ hx := by
    rw [h.eq_of_reaches hμ] at hx
    by_cases he : ν.ctx.Stored e
    · exact (h e.index he).2.2 x hx
    · rw [value_const (Context.node_of_not_stored he), Option.some_inj] at hx
      exact hx ▸ by decide

end Valuation

end LoopBounds
