import LoopBounds.Proofs.Assignment

/-!
# Trails

The bounds of an expression look at less than a whole context: at what evaluation asks for, at the
ends of the domains of variables, and at the ends of the codomains of functions.  A trail is a
family of expressions that is closed under this and on which the assignment keeps to what is
declared.
-/

namespace LoopBounds

namespace Valuation

variable {ν μ : Valuation} {known : Env Domain} {e : ExprId}

/-- A family of expressions that holds what its members lead to.  The ends of a codomain may be
read with more variables than the caller has. -/
structure Trail (ν : Valuation) (known : Env Domain) (along : Valuation → ExprId → Prop) :
    Prop where
  ctx : ∀ μ e, along μ e → μ.ctx = ν.ctx
  needs : ∀ μ e μ' c, along μ e → μ.Needs e μ' c → along μ' c
  inside : ∀ μ e x, along μ e → μ.value e = some x → Word.Inside x
  domain : ∀ e v d x, along ν e → ν.ctx.node e = .var v → known v = some d → ν.env v = some x →
    along ν d.min ∧ along ν d.extent ∧ ν.InDomain d x
  codomain : ∀ μ e f args dims d x, along μ e → ν.ctx.node e = .call f args dims →
    (ν.ctx.fn f).codomain? = some d → μ.value e = some x →
    ∃ μ', (μ = ν → μ' = ν) ∧ (∀ v y, μ.env v = some y → μ'.env v = some y) ∧
      along μ' d.min ∧ along μ' d.extent ∧ μ'.InDomain d x

/-- Everything that a context leads to. -/
theorem Admits.trail (h : ν.Admits known) : ν.Trail known ν.Reaches := by
  constructor
  · intro μ e hr
    exact hr.ctx_eq
  · intro μ e μ' c hr hc
    exact hr.needs hc
  · exact h.inside
  · intro e v d x hr hn hd hx
    exact ⟨.top _, .top _, h.inDomain v d x hd hx⟩
  · intro μ e f args dims d x hr hn hd hx
    refine ⟨ν.shadow μ, ?_, ?_, hr.codomain hn hd (.inl rfl), hr.codomain hn hd (.inr rfl),
      h.inCodomain μ e f args dims d x hr hn hd hx⟩
    · rintro rfl
      exact μ.shadow_self
    · intro v y hy
      simp [shadow, hy]

/-- What finding the bounds of `e` at `ν` looks at: what evaluation asks for, the domains of the
variables, each of which may mention others, and the codomains of the functions that are called,
with the variables of the caller. -/
inductive Meets (ν : Valuation) (known : Env Domain) (e : ExprId) : Valuation → ExprId → Prop
  | self : Meets ν known e ν e
  | needs {μ c μ' c'} (h : Meets ν known e μ c) (hc : μ.Needs c μ' c') : Meets ν known e μ' c'
  | domain {c v d x} (h : Meets ν known e ν c) (hn : ν.ctx.node c = .var v)
    (hd : known v = some d) (hx : x = d.min ∨ x = d.extent) : Meets ν known e ν x
  | codomain {μ c f args dims d x} (h : Meets ν known e μ c)
    (hn : ν.ctx.node c = .call f args dims) (hd : (ν.ctx.fn f).codomain? = some d)
    (hx : x = d.min ∨ x = d.extent) : Meets ν known e μ x

/-- On the way, variables lie in their domains and calls in the codomains of their functions, and
no value is the least or the greatest word or lies beyond them. -/
structure KeepsAlong (ν : Valuation) (known : Env Domain) (e : ExprId) : Prop where
  inDomain : ∀ c v d x, ν.Meets known e ν c → ν.ctx.node c = .var v → known v = some d →
    ν.env v = some x → ν.InDomain d x
  inCodomain : ∀ μ c f args dims d x, ν.Meets known e μ c → ν.ctx.node c = .call f args dims →
    (ν.ctx.fn f).codomain? = some d → μ.value c = some x → μ.InDomain d x
  inside : ∀ μ c x, ν.Meets known e μ c → μ.value c = some x → Word.Inside x

theorem Needs.ctx_eq {c : ExprId} (h : ν.Needs e μ c) : μ.ctx = ν.ctx := by
  cases h with
  | operand | andRight | orRight | argument => rfl
  | body _ _ hμ => exact enter_ctx hμ

theorem Meets.ctx_eq {c : ExprId} (h : ν.Meets known e μ c) : μ.ctx = ν.ctx := by
  induction h with
  | self => rfl
  | needs _ hc ih => exact hc.ctx_eq.trans ih
  | domain => rfl
  | codomain _ _ _ _ ih => exact ih

theorem KeepsAlong.trail (h : ν.KeepsAlong known e) : ν.Trail known (ν.Meets known e) := by
  constructor
  · intro μ c hm
    exact hm.ctx_eq
  · intro μ c μ' c' hm hc
    exact hm.needs hc
  · exact h.inside
  · intro c v d x hm hn hd hx
    exact ⟨hm.domain hn hd (.inl rfl), hm.domain hn hd (.inr rfl), h.inDomain c v d x hm hn hd hx⟩
  · intro μ c f args dims d x hm hn hd hx
    exact ⟨μ, id, fun _ _ => id, hm.codomain hn hd (.inl rfl), hm.codomain hn hd (.inr rfl),
      h.inCodomain μ c f args dims d x hm hn hd hx⟩

end Valuation

end LoopBounds
