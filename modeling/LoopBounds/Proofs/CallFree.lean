import LoopBounds.Proofs.Soundness

/-!
# Expressions without calls

An expression without calls has the same value in all later contexts and however deep calls are
followed.  So what an analyzer takes for granted about functions does not matter for it: answers
about it hold wherever values stay inside the word and connectives see truth values.
-/

namespace LoopBounds

namespace Context

variable {ctx ctx' : Context} {e : ExprId}

/-- The value depends on the nodes of the expression only. -/
theorem Over.value_eq {e : ExprId} (he : ctx.Over .callFree e) (hctx : ctx ≤ ctx') (m n : Nat)
    (env : Env Int) :
    (⟨ctx', m, env⟩ : Valuation).value e = (⟨ctx, n, env⟩ : Valuation).value e := by
  have operand : ∀ c ∈ (ctx.node e).children,
      (⟨ctx', m, env⟩ : Valuation).value c = (⟨ctx, n, env⟩ : Valuation).value c :=
    fun c hc => Over.value_eq (he.child hc) hctx m n env
  cases hn : ctx.node e <;> have hn' := (node_eq hctx he.stored).trans hn
  case const w t =>
    exact (Valuation.value_const hn').trans (Valuation.value_const (ν := ⟨ctx, n, env⟩) hn).symm
  case var v =>
    exact (Valuation.value_var hn').trans (Valuation.value_var (ν := ⟨ctx, n, env⟩) hn).symm
  case arith op a b =>
    rw [Valuation.value_arith hn', Valuation.value_arith (ν := ⟨ctx, n, env⟩) hn,
      operand a (by simp [hn, Node.children]), operand b (by simp [hn, Node.children])]
  case compare op a b =>
    rw [Valuation.value_compare hn', Valuation.value_compare (ν := ⟨ctx, n, env⟩) hn,
      operand a (by simp [hn, Node.children]), operand b (by simp [hn, Node.children])]
  case and a b =>
    rw [Valuation.value_and hn', Valuation.value_and (ν := ⟨ctx, n, env⟩) hn,
      operand a (by simp [hn, Node.children]), operand b (by simp [hn, Node.children])]
  case or a b =>
    rw [Valuation.value_or hn', Valuation.value_or (ν := ⟨ctx, n, env⟩) hn,
      operand a (by simp [hn, Node.children]), operand b (by simp [hn, Node.children])]
  case not a =>
    rw [Valuation.value_not hn', Valuation.value_not (ν := ⟨ctx, n, env⟩) hn,
      operand a (by simp [hn, Node.children])]
  case call f args dims => exact absurd hn (he.mem f args dims)
termination_by e.index
decreasing_by exact ctx.child_lt hc

/-- In a context without calls, every stored expression is one without. -/
theorem Stored.over_callFree {e : ExprId} (he : ctx.Stored e)
    (h : ∀ i < ctx.size, (ctx.node ⟨i⟩).callee? = none) : ctx.Over .callFree e := by
  refine ⟨he, fun f args dims hn => ?_, fun c hc => (he.child hc).over_callFree h⟩
  have hcallee := h e.index he
  rw [hn] at hcallee
  cases hcallee
termination_by e.index
decreasing_by exact ctx.child_lt hc

end Context

namespace Valuation

variable {ν μ : Valuation} {e : ExprId}

/-- The connectives see truth values, and every value is inside the word. -/
structure Keeps (ν : Valuation) : Prop where
  isBit : ∀ e, ∀ c ∈ (ν.ctx.node e).conditions, ∀ x, ν.value c = some x → IsBit x
  inside : ∀ e x, ν.value e = some x → Word.Inside x

theorem Keeps.anti (h : μ.Keeps) (hle : ν ≤ μ) : ν.Keeps where
  isBit e c hc x hx := h.isBit e c (hle.ctx ▸ hc) x (value_mono hle hx)
  inside e x hx := h.inside e x (value_mono hle hx)

theorem Plain.keeps (h : ν.Plain) : ν.Keeps := by
  have hadmits : ν.Admits Env.empty := h.admits fun _ _ _ hd => nomatch hd
  exact ⟨hadmits.isBit, fun e x hx => hadmits.inside ν e x (.top e) hx⟩

/-- Where calls are not followed, nothing else is reached. -/
theorem eq_of_reaches (hdepth : ν.depth = 0) (h : ν.Reaches μ e) : μ = ν := by
  induction h with
  | top => rfl
  | child _ _ ih => exact ih
  | body _ _ _ hμ ih =>
      subst ih
      obtain ⟨depth, -, hd, -⟩ := enter_eq_some.1 hμ
      exact absurd (hdepth.symm.trans hd) (by simp)
  | codomain _ _ _ _ ih =>
      subst ih
      exact shadow_self _

/-- Where calls are not followed, the declared codomains do not matter. -/
theorem Keeps.admits (h : ν.Keeps) (hdepth : ν.depth = 0) {known : Env Domain}
    (hdomain : ∀ v d x, known v = some d → ν.env v = some x → ν.InDomain d x) :
    ν.Admits known where
  inDomain := hdomain
  inCodomain μ e f args dims d x hr hn _ hx := by
    rw [eq_of_reaches hdepth hr] at hx
    obtain ⟨b, μ', -, hμ', -⟩ := (value_call_eq_some hn).1 hx
    obtain ⟨depth, -, hd, -⟩ := enter_eq_some.1 hμ'
    exact absurd (hdepth.symm.trans hd) (by simp)
  isBit := h.isBit
  inside μ e x hr hx := h.inside e x (eq_of_reaches hdepth hr ▸ hx)

/-- Without calls, evaluation stays at its assignment. -/
theorem Demands.callFree {c : ExprId} (he : ν.ctx.Over .callFree e) (h : ν.Demands e μ c) :
    μ = ν ∧ ν.ctx.Over .callFree c := by
  induction h with
  | self => exact ⟨rfl, he⟩
  | step _ hc ih =>
      obtain ⟨rfl, hover⟩ := ih
      cases hc with
      | operand hmem => exact ⟨rfl, hover.child (Node.required_subset _ hmem)⟩
      | andRight hn => exact ⟨rfl, hover.child (by simp [hn, Node.children])⟩
      | orRight hn => exact ⟨rfl, hover.child (by simp [hn, Node.children])⟩
      | argument hn => exact absurd hn (hover.mem _ _ _)
      | body hn => exact absurd hn (hover.mem _ _ _)

end Valuation

namespace Context

variable {ctx : Context} {env : Env Int64} {e : ExprId} {x : Int}

/-- The assignment of words, without following calls. -/
def shallow (ctx : Context) (env : Env Int64) : Valuation := ⟨ctx, 0, env.exact⟩

theorem shallow_le (ctx : Context) (env : Env Int64) : ctx.shallow env ≤ ctx.valuation env :=
  ⟨rfl, Nat.zero_le _, fun _ _ => id⟩

/-- An expression without calls evaluates to its exact value where the remainders fit. -/
theorem Over.exists_evalsTo (he : ctx.Over .callFree e) (hkeeps : (ctx.valuation env).Keeps)
    (hx : (ctx.valuation env).value e = some x) : ∃ w, ctx.EvalsTo env e w ∧ w.toInt = x := by
  have hword := Word.toInt_ofInt (hkeeps.inside e x hx).fits
  rw [← hword] at hx
  refine ⟨_, ⟨hx, fun hfit => ?_⟩, hword⟩
  have hinside : (ctx.valuation env).StaysInside e := fun μ c y hd hy =>
    hkeeps.inside c y ((hd.callFree he).1 ▸ hy)
  obtain ⟨w, hw⟩ := Valuation.exists_eval (ν := ctx.valuation env) rfl hx hinside hfit
  have heq := (Valuation.value_of_eval (ν := ctx.valuation env) rfl hw).symm.trans hx
  rw [Option.some_inj, Int64.toInt_inj] at heq
  exact heq ▸ hw

end Context

end LoopBounds
