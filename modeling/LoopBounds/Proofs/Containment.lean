import LoopBounds.Proofs.Soundness

/-!
# Values and their constant bounds

The value of an expression lies between the words that an analyzer gives for its bounds, whatever
the analyzer was asked before.  Nothing is assumed of expressions that neither evaluation nor the
bounds look at, and connectives may be given any numbers.
-/

namespace LoopBounds

namespace Valuation

variable {ν μ : Valuation} {known : Env Domain} {e : ExprId}

/-- No stored expression up to `e` is a call. -/
def CallFreeUpTo (ctx : Context) (e : ExprId) : Prop :=
  ∀ i ≤ e.index, (ctx.node ⟨i⟩).callee? = none

instance (ctx : Context) (e : ExprId) : Decidable (CallFreeUpTo ctx e) :=
  inferInstanceAs (Decidable (∀ i ≤ e.index, _))

theorem CallFreeUpTo.node_ne {ctx : Context} (h : CallFreeUpTo ctx e) {f : FunId}
    {args : List ExprId} {dims : List DimId} : ctx.node e ≠ .call f args dims := by
  intro hn
  have hcallee := h e.index le_rfl
  rw [hn] at hcallee
  cases hcallee

/-- All values at `ν` are inside the word. -/
def InsideWord (ν : Valuation) : Prop := ∀ i < ν.ctx.size, ∀ x ∈ ν.value ⟨i⟩, Word.Inside x

instance (ν : Valuation) : Decidable ν.InsideWord :=
  inferInstanceAs (Decidable (∀ i < ν.ctx.size, ∀ x ∈ ν.value ⟨i⟩, Word.Inside x))

theorem InsideWord.inside (h : ν.InsideWord) {x : Int} (hx : ν.value e = some x) :
    Word.Inside x := by
  by_cases he : ν.ctx.Stored e
  · exact h e.index he x hx
  · rw [value_const (Context.node_of_not_stored he), Option.some_inj] at hx
    exact hx ▸ by decide

/-- The value of a call lies in the codomain, the body calls nothing and its values at the
arguments are inside the word. -/
def FlatCall (ν : Valuation) (e : ExprId) : Node → Prop
  | .call f args dims => (∀ b ∈ (ν.ctx.fn f).body?, CallFreeUpTo ν.ctx b) ∧
    (∀ d ∈ (ν.ctx.fn f).codomain?, ∀ x ∈ ν.value e, ν.InDomain d x) ∧
    ∀ μ ∈ ν.enter f args dims, μ.InsideWord
  | _ => True

instance (ν : Valuation) (e : ExprId) : (n : Node) → Decidable (ν.FlatCall e n)
  | .call .. => inferInstanceAs (Decidable ((∀ _ ∈ _, _) ∧ (∀ _ ∈ _, ∀ _ ∈ _, _) ∧ ∀ _ ∈ _, _))
  | .const .. | .var _ | .arith .. | .compare .. | .and .. | .or .. | .not _ =>
    inferInstanceAs (Decidable True)

/-- Calls do not nest, and all values at `ν` and in the bodies are inside the word. -/
def Flat (ν : Valuation) : Prop :=
  ν.InsideWord ∧ ∀ i < ν.ctx.size, ν.FlatCall ⟨i⟩ (ν.ctx.node ⟨i⟩)

instance (ν : Valuation) : Decidable ν.Flat :=
  inferInstanceAs (Decidable (_ ∧ ∀ i < ν.ctx.size, _))

theorem Flat.call (h : ν.Flat) {f : FunId} {args : List ExprId} {dims : List DimId}
    (hn : ν.ctx.node e = .call f args dims) :
    (∀ b ∈ (ν.ctx.fn f).body?, CallFreeUpTo ν.ctx b) ∧
      (∀ d ∈ (ν.ctx.fn f).codomain?, ∀ x ∈ ν.value e, ν.InDomain d x) ∧
      ∀ μ ∈ ν.enter f args dims, μ.InsideWord := by
  have he : ν.ctx.Stored e := by
    by_contra he
    cases (Context.node_of_not_stored he).symm.trans hn
  have hflat := h.2 e.index he
  rwa [hn] at hflat

/-- Where calls do not nest, what the bounds look at is at the top or in a body. -/
theorem Flat.of_meets (h : ν.Flat) {c : ExprId} (hm : ν.Meets known e μ c) :
    μ = ν ∨ μ.InsideWord ∧ CallFreeUpTo ν.ctx c := by
  induction hm with
  | self => exact .inl rfl
  | domain => exact .inl rfl
  | @codomain μ c f args dims d x hm hn hd hx ih =>
      rcases ih with rfl | ⟨-, hfree⟩
      · exact .inl rfl
      · exact absurd hn hfree.node_ne
  | @needs μ c μ' c' hm hc ih =>
      have hctx := hm.ctx_eq
      rcases ih with rfl | ⟨hinside, hfree⟩
      · cases hc with
        | operand | andRight | orRight | argument => exact .inl rfl
        | body hn hb hμ =>
            obtain ⟨hbody, -, henter⟩ := h.call hn
            exact .inr ⟨henter _ hμ, hbody _ hb⟩
      · have hchild : c' ∈ (ν.ctx.node c).children → CallFreeUpTo ν.ctx c' := fun hc i hi =>
          hfree i (hi.trans (ν.ctx.child_lt hc).le)
        cases hc with
        | operand hmem => exact .inr ⟨hinside, hchild (hctx ▸ Node.required_subset _ hmem)⟩
        | andRight hn => exact .inr ⟨hinside, hchild (by simp [← hctx, hn, Node.children])⟩
        | orRight hn => exact .inr ⟨hinside, hchild (by simp [← hctx, hn, Node.children])⟩
        | argument hn => exact absurd (hctx ▸ hn) hfree.node_ne
        | body hn => exact absurd (hctx ▸ hn) hfree.node_ne

theorem Flat.keepsAlong (h : ν.Flat)
    (hdom : ∀ v d x, known v = some d → ν.env v = some x → ν.InDomain d x) :
    ν.KeepsAlong known e := by
  constructor
  · intro c v d x _ _ hd hx
    exact hdom v d x hd hx
  · intro μ c f args dims d x hm hn hd hx
    rcases h.of_meets hm with rfl | ⟨-, hfree⟩
    · exact (h.call hn).2.1 d hd x hx
    · exact absurd hn hfree.node_ne
  · intro μ c x hm hx
    rcases h.of_meets hm with rfl | ⟨hinside, -⟩
    · exact h.1.inside hx
    · exact hinside.inside hx

theorem Flat.of_reaches (h : ν.Flat) {c : ExprId} (hm : ν.Reaches μ c) :
    μ = ν ∨ μ.InsideWord ∧ CallFreeUpTo ν.ctx c := by
  induction hm with
  | top e => exact .inl rfl
  | @child μ c d hm hd ih =>
      exact ih.imp_right fun ⟨hinside, hfree⟩ =>
        ⟨hinside, fun i hi => hfree i (hi.trans (ν.ctx.child_lt hd).le)⟩
  | @body μ μ' c f args dims b hm hn hb hμ ih =>
      rcases ih with rfl | ⟨-, hfree⟩
      · obtain ⟨hbody, -, henter⟩ := h.call hn
        exact .inr ⟨henter _ hμ, hbody _ hb⟩
      · exact absurd hn hfree.node_ne
  | @codomain μ c f args dims d x hm hn hd hx ih =>
      rcases ih with rfl | ⟨-, hfree⟩
      · exact .inl (shadow_self _)
      · exact absurd hn hfree.node_ne

/-- Where calls do not nest, an assignment is admissible once the known domains hold it and the
connectives see truth values. -/
theorem Flat.admits (h : ν.Flat)
    (hdom : ∀ v d x, known v = some d → ν.env v = some x → ν.InDomain d x)
    (hbit : ∀ i < ν.ctx.size, ∀ c ∈ (ν.ctx.node ⟨i⟩).conditions, ∀ x ∈ ν.value c, IsBit x) :
    ν.Admits known where
  inDomain := hdom
  inCodomain μ c f args dims d x hm hn hd hx := by
    rcases h.of_reaches hm with rfl | ⟨-, hfree⟩
    · rw [shadow_self]
      exact (h.call hn).2.1 d hd x hx
    · exact absurd hn hfree.node_ne
  isBit c a ha x hx := by
    by_cases hc : ν.ctx.Stored c
    · exact hbit c.index hc a ha x hx
    · rw [Context.node_of_not_stored hc] at ha
      cases ha
  inside μ c x hm hx := by
    rcases h.of_reaches hm with rfl | ⟨hinside, -⟩
    · exact h.1.inside hx
    · exact hinside.inside hx

end Valuation

namespace Query

variable {s : Session} {e : ExprId} {env : Env Int64} {v : Int64}

/-- The value of an expression is not less than the lower and not greater than the upper bound. -/
theorem mem_bound (hs : s.Reachable) (he : s.ctx.Stored e)
    (hkeeps : (s.ctx.valuation env).KeepsAlong s.domains e) (hv : s.ctx.eval env e = some v) :
    ((bound e).run s).1.lo ≤ v ∧ v ≤ ((bound e).run s).1.hi := by
  obtain ⟨hctx, hbounded⟩ := (bound_ensures hs.valid he).post
  have hexact : (s.ctx.valuation env).value e = some v.toInt :=
    Valuation.value_of_eval (ν := s.ctx.valuation env) rfl hv
  have hcontains := hbounded (s.ctx.valuation env) _ (le_of_eq hctx) hkeeps.trail .self _ hexact
  rw [Int64.le_iff_toInt_le, Int64.le_iff_toInt_le]
  exact hcontains

/-- `f (x mod 7) + min y 3`, where `f p = p * 2` takes values in `[0, 41)`, and where `x` is one of
`[y - 3, y + 7)` and `y` one of `[x - 5, x + 5)`. -/
def circular : Session × ExprId :=
  let declare : Build (Domain × Domain × ExprId) := do
    let p ← declareVar "p" .int64
    let d ← declareDim "d" .uniform
    let x ← Build.var (← declareVar "x" .int64)
    let y ← Build.var (← declareVar "y" .int64)
    let ten ← Build.int 10
    let xs : Domain := ⟨← Build.addConst y (-3), ten⟩
    let ys : Domain := ⟨← Build.addConst x (-5), ten⟩
    let body ← Build.mulConst (← Build.var p) 2
    let codomain : Domain := ⟨← Build.int 0, ← Build.int 41⟩
    let f ← addFun ⟨"f", [p], [d], some body, some codomain⟩
    let rest ← Build.division .floorMod x (← Build.int 7)
    let image ← intern (.call f [rest] [d])
    return (xs, ys, ← Build.add image (← Build.minimum y (← Build.int 3)))
  let declared := declare.run default
  let start : Session := ⟨declared.2, {}⟩
  let first := ((Query.learn ⟨1⟩ declared.1.1).run start).2
  (((Query.learn ⟨2⟩ declared.1.2.1).run first).2, declared.1.2.2)

theorem circular_reachable : circular.1.Reachable :=
  .learn (.learn (.start _ true (by decide +kernel)) ⟨1⟩ (by decide +kernel)) ⟨2⟩
    (by decide +kernel)

/-- At `x = 12` and `y = 9`, the value thirteen lies within the bounds. -/
theorem mem_bound_circular : circular.1.ctx.eval (.ofList [(⟨1⟩, 12), (⟨2⟩, 9)]) circular.2 =
      some 13 ∧
    ((bound circular.2).run circular.1).1.lo ≤ 13 ∧
      13 ≤ ((bound circular.2).run circular.1).1.hi := by
  have heval : circular.1.ctx.eval (.ofList [(⟨1⟩, 12), (⟨2⟩, 9)]) circular.2 = some 13 := by
    decide +kernel
  have hflat : (circular.1.ctx.valuation (.ofList [(⟨1⟩, 12), (⟨2⟩, 9)])).Flat := by
    decide +kernel
  have hdomains := Session.inDomain_of_bindings (s := circular.1)
    (ν := circular.1.ctx.valuation (.ofList [(⟨1⟩, 12), (⟨2⟩, 9)])) (by decide +kernel)
  exact ⟨heval, mem_bound circular_reachable (by decide +kernel) (hflat.keepsAlong hdomains)
    heval⟩

end Query

end LoopBounds
