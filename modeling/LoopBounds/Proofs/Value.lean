import LoopBounds.Expr.Value
import LoopBounds.Proofs.Context
import LoopBounds.Proofs.Operator

/-!
# Exact values

The value of an expression over the unbounded integers.  A valuation fixes the context, the
depth to which calls are followed and the integers of the variables.  Evaluation of words agrees
with exact evaluation wherever it has a value, and it has one wherever no value leaves the word
and the remainders that it meets can be computed.
-/

namespace LoopBounds

/-- The integers of an assignment of words. -/
def Env.exact (env : Env Int64) : Env Int := fun v => (env v).map Int64.toInt

/-! ## Parameters of functions -/

section bindParams

variable {α β : Type} {R : α → β → Prop}

/-- Every variable has a meaning in neither environment, or related meanings in both. -/
def Env.Related (R : α → β → Prop) (env : Env α) (env' : Env β) : Prop :=
  ∀ v, Option.Rel R (env v) (env' v)

theorem Env.Related.set {env : Env α} {env' : Env β} (h : env.Related R env') (v : VarId) {x : α}
    {y : β} (hxy : R x y) : (env.set v x).Related R (env'.set v y) := by
  intro w
  by_cases hw : w = v
  · subst hw
    simpa using Option.Rel.some hxy
  · simpa [hw] using h w

theorem Env.Related.symm {env : Env α} {env' : Env β} (h : env.Related R env') :
    env'.Related (fun y x => R x y) env := by
  intro v
  have hv := h v
  generalize env v = o, env' v = o' at hv
  cases hv with
  | some hxy => exact .some hxy
  | none => exact .none

theorem Env.Related.eq {env env' : Env α} (h : env.Related Eq env') : env = env' := by
  funext v
  have hv := h v
  generalize env v = o, env' v = o' at hv
  cases hv with
  | some hxy => rw [hxy]
  | none => rfl

namespace IndexFun

theorem bindParams_related {f : IndexFun} {m : DimId → Option α} {k : DimId → Option β}
    (hm : ∀ pd ∈ f.signature, ∀ x, m pd.2 = some x → ∃ y, k pd.2 = some y ∧ R x y)
    {env : Env α} (h : f.bindParams m = some env) :
    ∃ env', f.bindParams k = some env' ∧ env.Related R env' := by
  suffices key : ∀ (sig : List (VarId × DimId)) (env₀ : Env α) (env₀' : Env β),
      (∀ pd ∈ sig, ∀ x, m pd.2 = some x → ∃ y, k pd.2 = some y ∧ R x y) →
      env₀.Related R env₀' →
      sig.foldlM (fun env pd => do return env.set pd.1 (← m pd.2)) env₀ = some env →
      ∃ env', sig.foldlM (fun env pd => do return env.set pd.1 (← k pd.2)) env₀' = some env' ∧
        env.Related R env' from
    key f.signature _ _ hm (fun _ => .none) h
  intro sig
  induction sig with
  | nil =>
      intro env₀ env₀' _ hrel h
      cases h
      exact ⟨env₀', rfl, hrel⟩
  | cons pd sig ih =>
      intro env₀ env₀' hm hrel h
      simp only [List.foldlM_cons, Option.bind_eq_bind, Option.bind_eq_some_iff] at h
      obtain ⟨env₁, ⟨x, hx, hset⟩, h⟩ := h
      cases hset
      obtain ⟨y, hy, hxy⟩ := hm pd List.mem_cons_self x hx
      simp only [List.foldlM_cons, hy, Option.bind_eq_bind, Option.bind_some, Option.pure_def]
      exact ih _ _ (fun q hq => hm q (List.mem_cons_of_mem _ hq)) (hrel.set pd.1 hxy) h

/-- Arguments at the same place of two calls stand for the same dimension. -/
theorem argument?_forall₂ {S : ExprId → ExprId → Prop} {args args' : List ExprId}
    {dims : List DimId} {d : DimId} {a : ExprId} (h : List.Forall₂ S args args')
    (ha : argument? args dims d = some a) : ∃ c, argument? args' dims d = some c ∧ S a c := by
  unfold argument? at ha ⊢
  split at ha
  · next i _ =>
    obtain ⟨hi, rfl⟩ := List.getElem?_eq_some_iff.1 ha
    have hi' : i < args'.length := h.length_eq ▸ hi
    exact ⟨args'[i], List.getElem?_eq_getElem hi', h.get hi hi'⟩
  · cases ha

/-- Parameters are related when the arguments that stand for them are. -/
theorem bindParams_arguments {f : IndexFun} {args args' : List ExprId} {dims : List DimId}
    {m : ExprId → Option α} {k : ExprId → Option β}
    (h : ∀ pd ∈ f.signature, ∀ a, argument? args dims pd.2 = some a → ∀ x, m a = some x →
      ∃ c, argument? args' dims pd.2 = some c ∧ ∃ y, k c = some y ∧ R x y)
    {env : Env α} (henv : f.bindParams (fun dim => (argument? args dims dim).bind m) = some env) :
    ∃ env', f.bindParams (fun dim => (argument? args' dims dim).bind k) = some env' ∧
      env.Related R env' := by
  refine bindParams_related (fun pd hpd x hx => ?_) henv
  obtain ⟨a, ha, hx⟩ := Option.bind_eq_some_iff.1 hx
  obtain ⟨c, hc, y, hy, hxy⟩ := h pd hpd a ha x hx
  exact ⟨y, Option.bind_eq_some_iff.2 ⟨c, hc, hy⟩, hxy⟩

/-- Arguments with the same meanings give the same parameters. -/
theorem bindParams_same {f : IndexFun} {args args' : List ExprId} {dims : List DimId}
    {m k : ExprId → Option α}
    (h : ∀ pd ∈ f.signature, ∀ a, argument? args dims pd.2 = some a → ∀ x, m a = some x →
      ∃ c, argument? args' dims pd.2 = some c ∧ k c = some x)
    {env : Env α} (henv : f.bindParams (fun dim => (argument? args dims dim).bind m) = some env) :
    f.bindParams (fun dim => (argument? args' dims dim).bind k) = some env := by
  obtain ⟨env', henv', hrel⟩ := bindParams_arguments (R := Eq) (fun pd hpd a ha x hx => by
    obtain ⟨c, hc, hk⟩ := h pd hpd a ha x hx
    exact ⟨c, hc, x, hk, rfl⟩) henv
  exact hrel.eq ▸ henv'

/-- When all dimensions have a meaning, parameters are bound without a failure. -/
theorem bindParams_some (f : IndexFun) (g : DimId → α) :
    f.bindParams (fun d => some (g d)) = some (Id.run (f.bindParams fun d => pure (g d))) := by
  suffices key : ∀ (sig : List (VarId × DimId)) (env : Env α),
      sig.foldlM (fun env pd => do return env.set pd.1 (← some (g pd.2))) env =
        some (Id.run (sig.foldlM (fun env pd => do return env.set pd.1 (← pure (g pd.2))) env))
    from key f.signature _
  intro sig
  induction sig with
  | nil => exact fun _ => rfl
  | cons pd sig ih => exact fun env => ih (env.set pd.1 (g pd.2))

/-- Parameters are bound only if every dimension has a meaning. -/
theorem exists_of_bindParams {f : IndexFun} {m : DimId → Option α} {env : Env α}
    (h : f.bindParams m = some env) {pd : VarId × DimId} (hpd : pd ∈ f.signature) :
    ∃ x, m pd.2 = some x := by
  suffices key : ∀ (sig : List (VarId × DimId)) (env₀ : Env α), pd ∈ sig →
      sig.foldlM (fun env pd => do return env.set pd.1 (← m pd.2)) env₀ = some env →
      ∃ x, m pd.2 = some x from key f.signature _ hpd h
  intro sig
  induction sig with
  | nil => exact fun _ hmem => nomatch hmem
  | cons qe sig ih =>
      intro env₀ hmem h
      simp only [List.foldlM_cons, Option.bind_eq_bind, Option.bind_eq_some_iff] at h
      obtain ⟨env₁, ⟨x, hx, -⟩, h⟩ := h
      rcases List.mem_cons.1 hmem with rfl | hmem
      · exact ⟨x, hx⟩
      · exact ih env₁ hmem h

end IndexFun

end bindParams

namespace Context

/-- The exact value of an expression, given those of function bodies. -/
def valueStep (ctx : Context) (valueBody : Env Int → ExprId → Option Int) (env : Env Int)
    (e : ExprId) : Option Int :=
  match _h : ctx.node e with
  | .const v _ => some v.toInt
  | .var v => env v
  | .arith op a b => do
    let x ← ctx.valueStep valueBody env a
    let y ← ctx.valueStep valueBody env b
    op.exact x y
  | .compare op a b => do
    let x ← ctx.valueStep valueBody env a
    let y ← ctx.valueStep valueBody env b
    return (op.exact x y).toInt
  | .and a b => do
    let x ← ctx.valueStep valueBody env a
    if x = 0 then return 0
    let y ← ctx.valueStep valueBody env b
    return (decide (y ≠ 0)).toInt
  | .or a b => do
    let x ← ctx.valueStep valueBody env a
    if x ≠ 0 then return 1
    let y ← ctx.valueStep valueBody env b
    return (decide (y ≠ 0)).toInt
  | .not a => do
    let x ← ctx.valueStep valueBody env a
    return (decide (x = 0)).toInt
  | .call f args dims => do
    let body ← (ctx.fn f).body?
    let inner ← (ctx.fn f).bindParams fun dim =>
      match _ha : argument? args dims dim with
      | some a => ctx.valueStep valueBody env a
      | none => none
    valueBody inner body
termination_by e.index
decreasing_by
  all_goals (apply ctx.child_lt; rw [_h]; simp [Node.children])
  exact mem_of_argument? _ha

/-- The exact value of an expression whose calls nest at most `depth` deep. -/
def valueWithin (ctx : Context) : Nat → Env Int → ExprId → Option Int
  | 0 => ctx.valueStep fun _ _ => none
  | depth + 1 => ctx.valueStep (ctx.valueWithin depth)

end Context

/-- A context, the depth to which its calls are followed, and the integers of variables. -/
structure Valuation where
  ctx : Context
  depth : Nat
  env : Env Int

namespace Valuation

variable {ν μ : Valuation} {e a b : ExprId} {z : Int}

/-- The exact value of an expression. -/
def value (ν : Valuation) (e : ExprId) : Option Int := ν.ctx.valueWithin ν.depth ν.env e

/-- The valuation of the body of a function called with the given arguments. -/
def enter (ν : Valuation) (f : FunId) (args : List ExprId) (dims : List DimId) :
    Option Valuation :=
  match ν.depth with
  | 0 => none
  | depth + 1 => do
    let inner ← (ν.ctx.fn f).bindParams fun dim => (argument? args dims dim).bind ν.value
    return ⟨ν.ctx, depth, inner⟩

/-- The exact values of function bodies. -/
def bodyValue (ν : Valuation) (env : Env Int) (e : ExprId) : Option Int :=
  match ν.depth with
  | 0 => none
  | depth + 1 => ν.ctx.valueWithin depth env e

theorem value_eq_valueStep : ν.value e = ν.ctx.valueStep ν.bodyValue ν.env e := by
  obtain ⟨ctx, depth, env⟩ := ν
  cases depth <;> rfl

theorem value_const {w : Int64} {t : Scalar} (h : ν.ctx.node e = .const w t) :
    ν.value e = some w.toInt := by
  rw [value_eq_valueStep, Context.valueStep]
  split <;> simp_all

theorem value_var {v : VarId} (h : ν.ctx.node e = .var v) : ν.value e = ν.env v := by
  rw [value_eq_valueStep, Context.valueStep]
  split <;> simp_all

theorem value_arith {op : Arith} (h : ν.ctx.node e = .arith op a b) :
    ν.value e = (ν.value a).bind fun x => (ν.value b).bind (op.exact x) := by
  simp only [value_eq_valueStep]
  rw [Context.valueStep]
  split <;> simp_all

theorem value_compare {op : Comparison} (h : ν.ctx.node e = .compare op a b) :
    ν.value e = (ν.value a).bind fun x => (ν.value b).map fun y => (op.exact x y).toInt := by
  simp only [value_eq_valueStep]
  rw [Context.valueStep]
  split <;> simp_all [Option.map_eq_bind]

theorem value_and (h : ν.ctx.node e = .and a b) :
    ν.value e = (ν.value a).bind fun x =>
      if x = 0 then some 0 else (ν.value b).map fun y => (decide (y ≠ 0)).toInt := by
  simp only [value_eq_valueStep]
  rw [Context.valueStep]
  split <;> simp_all [Option.map_eq_bind]

theorem value_or (h : ν.ctx.node e = .or a b) :
    ν.value e = (ν.value a).bind fun x =>
      if x = 0 then (ν.value b).map fun y => (decide (y ≠ 0)).toInt else some 1 := by
  simp only [value_eq_valueStep]
  rw [Context.valueStep]
  split <;> simp_all [Option.map_eq_bind]

theorem value_not (h : ν.ctx.node e = .not a) :
    ν.value e = (ν.value a).map fun x => (decide (x = 0)).toInt := by
  simp only [value_eq_valueStep]
  rw [Context.valueStep]
  split <;> simp_all [Option.map_eq_bind]

theorem value_call {f : FunId} {args : List ExprId} {dims : List DimId}
    (h : ν.ctx.node e = .call f args dims) :
    ν.value e = (ν.ctx.fn f).body?.bind fun body =>
      (ν.enter f args dims).bind fun μ => μ.value body := by
  have harg : (fun dim => match _ha : argument? args dims dim with
      | some a => ν.ctx.valueStep ν.bodyValue ν.env a
      | none => none) = fun dim => (argument? args dims dim).bind ν.value := by
    funext dim
    split <;> simp_all [value_eq_valueStep]
  have hstep : ν.value e = (ν.ctx.fn f).body?.bind fun body =>
      ((ν.ctx.fn f).bindParams fun dim => (argument? args dims dim).bind ν.value).bind
        fun inner => ν.bodyValue inner body := by
    rw [value_eq_valueStep, Context.valueStep, ← harg]
    split
    case h_8 h' =>
      cases h.symm.trans h'
      rfl
    all_goals simp_all
  rw [hstep]
  obtain ⟨ctx, depth, env⟩ := ν
  cases depth with
  | zero => simp [bodyValue, enter]
  | succ depth => simp [bodyValue, enter, value, Option.bind_assoc]

theorem value_arith_eq_some {op : Arith} (h : ν.ctx.node e = .arith op a b) :
    ν.value e = some z ↔
      ∃ x y, ν.value a = some x ∧ ν.value b = some y ∧ op.exact x y = some z := by
  simp [value_arith h, Option.bind_eq_some_iff]

theorem value_compare_eq_some {op : Comparison} (h : ν.ctx.node e = .compare op a b) :
    ν.value e = some z ↔
      ∃ x y, ν.value a = some x ∧ ν.value b = some y ∧ (op.exact x y).toInt = z := by
  simp [value_compare h, Option.bind_eq_some_iff]

theorem value_and_eq_some (h : ν.ctx.node e = .and a b) :
    ν.value e = some z ↔ ν.value a = some 0 ∧ z = 0 ∨
      ∃ x y, ν.value a = some x ∧ x ≠ 0 ∧ ν.value b = some y ∧ (decide (y ≠ 0)).toInt = z := by
  rw [value_and h]
  cases hx : ν.value a with
  | none => simp
  | some x =>
      by_cases h0 : x = 0
      · simp [h0, eq_comm]
      · simp [h0]

theorem value_or_eq_some (h : ν.ctx.node e = .or a b) :
    ν.value e = some z ↔
      ν.value a = some 0 ∧ (∃ y, ν.value b = some y ∧ (decide (y ≠ 0)).toInt = z) ∨
        (∃ x, ν.value a = some x ∧ x ≠ 0) ∧ z = 1 := by
  rw [value_or h]
  cases hx : ν.value a with
  | none => simp
  | some x =>
      by_cases h0 : x = 0
      · simp [h0]
      · simp [h0, eq_comm]

theorem value_not_eq_some (h : ν.ctx.node e = .not a) :
    ν.value e = some z ↔ ∃ x, ν.value a = some x ∧ (decide (x = 0)).toInt = z := by
  simp [value_not h]

theorem value_call_eq_some {f : FunId} {args : List ExprId} {dims : List DimId}
    (h : ν.ctx.node e = .call f args dims) :
    ν.value e = some z ↔ ∃ body μ, (ν.ctx.fn f).body? = some body ∧
      ν.enter f args dims = some μ ∧ μ.value body = some z := by
  simp [value_call h, Option.bind_eq_some_iff]

theorem enter_eq_some {f : FunId} {args : List ExprId} {dims : List DimId} :
    ν.enter f args dims = some μ ↔ ∃ depth inner, ν.depth = depth + 1 ∧
      (ν.ctx.fn f).bindParams (fun dim => (argument? args dims dim).bind ν.value) = some inner ∧
      ⟨ν.ctx, depth, inner⟩ = μ := by
  obtain ⟨ctx, depth, env⟩ := ν
  cases depth with
  | zero => simp [enter]
  | succ depth => simp [enter, Option.bind_eq_some_iff]

theorem enter_ctx {f : FunId} {args : List ExprId} {dims : List DimId}
    (h : ν.enter f args dims = some μ) : μ.ctx = ν.ctx := by
  obtain ⟨depth, inner, -, -, rfl⟩ := enter_eq_some.1 h
  rfl

theorem enter_depth {f : FunId} {args : List ExprId} {dims : List DimId}
    (h : ν.enter f args dims = some μ) : μ.depth < ν.depth := by
  obtain ⟨depth, inner, hdepth, -, rfl⟩ := enter_eq_some.1 h
  exact hdepth ▸ Nat.lt_succ_self depth

/-- Induction along evaluation: operands come before expressions, and bodies, which have less
depth left, before calls. -/
theorem induction {P : Valuation → ExprId → Prop}
    (step : ∀ ν e, (∀ c ∈ (ν.ctx.node e).children, P ν c) →
      (∀ μ b, μ.depth < ν.depth → P μ b) → P ν e) (ν : Valuation) (e : ExprId) : P ν e :=
  step ν e (fun c _ => induction step ν c) (fun μ b _ => induction step μ b)
termination_by (ν.depth, e.index)
decreasing_by
  · exact Prod.Lex.right _ (ν.ctx.child_lt ‹_›)
  · exact Prod.Lex.left _ _ ‹_›

/-- Arguments with the same values lead to the same valuation of the body. -/
theorem enter_congr {f : FunId} {args args' : List ExprId} {dims : List DimId}
    (h : List.Forall₂ (fun a c => ∀ x, ν.value a = some x → ν.value c = some x) args args')
    (hμ : ν.enter f args dims = some μ) : ν.enter f args' dims = some μ := by
  obtain ⟨depth, inner, hdepth, hbind, rfl⟩ := enter_eq_some.1 hμ
  refine enter_eq_some.2 ⟨depth, inner, hdepth, ?_, rfl⟩
  refine IndexFun.bindParams_same (fun pd _ a ha x hx => ?_) hbind
  obtain ⟨c, hc, hac⟩ := IndexFun.argument?_forall₂ h ha
  exact ⟨c, hc, hac x hx⟩

/-- A call has the value of a call with the same arguments. -/
theorem value_call_congr {r : ExprId} {f : FunId} {args args' : List ExprId} {dims : List DimId}
    (he : ν.ctx.node e = .call f args dims) (hr : ν.ctx.node r = .call f args' dims)
    (h : List.Forall₂ (fun a c => ∀ x, ν.value a = some x → ν.value c = some x) args args')
    (hz : ν.value e = some z) : ν.value r = some z := by
  obtain ⟨body, μ, hbody, hμ, hz⟩ := (value_call_eq_some he).1 hz
  exact (value_call_eq_some hr).2 ⟨body, μ, hbody, enter_congr h hμ, hz⟩

/-! ## Larger valuations -/

/-- The same context with calls followed at least as deep and at least as many variables. -/
structure Extends (ν ν' : Valuation) : Prop where
  ctx : ν'.ctx = ν.ctx
  depth : ν.depth ≤ ν'.depth
  env : ∀ v x, ν.env v = some x → ν'.env v = some x

instance : LE Valuation := ⟨Extends⟩

theorem enter_mono {ν ν' : Valuation} (h : ν ≤ ν') {f : FunId} {args : List ExprId}
    {dims : List DimId} (hargs : ∀ a ∈ args, ∀ x, ν.value a = some x → ν'.value a = some x)
    (hμ : ν.enter f args dims = some μ) : ∃ μ', ν'.enter f args dims = some μ' ∧ μ ≤ μ' := by
  obtain ⟨depth, inner, hdepth, hbind, rfl⟩ := enter_eq_some.1 hμ
  have hbind' := IndexFun.bindParams_same (fun pd _ a ha x hx =>
    ⟨a, ha, hargs a (mem_of_argument? ha) x hx⟩) hbind
  have hle := h.depth
  obtain ⟨depth', hdepth'⟩ : ∃ depth', ν'.depth = depth' + 1 :=
    Nat.exists_eq_succ_of_ne_zero (by omega)
  refine ⟨⟨ν'.ctx, depth', inner⟩, enter_eq_some.2 ⟨depth', inner, hdepth', ?_, rfl⟩,
    h.ctx, ?_, fun _ _ => id⟩
  · rwa [h.ctx]
  · change depth ≤ depth'
    omega

/-- An expression keeps its value when more variables have values and calls go deeper. -/
theorem value_mono {ν ν' : Valuation} (h : ν ≤ ν') {e : ExprId} {x : Int}
    (hx : ν.value e = some x) : ν'.value e = some x := by
  induction ν, e using induction generalizing ν' x with
  | step ν e ihc ihb =>
    have hctx := h.ctx
    have operand : ∀ c ∈ (ν.ctx.node e).children, ∀ y, ν.value c = some y →
        ν'.value c = some y := fun c hc y => ihc c hc h
    cases hn : ν.ctx.node e with
    | const w t => rwa [value_const (hctx ▸ hn), ← value_const hn]
    | var v =>
        rw [value_var hn] at hx
        rw [value_var (hctx ▸ hn)]
        exact h.env v x hx
    | arith op a b =>
        obtain ⟨y, z, hy, hz, hx⟩ := (value_arith_eq_some hn).1 hx
        have ha := operand a (by simp [hn, Node.children]) y hy
        have hb := operand b (by simp [hn, Node.children]) z hz
        exact (value_arith_eq_some (hctx ▸ hn)).2 ⟨y, z, ha, hb, hx⟩
    | compare op a b =>
        obtain ⟨y, z, hy, hz, hx⟩ := (value_compare_eq_some hn).1 hx
        have ha := operand a (by simp [hn, Node.children]) y hy
        have hb := operand b (by simp [hn, Node.children]) z hz
        exact (value_compare_eq_some (hctx ▸ hn)).2 ⟨y, z, ha, hb, hx⟩
    | and a b =>
        have ha := operand a (by simp [hn, Node.children])
        have hb := operand b (by simp [hn, Node.children])
        refine (value_and_eq_some (hctx ▸ hn)).2 (((value_and_eq_some hn).1 hx).imp ?_ ?_)
        · exact And.imp_left (ha 0)
        · rintro ⟨y, z, hy, h0, hz, hx⟩
          exact ⟨y, z, ha y hy, h0, hb z hz, hx⟩
    | or a b =>
        have ha := operand a (by simp [hn, Node.children])
        have hb := operand b (by simp [hn, Node.children])
        refine (value_or_eq_some (hctx ▸ hn)).2 (((value_or_eq_some hn).1 hx).imp ?_ ?_)
        · rintro ⟨hy, z, hz, hx⟩
          exact ⟨ha 0 hy, z, hb z hz, hx⟩
        · rintro ⟨⟨y, hy, h0⟩, hx⟩
          exact ⟨⟨y, ha y hy, h0⟩, hx⟩
    | not a =>
        obtain ⟨y, hy, hx⟩ := (value_not_eq_some hn).1 hx
        have ha := operand a (by simp [hn, Node.children]) y hy
        exact (value_not_eq_some (hctx ▸ hn)).2 ⟨y, ha, hx⟩
    | call f args dims =>
        obtain ⟨body, μ, hbody, hμ, hx⟩ := (value_call_eq_some hn).1 hx
        obtain ⟨μ', hμ', hle⟩ := enter_mono h
          (fun a ha => operand a (by simpa [hn, Node.children] using ha)) hμ
        exact (value_call_eq_some (hctx ▸ hn)).2
          ⟨body, μ', hctx ▸ hbody, hμ', ihb μ body (enter_depth hμ) hle hx⟩

end Valuation

end LoopBounds
