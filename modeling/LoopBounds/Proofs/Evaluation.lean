import LoopBounds.Proofs.Value

/-!
# Evaluation of words

Where the evaluator of words gives a value, it is the exact one.  It gives one wherever the
expressions that it looks at have exact values inside the word and every remainder among them
can be computed: the multiple of the divisor, which is taken off the dividend, has to be a word
as well.
-/

namespace LoopBounds

namespace Context

variable {ctx : Context} {n : Nat} {env : Env Int64} {e a b : ExprId}

/-- The value of a function body below `depth` nested calls. -/
def evalBody (ctx : Context) : Nat → Env Int64 → ExprId → Option Int64
  | 0 => fun _ _ => none
  | depth + 1 => ctx.evalWithin depth

theorem evalWithin_eq_evalStep :
    ctx.evalWithin n env e = ctx.evalStep (ctx.evalBody n) env e := by
  cases n <;> rfl

theorem eval_const {w : Int64} {t : Scalar} (h : ctx.node e = .const w t) :
    ctx.evalWithin n env e = some w := by
  rw [evalWithin_eq_evalStep, evalStep]
  split <;> simp_all

theorem eval_var {v : VarId} (h : ctx.node e = .var v) : ctx.evalWithin n env e = env v := by
  rw [evalWithin_eq_evalStep, evalStep]
  split <;> simp_all

theorem eval_arith {op : Arith} (h : ctx.node e = .arith op a b) :
    ctx.evalWithin n env e =
      (ctx.evalWithin n env a).bind fun x => (ctx.evalWithin n env b).bind (op.apply x) := by
  simp only [evalWithin_eq_evalStep]
  rw [evalStep]
  split <;> simp_all

theorem eval_compare {op : Comparison} (h : ctx.node e = .compare op a b) :
    ctx.evalWithin n env e = (ctx.evalWithin n env a).bind fun x =>
      (ctx.evalWithin n env b).map fun y => truth (op.holds x y) := by
  simp only [evalWithin_eq_evalStep]
  rw [evalStep]
  split <;> simp_all [Option.map_eq_bind]

theorem eval_and (h : ctx.node e = .and a b) :
    ctx.evalWithin n env e = (ctx.evalWithin n env a).bind fun x =>
      if x = 0 then some 0 else (ctx.evalWithin n env b).map fun y => truth (y ≠ 0) := by
  simp only [evalWithin_eq_evalStep]
  rw [evalStep]
  split <;> simp_all [Option.map_eq_bind]

theorem eval_or (h : ctx.node e = .or a b) :
    ctx.evalWithin n env e = (ctx.evalWithin n env a).bind fun x =>
      if x = 0 then (ctx.evalWithin n env b).map fun y => truth (y ≠ 0) else some 1 := by
  simp only [evalWithin_eq_evalStep]
  rw [evalStep]
  split <;> simp_all [Option.map_eq_bind]

theorem eval_not (h : ctx.node e = .not a) :
    ctx.evalWithin n env e = (ctx.evalWithin n env a).map fun x => truth (x = 0) := by
  simp only [evalWithin_eq_evalStep]
  rw [evalStep]
  split <;> simp_all [Option.map_eq_bind]

theorem eval_call {f : FunId} {args : List ExprId} {dims : List DimId}
    (h : ctx.node e = .call f args dims) :
    ctx.evalWithin n env e = (ctx.fn f).body?.bind fun body =>
      ((ctx.fn f).bindParams fun dim =>
        (argument? args dims dim).bind (ctx.evalWithin n env)).bind fun inner =>
          ctx.evalBody n inner body := by
  rw [evalWithin_eq_evalStep, evalStep]
  split
  case h_8 h' =>
    cases h.symm.trans h'
    refine Option.bind_congr fun body _ => congrArg (Option.bind · _) ?_
    refine congrArg ((ctx.fn f).bindParams ·) (funext fun dim => ?_)
    split <;> simp_all [evalWithin_eq_evalStep]
  all_goals simp_all

variable {w : Int64}

theorem eval_arith_eq_some {op : Arith} (h : ctx.node e = .arith op a b) :
    ctx.evalWithin n env e = some w ↔ ∃ x y, ctx.evalWithin n env a = some x ∧
      ctx.evalWithin n env b = some y ∧ op.apply x y = some w := by
  simp [eval_arith h, Option.bind_eq_some_iff]

theorem eval_compare_eq_some {op : Comparison} (h : ctx.node e = .compare op a b) :
    ctx.evalWithin n env e = some w ↔ ∃ x y, ctx.evalWithin n env a = some x ∧
      ctx.evalWithin n env b = some y ∧ truth (op.holds x y) = w := by
  simp [eval_compare h, Option.bind_eq_some_iff]

theorem eval_and_eq_some (h : ctx.node e = .and a b) :
    ctx.evalWithin n env e = some w ↔ ctx.evalWithin n env a = some 0 ∧ w = 0 ∨
      ∃ x y, ctx.evalWithin n env a = some x ∧ x ≠ 0 ∧ ctx.evalWithin n env b = some y ∧
        truth (y ≠ 0) = w := by
  rw [eval_and h]
  cases hx : ctx.evalWithin n env a with
  | none => simp
  | some x =>
      by_cases h0 : x = 0
      · simp [h0, eq_comm]
      · simp [h0]

theorem eval_or_eq_some (h : ctx.node e = .or a b) :
    ctx.evalWithin n env e = some w ↔
      ctx.evalWithin n env a = some 0 ∧ (∃ y, ctx.evalWithin n env b = some y ∧
        truth (y ≠ 0) = w) ∨ (∃ x, ctx.evalWithin n env a = some x ∧ x ≠ 0) ∧ w = 1 := by
  rw [eval_or h]
  cases hx : ctx.evalWithin n env a with
  | none => simp
  | some x =>
      by_cases h0 : x = 0
      · simp [h0]
      · simp [h0, eq_comm]

theorem eval_not_eq_some (h : ctx.node e = .not a) :
    ctx.evalWithin n env e = some w ↔ ∃ x, ctx.evalWithin n env a = some x ∧
      truth (x = 0) = w := by
  simp [eval_not h]

theorem eval_call_eq_some {f : FunId} {args : List ExprId} {dims : List DimId}
    (h : ctx.node e = .call f args dims) :
    ctx.evalWithin n env e = some w ↔ ∃ body inner, (ctx.fn f).body? = some body ∧
      ((ctx.fn f).bindParams fun dim =>
        (argument? args dims dim).bind (ctx.evalWithin n env)) = some inner ∧
          ctx.evalBody n inner body = some w := by
  simp [eval_call h, Option.bind_eq_some_iff]

/-- The bodies of functions are expressions of the context. -/
def BodiesStored (ctx : Context) : Prop := ∀ f b, (ctx.fn f).body? = some b → ctx.Stored b

theorem BodiesStored.grows {ctx' : Context} (h : ctx.BodiesStored) (hg : ctx.Grows ctx') :
    ctx'.BodiesStored := fun f b hb => (h f b (hg.fn_eq f ▸ hb)).mono hg.le

/-- A stored expression keeps its value when a context gets more expressions. -/
theorem Grows.evalWithin_eq_of_bodies {ctx' : Context} (h : ctx.Grows ctx')
    (hbodies : ctx.BodiesStored) (n : Nat) (env : Env Int64) {e : ExprId} (he : ctx.Stored e) :
    ctx'.evalWithin n env e = ctx.evalWithin n env e := by
  have operand : ∀ c ∈ (ctx.node e).children,
      ctx'.evalWithin n env c = ctx.evalWithin n env c := fun c hc =>
    Grows.evalWithin_eq_of_bodies h hbodies n env (he.child hc)
  cases hn : ctx.node e <;> have hn' := (node_eq h.le he).trans hn
  case const w t => rw [eval_const hn, eval_const hn']
  case var v => rw [eval_var hn, eval_var hn']
  case arith op a b =>
    rw [eval_arith hn, eval_arith hn', operand a (by simp [hn, Node.children]),
      operand b (by simp [hn, Node.children])]
  case compare op a b =>
    rw [eval_compare hn, eval_compare hn', operand a (by simp [hn, Node.children]),
      operand b (by simp [hn, Node.children])]
  case and a b =>
    rw [eval_and hn, eval_and hn', operand a (by simp [hn, Node.children]),
      operand b (by simp [hn, Node.children])]
  case or a b =>
    rw [eval_or hn, eval_or hn', operand a (by simp [hn, Node.children]),
      operand b (by simp [hn, Node.children])]
  case not a => rw [eval_not hn, eval_not hn', operand a (by simp [hn, Node.children])]
  case call f args dims =>
    have harg : (fun dim => (argument? args dims dim).bind (ctx'.evalWithin n env)) =
        fun dim => (argument? args dims dim).bind (ctx.evalWithin n env) := by
      funext dim
      cases ha : argument? args dims dim with
      | none => rfl
      | some a => exact operand a (by simpa [hn, Node.children] using mem_of_argument? ha)
    rw [eval_call hn, eval_call hn', h.fn_eq, harg]
    refine Option.bind_congr fun body hbody => Option.bind_congr fun inner _ => ?_
    cases hdepth : n with
    | zero => rfl
    | succ depth =>
        exact Grows.evalWithin_eq_of_bodies h hbodies depth inner (hbodies f body hbody)
termination_by (n, e.index)
decreasing_by
  · exact Prod.Lex.right _ (ctx.child_lt hc)
  · exact Prod.Lex.left _ _ (by omega)

/-- A stored expression evaluates as before when a context gets more expressions. -/
theorem Grows.eval_eq_of_bodies {ctx' : Context} (h : ctx.Grows ctx') (hbodies : ctx.BodiesStored)
    (env : Env Int64) (he : ctx.Stored e) : ctx'.eval env e = ctx.eval env e := by
  rw [eval, eval, h.callDepth_eq, h.evalWithin_eq_of_bodies hbodies _ env he]

theorem Grows.eval_eq {ctx' : Context} (h : ctx.Grows ctx') (hwf : ctx.WellFormed)
    (env : Env Int64) (he : ctx.Stored e) : ctx'.eval env e = ctx.eval env e :=
  h.eval_eq_of_bodies hwf.body env he

end Context

/-- The operands whose values an operator always needs. -/
def Node.required : Node → List ExprId
  | .arith _ a b | .compare _ a b => [a, b]
  | .and a _ | .or a _ | .not a => [a]
  | .const .. | .var _ | .call .. => []

theorem Node.required_subset (n : Node) : n.required ⊆ n.children := by
  cases n <;> simp [Node.required, Node.children]

namespace Valuation

variable {ν μ : Valuation} {e : ExprId}

theorem exact_of_related {env : Env Int64} {env' : Env Int}
    (h : env.Related (fun w x => x = w.toInt) env') : env' = env.exact := by
  funext v
  have hv := h v
  rw [Env.exact]
  generalize env v = o, env' v = o' at hv
  cases hv with
  | some hwx => rw [hwx, Option.map_some]
  | none => rfl

theorem bindParams_exact {env : Env Int64} {f : FunId} {args : List ExprId} {dims : List DimId}
    (hargs : ∀ a ∈ args, ∀ w, ν.ctx.evalWithin ν.depth env a = some w → ν.value a = some w.toInt)
    {inner : Env Int64} (h : (ν.ctx.fn f).bindParams (fun dim =>
      (argument? args dims dim).bind (ν.ctx.evalWithin ν.depth env)) = some inner) :
    (ν.ctx.fn f).bindParams (fun dim => (argument? args dims dim).bind ν.value) =
      some inner.exact := by
  obtain ⟨inner', hinner', hrel⟩ := IndexFun.bindParams_arguments (R := fun w x => x = w.toInt)
    (fun pd _ a ha w hw => ⟨a, ha, w.toInt, hargs a (mem_of_argument? ha) w hw, rfl⟩) h
  rw [hinner', exact_of_related hrel]

/-- Where the arguments that are looked at have words for their values, so have the parameters. -/
theorem exists_bindParams {env : Env Int64} {f : FunId} {args : List ExprId} {dims : List DimId}
    {vals : ExprId → Option Int}
    (hargs : ∀ pd ∈ (ν.ctx.fn f).signature, ∀ a, argument? args dims pd.2 = some a →
      ∀ x, vals a = some x → ∃ w, ν.ctx.evalWithin ν.depth env a = some w ∧ w.toInt = x)
    {inner : Env Int}
    (h : (ν.ctx.fn f).bindParams (fun dim => (argument? args dims dim).bind vals) = some inner) :
    ∃ inner' : Env Int64, (ν.ctx.fn f).bindParams (fun dim =>
      (argument? args dims dim).bind (ν.ctx.evalWithin ν.depth env)) = some inner' ∧
        inner = inner'.exact := by
  obtain ⟨inner', hinner', hrel⟩ := IndexFun.bindParams_arguments
    (R := fun x w => x = Int64.toInt w) (fun pd hpd a ha x hx => by
      obtain ⟨w, hw, rfl⟩ := hargs pd hpd a ha x hx
      exact ⟨a, ha, w, hw, rfl⟩) h
  exact ⟨inner', hinner', exact_of_related hrel.symm⟩

/-- A value over words is the exact value. -/
theorem value_of_eval {env : Env Int64} (henv : ν.env = env.exact) {w : Int64}
    (h : ν.ctx.evalWithin ν.depth env e = some w) : ν.value e = some w.toInt := by
  induction ν, e using induction generalizing env w with
  | step ν e ihc ihb =>
    have operand : ∀ c ∈ (ν.ctx.node e).children, ∀ x,
        ν.ctx.evalWithin ν.depth env c = some x → ν.value c = some x.toInt :=
      fun c hc x hx => ihc c hc henv hx
    cases hn : ν.ctx.node e with
    | const v t =>
        rw [Context.eval_const hn] at h
        cases h
        exact value_const hn
    | var v =>
        rw [Context.eval_var hn] at h
        rw [value_var hn, henv, Env.exact, h, Option.map_some]
    | arith op a b =>
        obtain ⟨x, y, hx, hy, hw⟩ := (Context.eval_arith_eq_some hn).1 h
        have ha := operand a (by simp [hn, Node.children]) x hx
        have hb := operand b (by simp [hn, Node.children]) y hy
        exact (value_arith_eq_some hn).2 ⟨_, _, ha, hb, Arith.exact_of_apply hw⟩
    | compare op a b =>
        obtain ⟨x, y, hx, hy, rfl⟩ := (Context.eval_compare_eq_some hn).1 h
        have ha := operand a (by simp [hn, Node.children]) x hx
        have hb := operand b (by simp [hn, Node.children]) y hy
        refine (value_compare_eq_some hn).2 ⟨_, _, ha, hb, ?_⟩
        rw [toInt_truth, Comparison.holds_eq_exact]
    | and a b =>
        have ha := operand a (by simp [hn, Node.children])
        have hb := operand b (by simp [hn, Node.children])
        refine (value_and_eq_some hn).2 (((Context.eval_and_eq_some hn).1 h).imp ?_ ?_)
        · rintro ⟨hx, rfl⟩
          exact ⟨ha 0 hx, rfl⟩
        · rintro ⟨x, y, hx, h0, hy, rfl⟩
          refine ⟨_, _, ha x hx, mt (Word.toInt_eq_zero_iff x).1 h0, hb y hy, ?_⟩
          simp [toInt_truth, Word.toInt_eq_zero_iff]
    | or a b =>
        have ha := operand a (by simp [hn, Node.children])
        have hb := operand b (by simp [hn, Node.children])
        refine (value_or_eq_some hn).2 (((Context.eval_or_eq_some hn).1 h).imp ?_ ?_)
        · rintro ⟨hx, y, hy, rfl⟩
          refine ⟨ha 0 hx, _, hb y hy, ?_⟩
          simp [toInt_truth, Word.toInt_eq_zero_iff]
        · rintro ⟨⟨x, hx, h0⟩, rfl⟩
          exact ⟨⟨_, ha x hx, mt (Word.toInt_eq_zero_iff x).1 h0⟩, rfl⟩
    | not a =>
        obtain ⟨x, hx, rfl⟩ := (Context.eval_not_eq_some hn).1 h
        refine (value_not_eq_some hn).2 ⟨_, operand a (by simp [hn, Node.children]) x hx, ?_⟩
        simp [toInt_truth, Word.toInt_eq_zero_iff]
    | call f args dims =>
        obtain ⟨body, inner, hbody, hinner, h⟩ := (Context.eval_call_eq_some hn).1 h
        have hinner' := bindParams_exact (fun a ha =>
          operand a (by simpa [hn, Node.children] using ha)) hinner
        cases hd : ν.depth with
        | zero => rw [hd] at h; cases h
        | succ depth =>
            rw [hd] at h
            refine (value_call_eq_some hn).2 ⟨body, ⟨ν.ctx, depth, inner.exact⟩, hbody,
              enter_eq_some.2 ⟨depth, _, hd, hinner', rfl⟩, ?_⟩
            exact ihb _ body (by rw [hd]; exact Nat.lt_succ_self _) rfl h

/-! ## What an evaluation looks at -/

/-- Evaluation of `e` at `ν` asks for the value of an expression at a valuation: an operand, the
argument for a parameter, or the body of a function at its parameters. -/
inductive Needs (ν : Valuation) (e : ExprId) : Valuation → ExprId → Prop
  | operand {c} (h : c ∈ (ν.ctx.node e).required) : Needs ν e ν c
  | andRight {a b x} (h : ν.ctx.node e = .and a b) (hx : ν.value a = some x) (h0 : x ≠ 0) :
    Needs ν e ν b
  | orRight {a b} (h : ν.ctx.node e = .or a b) (hx : ν.value a = some 0) : Needs ν e ν b
  | argument {f args dims pd a} (h : ν.ctx.node e = .call f args dims)
    (hpd : pd ∈ (ν.ctx.fn f).signature) (ha : argument? args dims pd.2 = some a) : Needs ν e ν a
  | body {f args dims b μ} (h : ν.ctx.node e = .call f args dims)
    (hb : (ν.ctx.fn f).body? = some b) (hμ : ν.enter f args dims = some μ) : Needs ν e μ b

/-- Evaluation of `e` at `ν` looks at an expression at a valuation. -/
inductive Demands (ν : Valuation) (e : ExprId) : Valuation → ExprId → Prop
  | self : Demands ν e ν e
  | step {μ c μ' c'} (h : Demands ν e μ c) (hc : Needs μ c μ' c') : Demands ν e μ' c'

/-- The remainders that evaluation meets can be computed over words. -/
def RemaindersFit (ν : Valuation) (e : ExprId) : Prop :=
  ∀ μ c a b x y, ν.Demands e μ c → μ.ctx.node c = .arith .floorMod a b → μ.value a = some x →
    μ.value b = some y → Word.Fits (x.fdiv y * y)

/-- The values that evaluation meets are words other than the least and the greatest. -/
def StaysInside (ν : Valuation) (e : ExprId) : Prop :=
  ∀ μ c x, ν.Demands e μ c → μ.value c = some x → Word.Inside x

theorem Demands.of_needs {μ' : Valuation} {c c' : ExprId} (h : ν.Needs e μ c)
    (hc : μ.Demands c μ' c') : ν.Demands e μ' c' := by
  induction hc with
  | self => exact .step .self h
  | step _ hc ih => exact .step ih hc

theorem RemaindersFit.of_needs {c : ExprId} (h : ν.RemaindersFit e) (hc : ν.Needs e μ c) :
    μ.RemaindersFit c :=
  fun μ' c' a b x y hd => h μ' c' a b x y (hd.of_needs hc)

theorem StaysInside.of_needs {c : ExprId} (h : ν.StaysInside e) (hc : ν.Needs e μ c) :
    μ.StaysInside c :=
  fun μ' c' x hd => h μ' c' x (hd.of_needs hc)

/-- What an evaluation with a value asks for has a value. -/
theorem exists_eval_of_needs {env : Env Int64} (henv : ν.env = env.exact) {w : Int64}
    (h : ν.ctx.evalWithin ν.depth env e = some w) {c : ExprId} (hc : ν.Needs e μ c) :
    ∃ env' w', μ.env = env'.exact ∧ μ.ctx.evalWithin μ.depth env' c = some w' := by
  cases hc with
  | operand hmem =>
      cases hn : ν.ctx.node e <;> simp only [hn, Node.required, List.not_mem_nil, List.mem_cons,
        or_false] at hmem
      case arith op a b =>
        obtain ⟨x, y, hx, hy, -⟩ := (Context.eval_arith_eq_some hn).1 h
        rcases hmem with rfl | rfl
        exacts [⟨env, x, henv, hx⟩, ⟨env, y, henv, hy⟩]
      case compare op a b =>
        obtain ⟨x, y, hx, hy, -⟩ := (Context.eval_compare_eq_some hn).1 h
        rcases hmem with rfl | rfl
        exacts [⟨env, x, henv, hx⟩, ⟨env, y, henv, hy⟩]
      case and a b =>
        subst hmem
        obtain ⟨hx, -⟩ | ⟨x, -, hx, -⟩ := (Context.eval_and_eq_some hn).1 h
        exacts [⟨env, 0, henv, hx⟩, ⟨env, x, henv, hx⟩]
      case or a b =>
        subst hmem
        obtain ⟨hx, -⟩ | ⟨⟨x, hx, -⟩, -⟩ := (Context.eval_or_eq_some hn).1 h
        exacts [⟨env, 0, henv, hx⟩, ⟨env, x, henv, hx⟩]
      case not a =>
        obtain ⟨x, hx, -⟩ := (Context.eval_not_eq_some hn).1 h
        exact ⟨env, x, henv, hmem ▸ hx⟩
  | @andRight a b x hn hx h0 =>
      obtain ⟨hx', -⟩ | ⟨-, y, -, -, hy, -⟩ := (Context.eval_and_eq_some hn).1 h
      · exact absurd (Option.some_inj.1 (hx.symm.trans (value_of_eval henv hx'))) h0
      · exact ⟨env, y, henv, hy⟩
  | @orRight a b hn hx =>
      obtain ⟨-, y, hy, -⟩ | ⟨⟨x', hx', h0⟩, -⟩ := (Context.eval_or_eq_some hn).1 h
      · exact ⟨env, y, henv, hy⟩
      · have hzero := Option.some_inj.1 ((value_of_eval henv hx').symm.trans hx)
        exact absurd ((Word.toInt_eq_zero_iff x').1 hzero) h0
  | @argument f args dims pd a hn hpd ha =>
      obtain ⟨body, inner, -, hinner, -⟩ := (Context.eval_call_eq_some hn).1 h
      obtain ⟨x, hx⟩ := IndexFun.exists_of_bindParams hinner hpd
      rw [ha, Option.bind_some] at hx
      exact ⟨env, x, henv, hx⟩
  | @body f args dims b μ hn hb hμ =>
      obtain ⟨b', inner, hb', hinner, h⟩ := (Context.eval_call_eq_some hn).1 h
      cases hb.symm.trans hb'
      obtain ⟨depth, inner', hd, hinner', rfl⟩ := enter_eq_some.1 hμ
      have hexact := bindParams_exact (fun a _ w hw => value_of_eval henv hw) hinner
      rw [hd] at h
      exact ⟨inner, w, Option.some_inj.1 (hinner'.symm.trans hexact), h⟩

theorem exists_eval_of_demands {env : Env Int64} (henv : ν.env = env.exact) {w : Int64}
    (h : ν.ctx.evalWithin ν.depth env e = some w) {c : ExprId} (hc : ν.Demands e μ c) :
    ∃ env' w', μ.env = env'.exact ∧ μ.ctx.evalWithin μ.depth env' c = some w' := by
  induction hc with
  | self => exact ⟨env, w, henv, h⟩
  | step _ hc ih =>
      obtain ⟨env', w', henv', h'⟩ := ih
      exact exists_eval_of_needs henv' h' hc

/-- An evaluation with a value has computed its remainders. -/
theorem remaindersFit_of_eval {env : Env Int64} (henv : ν.env = env.exact) {w : Int64}
    (h : ν.ctx.evalWithin ν.depth env e = some w) : ν.RemaindersFit e := by
  intro μ c a b x y hc hn hx hy
  obtain ⟨env', w', henv', h'⟩ := exists_eval_of_demands henv h hc
  obtain ⟨x', y', hx', hy', h'⟩ := (Context.eval_arith_eq_some hn).1 h'
  cases hx.symm.trans (value_of_eval henv' hx')
  cases hy.symm.trans (value_of_eval henv' hy')
  exact Arith.stepsFit_of_apply h' rfl

/-- An exact value is found over words when everything looked at stays inside the word and the
remainders can be computed. -/
theorem exists_eval {env : Env Int64} (henv : ν.env = env.exact) {x : Int}
    (hx : ν.value e = some x) (hinside : ν.StaysInside e) (hfit : ν.RemaindersFit e) :
    ∃ w, ν.ctx.evalWithin ν.depth env e = some w := by
  induction ν, e using induction generalizing env x with
  | step ν e ihc ihb =>
    have operand : ∀ c ∈ (ν.ctx.node e).children, ∀ y, ν.value c = some y → ν.Needs e ν c →
        ∃ w, ν.ctx.evalWithin ν.depth env c = some w ∧ w.toInt = y := by
      intro c hc y hy hneeds
      obtain ⟨w, hw⟩ := ihc c hc henv hy (hinside.of_needs hneeds) (hfit.of_needs hneeds)
      exact ⟨w, hw, Option.some_inj.1 ((value_of_eval henv hw).symm.trans hy)⟩
    have required : ∀ c ∈ (ν.ctx.node e).required, ∀ y, ν.value c = some y →
        ∃ w, ν.ctx.evalWithin ν.depth env c = some w ∧ w.toInt = y := fun c hc y hy =>
      operand c (Node.required_subset _ hc) y hy (.operand hc)
    cases hn : ν.ctx.node e with
    | const v t => exact ⟨v, Context.eval_const hn⟩
    | var v =>
        rw [value_var hn, henv, Env.exact] at hx
        obtain ⟨w, hw, -⟩ := Option.map_eq_some_iff.1 hx
        exact ⟨w, (Context.eval_var hn).trans hw⟩
    | arith op a b =>
        obtain ⟨y, z, hy, hz, hyz⟩ := (value_arith_eq_some hn).1 hx
        have ha : a ∈ (ν.ctx.node e).required := by simp [hn, Node.required]
        obtain ⟨u, hu, rfl⟩ := required a ha y hy
        obtain ⟨v, hv, rfl⟩ := required b (by simp [hn, Node.required]) z hz
        have hsteps : op.StepsFit u.toInt v.toInt := by
          rintro rfl
          exact hfit ν e a b _ _ .self hn hy hz
        obtain ⟨w, hw⟩ := Arith.exists_apply (hinside ν a _ (.step .self (.operand ha)) hy) hyz
          (hinside ν e x .self hx).fits hsteps
        exact ⟨w, (Context.eval_arith_eq_some hn).2 ⟨u, v, hu, hv, hw⟩⟩
    | compare op a b =>
        obtain ⟨y, z, hy, hz, -⟩ := (value_compare_eq_some hn).1 hx
        obtain ⟨u, hu, -⟩ := required a (by simp [hn, Node.required]) y hy
        obtain ⟨v, hv, -⟩ := required b (by simp [hn, Node.required]) z hz
        exact ⟨_, (Context.eval_compare_eq_some hn).2 ⟨u, v, hu, hv, rfl⟩⟩
    | and a b =>
        have ha := required a (by simp [hn, Node.required])
        obtain ⟨hy, -⟩ | ⟨y, z, hy, h0, hz, -⟩ := (value_and_eq_some hn).1 hx
        · obtain ⟨u, hu, hzero⟩ := ha 0 hy
          rw [Word.toInt_eq_zero_iff] at hzero
          exact ⟨0, (Context.eval_and_eq_some hn).2 (.inl ⟨hzero ▸ hu, rfl⟩)⟩
        · obtain ⟨u, hu, rfl⟩ := ha y hy
          obtain ⟨v, hv, -⟩ := operand b (by simp [hn, Node.children]) z hz
            (.andRight hn hy h0)
          rw [Ne, Word.toInt_eq_zero_iff] at h0
          exact ⟨_, (Context.eval_and_eq_some hn).2 (.inr ⟨u, v, hu, h0, hv, rfl⟩)⟩
    | or a b =>
        have ha := required a (by simp [hn, Node.required])
        obtain ⟨hy, z, hz, -⟩ | ⟨⟨y, hy, h0⟩, -⟩ := (value_or_eq_some hn).1 hx
        · obtain ⟨u, hu, hzero⟩ := ha 0 hy
          obtain ⟨v, hv, -⟩ := operand b (by simp [hn, Node.children]) z hz (.orRight hn hy)
          rw [Word.toInt_eq_zero_iff] at hzero
          exact ⟨_, (Context.eval_or_eq_some hn).2 (.inl ⟨hzero ▸ hu, v, hv, rfl⟩)⟩
        · obtain ⟨u, hu, rfl⟩ := ha y hy
          rw [Ne, Word.toInt_eq_zero_iff] at h0
          exact ⟨1, (Context.eval_or_eq_some hn).2 (.inr ⟨⟨u, hu, h0⟩, rfl⟩)⟩
    | not a =>
        obtain ⟨y, hy, -⟩ := (value_not_eq_some hn).1 hx
        obtain ⟨u, hu, -⟩ := required a (by simp [hn, Node.required]) y hy
        exact ⟨_, (Context.eval_not_eq_some hn).2 ⟨u, hu, rfl⟩⟩
    | call f args dims =>
        obtain ⟨body, μ, hbody, hμ, hx⟩ := (value_call_eq_some hn).1 hx
        have hneeds := Needs.body hn hbody hμ
        obtain ⟨depth, inner, hd, hinner, rfl⟩ := enter_eq_some.1 hμ
        obtain ⟨inner', hinner', hexact⟩ := exists_bindParams (fun pd hpd a ha x hx => by
          have hmem := mem_of_argument? ha
          exact operand a (by simpa [hn, Node.children] using hmem) x hx (.argument hn hpd ha))
          hinner
        obtain ⟨w, hw⟩ := ihb _ body (enter_depth hμ) hexact hx (hinside.of_needs hneeds)
          (hfit.of_needs hneeds)
        refine ⟨w, (Context.eval_call_eq_some hn).2 ⟨body, inner', hbody, hinner', ?_⟩⟩
        rw [hd]
        exact hw

end Valuation

end LoopBounds
