import LoopBounds.Proofs.AlphaEquality
import LoopBounds.Proofs.Inversion
import LoopBounds.Proofs.Unfolding

/-!
# Preimages

A function that was inverted takes the value at what it was inverted to.  The body of an equal
function evaluates alike at the arguments of a call, and there it is read one call less deep than
the call.  An affine body evaluates wherever it stays inside the word, since it asks for no
remainder, and then the line that it is on has the value at the solution.
-/

namespace LoopBounds

/-! ## More variables and deeper calls -/

namespace Context

variable {ctx : Context} {n : Nat} {env : Env Int64} {e : ExprId} {w : Int64}

/-- A call keeps its value when its arguments and the body of its function keep theirs. -/
theorem eval_call_mono {n m : Nat} {env env' : Env Int64} {f : FunId} {args : List ExprId}
    {dims : List DimId} (hn : ctx.node e = .call f args dims)
    (hargs : ∀ a ∈ args, ∀ x, ctx.evalWithin n env a = some x → ctx.evalWithin m env' a = some x)
    (hbody : ∀ inner body x, ctx.evalBody n inner body = some x →
      ctx.evalBody m inner body = some x)
    (h : ctx.evalWithin n env e = some w) : ctx.evalWithin m env' e = some w := by
  obtain ⟨body, inner, hfn, hinner, h⟩ := (eval_call_eq_some hn).1 h
  have hinner' := IndexFun.bindParams_same (fun pd _ a ha x hx =>
    ⟨a, ha, hargs a (mem_of_argument? ha) x hx⟩) hinner
  exact (eval_call_eq_some hn).2 ⟨body, inner, hfn, hinner', hbody inner body w h⟩

/-- An expression evaluates as before when more variables have values and calls go deeper. -/
theorem evalWithin_mono {ctx : Context} {n m : Nat} {env env' : Env Int64} {e : ExprId} {w : Int64}
    (hnm : n ≤ m) (henv : ∀ v x, env v = some x → env' v = some x)
    (h : ctx.evalWithin n env e = some w) : ctx.evalWithin m env' e = some w := by
  have operand : ∀ c ∈ (ctx.node e).children, ∀ x,
      ctx.evalWithin n env c = some x → ctx.evalWithin m env' c = some x := fun c hc x =>
    evalWithin_mono hnm henv
  cases hn : ctx.node e with
  | const x t => rwa [eval_const hn, ← eval_const hn]
  | var v =>
      rw [eval_var hn] at h
      rw [eval_var hn]
      exact henv v w h
  | arith op a b =>
      obtain ⟨x, y, hx, hy, hw⟩ := (eval_arith_eq_some hn).1 h
      have ha := operand a (by simp [hn, Node.children]) x hx
      have hb := operand b (by simp [hn, Node.children]) y hy
      exact (eval_arith_eq_some hn).2 ⟨x, y, ha, hb, hw⟩
  | compare op a b =>
      obtain ⟨x, y, hx, hy, hw⟩ := (eval_compare_eq_some hn).1 h
      have ha := operand a (by simp [hn, Node.children]) x hx
      have hb := operand b (by simp [hn, Node.children]) y hy
      exact (eval_compare_eq_some hn).2 ⟨x, y, ha, hb, hw⟩
  | and a b =>
      have ha := operand a (by simp [hn, Node.children])
      have hb := operand b (by simp [hn, Node.children])
      refine (eval_and_eq_some hn).2 (((eval_and_eq_some hn).1 h).imp ?_ ?_)
      · exact And.imp_left (ha 0)
      · rintro ⟨x, y, hx, h0, hy, hw⟩
        exact ⟨x, y, ha x hx, h0, hb y hy, hw⟩
  | or a b =>
      have ha := operand a (by simp [hn, Node.children])
      have hb := operand b (by simp [hn, Node.children])
      refine (eval_or_eq_some hn).2 (((eval_or_eq_some hn).1 h).imp ?_ ?_)
      · rintro ⟨hx, y, hy, hw⟩
        exact ⟨ha 0 hx, y, hb y hy, hw⟩
      · rintro ⟨⟨x, hx, h0⟩, hw⟩
        exact ⟨⟨x, ha x hx, h0⟩, hw⟩
  | not a =>
      obtain ⟨x, hx, hw⟩ := (eval_not_eq_some hn).1 h
      exact (eval_not_eq_some hn).2 ⟨x, operand a (by simp [hn, Node.children]) x hx, hw⟩
  | call f args dims =>
      apply eval_call_mono hn _ _ h
      · exact fun a ha => operand a (by simpa [hn, Node.children] using ha)
      · intro inner body x hx
        cases hdepth : n with
        | zero =>
            rw [hdepth] at hx
            cases hx
        | succ depth =>
            rw [hdepth] at hx
            obtain ⟨depth', rfl⟩ : ∃ depth', m = depth' + 1 :=
              Nat.exists_eq_succ_of_ne_zero (by omega)
            have hle : depth ≤ depth' := by omega
            exact evalWithin_mono hle (fun _ _ => id) hx
termination_by (n, e.index)
decreasing_by
  · exact Prod.Lex.right _ (ctx.child_lt hc)
  · exact Prod.Lex.left _ _ (by omega)

theorem evalWithin_of_evalBody (h : ctx.evalBody n env e = some w) :
    ctx.evalWithin n env e = some w := by
  cases n with
  | zero => cases h
  | succ n => exact evalWithin_mono (Nat.le_succ n) (fun _ _ => id) h

/-! ## Affine bodies -/

/-- An affine expression has a value wherever its variables have values and it stays inside the
word. -/
theorem exists_eval_of_isAffine {ctx : Context} {ν : Valuation} {env : Env Int64} {e : ExprId}
    (hctx : ctx ≤ ν.ctx) (henv : ν.env = env.exact)
    (haffine : ctx.isAffine e = true) (hvars : ctx.Over (.mentions fun v => ∃ x, env v = some x) e)
    (hinside : ν.StaysInside e) : ∃ w, ν.ctx.evalWithin ν.depth env e = some w := by
  have hn := node_eq hctx hvars.stored
  rcases cases_of_isAffine haffine with ⟨w, t, hc⟩ | ⟨v, hv⟩ | ⟨op, a, b, harith, hop, ha, hb⟩
  · exact ⟨w, eval_const (hn.trans hc)⟩
  · obtain ⟨x, hx⟩ := hvars.mem v hv
    exact ⟨x, (eval_var (hn.trans hv)).trans hx⟩
  · have harith' := hn.trans harith
    have hma : a ∈ (ctx.node e).children := by simp [harith, Node.children]
    have hmb : b ∈ (ctx.node e).children := by simp [harith, Node.children]
    have hna : ν.Needs e ν a := .operand (by simp [harith', Node.required])
    have hnb : ν.Needs e ν b := .operand (by simp [harith', Node.required])
    obtain ⟨x, hx⟩ := exists_eval_of_isAffine hctx henv ha (hvars.child hma) (hinside.of_needs hna)
    obtain ⟨y, hy⟩ := exists_eval_of_isAffine hctx henv hb (hvars.child hmb) (hinside.of_needs hnb)
    have hxa := Valuation.value_of_eval henv hx
    have hyb := Valuation.value_of_eval henv hy
    obtain ⟨z, hz⟩ : ∃ z, op.exact x.toInt y.toInt = some z := by
      rcases hop with rfl | rfl | rfl <;> exact ⟨_, rfl⟩
    have hz' : ν.value e = some z := by
      rw [Valuation.value_arith harith', hxa, Option.bind_some, hyb, Option.bind_some]
      exact hz
    obtain ⟨w, hw⟩ := Arith.exists_apply (hinside ν a _ (.step .self hna) hxa) hz
      (hinside ν e z .self hz').fits (by rcases hop with rfl | rfl | rfl <;> rintro ⟨⟩)
    exact ⟨w, by rw [eval_arith harith', hx, Option.bind_some, hy, Option.bind_some, hw]⟩
termination_by e.index
decreasing_by
  · exact ctx.child_lt hma
  · exact ctx.child_lt hmb

/-! ## Calls of equal functions -/

/-- The body of a function has, at the arguments of a call, the value that the body of an equal
function has there. -/
theorem evalBody_of_correspondence {ctx' : Context} {f g : FunId} {k : DimId → Option Int64}
    {inner outer : Env Int64} {b : ExprId} (hwf : ctx.WellFormed) (hf : (ctx.fn f).params.Nodup)
    (harity : (ctx.fn f).params.length ≤ (ctx.fn f).dims.length)
    (h : g = f ∨ (ctx.correspondence f g).equal = true) (hgrows : ctx.Grows ctx')
    (hinner : (ctx.fn f).bindParams k = some inner)
    (houter : (ctx.fn g).bindParams k = some outer) (hb : (ctx.fn g).body? = some b) :
    ∃ a, (ctx.fn f).body? = some a ∧ ctx'.evalBody n inner a = ctx'.evalBody n outer b := by
  rcases h.elim Or.inl ctx.eq_or_renamed with rfl | ⟨a, b', ha, hb', r, hgood, hg, hrenames⟩
  · cases hinner.symm.trans houter
    exact ⟨b, hb, rfl⟩
  · cases hb.symm.trans hb'
    have hrenames := hrenames.grow hgrows.le (hwf.body f a ha) (hwf.body g b hb)
    have hagree : ∀ v w, Renaming.Pairs (ctx.fn f) (ctx.fn g) r v w → outer w = inner v := by
      rintro v w (hvw | ⟨rfl, hv, hw⟩)
      · obtain ⟨hv, -, -⟩ := Renaming.sameDim_iff_dimOf?.1 (hgood.sameDim v w hvw)
        obtain ⟨i, hi, rfl⟩ := List.getElem_of_mem hv
        have hd := getElem_mem_zip hi (hi.trans_le harity)
        obtain ⟨y, hy⟩ := IndexFun.bound_of_bindParams houter (hgood.exists_dim hf hvw hd)
        obtain ⟨e, he, hk⟩ := IndexFun.mem_signature_of_bindParams houter hy
        obtain rfl := hgood.dim_eq hf (hg hf) hvw hd he
        rw [hy, IndexFun.bindParams_apply hf hinner, (IndexFun.dimOf?_eq_some hf).2 hd,
          Option.bind_some, hk]
      · rw [IndexFun.bindParams_eq_none hinner hv, IndexFun.bindParams_eq_none houter hw]
    refine ⟨a, ha, ?_⟩
    cases n with
    | zero => rfl
    | succ n => exact (hrenames.evalWithin_eq hagree).symm

end Context

/-! ## Solutions -/

/-- The parameters have the values of the entries, one by one. -/
def Context.Supplies (ctx : Context) (env inner : Env Int64) (params : List VarId)
    (solved : List (DimId × ExprId)) : Prop :=
  List.Forall₂ (fun v p => ∃ x, ctx.eval env p.2 = some x ∧ inner v = some x) params solved

namespace Attempt

variable {ctx ctx' : Context} {f g : FunId} {value : ExprId} {solved : List (DimId × ExprId)}
  {env inner : Env Int64} {v : Int64}

/-- Where a call has a value, that is the value of the body at the arguments. -/
theorem eval_of_call {args : List ExprId} {dims : List DimId} (hwf : ctx.WellFormed)
    (hf : (ctx.fn f).params.Nodup) (hgrows : ctx.Grows ctx')
    (hn : ctx'.node value = .call g args dims)
    (hequal : g = f ∨ (ctx.correspondence f g).equal = true)
    (hsolved : List.Forall₂ (fun d p => p.1 = d ∧ argument? args dims d = some p.2)
      (ctx.fn f).dims solved) (hv : ctx'.eval env value = some v)
    (hsupplies : ctx'.Supplies env inner (ctx.fn f).params solved) :
    ∃ body, (ctx.fn f).body? = some body ∧ ctx'.eval inner body = some v := by
  have harity : (ctx.fn f).params.length = (ctx.fn f).dims.length :=
    hsupplies.length_eq.trans hsolved.length_eq.symm
  have hargs : ∀ pd ∈ (ctx.fn f).signature, ∃ x,
      (argument? args dims pd.2).bind (ctx'.evalWithin ctx'.callDepth env) = some x ∧
        inner pd.1 = some x := by
    intro pd hpd
    obtain ⟨i, hi, rfl⟩ := List.getElem_of_mem hpd
    rw [IndexFun.signature, List.length_zip, lt_min_iff] at hi
    have hi' := hsupplies.length_eq ▸ hi.1
    obtain ⟨-, harg⟩ := hsolved.get hi.2 hi'
    obtain ⟨x, hx, hinner⟩ := hsupplies.get hi.1 hi'
    simp only [List.get_eq_getElem] at harg hx hinner
    simp only [IndexFun.signature, List.getElem_zip]
    exact ⟨x, by rw [harg, Option.bind_some, ← Context.eval, hx], hinner⟩
  rw [Context.eval, Context.eval_call hn, hgrows.fn_eq] at hv
  obtain ⟨b, hb, hv⟩ := Option.bind_eq_some_iff.1 hv
  obtain ⟨outer, houter, hv⟩ := Option.bind_eq_some_iff.1 hv
  obtain ⟨bound, hbound⟩ := IndexFun.exists_bindParams (f := ctx.fn f)
    (k := fun d => (argument? args dims d).bind (ctx'.evalWithin ctx'.callDepth env))
    fun pd hpd => (hargs pd hpd).imp fun _ h => h.1
  obtain ⟨a, ha, heq⟩ := Context.evalBody_of_correspondence (n := ctx'.callDepth) hwf hf harity.le
    hequal hgrows hbound houter hb
  refine ⟨a, ha, ?_⟩
  have hbody := Context.evalWithin_of_evalBody (heq.trans hv)
  apply Context.evalWithin_mono le_rfl _ hbody
  intro p x hx
  obtain ⟨d, hd, hk⟩ := IndexFun.mem_signature_of_bindParams hbound hx
  obtain ⟨y, hy, hinner⟩ := hargs (p, d) hd
  rw [hinner, ← hk, ← hy]

/-- On the line that a body is, its value at the solution is the one that was asked for. -/
theorem eval_of_line {param : VarId} {body r : ExprId} {c b : Int} {x : Int64}
    (hgrows : ctx.Grows ctx') (haffine : ctx.isAffine body = true)
    (hvars : ctx.Over (.mentions fun v => ∃ x, inner v = some x) body)
    (hline : ctx'.IsLine body param c b)
    (hsolves : ∀ (ν : Valuation) known, ctx' ≤ ν.ctx → ν.Admits known → ∀ z,
      ν.value value = some z → ∃ x, ν.value r = some x ∧ c * x + b = z)
    (hadmits : (ctx'.valuation env).Admits .empty) (hv : ctx'.eval env value = some v)
    (hx : ctx'.eval env r = some x) (hinner : inner param = some x)
    (hinside : (ctx'.valuation inner).StaysInside body) : ctx'.eval inner body = some v := by
  obtain ⟨w, hw⟩ := Context.exists_eval_of_isAffine (ν := ctx'.valuation inner) hgrows.le rfl
    haffine hvars hinside
  have hwx : w.toInt = c * x.toInt + b := by
    apply hline (ctx'.valuation inner) le_rfl x.toInt w.toInt
    · exact congrArg (Option.map Int64.toInt) hinner
    · exact Valuation.value_of_eval rfl hw
  obtain ⟨x', hx', hvx⟩ := hsolves (ctx'.valuation env) .empty le_rfl hadmits v.toInt
    (Valuation.value_of_eval (ν := ctx'.valuation env) rfl hv)
  have hxx := (Valuation.value_of_eval (ν := ctx'.valuation env) rfl hx).symm.trans hx'
  have hwv : w = v := by
    rw [← Int64.toInt_inj, hwx, Option.some_inj.1 hxx, hvx]
  exact hwv ▸ hw

/-- What a function is inverted to is an expression for each parameter, and where all of these
and the value have values, the body takes the value there. -/
theorem eval_of_invert (hwf : ctx.WellFormed) (hf : (ctx.fn f).params.Nodup)
    (hdeclared : (ctx.fn f).params ≠ [] → ctx.Declared f) (hvalue : ctx.Stored value)
    (hrun : (invert value f).run.run ctx = (.ok solved, ctx')) :
    solved.map Prod.fst = (ctx.fn f).dims ∧
      ∀ env inner v, (ctx'.valuation env).Admits .empty → ctx'.eval env value = some v →
        ctx'.Supplies env inner (ctx.fn f).params solved →
        (∀ body, (ctx.fn f).body? = some body → (ctx'.valuation inner).StaysInside body) →
        ∃ body, (ctx.fn f).body? = some body ∧ ctx'.eval inner body = some v := by
  obtain ⟨hgrows, hsolution⟩ := (invert_solution hwf hvalue).of_run hrun
  cases hsolution with
  | call hn hequal hsolved =>
      constructor
      · have hdims := hsolved.imp fun _ _ h => h.1.symm
        rw [← List.forall₂_map_right_iff (f := Prod.fst), List.forall₂_eq_eq_eq] at hdims
        exact hdims.symm
      · intro env inner v _ hv hsupplies _
        exact eval_of_call hwf hf hgrows hn hequal hsolved hv hsupplies
  | @line _ param dim body r c b hsig hbody haffine hr hline hsolves =>
      have hdeclared := hdeclared fun hnil => by
        rw [IndexFun.signature, hnil, List.zip_nil_left] at hsig
        cases hsig
      have hparams : (ctx.fn f).params = [param] := by
        rw [← List.map_fst_zip hdeclared.arity.le, ← IndexFun.signature, hsig]
        rfl
      have hdims : (ctx.fn f).dims = [dim] := by
        rw [← List.map_snd_zip hdeclared.arity.ge, ← IndexFun.signature, hsig]
        rfl
      refine ⟨hdims.symm, fun env inner v hadmits hv hsupplies hinside => ⟨body, hbody, ?_⟩⟩
      rw [hparams] at hsupplies
      obtain ⟨⟨x, hx, hinner⟩, -⟩ := List.forall₂_cons.1 hsupplies
      have hvars : ctx.Over (.mentions fun v => ∃ x, inner v = some x) body := by
        rw [Context.over_mentions]
        refine ⟨hwf.body f body hbody, fun v hv => ⟨x, ?_⟩⟩
        have hmem := hdeclared.closed body hbody v hv
        rw [hparams, List.mem_singleton] at hmem
        rw [hmem, hinner]
      exact eval_of_line hgrows haffine hvars hline hsolves hadmits hv hx hinner
        (hinside body hbody)

/-- A function to invert at a value, with their context. -/
structure InvertSample where
  ctx : Context
  callee : FunId
  value : ExprId

namespace InvertSample

/-- A function of one parameter, and a value of two variables. -/
def build (body : ExprId → Build ExprId) (value : ExprId → ExprId → Build ExprId) :
    InvertSample :=
  let declare : Build (FunId × ExprId) := do
    let n ← Build.var (← declareVar "n" .int64)
    let k ← Build.var (← declareVar "k" .int64)
    let p ← declareVar "p" .int64
    let d ← declareDim "d" .uniform
    let f ← addFun ⟨"f", [p], [d], some (← body (← Build.var p)), none⟩
    return (f, ← value n k)
  let made := declare.run default
  ⟨made.2, made.1.1, made.1.2⟩

/-- What the function is inverted to, and the context after that. -/
def outcome (sample : InvertSample) : Option (List (DimId × ExprId)) × Context :=
  let r := (invert sample.value sample.callee).run.run sample.ctx
  (r.1.toOption, r.2)

theorem run_eq {sample : InvertSample} {solved : List (DimId × ExprId)}
    (h : sample.outcome.1 = some solved) :
    (invert sample.value sample.callee).run.run sample.ctx = (.ok solved, sample.outcome.2) := by
  unfold outcome at h ⊢
  generalize (invert sample.value sample.callee).run.run sample.ctx = r at h
  obtain ⟨r, ctx⟩ := r
  cases r with
  | ok x => rw [Option.some_inj.1 h]
  | error e => cases h

/-- The variables `n` and `k`. -/
def args (n k : Int64) : Env Int64 := .ofList [(⟨0⟩, n), (⟨1⟩, k)]

/-- The parameter. -/
def param (p : Int64) : Env Int64 := .ofList [(⟨2⟩, p)]

/-- `4 * p + 3` inverted at `8 * n + 7`. -/
def strided : InvertSample :=
  build (fun p => do Build.addConst (← Build.mulConst p 4) 3)
    fun n _ => do Build.addConst (← Build.mulConst n 8) 7

/-- `10 - p` inverted at `2 * n`. -/
def descending : InvertSample :=
  build (fun p => do Build.sub (← Build.constant 10 .int64) p) fun n _ => Build.mulConst n 2

/-- `p` inverted at `n % 2 >= 0 and k`. -/
def conjunction : InvertSample :=
  build pure fun n k => do
    let rest ← Build.division .floorMod n (← Build.constant 2 .int64)
    Build.conj (← Build.compare .ge rest (← Build.constant 0 .int64)) k

end InvertSample

open InvertSample in
/-- At `n = 3`, `4 * p + 3` takes the value of `8 * n + 7` where it was inverted to `2 * n + 1`,
and `10 - p` that of `2 * n` where it was inverted to `-2 * n + 10`. -/
theorem eval_of_invert_lines :
    (strided.outcome.1 = some [(⟨0⟩, ⟨21⟩)] ∧
      ∃ body, (strided.ctx.fn strided.callee).body? = some body ∧
        strided.outcome.2.eval (param 7) body = some 31) ∧
    descending.outcome.1 = some [(⟨0⟩, ⟨15⟩)] ∧
      ∃ body, (descending.ctx.fn descending.callee).body? = some body ∧
        descending.outcome.2.eval (param 4) body = some 6 := by
  have hstrided : strided.outcome.1 = some [(⟨0⟩, ⟨21⟩)] := by decide +kernel
  have hdescending : descending.outcome.1 = some [(⟨0⟩, ⟨15⟩)] := by decide +kernel
  refine ⟨⟨hstrided, ?_⟩, hdescending, ?_⟩
  · have h := eval_of_invert (by decide +kernel) (by decide +kernel)
      (fun _ => by decide +kernel) (by decide +kernel) (run_eq hstrided)
    apply h.2 (args 3 0) (param 7) 31
    · exact Valuation.Plain.admits (by decide +kernel) nofun
    · decide +kernel
    · exact .cons ⟨7, by decide +kernel, rfl⟩ .nil
    · have hinner : (strided.outcome.2.valuation (param 7)).Admits .empty :=
        Valuation.Plain.admits (by decide +kernel) nofun
      exact fun body _ => hinner.staysInside body
  · have h := eval_of_invert (by decide +kernel) (by decide +kernel)
      (fun _ => by decide +kernel) (by decide +kernel) (run_eq hdescending)
    apply h.2 (args 3 0) (param 4) 6
    · exact Valuation.Plain.admits (by decide +kernel) nofun
    · decide +kernel
    · exact .cons ⟨4, by decide +kernel, rfl⟩ .nil
    · have hinner : (descending.outcome.2.valuation (param 4)).Admits .empty :=
        Valuation.Plain.admits (by decide +kernel) nofun
      exact fun body _ => hinner.staysInside body

open InvertSample in
/-- A conjunct that is always true is left out of a value.  Where the other one is the number
five, the conjunction is one, but what `p` was inverted to is five. -/
theorem invert_conjunction_misses :
    (invert conjunction.value conjunction.callee).run.run conjunction.ctx =
        (.ok [(⟨0⟩, ⟨1⟩)], conjunction.outcome.2) ∧
      conjunction.ctx.WellFormed ∧ (conjunction.ctx.fn conjunction.callee).params.Nodup ∧
      conjunction.ctx.Declared conjunction.callee ∧ conjunction.ctx.Stored conjunction.value ∧
      (∀ i < conjunction.outcome.2.size, (conjunction.outcome.2.node ⟨i⟩).callee? = none ∧
        ∀ env ∈ [args 0 5, param 5], ∀ x ∈ (conjunction.outcome.2.valuation env).value ⟨i⟩,
          Word.Inside x) ∧
      conjunction.outcome.2.eval (args 0 5) conjunction.value = some 1 ∧
      conjunction.outcome.2.Supplies (args 0 5) (param 5)
        (conjunction.ctx.fn conjunction.callee).params [(⟨0⟩, ⟨1⟩)] ∧
      ∀ body ∈ (conjunction.ctx.fn conjunction.callee).body?,
        conjunction.outcome.2.eval (param 5) body = some 5 :=
  ⟨run_eq (by decide +kernel), by decide +kernel, by decide +kernel, by decide +kernel,
    by decide +kernel, by decide +kernel, by decide +kernel,
    .cons ⟨5, by decide +kernel, rfl⟩ .nil, by decide +kernel⟩

end Attempt

end LoopBounds
