import LoopBounds.Proofs.Prove

/-!
# Soundness of the analyzer

An analyzer starts with empty caches, and is asked while the context grows and domains are
learnt.  What it simplifies keeps its value and what it proves is not false, wherever values stay
inside the word and connectives see truth values.
-/

namespace LoopBounds

/-- An assignment of words, with calls followed as deep as evaluation follows them. -/
def Context.valuation (ctx : Context) (env : Env Int64) : Valuation :=
  ⟨ctx, ctx.callDepth, env.exact⟩

/-- The expression has the exact value `w`, and evaluates to it where the remainders that this
evaluation meets can be computed. -/
def Context.EvalsTo (ctx : Context) (env : Env Int64) (e : ExprId) (w : Int64) : Prop :=
  (ctx.valuation env).value e = some w.toInt ∧
    ((ctx.valuation env).RemaindersFit e → ctx.eval env e = some w)

theorem Context.exists_evalsTo {ctx : Context} {env : Env Int64} {known : Env Domain} {e : ExprId}
    {x : Int} (hadmits : (ctx.valuation env).Admits known)
    (hx : (ctx.valuation env).value e = some x) : ∃ w, ctx.EvalsTo env e w ∧ w.toInt = x := by
  have hword := Word.toInt_ofInt (hadmits.inside _ e x (.top e) hx).fits
  rw [← hword] at hx
  exact ⟨_, ⟨hx, (hadmits.eval_iff rfl hx).2⟩, hword⟩

namespace Session

/-- The sessions that arise from an analyzer that remembers nothing when more is stored, domains
are learnt and queries are asked, in any order. -/
inductive Reachable : Session → Prop
  | start (ctx : Context) (memoize : Bool) (hwf : ctx.WellFormed) :
    Reachable ⟨ctx, { memoize }⟩
  | store {ctx ctx' : Context} {an : Analyzer} (h : Reachable ⟨ctx, an⟩) (hctx : ctx ≤ ctx')
    (hwf : ctx'.WellFormed) : Reachable ⟨ctx', an⟩
  | learn {s : Session} (h : Reachable s) (v : VarId) {d : Domain} (hd : s.ctx.StoredDomain d) :
    Reachable ((Query.learn v d).run s).2
  | bound {s : Session} (h : Reachable s) {e : ExprId} (he : s.ctx.Stored e) :
    Reachable ((Query.bound e).run s).2
  | simplify {s : Session} (h : Reachable s) {e : ExprId} (he : s.ctx.Stored e) :
    Reachable ((Query.simplify e).run s).2
  | proves {s : Session} (h : Reachable s) {e : ExprId} (he : s.ctx.Stored e) :
    Reachable ((Query.proves e).run s).2
  | provesEqual {s : Session} (h : Reachable s) {a b : ExprId} (ha : s.ctx.Stored a)
    (hb : s.ctx.Stored b) : Reachable ((Query.provesEqual a b).run s).2

variable {s : Session}

theorem Valid.start {ctx : Context} (hwf : ctx.WellFormed) (memoize : Bool) :
    Valid ⟨ctx, { memoize }⟩ :=
  ⟨hwf, by simp [Session.domains], by simp, by simp, by simp⟩

theorem domains_learn (s : Session) (v : VarId) (d : Domain) (w : VarId) :
    ((Query.learn v d).run s).2.domains w = if w = v then some d else s.domains w := by
  obtain ⟨ctx, an⟩ := s
  change (an.learn v d).bindings[w]? = _
  rw [Analyzer.learn, Std.TreeMap.getElem?_insert]
  exact if_congr (Std.compare_eq_iff_eq.trans eq_comm) rfl rfl

/-- Learning a domain forgets the answers that were found without it. -/
theorem Valid.learn (h : s.Valid) (v : VarId) {d : Domain} (hd : s.ctx.StoredDomain d) :
    ((Query.learn v d).run s).2.Valid := by
  obtain ⟨ctx, an⟩ := s
  change Valid ⟨ctx, an.learn v d⟩
  refine ⟨h.wellFormed, fun w c hc => ?_, by simp [Analyzer.learn], by simp [Analyzer.learn],
    by simp [Analyzer.learn]⟩
  have hlearn := domains_learn ⟨ctx, an⟩ v d w
  change Session.domains ⟨ctx, an.learn v d⟩ w = _ at hlearn
  rw [hlearn] at hc
  split at hc
  · cases hc
    exact hd
  · exact h.domains w c hc

theorem Reachable.valid (h : s.Reachable) : s.Valid := by
  induction h with
  | start ctx memoize hwf => exact .start hwf memoize
  | store _ hctx hwf ih => exact ih.mono hctx hwf
  | learn _ v hd ih => exact ih.learn v hd
  | bound _ he ih => exact (Query.bound_ensures ih he).valid
  | simplify _ he ih => exact (Query.simplified _ _ ih he).valid
  | proves _ he ih => exact (Query.proves_ensures ih he).valid
  | provesEqual _ ha hb ih => exact (Query.provesEqual_ensures ih ha hb).valid

/-- The assignment puts every variable with a known domain inside it. -/
def KeepsDomains (s : Session) (env : Env Int64) : Prop :=
  ∀ v d x, s.domains v = some d → env.exact v = some x → (s.ctx.valuation env).InDomain d x

theorem inDomain_of_bindings {ν : Valuation}
    (h : ∀ p ∈ s.analyzer.bindings.toList, ∀ x ∈ ν.env p.1, ν.InDomain p.2 x) (v : VarId)
    (d : Domain) (x : Int) (hd : s.domains v = some d) (hx : ν.env v = some x) :
    ν.InDomain d x :=
  h (v, d) (Std.TreeMap.mem_toList_iff_getElem?_eq_some.2 hd) x hx

theorem admits_of_bindings {ν : Valuation} (h : ν.Plain)
    (hdom : ∀ p ∈ s.analyzer.bindings.toList, ∀ x ∈ ν.env p.1, ν.InDomain p.2 x) :
    ν.Admits s.domains :=
  h.admits (inDomain_of_bindings hdom)

theorem keepsDomains_of_bindings {env : Env Int64}
    (h : ∀ p ∈ s.analyzer.bindings.toList, ∀ x ∈ env.exact p.1,
      (s.ctx.valuation env).InDomain p.2 x) : s.KeepsDomains env :=
  inDomain_of_bindings (ν := s.ctx.valuation env) h

/-- The assignment of words to the variables of `sample`. -/
def sampleEnv (x y : Int64) : Env Int64 := .ofList [(⟨0⟩, x), (⟨1⟩, y)]

/-- An expression of variables `x` and `y`, and the session that knows that `x` is one of
`[min, min + extent)`. -/
def sample (min extent : Int64) (build : ExprId → ExprId → Build ExprId) : Session × ExprId :=
  let declare : Build (Domain × ExprId) := do
    let x ← Build.var (← declareVar "x" .int64)
    let y ← Build.var (← declareVar "y" .int64)
    let d : Domain := ⟨← Build.constant min .int64, ← Build.constant extent .int64⟩
    return (d, ← build x y)
  let declared := declare.run default
  (((Query.learn ⟨0⟩ declared.1.1).run ⟨declared.2, {}⟩).2, declared.1.2)

theorem sample_reachable {min extent : Int64} {build : ExprId → ExprId → Build ExprId}
    (hwf : (sample min extent build).1.ctx.WellFormed)
    (hstored : ∀ p ∈ (sample min extent build).1.analyzer.bindings.toList,
      (sample min extent build).1.ctx.StoredDomain p.2) :
    (sample min extent build).1.Reachable := by
  refine .learn (.start _ true hwf) ⟨0⟩ (hstored (⟨0⟩, _) ?_)
  rw [Std.TreeMap.mem_toList_iff_getElem?_eq_some]
  exact Std.TreeMap.getElem?_insert_self

end Session

namespace Query

variable {s s' : Session} {e r : ExprId} {env : Env Int64} {v : Int64}

/-- What an expression simplifies to has its exact value, and evaluates to it just when the
remainders that this evaluation meets can be computed. -/
theorem eval_simplify_iff (hs : s.Reachable) (he : s.ctx.Stored e)
    (hrun : (simplify e).run s = (r, s')) (hadmits : (s'.ctx.valuation env).Admits s.domains)
    (hv : s.ctx.eval env e = some v) :
    (s'.ctx.valuation env).value r = some v.toInt ∧
      (s'.ctx.eval env r = some v ↔ (s'.ctx.valuation env).RemaindersFit r) := by
  have hsimplify := simplified e s hs.valid he
  have hgrows := hsimplify.grows
  have hsimplifies := hsimplify.post
  simp only [hrun] at hgrows hsimplifies
  have heval : s'.ctx.eval env e = some v := (hgrows.eval_eq hs.valid.wellFormed env he).trans hv
  have hexact : (s'.ctx.valuation env).value e = some v.toInt :=
    Valuation.value_of_eval (ν := s'.ctx.valuation env) rfl heval
  have hvalue := hsimplifies.value_eq (ν := s'.ctx.valuation env) le_rfl hadmits hexact
  exact ⟨hvalue, hadmits.eval_iff rfl hvalue⟩

/-- `(x + y * 3) mod 3` where `x` is one of `[min, min + 10)`. -/
def remainderOfSum (min : Int64) : Session × ExprId :=
  Session.sample min 10 fun x y => do
    let sum ← Build.add x (← Build.mul y (← Build.constant 3 .int64))
    Build.division .floorMod sum (← Build.constant 3 .int64)

/-- At `x = 7` and `y = 1`, what `(x + y * 3) mod 3` simplifies to has its value. -/
theorem eval_simplify_remainderOfSum : ∃ r s',
    (simplify (remainderOfSum 0).2).run (remainderOfSum 0).1 = (r, s') ∧
      (s'.ctx.valuation (Session.sampleEnv 7 1)).value r = some (1 : Int64).toInt ∧
      (s'.ctx.eval (Session.sampleEnv 7 1) r = some 1 ↔
        (s'.ctx.valuation (Session.sampleEnv 7 1)).RemaindersFit r) :=
  ⟨_, _, Prod.mk.eta.symm, eval_simplify_iff
    (Session.sample_reachable (by decide +kernel) (by decide +kernel)) (by decide +kernel)
    Prod.mk.eta.symm (Session.admits_of_bindings (by decide +kernel) (by decide +kernel))
    (by decide +kernel)⟩

/-- At `x = -2^63 + 1` and `y = 1`, `(x + y * 3) mod 3` is two, but what it simplifies to,
`x mod 3`, has no value: the multiple of three below `x` is no word. -/
theorem simplify_remainderOfSum_loses_value : ∃ r s',
    (simplify (remainderOfSum (Int64.minValue + 1)).2).run
        (remainderOfSum (Int64.minValue + 1)).1 = (r, s') ∧
      (remainderOfSum (Int64.minValue + 1)).1.Reachable ∧
      (remainderOfSum (Int64.minValue + 1)).1.ctx.Stored (remainderOfSum (Int64.minValue + 1)).2 ∧
      (s'.ctx.valuation (Session.sampleEnv (Int64.minValue + 1) 1)).Admits
        (remainderOfSum (Int64.minValue + 1)).1.domains ∧
      (remainderOfSum (Int64.minValue + 1)).1.ctx.eval
        (Session.sampleEnv (Int64.minValue + 1) 1) (remainderOfSum (Int64.minValue + 1)).2 =
          some 2 ∧
      s'.ctx.eval (Session.sampleEnv (Int64.minValue + 1) 1) r = none :=
  ⟨_, _, Prod.mk.eta.symm, Session.sample_reachable (by decide +kernel) (by decide +kernel),
    by decide +kernel, Session.admits_of_bindings (by decide +kernel) (by decide +kernel),
    by decide +kernel, by decide +kernel⟩

/-- A condition that is proved is not false. -/
theorem ne_zero_of_proves (hs : s.Reachable) (he : s.ctx.Stored e)
    (hproved : ((proves e).run s).1 = true)
    (hadmits : (((proves e).run s).2.ctx.valuation env).Admits s.domains)
    (hv : s.ctx.eval env e = some v) : v ≠ 0 := by
  have hctx := (proves_ensures hs.valid he).grows
  have hentails := (proves_ensures hs.valid he).post hproved
  generalize ((proves e).run s).2.ctx = ctx at hctx hentails hadmits
  have heval : ctx.eval env e = some v := (hctx.eval_eq hs.valid.wellFormed env he).trans hv
  have hexact : (ctx.valuation env).value e = some v.toInt :=
    Valuation.value_of_eval (ν := ctx.valuation env) rfl heval
  have hne := hentails (ctx.valuation env) le_rfl hadmits v.toInt hexact
  exact mt (Word.toInt_eq_zero_iff v).2 hne

/-- `0 <= x` and `x < 10` where `x` is one of `[0, 10)`. -/
def withinDomain : Session × ExprId :=
  Session.sample 0 10 fun x _ => do
    let lower ← Build.compare .ge x (← Build.constant 0 .int64)
    Build.conj lower (← Build.compare .lt x (← Build.constant 10 .int64))

/-- That `x` lies in its domain is proved, and it is true at `x = 3`. -/
theorem withinDomain_holds : ((proves withinDomain.2).run withinDomain.1).1 = true ∧
    withinDomain.1.ctx.eval (Session.sampleEnv 3 0) withinDomain.2 = some 1 ∧ (1 : Int64) ≠ 0 :=
  ⟨by decide +kernel, by decide +kernel,
    @ne_zero_of_proves withinDomain.1 withinDomain.2 (Session.sampleEnv 3 0) 1
      (Session.sample_reachable (by decide +kernel) (by decide +kernel)) (by decide +kernel)
      (by decide +kernel) (Session.admits_of_bindings (by decide +kernel) (by decide +kernel))
      (by decide +kernel)⟩

/-- `x / 2 < -2^63 + 10` where `x` is the least word. -/
def halfOfLeast : Session × ExprId :=
  Session.sample Int64.minValue 1 fun x _ => do
    let half ← Build.division .floorDiv x (← Build.constant 2 .int64)
    Build.compare .lt half (← Build.constant (Int64.minValue + 10) .int64)

/-- `(0 <= x and y) = y` where `x` is one of `[0, 10)`. -/
def conjunctionWithNumber : Session × ExprId :=
  Session.sample 0 10 fun x y => do
    let lower ← Build.compare .ge x (← Build.constant 0 .int64)
    Build.compare .eq (← Build.conj lower y) y

/-- The least word stands for an infinity when intervals are divided, and a conjunct that is
true is left out whatever the other one is.  So a condition may be proved and yet be false at
the least word, or where a connective is given a number. -/
theorem proves_untrue :
    (((proves halfOfLeast.2).run halfOfLeast.1).1 = true ∧ halfOfLeast.1.Reachable ∧
      halfOfLeast.1.ctx.Stored halfOfLeast.2 ∧
      halfOfLeast.1.KeepsDomains (Session.sampleEnv Int64.minValue 0) ∧
      halfOfLeast.1.ctx.eval (Session.sampleEnv Int64.minValue 0) halfOfLeast.2 = some 0) ∧
    ((proves conjunctionWithNumber.2).run conjunctionWithNumber.1).1 = true ∧
      conjunctionWithNumber.1.Reachable ∧
      conjunctionWithNumber.1.ctx.Stored conjunctionWithNumber.2 ∧
      conjunctionWithNumber.1.KeepsDomains (Session.sampleEnv 3 5) ∧
      conjunctionWithNumber.1.ctx.eval (Session.sampleEnv 3 5) conjunctionWithNumber.2 = some 0 :=
  ⟨⟨by decide +kernel, Session.sample_reachable (by decide +kernel) (by decide +kernel),
    by decide +kernel, Session.keepsDomains_of_bindings (by decide +kernel), by decide +kernel⟩,
    by decide +kernel, Session.sample_reachable (by decide +kernel) (by decide +kernel),
    by decide +kernel, Session.keepsDomains_of_bindings (by decide +kernel), by decide +kernel⟩

end Query

end LoopBounds
