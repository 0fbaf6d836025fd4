import LoopBounds.Proofs.Steadiness

/-!
# Memory makes no difference

A session goes on in steps that add to the context, tell the analyzer the domains of variables and
ask it questions.  As long as no step changes a function that is called, an analyzer that remembers
its answers and one that forgets them give the same answers and store the same expressions.
-/

namespace LoopBounds

namespace Session

/-- What is done in one step. -/
inductive Step where
  /-- Declares variables and functions, and stores expressions. -/
  | build (program : Build Unit)
  | learn (v : VarId) (d : Domain)
  | bound (e : ExprId)
  | simplify (e : ExprId)
  | proves (cond : ExprId)
  | provesEqual (a b : ExprId)

/-- What a step is answered by. -/
inductive Answer where
  | done
  | interval (i : Interval)
  | expr (e : ExprId)
  | truth (b : Bool)
  deriving DecidableEq, Repr

namespace Step

def perform : Step → Query Answer
  | build program => do
    let _ ← program
    return .done
  | learn v d => do
    Query.learn v d
    return .done
  | bound e => .interval <$> Query.bound e
  | simplify e => .expr <$> Query.simplify e
  | proves cond => .truth <$> Query.proves cond
  | provesEqual a b => .truth <$> Query.provesEqual a b

/-- The answers to steps, each with the context that the step leaves. -/
def trace : List Step → Query (List (Answer × Context))
  | [] => return []
  | step :: steps => do
    let answer ← step.perform
    let ctx ← Query.context
    return (answer, ctx) :: (← trace steps)

/-- A step asks about stored expressions.  Where it adds to the context, it changes no expression
and no function that is called, and the context is well formed afterwards. -/
def Allowed (ctx : Context) : Step → Prop
  | build program => ctx.Adds (program.run ctx).2 ∧ (program.run ctx).2.WellFormed
  | learn _ d => ctx.StoredDomain d
  | bound e | simplify e | proves e => ctx.Stored e
  | provesEqual a b => ctx.Stored a ∧ ctx.Stored b

/-- Each step is allowed where it is taken. -/
def AllAllowed : List Step → Session → Prop
  | [], _ => True
  | step :: steps, s => step.Allowed s.ctx ∧ AllAllowed steps (step.perform.run s).2

instance (step : Step) (ctx : Context) : Decidable (step.Allowed ctx) :=
  match step with
  | build program =>
    inferInstanceAs (Decidable (ctx.Adds (program.run ctx).2 ∧ (program.run ctx).2.WellFormed))
  | learn _ d => inferInstanceAs (Decidable (ctx.StoredDomain d))
  | bound e | simplify e | proves e => inferInstanceAs (Decidable (ctx.Stored e))
  | provesEqual a b => inferInstanceAs (Decidable (ctx.Stored a ∧ ctx.Stored b))

instance decidableAllAllowed : ∀ (steps : List Step) (s : Session), Decidable (AllAllowed steps s)
  | [], _ => inferInstanceAs (Decidable True)
  | step :: steps, s =>
    have := decidableAllAllowed steps (step.perform.run s).2
    inferInstanceAs (Decidable (_ ∧ _))

variable {ctx ctx' : Context} {known : Facts .var Domain} {answer : Answer} {step : Step}
  {steps : List Step} {s s' : Session} {an an' : Analyzer}

/-! ## What may be built -/

/-- Expressions may be stored. -/
theorem allowed_of_grows {program : Build Unit} (hwf : ctx.WellFormed)
    (h : ctx.Grows (program.run ctx).2) : (build program).Allowed ctx :=
  ⟨h.adds, h.wellFormed hwf⟩

/-- Variables may be declared. -/
theorem allowed_declareVar (hwf : ctx.WellFormed) (name : String) (type : Scalar) :
    (build do let _ ← declareVar name type).Allowed ctx := by
  refine ⟨Context.adds_of_funs hwf (.refl ctx) List.prefix_rfl,
    ⟨hwf.call, hwf.body, hwf.codomain, hwf.domain, ?_, hwf.axisVar_inj⟩⟩
  intro a ha
  have hlt := hwf.axisVar a ha
  change (ctx.axisVar a).index < (ctx.vars.push ⟨name, type⟩).size
  rw [Array.size_push]
  exact Nat.lt_succ_of_lt hlt

/-- Functions may be declared over stored expressions. -/
theorem allowed_addFun (hwf : ctx.WellFormed) {f : IndexFun}
    (hbody : ∀ b, f.body? = some b → ctx.Stored b)
    (hcodomain : ∀ d, f.codomain? = some d → ctx.StoredDomain d) :
    (build do let _ ← addFun f).Allowed ctx := by
  let declared : Context := { ctx with funs := ctx.funs.push f }
  have hfn : ∀ g, declared.fn g = f ∨ declared.fn g = ctx.fn g := by
    intro g
    rw [Context.fn, Context.fn, Array.getElem?_push]
    split
    · exact .inl rfl
    · exact .inr rfl
  have hcall : ∀ e g args dims, declared.node e = .call g args dims →
      g.index < declared.funs.size := by
    intro e g args dims hn
    have hlt := hwf.call e g args dims hn
    rw [Array.size_push]
    exact Nat.lt_succ_of_lt hlt
  have hfuns : ctx.funs.toList <+: declared.funs.toList := by simp [declared]
  refine ⟨Context.adds_of_funs hwf (.refl ctx) hfuns, ⟨hcall, fun g b hb => ?_, fun g d hd => ?_,
    hwf.domain, hwf.axisVar, hwf.axisVar_inj⟩⟩
  · rcases hfn g with hg | hg
    · exact hbody b (hg ▸ hb)
    · exact hwf.body g b (hg ▸ hb)
  · rcases hfn g with hg | hg
    · exact hcodomain d (hg ▸ hd)
    · exact hwf.codomain g d (hg ▸ hd)

/-! ## Runs -/

/-- Whatever a truthful analyzer remembers, the step is answered by `answer` and leaves `ctx'` and
the domains `known'`. -/
def AnsweredBy (step : Step) (ctx : Context) (known : Facts .var Domain) (answer : Answer)
    (ctx' : Context) (known' : Facts .var Domain) : Prop :=
  ∀ an : Analyzer, an.bindings = known → Truthful ⟨ctx, an⟩ →
    ∃ an', step.perform.run ⟨ctx, an⟩ = (answer, ⟨ctx', an'⟩) ∧ an'.bindings = known' ∧
      Truthful ⟨ctx', an'⟩

theorem answeredBy_of_steady {α : Type} {q : Query α} {Q : α → Context → Prop} {f : α → Answer}
    (h : Query.Steady q ctx known Q) (hstep : step.perform = f <$> q) :
    ∃ answer ctx' known', AnsweredBy step ctx known answer ctx' known' := by
  obtain ⟨x, ctx', h, -⟩ := h
  refine ⟨f x, ctx', known, fun an hknown htrue => ?_⟩
  obtain ⟨an', hrun, hknown', htrue'⟩ := h.first an hknown htrue
  refine ⟨an', ?_, hknown', htrue'⟩
  rw [hstep, StateT.run_map, hrun]
  rfl

theorem exists_answeredBy (hsupports : ctx.Supports known) (h : step.Allowed ctx) :
    ∃ answer ctx' known', AnsweredBy step ctx known answer ctx' known' := by
  cases step with
  | build program =>
      obtain ⟨hadds, hwf⟩ := h
      exact ⟨.done, (program.run ctx).2, known, fun an hknown htrue =>
        ⟨an, rfl, hknown, htrue.add hadds hwf⟩⟩
  | learn v d =>
      refine ⟨.done, ctx, known.insert v d, fun an hknown _ => ?_⟩
      subst hknown
      exact ⟨an.learn v d, rfl, rfl, truthful_learn hsupports h v⟩
  | bound e => exact answeredBy_of_steady (Query.bound_steady hsupports h) rfl
  | simplify e => exact answeredBy_of_steady (Query.simplify_steady e ctx hsupports h) rfl
  | proves e => exact answeredBy_of_steady (Query.proves_steady hsupports h) rfl
  | provesEqual a b => exact answeredBy_of_steady (Query.provesEqual_steady hsupports h.1 h.2) rfl

theorem trace_cons (h : step.perform.run s = (answer, s')) :
    ((trace (step :: steps)).run s).1 = (answer, s'.ctx) :: ((trace steps).run s').1 := by
  rw [trace, StateT.run_bind, h]
  rfl

/-- Truthful analyzers that know the same domains answer alike. -/
theorem trace_eq (htrue : Truthful ⟨ctx, an⟩) (htrue' : Truthful ⟨ctx, an'⟩)
    (hknown : an'.bindings = an.bindings) (h : AllAllowed steps ⟨ctx, an⟩) :
    ((trace steps).run ⟨ctx, an⟩).1 = ((trace steps).run ⟨ctx, an'⟩).1 := by
  induction steps generalizing ctx an an' with
  | nil => rfl
  | cons step steps ih =>
      obtain ⟨hstep, hsteps⟩ := h
      obtain ⟨answer, ctx₁, known₁, hanswered⟩ := exists_answeredBy htrue.supports hstep
      obtain ⟨an₁, hrun, hknown₁, htrue₁⟩ := hanswered an rfl htrue
      obtain ⟨an₁', hrun', hknown₁', htrue₁'⟩ := hanswered an' hknown htrue'
      rw [hrun] at hsteps
      rw [trace_cons hrun, trace_cons hrun', ih htrue₁ htrue₁' (hknown₁'.trans hknown₁.symm) hsteps]

/-- Steps that leave the functions that are called as they are leave the analyzer truthful. -/
theorem truthful_trace (htrue : s.Truthful) (h : AllAllowed steps s) :
    ((trace steps).run s).2.Truthful := by
  induction steps generalizing s with
  | nil => exact htrue
  | cons step steps ih =>
      obtain ⟨hstep, hsteps⟩ := h
      obtain ⟨answer, ctx₁, known₁, hanswered⟩ := exists_answeredBy htrue.supports hstep
      obtain ⟨an₁, hrun, -, htrue₁⟩ := hanswered s.analyzer rfl htrue
      rw [hrun] at hsteps
      rw [trace, StateT.run_bind, hrun]
      exact ih htrue₁ hsteps

/-- From the empty context, an analyzer that remembers and one that forgets give the same answers
to all steps, and after each the contexts are equal. -/
theorem memory_invisible (h : AllAllowed steps ⟨{}, {}⟩) :
    ((trace steps).run ⟨{}, {}⟩).1 = ((trace steps).run ⟨{}, .forgetful⟩).1 := by
  have hempty : Context.Supports {} {} := ⟨by decide, nofun⟩
  exact trace_eq (truthful_of_forgotten hempty (.inr ⟨rfl, rfl, rfl⟩))
    (truthful_of_forgotten hempty (.inl rfl)) rfl h

/-- Stores `x % 8 + f(x)`, where `f` has values in `[0, 2)`, and `x < 8`. -/
def storeSum : Build Unit := do
  let v ← declareVar "x" .int64
  let x ← Build.var v
  let p ← declareVar "p" .int64
  let d ← declareDim "X" .uniform
  let zero ← Build.constant 0 .int64
  let two ← Build.constant 2 .int64
  let eight ← Build.constant 8 .int64
  let _ ← Build.constant 16 .int64
  let f ← addFun ⟨"f", [p], [d], none, some ⟨zero, two⟩⟩
  let call ← intern (.call f [x] [d])
  let _ ← Build.add (← Build.arith .floorMod x eight) call
  let _ ← Build.compare .lt x eight

/-- Asks with `x` in `[0, 8)`, where the remainder is `x`, and again with `x` in `[0, 16)`. -/
def askTwice : List Step :=
  [.build storeSum, .learn ⟨0⟩ ⟨⟨1⟩, ⟨3⟩⟩, .simplify ⟨7⟩, .proves ⟨8⟩, .proves ⟨8⟩,
    .build (do let _ ← addFun ⟨"g", [], [], some ⟨7⟩, none⟩), .provesEqual ⟨7⟩ ⟨9⟩,
    .learn ⟨0⟩ ⟨⟨1⟩, ⟨4⟩⟩, .simplify ⟨7⟩, .proves ⟨8⟩, .bound ⟨7⟩, .simplify ⟨7⟩]

theorem memory_invisible_askTwice :
    AllAllowed askTwice ⟨{}, {}⟩ ∧
      ((trace askTwice).run ⟨{}, {}⟩).1 = ((trace askTwice).run ⟨{}, .forgetful⟩).1 ∧
      ((trace askTwice).run ⟨{}, .forgetful⟩).1.map Prod.fst =
        [.done, .done, .expr ⟨9⟩, .truth true, .truth true, .done, .truth true, .done,
          .expr ⟨13⟩, .truth false, .interval ⟨0, 8⟩, .expr ⟨13⟩] := by
  have hallowed : AllAllowed askTwice ⟨{}, {}⟩ := by decide +kernel
  exact ⟨hallowed, memory_invisible hallowed, by decide +kernel⟩

end Step

end Session

end LoopBounds
