import LoopBounds.Proofs.Lightness

/-!
# Queries end

The recursions of the three queries are given by rules without any bound on how often they apply,
so that a query ends when the rules derive its answer.  Domains that mention each other and bodies
that call themselves are met at a smaller depth each time.  Proofs recurse on the parts of what
the condition simplifies to, which have fewer connectives.
-/

namespace LoopBounds

/-! ## Bounds -/

/-- The bounds of the parameters of a function that is called. -/
def IndexFun.argBounds (f : IndexFun) (args : List ExprId) (dims : List DimId)
    (boundOf : ExprId → Interval) : Env Interval :=
  Id.run <| f.bindParams fun dim =>
    match argument? args dims dim with
    | some a => pure (boundOf a)
    | none => pure .everything

theorem IndexFun.bindParams_ext {α : Type} {m : Type → Type} [Monad m] {f : IndexFun}
    {meaning meaning' : DimId → m α} (h : ∀ pd ∈ f.signature, meaning' pd.2 = meaning pd.2) :
    f.bindParams meaning' = f.bindParams meaning := by
  rw [bindParams, bindParams]
  generalize Env.empty = env
  generalize f.signature = signature at h
  induction signature generalizing env with
  | nil => rfl
  | cons pd rest ih =>
      rw [List.foldlM_cons, List.foldlM_cons]
      dsimp only
      rw [h pd List.mem_cons_self]
      refine congrArg _ (funext fun env => ih env fun pd' hpd' => ?_)
      exact h pd' (List.mem_cons_of_mem pd hpd')

theorem IndexFun.argBounds_congr {f : IndexFun} {args : List ExprId} {dims : List DimId}
    {boundOf boundOf' : ExprId → Interval}
    (h : ∀ pd ∈ f.signature, ∀ a, argument? args dims pd.2 = some a → boundOf' a = boundOf a) :
    f.argBounds args dims boundOf' = f.argBounds args dims boundOf := by
  refine congrArg Id.run (bindParams_ext fun pd hpd => ?_)
  cases ha : argument? args dims pd.2 with
  | none => rfl
  | some a => exact congrArg pure (h pd hpd a ha)

theorem Domain.bound_congr {d : Domain} {boundOf boundOf' : ExprId → Interval}
    (hmin : boundOf' d.min = boundOf d.min) (hextent : boundOf' d.extent = boundOf d.extent) :
    d.bound boundOf' = d.bound boundOf := by
  rw [Domain.bound, Domain.bound, hmin, hextent]

/-- The recursion for the bounds of an expression, where domains and bodies may be followed
`depth` levels. -/
inductive BoundRun (ctx : Context) : Nat → Env Domain → Env Interval → ExprId → Interval → Prop
  | const {depth domains given e w t} (hn : ctx.node e = .const w t) :
      BoundRun ctx depth domains given e (.point w)
  | given {depth domains given e v i} (hn : ctx.node e = .var v) (hi : given v = some i) :
      BoundRun ctx depth domains given e i
  | unknown {depth domains given e v} (hn : ctx.node e = .var v) (hi : given v = none)
      (hd : domains v = none ∨ depth = 0) : BoundRun ctx depth domains given e .everything
  | domain {depth domains given e v d} {boundOf : ExprId → Interval} (hn : ctx.node e = .var v)
      (hi : given v = none) (hd : domains v = some d)
      (hmin : BoundRun ctx depth domains given d.min (boundOf d.min))
      (hextent : BoundRun ctx depth domains given d.extent (boundOf d.extent)) :
      BoundRun ctx (depth + 1) domains given e (d.bound boundOf)
  | arith {depth domains given e op a b i k} (hn : ctx.node e = .arith op a b)
      (ha : BoundRun ctx depth domains given a i) (hb : BoundRun ctx depth domains given b k) :
      BoundRun ctx depth domains given e (op.image i k)
  | truth {depth domains given e} (hn : (∃ op a b, ctx.node e = .compare op a b) ∨
      (∃ a b, ctx.node e = .and a b) ∨ (∃ a b, ctx.node e = .or a b) ∨ ∃ a, ctx.node e = .not a) :
      BoundRun ctx depth domains given e .truths
  | deep {domains given e f args dims} (hn : ctx.node e = .call f args dims) :
      BoundRun ctx 0 domains given e .everything
  | declared {depth domains given e f args dims} {boundOf : ExprId → Interval}
      (hn : ctx.node e = .call f args dims) (hbody : (ctx.fn f).body? = none)
      (hmin : ∀ d, (ctx.fn f).codomain? = some d →
        BoundRun ctx depth domains given d.min (boundOf d.min))
      (hextent : ∀ d, (ctx.fn f).codomain? = some d →
        BoundRun ctx depth domains given d.extent (boundOf d.extent)) :
      BoundRun ctx (depth + 1) domains given e (ctx.declaredBound f boundOf)
  | body {depth domains given e f args dims body i} {boundOf argBound : ExprId → Interval}
      (hn : ctx.node e = .call f args dims) (hbody : (ctx.fn f).body? = some body)
      (hmin : ∀ d, (ctx.fn f).codomain? = some d →
        BoundRun ctx depth domains given d.min (boundOf d.min))
      (hextent : ∀ d, (ctx.fn f).codomain? = some d →
        BoundRun ctx depth domains given d.extent (boundOf d.extent))
      (hargs : ∀ pd ∈ (ctx.fn f).signature, ∀ a, argument? args dims pd.2 = some a →
        BoundRun ctx (depth + 1) domains given a (argBound a))
      (hrun : BoundRun ctx depth Env.empty ((ctx.fn f).argBounds args dims argBound) body i) :
      BoundRun ctx (depth + 1) domains given e (i.intersect (ctx.declaredBound f boundOf))

namespace Context

variable {ctx : Context} {domains : Env Domain} {given : Env Interval} {e : ExprId} {i : Interval}

/-- The bounds of domains and bodies at a depth. -/
def deeper? (ctx : Context) : Nat → Option Bounding
  | 0 => none
  | depth + 1 => some (ctx.boundWithin depth)

theorem boundWithin_eq (ctx : Context) (depth : Nat) :
    ctx.boundWithin depth = ctx.boundStep (ctx.deeper? depth) := by
  cases depth <;> rfl

theorem declaredBound_congr {f : FunId} {boundOf boundOf' : ExprId → Interval}
    (hmin : ∀ d, (ctx.fn f).codomain? = some d → boundOf' d.min = boundOf d.min)
    (hextent : ∀ d, (ctx.fn f).codomain? = some d → boundOf' d.extent = boundOf d.extent) :
    ctx.declaredBound f boundOf' = ctx.declaredBound f boundOf := by
  unfold declaredBound
  split
  · next d hd => exact Domain.bound_congr (hmin d hd) (hextent d hd)
  · rfl

/-- The rules derive the bounds of every expression. -/
theorem boundRun (ctx : Context) (depth : Nat) (domains : Env Domain) (given : Env Interval)
    (e : ExprId) : BoundRun ctx depth domains given e (ctx.boundWithin depth domains given e) := by
  have hoperand : ∀ c ∈ (ctx.node e).children,
      BoundRun ctx depth domains given c (ctx.boundWithin depth domains given c) := fun c hc =>
    boundRun ctx depth domains given c
  have hends : ∀ n, depth = n + 1 → ∀ d : Domain,
      BoundRun ctx n domains given d.min (ctx.boundWithin n domains given d.min) ∧
        BoundRun ctx n domains given d.extent (ctx.boundWithin n domains given d.extent) :=
    fun n hn d => ⟨boundRun ctx n domains given d.min, boundRun ctx n domains given d.extent⟩
  rw [boundWithin_eq] at hoperand ⊢
  cases hn : ctx.node e with
  | const w t => exact boundStep_const hn ▸ .const hn
  | var v =>
      rw [boundStep_var hn]
      split
      · next i hi => exact .given hn hi
      · next d B hi hd hB =>
        cases depth with
        | zero => cases hB
        | succ n =>
            cases hB
            exact .domain hn hi hd (hends n rfl d).1 (hends n rfl d).2
      · next hi hnone =>
        refine .unknown hn hi ?_
        cases depth with
        | zero => exact .inr rfl
        | succ n => exact .inl (Option.eq_none_iff_forall_ne_some.2 fun d hd => hnone d _ hd rfl)
  | arith op a b =>
      rw [boundStep_arith hn]
      exact .arith hn (hoperand a (by simp [hn, Node.children]))
        (hoperand b (by simp [hn, Node.children]))
  | compare | and | or | not =>
      have hcond : (ctx.node e).IsCondition := hn ▸ trivial
      exact boundStep_condition hcond ▸ .truth (Node.isCondition_iff.1 hcond)
  | call f args dims =>
      rw [boundStep_call hn]
      cases depth with
      | zero => exact .deep hn
      | succ n =>
          dsimp only [deeper?]
          cases hbody : (ctx.fn f).body? with
          | none =>
              exact .declared hn hbody (fun d _ => (hends n rfl d).1) fun d _ => (hends n rfl d).2
          | some body =>
              refine .body hn hbody (fun d _ => (hends n rfl d).1) (fun d _ => (hends n rfl d).2)
                (fun pd _ a ha => hoperand a ?_) (boundRun ctx n _ _ body)
              simpa [hn, Node.children] using mem_of_argument? ha
termination_by (depth, e.index)
decreasing_by
  · exact Prod.Lex.right _ (ctx.child_lt hc)
  all_goals exact Prod.Lex.left _ _ (by omega)

/-- The rules derive no other bounds. -/
theorem boundWithin_of_run {depth : Nat} (h : BoundRun ctx depth domains given e i) :
    ctx.boundWithin depth domains given e = i := by
  induction h with
  | const hn => rw [boundWithin_eq, boundStep_const hn]
  | given hn hi => rw [boundWithin_eq, boundStep_var hn, hi]
  | @unknown depth domains given e v hn hi hd =>
      rw [boundWithin_eq, boundStep_var hn, hi]
      rcases hd with hd | rfl
      · rw [hd]
      · cases domains v <;> rfl
  | domain hn hi hd _ _ ihmin ihextent =>
      rw [boundWithin_eq, boundStep_var hn, hi, hd]
      exact Domain.bound_congr ihmin ihextent
  | arith hn _ _ iha ihb =>
      rw [boundWithin_eq] at iha ihb ⊢
      rw [boundStep_arith hn, iha, ihb]
  | truth hn => rw [boundWithin_eq, boundStep_condition (Node.isCondition_iff.2 hn)]
  | deep hn =>
      rw [boundWithin_eq, boundStep_call hn]
      rfl
  | declared hn hbody _ _ ihmin ihextent =>
      rw [boundWithin_eq, boundStep_call hn]
      simp only [deeper?, hbody]
      exact declaredBound_congr ihmin ihextent
  | @body depth domains given e f args dims body i boundOf argBound hn hbody _ _ _ _ ihmin ihextent
      ihargs ihrun =>
      rw [boundWithin_eq, boundStep_call hn]
      simp only [deeper?, hbody]
      have hargs : (ctx.fn f).argBounds args dims
          (ctx.boundStep (some (ctx.boundWithin depth)) domains given) =
            (ctx.fn f).argBounds args dims argBound :=
        IndexFun.argBounds_congr fun pd hpd a ha => ihargs pd hpd a ha
      rw [← ihrun, ← hargs, declaredBound_congr ihmin ihextent]
      rfl

theorem boundRun_iff {depth : Nat} :
    BoundRun ctx depth domains given e i ↔ ctx.boundWithin depth domains given e = i :=
  ⟨boundWithin_of_run, fun h => h ▸ boundRun ctx depth domains given e⟩

end Context

/-- A question for the bounds of an expression, its answer and the session it leaves. -/
inductive BoundAnswer : Session → ExprId → Interval → Session → Prop
  | known {s e i} (hi : s.analyzer.bound? e = some i) : BoundAnswer s e i s
  | anew {s e i} (hnew : s.analyzer.bound? e = none)
      (hrun : BoundRun s.ctx Context.bindingDepth s.domains Env.empty e i) :
      BoundAnswer s e i ((Query.recordBound e i).run s).2

namespace Query

theorem bound_run_known {s : Session} {e : ExprId} {i : Interval}
    (hi : s.analyzer.bound? e = some i) : (bound e).run s = (i, s) := by
  change Leads (bound e) s fun i' s' => (i', s') = (i, s)
  refine .analyzer ?_
  rw [hi]
  exact .pure rfl

theorem bound_run_anew {s : Session} {e : ExprId} (hnew : s.analyzer.bound? e = none) :
    (bound e).run s = (s.ctx.boundWithin Context.bindingDepth s.domains Env.empty e,
      ((recordBound e
        (s.ctx.boundWithin Context.bindingDepth s.domains Env.empty e)).run s).2) := by
  have hdomains : s.domains = (s.analyzer.bindings[·]?) := rfl
  rw [hdomains]
  change Leads (bound e) s fun i s' => (i, s') = _
  refine .analyzer ?_
  rw [hnew]
  refine .context ?_
  dsimp only
  generalize s.ctx.boundWithin Context.bindingDepth (s.analyzer.bindings[·]?) Env.empty e = i
  exact Leads.bind (Q := fun _ s' => s' = ((recordBound e i).run s).2) rfl
    fun _ s' h => .pure (h ▸ rfl)

end Query

theorem boundAnswer_iff {s s' : Session} {e : ExprId} {i : Interval} :
    BoundAnswer s e i s' ↔ (Query.bound e).run s = (i, s') := by
  constructor
  · intro h
    cases h with
    | known hi => exact Query.bound_run_known hi
    | anew hnew hrun => rw [Query.bound_run_anew hnew, Context.boundWithin_of_run hrun]
  · intro h
    cases hi : s.analyzer.bound? e with
    | some known =>
        cases (Query.bound_run_known hi).symm.trans h
        exact .known hi
    | none =>
        cases (Query.bound_run_anew hi).symm.trans h
        exact .anew hi (Context.boundRun _ _ _ _ _)

/-! ## Simplification -/

/-- The recursion of simplification, for several expressions one after the other. -/
inductive SimplifyRun : Session → List ExprId → List ExprId → Session → Prop
  | nil {s} : SimplifyRun s [] [] s
  | known {s e r es rs s'} (hr : s.analyzer.simplified? e = some r) (hes : SimplifyRun s es rs s') :
      SimplifyRun s (e :: es) (r :: rs) s'
  | anew {s e operands s₁ r s₂ es rs s'} (hnew : s.analyzer.simplified? e = none)
      (hoperands : SimplifyRun s (s.ctx.node e).children operands s₁)
      (hr : (Query.simplifyOver s.ctx e operands).run s₁ = (r, s₂))
      (hes : SimplifyRun s₂ es rs s') : SimplifyRun s (e :: es) (r :: rs) s'

namespace Query

variable {s s' s₁ : Session} {e r : ExprId} {es rs operands : List ExprId}

theorem simplify_run_known (hr : s.analyzer.simplified? e = some r) :
    (simplify e).run s = (r, s) := by
  rw [simplify_eq]
  change (match s.analyzer.simplified? e with
    | some done => Pure.pure done
    | none => _ : Query ExprId).run s = _
  rw [hr]
  rfl

theorem simplify_run_anew (hnew : s.analyzer.simplified? e = none)
    (hoperands : ((s.ctx.node e).children.mapM simplify).run s = (operands, s₁)) :
    (simplify e).run s = (simplifyOver s.ctx e operands).run s₁ := by
  rw [simplify_eq]
  change (match s.analyzer.simplified? e with
    | some done => Pure.pure done
    | none => _ : Query ExprId).run s = _
  rw [hnew]
  change ((s.ctx.node e).children.mapM simplify >>= simplifyOver s.ctx e).run s = _
  rw [StateT.run_bind, hoperands]
  rfl

theorem mapM_run_cons {q : ExprId → Query ExprId} :
    ((e :: es).mapM q).run s = ((r :: rs), s') ↔
      ∃ s₁, (q e).run s = (r, s₁) ∧ (es.mapM q).run s₁ = (rs, s') := by
  rw [List.mapM_cons]
  change (((q e).run s).1 :: ((es.mapM q).run ((q e).run s).2).1,
    ((es.mapM q).run ((q e).run s).2).2) = _ ↔ _
  generalize (q e).run s = x
  obtain ⟨r', s₁⟩ := x
  constructor
  · intro h
    cases h
    exact ⟨s₁, rfl, rfl⟩
  · rintro ⟨s₂, ⟨⟩, h⟩
    rw [h]

theorem run_of_simplifyRun (h : SimplifyRun s es rs s') : (es.mapM simplify).run s = (rs, s') := by
  induction h with
  | nil => rfl
  | known hr _ ih => exact mapM_run_cons.2 ⟨_, simplify_run_known hr, ih⟩
  | anew hnew _ hr _ ihoperands ih =>
      exact mapM_run_cons.2 ⟨_, (simplify_run_anew hnew ihoperands).trans hr, ih⟩

theorem simplifyRun_all {es : List ExprId}
    (h : ∀ e ∈ es, ∀ s, SimplifyRun s [e] [((simplify e).run s).1] ((simplify e).run s).2)
    (s : Session) : SimplifyRun s es ((es.mapM simplify).run s).1 ((es.mapM simplify).run s).2 := by
  induction es generalizing s with
  | nil => exact .nil
  | cons e es ih =>
      have hhead := h e List.mem_cons_self s
      have htail := ih (fun c hc => h c (List.mem_cons_of_mem e hc)) ((simplify e).run s).2
      rw [List.mapM_cons]
      generalize hx : (simplify e).run s = x at hhead htail
      change SimplifyRun s (e :: es) (((simplify e).run s).1 ::
        ((es.mapM simplify).run ((simplify e).run s).2).1)
          ((es.mapM simplify).run ((simplify e).run s).2).2
      rw [hx]
      cases hhead with
      | known hr hes =>
          cases hes
          exact .known hr htail
      | anew hnew hoperands hr hes =>
          cases hes
          exact .anew hnew hoperands hr htail

theorem simplifyRun (e : ExprId) (s : Session) :
    SimplifyRun s [e] [((simplify e).run s).1] ((simplify e).run s).2 := by
  cases hr : s.analyzer.simplified? e with
  | some r =>
      rw [simplify_run_known hr]
      exact .known hr .nil
  | none =>
      have hoperand : ∀ c ∈ (s.ctx.node e).children, ∀ s',
          SimplifyRun s' [c] [((simplify c).run s').1] ((simplify c).run s').2 := fun c hc s' =>
        simplifyRun c s'
      have hoperands := simplifyRun_all hoperand s
      rw [simplify_run_anew hr rfl]
      exact .anew hr hoperands rfl .nil
termination_by e.index
decreasing_by exact Context.child_lt _ hc

theorem simplifyRun_iff : SimplifyRun s [e] [r] s' ↔ (simplify e).run s = (r, s') := by
  constructor
  · intro h
    obtain ⟨s₁, hr, hnil⟩ := mapM_run_cons.1 (run_of_simplifyRun h)
    cases hnil
    exact hr
  · intro h
    have hrun := simplifyRun e s
    rwa [h] at hrun

end Query

/-! ## Proofs -/

/-- The recursion of proofs.  A condition that does not simplify to a conjunction is proved when it
simplifies to a literal other than zero; the second part of a conjunction is looked at when the
first is proved. -/
inductive ProofRun : Session → ExprId → Bool → Session → Prop
  | known {s e answer} (h : s.analyzer.proved? e = some answer) : ProofRun s e answer s
  | plain {s e r s₁} (hnew : s.analyzer.proved? e = none) (hr : SimplifyRun s [e] [r] s₁)
      (hplain : ∀ a b, s₁.ctx.node r ≠ .and a b) :
      ProofRun s e ((s₁.ctx.literal? r).any (· ≠ 0))
        ((Query.recordProved e ((s₁.ctx.literal? r).any (· ≠ 0))).run s₁).2
  | first {s e r s₁ a b s₂} (hnew : s.analyzer.proved? e = none) (hr : SimplifyRun s [e] [r] s₁)
      (hn : s₁.ctx.node r = .and a b) (ha : ProofRun s₁ a false s₂) :
      ProofRun s e false ((Query.recordProved e false).run s₂).2
  | both {s e r s₁ a b s₂ answer s₃} (hnew : s.analyzer.proved? e = none)
      (hr : SimplifyRun s [e] [r] s₁) (hn : s₁.ctx.node r = .and a b) (ha : ProofRun s₁ a true s₂)
      (hb : ProofRun s₂ b answer s₃) : ProofRun s e answer ((Query.recordProved e answer).run s₃).2

namespace Query

variable {s s' s'' s₁ : Session} {e r : ExprId} {answer answer' : Bool} {n : Nat}

/-- The answer for a condition that simplifies to `r`. -/
def simplifiedAnswer (prove : ExprId → Query Bool) (r : ExprId) : Query Bool := do
  match (← context).node r with
  | .const v _ => pure (decide (v ≠ 0))
  | .and a b => do
    if ← prove a then prove b else pure false
  | _ => pure false

theorem provesWithin_succ (n : Nat) (e : ExprId) : provesWithin (n + 1) e = (do
    match (← analyzer).proved? e with
    | some known => return known
    | none => do
      let answer ← simplify e >>= simplifiedAnswer (provesWithin n)
      recordProved e answer
      return answer) := by
  rw [provesWithin]
  refine congrArg (analyzer >>= ·) (funext fun an => ?_)
  cases an.proved? e with
  | some known => rfl
  | none =>
      dsimp only
      rw [bind_assoc]
      refine congrArg (simplify e >>= ·) (funext fun r => ?_)
      rw [simplifiedAnswer, bind_assoc]
      refine congrArg (context >>= ·) (funext fun ctx => ?_)
      cases ctx.node r with
      | const v t | var v | arith op a b | compare op a b | or a b | not a | call f args dims => rfl
      | and a b =>
          dsimp only
          rw [bind_assoc]
          refine congrArg (provesWithin n a >>= ·) (funext fun first => ?_)
          cases first <;> rfl

theorem provesWithin_run_known (h : s.analyzer.proved? e = some answer) :
    (provesWithin (n + 1) e).run s = (answer, s) := by
  rw [provesWithin_succ]
  change (match s.analyzer.proved? e with
    | some known => Pure.pure known
    | none => _ : Query Bool).run s = _
  rw [h]
  rfl

theorem provesWithin_run_anew (hnew : s.analyzer.proved? e = none) :
    (provesWithin (n + 1) e).run s = (do
      let answer ← simplify e >>= simplifiedAnswer (provesWithin n)
      recordProved e answer
      return answer : Query Bool).run s := by
  rw [provesWithin_succ]
  change (match s.analyzer.proved? e with
    | some known => Pure.pure known
    | none => _ : Query Bool).run s = _
  rw [hnew]

theorem provesWithin_run_of (hnew : s.analyzer.proved? e = none)
    (hr : (simplify e).run s = (r, s₁))
    (hanswer : (simplifiedAnswer (provesWithin n) r).run s₁ = (answer, s')) :
    (provesWithin (n + 1) e).run s = (answer, ((recordProved e answer).run s').2) := by
  have hrun : (simplify e >>= simplifiedAnswer (provesWithin n)).run s = (answer, s') := by
    rw [StateT.run_bind, hr]
    exact hanswer
  rw [provesWithin_run_anew hnew, StateT.run_bind, hrun]
  rfl

theorem simplifiedAnswer_run_plain {prove : ExprId → Query Bool}
    (hplain : ∀ a b, s.ctx.node r ≠ .and a b) :
    (simplifiedAnswer prove r).run s = ((s.ctx.literal? r).any (· ≠ 0), s) := by
  change Leads (simplifiedAnswer prove r) s fun answer' s' => (answer', s') = _
  refine .context ?_
  rw [Context.literal?]
  cases hn : s.ctx.node r with
  | and a b => exact absurd hn (hplain a b)
  | const v t | var v | arith op a b | compare op a b | or a b | not a | call f args dims => rfl

theorem simplifiedAnswer_run_first {prove : ExprId → Query Bool} {a b : ExprId}
    (hn : s.ctx.node r = .and a b) (ha : (prove a).run s = (false, s')) :
    (simplifiedAnswer prove r).run s = (false, s') := by
  change Leads (simplifiedAnswer prove r) s fun answer' t => (answer', t) = _
  refine .context ?_
  rw [hn]
  refine Leads.bind (Q := fun answer' t => (answer', t) = (false, s')) ha ?_
  rintro _ _ ⟨⟩
  rfl

theorem simplifiedAnswer_run_both {prove : ExprId → Query Bool} {a b : ExprId}
    (hn : s.ctx.node r = .and a b) (ha : (prove a).run s = (true, s'))
    (hb : (prove b).run s' = (answer, s'')) :
    (simplifiedAnswer prove r).run s = (answer, s'') := by
  change Leads (simplifiedAnswer prove r) s fun answer' t => (answer', t) = _
  refine .context ?_
  rw [hn]
  refine Leads.bind (Q := fun answer' t => (answer', t) = (true, s')) ha ?_
  rintro _ _ ⟨⟩
  exact hb

/-- Enough rounds give the answer that the rules derive. -/
theorem run_of_proofRun (h : ProofRun s e answer s') :
    ∃ n, ∀ m, n < m → (provesWithin m e).run s = (answer, s') := by
  have hsucc : ∀ {n m : Nat}, n < m → ∃ k, m = k + 1 ∧ n ≤ k := fun {n m} h =>
    ⟨m - 1, by omega, by omega⟩
  induction h with
  | known h =>
      refine ⟨0, fun m hm => ?_⟩
      obtain ⟨k, rfl, -⟩ := hsucc hm
      exact provesWithin_run_known h
  | plain hnew hr hplain =>
      refine ⟨0, fun m hm => ?_⟩
      obtain ⟨k, rfl, -⟩ := hsucc hm
      exact provesWithin_run_of hnew (simplifyRun_iff.1 hr) (simplifiedAnswer_run_plain hplain)
  | first hnew hr hn _ iha =>
      obtain ⟨n, iha⟩ := iha
      refine ⟨n + 1, fun m hm => ?_⟩
      obtain ⟨k, rfl, hk⟩ := hsucc hm
      exact provesWithin_run_of hnew (simplifyRun_iff.1 hr)
        (simplifiedAnswer_run_first hn (iha k hk))
  | both hnew hr hn _ _ iha ihb =>
      obtain ⟨n, iha⟩ := iha
      obtain ⟨n', ihb⟩ := ihb
      refine ⟨n + n' + 1, fun m hm => ?_⟩
      obtain ⟨k, rfl, hk⟩ := hsucc hm
      exact provesWithin_run_of hnew (simplifyRun_iff.1 hr)
        (simplifiedAnswer_run_both hn (iha k (by omega)) (ihb k (by omega)))

/-- The parts of what a condition simplifies to have fewer connectives than the condition. -/
theorem parts_lt (hs : s.Light) (he : s.ctx.Stored e) {a b : ExprId}
    (hn : ((simplify e).run s).2.ctx.node ((simplify e).run s).1 = .and a b) (j : Join) :
    ((simplify e).run s).2.ctx.weight j a < s.ctx.weight j e ∧
      ((simplify e).run s).2.ctx.weight j b < s.ctx.weight j e :=
  (simplify_keeps e s hs he).post.parts_lt hn j

/-- The rules derive what a proof answers that has as many rounds as connectives are nested. -/
theorem proofRun (hs : s.Light) (he : s.ctx.Stored e) (hnesting : s.ctx.nesting e < n) :
    ProofRun s e ((provesWithin n e).run s).1 ((provesWithin n e).run s).2 := by
  induction n generalizing s e with
  | zero => omega
  | succ n ih =>
      cases hknown : s.analyzer.proved? e with
      | some answer =>
          rw [provesWithin_run_known hknown]
          exact .known hknown
      | none =>
          have hr := simplifyRun e s
          have hkeeps := simplify_keeps e s hs he
          have hrun : (simplify e).run s = (((simplify e).run s).1, ((simplify e).run s).2) := rfl
          by_cases hand : ∃ a b, ((simplify e).run s).2.ctx.node ((simplify e).run s).1 = .and a b
          · obtain ⟨a, b, hn⟩ := hand
            obtain ⟨hlta, hltb⟩ := parts_lt hs he hn .max
            have ha := hkeeps.post.stored.child (c := a) (by simp [hn, Node.children])
            have hb := hkeeps.post.stored.child (c := b) (by simp [hn, Node.children])
            have hproof := ih hkeeps.light ha (Nat.lt_of_lt_of_le hlta (Nat.le_of_lt_succ hnesting))
            have hfirst := provesWithin_keeps n hkeeps.light ha
            generalize hx : (provesWithin n a).run ((simplify e).run s).2 = x at hproof hfirst
            obtain ⟨first, s₂⟩ := x
            cases first with
            | false =>
                rw [provesWithin_run_of hknown hrun (simplifiedAnswer_run_first hn hx)]
                exact .first hknown hr hn hproof
            | true =>
                have happends : ((simplify e).run s).2.ctx.Appends s₂.ctx := by
                  have h := hfirst.appends
                  rwa [hx] at h
                have hlight : s₂.Light := by
                  have h := hfirst.light
                  rwa [hx] at h
                have hltb : s₂.ctx.nesting b < n := by
                  rw [Context.nesting, happends.weight_eq hb]
                  exact Nat.lt_of_lt_of_le hltb (Nat.le_of_lt_succ hnesting)
                have hsecond := simplifiedAnswer_run_both (r := ((simplify e).run s).1) hn hx rfl
                rw [provesWithin_run_of hknown hrun hsecond]
                exact .both hknown hr hn hproof (ih hlight (happends.stored hb) hltb)
          · have hplain : ∀ a b,
                ((simplify e).run s).2.ctx.node ((simplify e).run s).1 ≠ .and a b :=
              fun a b hn => hand ⟨a, b, hn⟩
            rw [provesWithin_run_of hknown hrun (simplifiedAnswer_run_plain hplain)]
            exact .plain hknown hr hplain

theorem proofRun_iff (hs : s.Light) (he : s.ctx.Stored e) :
    ProofRun s e answer s' ↔ (proves e).run s = (answer, s') := by
  have hproof := proofRun hs he (Nat.lt_succ_of_le (s.ctx.nesting_le_index e))
  constructor
  · intro h
    obtain ⟨n, hn⟩ := run_of_proofRun h
    obtain ⟨n', hn'⟩ := run_of_proofRun hproof
    have hm := hn (n + n' + 1) (by omega)
    exact (hn' (n + n' + 1) (by omega)).symm.trans hm
  · intro h
    change (provesWithin (e.index + 1) e).run s = _ at h
    rwa [h] at hproof

/-- As many rounds as connectives are nested are enough. -/
theorem provesWithin_eq_proves (hs : s.Light) (he : s.ctx.Stored e)
    (hnesting : s.ctx.nesting e < n) : (provesWithin n e).run s = (proves e).run s :=
  ((proofRun_iff hs he).1 (proofRun hs he hnesting)).symm

end Query

/-! ## Sessions -/

namespace Session

/-- The sessions that arise when an analyzer is asked while the context changes.  Expressions stay
in the context; anything else may change, bodies and codomains included, and domains may mention
any variables. -/
inductive Arises : Session → Prop
  | start (ctx : Context) (memoize : Bool) : Arises ⟨ctx, { memoize }⟩
  | change {ctx ctx' : Context} {an : Analyzer} (h : Arises ⟨ctx, an⟩) (hctx : ctx.Appends ctx') :
      Arises ⟨ctx', an⟩
  | learn {s : Session} (h : s.Arises) (v : VarId) (d : Domain) :
      Arises ((Query.learn v d).run s).2
  | bound {s : Session} (h : s.Arises) (e : ExprId) : Arises ((Query.bound e).run s).2
  | simplify {s : Session} (h : s.Arises) {e : ExprId} (he : s.ctx.Stored e) :
      Arises ((Query.simplify e).run s).2
  | proves {s : Session} (h : s.Arises) {e : ExprId} (he : s.ctx.Stored e) :
      Arises ((Query.proves e).run s).2
  | provesEqual {s : Session} (h : s.Arises) {a b : ExprId} (ha : s.ctx.Stored a)
      (hb : s.ctx.Stored b) : Arises ((Query.provesEqual a b).run s).2

theorem light_of_forgotten {ctx : Context} {an : Analyzer} (h : an.simplified = {}) :
    Light ⟨ctx, an⟩ := by
  intro e r hr
  simp [Analyzer.simplified?, h] at hr

theorem provesEqual_keeps {s : Session} {a b : ExprId} (hs : s.Light)
    (ha : s.ctx.Stored a) (hb : s.ctx.Stored b) :
    Query.Keeps (Query.provesEqual a b) s fun _ _ => True := by
  unfold Query.provesEqual
  split
  · exact .pure hs trivial
  have hdiff := Build.arith_replays .sub ha hb
  refine Query.Keeps.bind (Q := fun diff ctx => ctx.Stored diff)
    ⟨hs.mono hdiff.grows.appends fun _ => rfl, hdiff.grows.appends, hdiff.post.stored⟩
    fun diff s₁ hs₁ _ hdiff => ?_
  exact (Query.simplify_keeps diff s₁ hs₁ hdiff).bind fun r s₂ hs₂ _ _ =>
    .context (.pure hs₂ trivial)

theorem Arises.light {s : Session} (h : s.Arises) : s.Light := by
  induction h with
  | start ctx memoize => exact light_of_forgotten rfl
  | change _ hctx ih => exact ih.mono hctx fun _ => rfl
  | learn _ v d _ => exact light_of_forgotten rfl
  | bound _ e ih => exact ih.mono (Query.bound_appends e _) (Query.quiet_bound e _).1
  | simplify _ he ih => exact (Query.simplify_keeps _ _ ih he).light
  | proves _ he ih => exact (Query.provesWithin_keeps _ ih he).light
  | provesEqual _ ha hb ih => exact (provesEqual_keeps ih ha hb).light

/-- Every query ends: the rules, which know no bound on the recursion, derive exactly what it
answers.  Simplifying adds no connectives, so a proof goes on with conditions that have fewer. -/
theorem Arises.queries_end {s : Session} (h : s.Arises) {e : ExprId} (he : s.ctx.Stored e) :
    (∀ i s', BoundAnswer s e i s' ↔ (Query.bound e).run s = (i, s')) ∧
      (∀ r s', SimplifyRun s [e] [r] s' ↔ (Query.simplify e).run s = (r, s')) ∧
      (∀ answer s', ProofRun s e answer s' ↔ (Query.proves e).run s = (answer, s')) ∧
      ∀ r s', (Query.simplify e).run s = (r, s') → s'.ctx.connectives r ≤ s.ctx.connectives e ∧
        ∀ a b, s'.ctx.node r = .and a b → s'.ctx.connectives a < s.ctx.connectives e ∧
          s'.ctx.connectives b < s.ctx.connectives e := by
  refine ⟨fun _ _ => boundAnswer_iff, fun _ _ => Query.simplifyRun_iff,
    fun _ _ => Query.proofRun_iff h.light he, fun r s' hrun => ?_⟩
  have hle := (Query.simplify_keeps e s h.light he).post.weight_le .sum
  have hparts := fun a b => Query.parts_lt (a := a) (b := b) h.light he
  rw [hrun] at hle hparts
  exact ⟨hle, fun a b hn => hparts a b hn .sum⟩

end Session

/-- The condition `0 <= n && !(n < 0)` beside a call `f[n]` that is the body of `f`. -/
def circularCall : Build Unit := do
  let v ← declareVar "n" .int32
  let n ← Build.var v
  let d ← declareDim "N" .uniform
  let f ← addFun ⟨"f", [v], [d], none, none⟩
  let call ← intern (.call f [n] [d])
  modifyFun f fun fn => { fn with body? := some call }
  let zero ← Build.int 0
  let notBelow ← Build.negation (← Build.compare .lt n zero)
  let _ ← Build.conj (← Build.compare .le zero n) notBelow

/-- With `n` in `[0, n)` and a function that calls itself, bounds and proofs end. -/
theorem Session.Arises.queries_end_circularCall :
    let s : Session := ((Query.learn ⟨0⟩ ⟨⟨2⟩, ⟨0⟩⟩).run ⟨(circularCall.run {}).2, {}⟩).2
    s.Arises ∧ s.domains ⟨0⟩ = some ⟨⟨2⟩, ⟨0⟩⟩ ∧ s.ctx.node ⟨0⟩ = .var ⟨0⟩ ∧
      (s.ctx.fn ⟨0⟩).body? = some ⟨1⟩ ∧ s.ctx.node ⟨1⟩ = .call ⟨0⟩ [⟨0⟩] [⟨0⟩] ∧
      (∃ s', BoundAnswer s ⟨1⟩ .everything s') ∧
      s.ctx.node ⟨6⟩ = .and ⟨5⟩ ⟨4⟩ ∧ ∃ s', ProofRun s ⟨6⟩ true s' := by
  intro s
  have harises : s.Arises := .learn (.start (circularCall.run {}).2 true) ⟨0⟩ ⟨⟨2⟩, ⟨0⟩⟩
  have hcall : s.ctx.Stored ⟨1⟩ := by decide +kernel
  have hcond : s.ctx.Stored ⟨6⟩ := by decide +kernel
  have hbound : ((Query.bound ⟨1⟩).run s).1 = .everything := by decide +kernel
  have hproved : ((Query.proves ⟨6⟩).run s).1 = true := by decide +kernel
  obtain ⟨hbounds, -⟩ := Session.Arises.queries_end harises hcall
  obtain ⟨-, -, hproofs, -⟩ := Session.Arises.queries_end harises hcond
  exact ⟨harises, by decide +kernel, by decide +kernel, by decide +kernel, by decide +kernel,
    ⟨_, (hbounds _ _).2 (Prod.ext hbound rfl)⟩, by decide +kernel,
    _, (hproofs _ _).2 (Prod.ext hproved rfl)⟩

end LoopBounds
