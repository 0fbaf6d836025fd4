import LoopBounds.Proofs.Locality
import LoopBounds.Proofs.Sweep

/-!
# Questions in sweeps

A sweep compares and divides without a look at its table.  What it asks there ends in the same way
over every table, whatever is known of variables that are not mentioned, and it ends so again when
more is stored.
-/

namespace LoopBounds

open Session (Truthful)

/-- The errors differ at most in the sweep and in what they name. -/
def InferError.SameKind : InferError → InferError → Prop
  | .expr e, .expr e' => e.SameKind e'
  | e, e' => e.ctorIdx = e'.ctorIdx

theorem SameOutcome.refl {α : Type} (r : Except InferError α) :
    SameOutcome InferError.SameKind r r := by
  cases r with
  | ok x => exact .ok x
  | error e => cases e <;> exact .error rfl

theorem SameOutcome.mapError {α : Type} {r r' : Except ExprError α}
    (h : SameOutcome ExprError.SameKind r r') :
    SameOutcome InferError.SameKind (r.mapError .expr) (r'.mapError .expr) := by
  cases h with
  | ok x => exact .ok x
  | error h => exact .error h

namespace Sweep

variable {α β : Type} {V : Set VarId} {D : FunId → Prop} {ctx ctx' ctx'' : Context}
  {known : Facts .var Domain} {q : ∀ σ, Sweep σ α} {f : ∀ σ, α → Sweep σ β}

theorem run_attempt {σ : Type} {b : Attempt α} {t : σ} {s : Session} {r : Except ExprError α}
    {ctx' : Context} (hrun : b.run.run s.ctx = (r, ctx')) :
    ((liftM b : Sweep σ α).run.run t).run s =
      ((r.mapError InferError.expr, t), ⟨ctx', s.analyzer⟩) := by
  have hlift : (liftM b : Sweep σ α) = (liftM (b.run : Build _) : Sweep σ _) >>= fun r =>
      liftM (r.mapError InferError.expr) := by
    refine bind_congr fun r => ?_
    cases r <;> rfl
  rw [hlift]
  change ((liftM ((b.run.run s.ctx).1.mapError InferError.expr) : Sweep σ α).run.run t).run
    ⟨(b.run.run s.ctx).2, s.analyzer⟩ = _
  rw [hrun]
  cases r <;> rfl

/-! ## How questions end -/

/-- Over any table and with any truthful analyzer that knows these domains, the sweep ends with `r`
in `ctx'`, and leaves the table and the known domains alone. -/
def Ends (q : ∀ σ, Sweep σ α) (ctx : Context) (known : Facts .var Domain)
    (r : Except InferError α) (ctx' : Context) : Prop :=
  ∀ (σ : Type) (t : σ) (an : Analyzer), an.bindings = known → Truthful ⟨ctx, an⟩ →
    ∃ an', ((q σ).run.run t).run ⟨ctx, an⟩ = ((r, t), ⟨ctx', an'⟩) ∧ an'.bindings = known ∧
      Truthful ⟨ctx', an'⟩

theorem Ends.bind {x : α} {r : Except InferError β} (hq : Ends q ctx known (.ok x) ctx')
    (hf : Ends (f · x) ctx' known r ctx'') : Ends (fun σ => q σ >>= f σ) ctx known r ctx'' := by
  intro σ t an hknown htrue
  obtain ⟨an₁, hrun, hknown₁, htrue₁⟩ := hq σ t an hknown htrue
  simp only [ExceptT.run_bind, StateT.run_bind, hrun]
  exact hf σ t an₁ hknown₁ htrue₁

theorem Ends.bind_error {e : InferError} (hq : Ends q ctx known (.error e) ctx') :
    Ends (fun σ => q σ >>= f σ) ctx known (.error e) ctx' := by
  intro σ t an hknown htrue
  obtain ⟨an₁, hrun, hknown₁, htrue₁⟩ := hq σ t an hknown htrue
  simp only [ExceptT.run_bind, StateT.run_bind, hrun]
  exact ⟨an₁, rfl, hknown₁, htrue₁⟩

/-- The question ends in one way, whatever is known of the variables of `V`, and later it ends so
again and stores nothing.  If it has an answer then this satisfies `Q` with the context. -/
def Asks (V : Set VarId) (q : ∀ σ, Sweep σ α) (ctx : Context) (known : Facts .var Domain)
    (Q : α → Context → Prop) : Prop :=
  ∃ r ctx', ctx.Grows ctx' ∧ (∀ x, r = .ok x → Q x ctx') ∧
    (∀ known', known.AgreesOff V known' → ctx.Supports known' → Ends q ctx known' r ctx') ∧
    ∀ ctx'' known', ctx'.Grows ctx'' → known.AgreesOff V known' → ctx''.Supports known' →
      ∃ r', SameOutcome InferError.SameKind r r' ∧ Ends q ctx'' known' r' ctx''

namespace Asks

variable {Q : α → Context → Prop} {S : β → Context → Prop}

theorem pure {x : α} (hx : Q x ctx) : Asks V (fun _ => pure x) ctx known Q := by
  have hends : ∀ ctx known, Ends (fun _ => Pure.pure x) ctx known (.ok x) ctx :=
    fun ctx known σ t an hknown htrue => ⟨an, rfl, hknown, htrue⟩
  refine ⟨.ok x, ctx, .refl ctx, ?_, fun known' _ _ => hends ctx known',
    fun ctx'' known' _ _ _ => ⟨.ok x, .ok x, hends ctx'' known'⟩⟩
  rintro _ ⟨⟩
  exact hx

theorem bind (hq : Asks V q ctx known Q)
    (hf : ∀ x ctx', ctx.Grows ctx' → Q x ctx' → Asks V (f · x) ctx' known S) :
    Asks V (fun σ => q σ >>= f σ) ctx known S := by
  obtain ⟨r₁, ctx₁, hg₁, hx, hbeside₁, hafter₁⟩ := hq
  cases r₁ with
  | error e =>
      refine ⟨.error e, ctx₁, hg₁, nofun, fun known' hagrees hsupports => ?_,
        fun ctx'' known' hg hagrees hsupports => ?_⟩
      · exact (hbeside₁ known' hagrees hsupports).bind_error
      · obtain ⟨r', hsame, hends⟩ := hafter₁ ctx'' known' hg hagrees hsupports
        cases hsame with
        | error hkind => exact ⟨_, .error hkind, hends.bind_error⟩
  | ok x =>
      obtain ⟨r₂, ctx₂, hg₂, hy, hbeside₂, hafter₂⟩ := hf x ctx₁ hg₁ (hx x rfl)
      refine ⟨r₂, ctx₂, hg₁.trans hg₂, hy, fun known' hagrees hsupports => ?_,
        fun ctx'' known' hg hagrees hsupports => ?_⟩
      · exact (hbeside₁ known' hagrees hsupports).bind
          (hbeside₂ known' hagrees (hsupports.grow hg₁))
      · obtain ⟨r', hsame, hends⟩ := hafter₁ ctx'' known' (hg₂.trans hg) hagrees hsupports
        cases hsame
        obtain ⟨r'', hsame', hends'⟩ := hafter₂ ctx'' known' hg hagrees hsupports
        exact ⟨r'', hsame', hends.bind hends'⟩

theorem ofQuery {b : Query α} (hb : b.Repeats V ctx known Q) :
    Asks V (fun _ => liftM b) ctx known Q := by
  have hlift : ∀ {ctx known x ctx'}, Query.Gives b ctx known x ctx' →
      Ends (fun _ => liftM b) ctx known (.ok x) ctx' := by
    intro ctx known x ctx' hgives σ t an hknown htrue
    obtain ⟨an', hrun, hknown', htrue'⟩ := hgives an hknown htrue
    refine ⟨an', ?_, hknown', htrue'⟩
    change ((Except.ok (b.run ⟨ctx, an⟩).1, t), (b.run ⟨ctx, an⟩).2) = _
    rw [hrun]
  obtain ⟨x, ctx', hg, hbeside, hafter, hx⟩ := hb
  refine ⟨.ok x, ctx', hg, ?_, fun known' hagrees hsupports => ?_,
    fun ctx'' known' hg' hagrees hsupports => ?_⟩
  · rintro _ ⟨⟩
    exact hx
  · exact hlift (hbeside known' hagrees hsupports)
  · exact ⟨.ok x, .ok x, hlift (hafter ctx'' known' hg' hagrees hsupports)⟩

theorem ofBuild {b : Build α} (hb : b.Repeats ctx Q) : Asks V (fun _ => liftM b) ctx known Q :=
  ofQuery (Query.repeats_lift hb)

theorem ofAttempt {b : Attempt α} (hb : b.Repeats ctx Q) :
    Asks V (fun _ => liftM b) ctx known Q := by
  have hlift : ∀ {ctx known r ctx'}, ctx.Grows ctx' → b.run.run ctx = (r, ctx') →
      Ends (fun _ => liftM b) ctx known (r.mapError .expr) ctx' :=
    fun hg hrun σ t an hknown htrue => ⟨an, run_attempt hrun, hknown, htrue.grow hg⟩
  rcases hrun : b.run.run ctx with ⟨r, ctx'⟩
  obtain ⟨hg, hagain, hx⟩ := hb r ctx' hrun
  refine ⟨r.mapError .expr, ctx', hg, fun x hok => ?_, fun _ _ _ => hlift hg hrun,
    fun ctx'' known' hg' _ _ => ?_⟩
  · cases r with
    | error e => cases hok
    | ok y =>
        cases hok
        exact hx _ rfl
  · obtain ⟨r', hrun', hsame⟩ := hagain ctx'' hg'
    exact ⟨_, hsame.mapError, hlift (.refl ctx'') hrun'⟩

/-- What is read from the context has to stay. -/
theorem context {f : ∀ σ, Context → Sweep σ β} (h : Asks V (f · ctx) ctx known S)
    (hf : ∀ σ ctx', ctx.Grows ctx' → f σ ctx' = f σ ctx) :
    Asks V (fun σ => (liftM Query.context : Sweep σ Context) >>= f σ) ctx known S := by
  obtain ⟨r, ctx', hg, hx, hbeside, hafter⟩ := h
  refine ⟨r, ctx', hg, hx, hbeside, fun ctx'' known' hg' hagrees hsupports => ?_⟩
  obtain ⟨r', hsame, hends⟩ := hafter ctx'' known' hg' hagrees hsupports
  refine ⟨r', hsame, fun σ t an hknown htrue => ?_⟩
  change ∃ an', ((f σ ctx'').run.run t).run ⟨ctx'', an⟩ = _ ∧ _
  rw [hf σ ctx'' (hg.trans hg')]
  exact hends σ t an hknown htrue

end Asks

/-! ## Questions about domains -/

section Questions

variable {a b : ExprId} {d existing : Domain}

theorem agrees_asks (h : ctx.Apart V D known)
    (hexisting : ctx.OverDomain (.limited (· ∉ V) D) existing)
    (hd : ctx.OverDomain (.limited (· ∉ V) D) d) :
    Asks V (fun _ => agrees existing d) ctx known fun _ _ => True := by
  unfold agrees
  by_cases hself : existing = d
  · simp only [hself, if_true]
    exact .pure trivial
  simp only [hself, if_false]
  apply (Asks.ofBuild (Build.arith_repeats .sub hd.2 hexisting.2)).bind
  intro diff ctx₁ hg₁ hdiff
  apply (Asks.ofAttempt (Inlining.inline_repeats (h.grow hg₁).calls hdiff)).bind
  intro inlined ctx₂ hg₂ hinlined
  apply (Asks.ofBuild (Build.constantLike_repeats (.limited (· ∉ V) D) 0 hinlined.stored)).bind
  intro zero ctx₃ hg₃ hzero
  apply (Asks.ofBuild (Build.compare_repeats .eq (hinlined.mono hg₃.le) hzero)).bind
  intro same ctx₄ hg₄ hsame
  have hg := hg₁.trans (hg₂.trans (hg₃.trans hg₄))
  have hmin := hexisting.1.stored.mono hg.le
  refine Asks.context ?_ fun σ ctx' hg' => by rw [Context.isZero_eq hg'.le hmin]
  cases ctx₄.isZero existing.min with
  | true => exact .ofQuery (Query.proves_repeats (h.grow hg) hsame)
  | false => exact .pure trivial

theorem ceilDiv_asks (h : ctx.Apart V D known) (ha : ctx.Over (.limited (· ∉ V) D) a)
    (hb : ctx.Over (.limited (· ∉ V) D) b) :
    Asks V (fun _ => ceilDiv a b) ctx known fun r ctx' => ctx'.Over (.limited (· ∉ V) D) r := by
  unfold ceilDiv
  apply (Asks.ofAttempt (Attempt.divide_repeats .floorMod ha hb)).bind
  intro rest ctx₁ hg₁ hrest
  apply (Asks.ofBuild (Build.constantLike_repeats (.limited (· ∉ V) D) 0 hrest.stored)).bind
  intro zero ctx₂ hg₂ hzero
  apply (Asks.ofBuild (Build.compare_repeats .eq (hrest.mono hg₂.le) hzero)).bind
  intro divisible ctx₃ hg₃ hdivisible
  have hg₀ := hg₁.trans (hg₂.trans hg₃)
  apply (Asks.ofQuery (Query.proves_repeats (h.grow hg₀) hdivisible)).bind
  intro answer ctx₄ hg₄ _
  have hg := hg₀.trans hg₄
  have ha := ha.mono hg.le
  have hb := hb.mono hg.le
  have hsimplify : ∀ quotient ctx', ctx₄.Grows ctx' → ctx'.Over (.limited (· ∉ V) D) quotient →
      Asks V (fun _ => liftM (Query.simplify quotient)) ctx' known fun r ctx' =>
        ctx'.Over (.limited (· ∉ V) D) r :=
    fun quotient ctx' hg' hquotient =>
      .ofQuery (Query.simplify_repeats (h.grow (hg.trans hg')) hquotient)
  cases answer with
  | true => exact (Asks.ofAttempt (Attempt.divide_repeats .floorDiv ha hb)).bind hsimplify
  | false =>
      apply (Asks.ofBuild (Build.arith_repeats .add ha hb)).bind
      intro sum ctx₅ hg₅ hsum
      apply (Asks.ofBuild (Build.addConst_repeats (-1) hsum)).bind
      intro bumped ctx₆ hg₆ hbumped
      have hg' := hg₅.trans hg₆
      apply (Asks.ofAttempt (Attempt.divide_repeats .floorDiv hbumped (hb.mono hg'.le))).bind
      exact fun quotient ctx₇ hg₇ => hsimplify quotient ctx₇ (hg'.trans hg₇)

end Questions

end Sweep

end LoopBounds
