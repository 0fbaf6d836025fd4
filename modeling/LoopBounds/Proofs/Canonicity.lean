import LoopBounds.Proofs.LinearForms
import LoopBounds.Proofs.Termination
import LoopBounds.Proofs.Types

/-!
# Simplification is canonical on linear expressions

A linear expression simplifies to what its form is written as.  The forms of its operands are read
back from what these simplify to, so the induction over expressions carries that every answer, and
every answer that is remembered, is written so.  Linear expressions of one type then simplify to
the same expression exactly if they have the same polynomial.  Their difference simplifies to zero
exactly then, also where its form overflows: it stays an operator, which folds to zero only over
equal operands.
-/

namespace LoopBounds

/-! ## Differences -/

/-- What a difference folds to. -/
theorem Arith.fold_sub (x? y? : Option Int64) (same : Bool) :
    (∃ x y v, x? = some x ∧ y? = some y ∧ Word.sub x y = some v ∧
      Arith.sub.fold x? y? same = .literal v) ∨
    (y? = some 0 ∧ Arith.sub.fold x? y? same = .lhs) ∨
    (same = true ∧ Arith.sub.fold x? y? same = .literal 0) ∨
    (same = false ∧ (∀ x, x? = some x → y? ≠ some x) ∧ Arith.sub.fold x? y? same = .node) := by
  have hunit : (y? = some 0 ∧ Arith.sub.foldUnit x? y? same = .lhs) ∨
      (same = true ∧ Arith.sub.foldUnit x? y? same = .literal 0) ∨
      (same = false ∧ Arith.sub.foldUnit x? y? same = .node) := by
    rw [foldUnit]
    split
    · next hy => exact .inl ⟨hy, rfl⟩
    · cases same
      · exact .inr (.inr ⟨rfl, rfl⟩)
      · exact .inr (.inl ⟨rfl, rfl⟩)
  by_cases hdiff : ∃ x y v, x? = some x ∧ y? = some y ∧ Word.sub x y = some v
  · obtain ⟨x, y, v, rfl, rfl, hv⟩ := hdiff
    exact .inl ⟨x, y, v, rfl, rfl, hv, by simp [fold, apply, hv]⟩
  · have hfold : Arith.sub.fold x? y? same = Arith.sub.foldUnit x? y? same := by
      cases x? with
      | none => rfl
      | some x =>
          cases y? with
          | none => rfl
          | some y =>
              cases hv : Word.sub x y with
              | some v => exact absurd ⟨x, y, v, rfl, rfl, hv⟩ hdiff
              | none => simp [fold, apply, hv]
    rw [hfold]
    have hdistinct : ∀ x, x? = some x → y? ≠ some x := by
      rintro x rfl rfl
      exact hdiff ⟨x, x, 0, rfl, rfl, by rw [Word.sub, sub_self]; decide⟩
    exact .inr (hunit.imp_right (.imp_right fun h => ⟨h.1, hdistinct, h.2⟩))

namespace Build

variable {ctx : Context} {a b : ExprId}

/-- What a difference is built as: the value of literals, its first operand if nothing is
subtracted, zero if the operands are the same, or else an operator. -/
theorem sub_cases (ha : ctx.Stored a) (hb : ctx.Stored b) :
    Ensures (sub a b) ctx fun r ctx' => ctx'.Stored r ∧
      ((∃ x y v, ctx.literal? a = some x ∧ ctx.literal? b = some y ∧ Word.sub x y = some v ∧
        ctx'.literal? r = some v) ∨
      (ctx.literal? b = some 0 ∧ r = a) ∨
      (a = b ∧ ctx'.literal? r = some 0) ∨
      (a ≠ b ∧ (∀ x, ctx.literal? a = some x → ctx.literal? b ≠ some x) ∧
        ctx'.node r = .arith .sub a b)) := by
  rcases Arith.fold_sub (ctx.literal? a) (ctx.literal? b) (a == b) with
    ⟨x, y, v, hx, hy, hv, hfold⟩ | ⟨hy, hfold⟩ | ⟨hsame, hfold⟩ | ⟨hsame, hne, hfold⟩
  · refine Ensures.get (Ensures.get ?_)
    rw [hfold]
    exact (Affine.constant_reads ctx v _).mono fun r _ _ h => ⟨h.1, .inl ⟨x, y, v, hx, hy, hv, h.2⟩⟩
  · refine Ensures.get (Ensures.get ?_)
    rw [hfold]
    exact .pure ⟨ha, .inr (.inl ⟨hy, rfl⟩)⟩
  · refine Ensures.get (Ensures.get ?_)
    rw [hfold]
    exact (Affine.constant_reads ctx 0 _).mono fun r _ _ h =>
      ⟨h.1, .inr (.inr (.inl ⟨eq_of_beq hsame, h.2⟩))⟩
  · exact (arith_node ha hb hfold).mono fun r _ _ h =>
      ⟨h.1, .inr (.inr (.inr ⟨ne_of_beq_false hsame, hne, h.2⟩))⟩

/-- The difference of two forms that are written, where it stays an operator, is zero exactly if
the forms are the same. -/
theorem sub_eq_zero_iff {f g : Affine} {t u : Scalar} (ha : Affine.Writes ctx f t a)
    (hb : Affine.Writes ctx g u b) (hf : Affine.Normal (Affine.Atomic ctx) f.terms)
    (hg : Affine.Normal (Affine.Atomic ctx) g.terms) :
    Ensures (sub a b) ctx fun r ctx' => ctx'.literal? r = some 0 ↔ f = g := by
  obtain ⟨has, hfa⟩ := ha.reads hf
  obtain ⟨hbs, hgb⟩ := hb.reads hg
  refine (sub_cases has hbs).mono fun r ctx' hgrow ⟨_, hcases⟩ => ?_
  rw [ha.literal? hf, hb.literal? hg] at hcases
  rcases hcases with ⟨x, y, v, hx, hy, hv, hr⟩ | ⟨hy, rfl⟩ | ⟨rfl, hr⟩ | ⟨hne, hdistinct, hn⟩
  · rw [Affine.const?_eq_some_iff] at hx hy
    have hvalue := Word.toInt_of_checked hv
    rw [hr, hx, hy, Option.some_inj, ← Word.toInt_eq_zero_iff, hvalue, Int.sub_eq_zero,
      Int64.toInt_inj]
    simp [Affine.ofConst]
  · rw [Affine.const?_eq_some_iff] at hy
    rw [hgrow.appends.literal?_eq has, ha.literal? hf, Affine.const?_eq_some_iff, hy]
  · exact iff_of_true hr (hfa.symm.trans hgb)
  · have hnone : ctx'.literal? r = none := by rw [Context.literal?, hn]
    refine iff_of_false (by rw [hnone]; exact (Option.some_ne_none _).symm) ?_
    rintro rfl
    cases hterms : f.terms with
    | nil =>
        have hconst : f.const? = some f.const := by rw [Affine.const?, hterms]; rfl
        exact hdistinct _ hconst hconst
    | cons =>
        have hterms' : f.terms ≠ [] := by rw [hterms]; exact List.cons_ne_nil _ _
        exact hne (((ha.retype hf hterms' u).eq_iff hb hf hf).2 rfl)

end Build

/-! ## Canonical answers -/

namespace Context

/-- A literal has the type that it is written with. -/
def Typed (ctx : Context) (e : ExprId) : Prop := ∀ w t, ctx.node e = .const w t → ctx.typeOf e = t

/-- As far as `e` is linear, `r` is what its form is written as, and as far as `e` is a difference
of linear expressions, `r` is zero exactly if their forms are the same. -/
structure Canonical (ctx : Context) (e r : ExprId) : Prop where
  stored : ctx.Stored e
  result : ctx.Stored r
  written : ∀ f, ctx.Linear e f →
    ∃ type, Affine.Writes ctx f type r ∧ (ctx.Typed e → type = ctx.typeOf e)
  difference : ∀ a b f g, ctx.node e = .arith .sub a b → ctx.Linear a f → ctx.Linear b g →
    (ctx.literal? r = some 0 ↔ f = g)

variable {ctx ctx' : Context} {e r : ExprId} {f : Affine}

theorem Appends.typed_iff (h : ctx.Appends ctx') (he : ctx.Stored e) :
    ctx'.Typed e ↔ ctx.Typed e := by
  rw [Typed, Typed, h.node_eq he, h.typeOf_eq he]

theorem Canonical.mono (hctx : ctx.Appends ctx') (h : ctx.Canonical e r) : ctx'.Canonical e r := by
  refine ⟨hctx.stored h.stored, hctx.stored h.result, fun f hf => ?_, fun a b f g hn ha hb => ?_⟩
  · have hf := (hctx.linear_iff h.stored).1 hf
    obtain ⟨type, hwrites, htype⟩ := h.written f hf
    refine ⟨type, hwrites.mono hf.atomic hctx, fun htyped => ?_⟩
    rw [hctx.typeOf_eq h.stored]
    exact htype ((hctx.typed_iff h.stored).1 htyped)
  · rw [hctx.node_eq h.stored] at hn
    have has := h.stored.child (c := a) (by simp [hn, Node.children])
    have hbs := h.stored.child (c := b) (by simp [hn, Node.children])
    rw [hctx.literal?_eq h.result]
    exact h.difference a b f g hn ((hctx.linear_iff has).1 ha) ((hctx.linear_iff hbs).1 hb)

/-- The form is read back from the answer. -/
theorem Canonical.reads (h : ctx.Canonical e r) (hf : ctx.Linear e f) :
    Affine.ofExpr ctx r = f := by
  obtain ⟨type, hwrites, -⟩ := h.written f hf
  exact (hwrites.reads hf.atomic).2

/-- Exactly the linear expressions of constant value become literals. -/
theorem Canonical.literal? (h : ctx.Canonical e r) (hf : ctx.Linear e f) :
    ctx.literal? r = f.const? := by
  obtain ⟨type, hwrites, -⟩ := h.written f hf
  exact hwrites.literal? hf.atomic

end Context

/-! ## Simplification -/

/-- What an analyzer remembers as a simplification is canonical. -/
structure Session.Canonical (s : Session) : Prop where
  light : s.Light
  simplified : ∀ e r, s.analyzer.simplified? e = some r → s.ctx.Canonical e r

theorem Session.Canonical.mono {s s' : Session} (h : s.Canonical) (hctx : s.ctx.Appends s'.ctx)
    (hsame : ∀ e, s'.analyzer.simplified? e = s.analyzer.simplified? e) : s'.Canonical :=
  ⟨h.light.mono hctx hsame, fun e r hr => (h.simplified e r (hsame e ▸ hr)).mono hctx⟩

theorem Session.canonical_of_forgotten {ctx : Context} {an : Analyzer} (h : an.simplified = {}) :
    Canonical ⟨ctx, an⟩ := by
  refine ⟨light_of_forgotten h, fun e r hr => ?_⟩
  simp [Analyzer.simplified?, h] at hr

namespace Query

variable {s : Session} {ctx : Context} {a b e r : ExprId} {operands : List ExprId} {f g : Affine}

/-- The forms of linear operands are read back from what these became. -/
theorem operands_read {op : Arith} (hn : ctx.node e = .arith op a b)
    (hoperands : List.Forall₂ s.ctx.Canonical (ctx.node e).children operands)
    (hctx : ctx.Appends s.ctx) (he : ctx.Stored e) :
    ∃ x y, operands = [x, y] ∧ (∀ f, ctx.Linear a f → Affine.ofExpr s.ctx x = f) ∧
      ∀ g, ctx.Linear b g → Affine.ofExpr s.ctx y = g := by
  have ha : ctx.Stored a := he.child (by simp [hn, Node.children])
  have hb : ctx.Stored b := he.child (by simp [hn, Node.children])
  rw [hn] at hoperands
  obtain _ | @⟨_, x, _, _, hx, _ | @⟨_, y, _, _, hy, _ | _⟩⟩ := hoperands
  exact ⟨x, y, rfl, fun _ hf => hx.reads ((hctx.linear_iff ha).2 hf),
    fun _ hg => hy.reads ((hctx.linear_iff hb).2 hg)⟩

/-- Over canonical operands, a linear expression becomes what its form is written as. -/
theorem simplifyNode_written
    (hoperands : List.Forall₂ s.ctx.Canonical (ctx.node e).children operands)
    (hctx : ctx.Appends s.ctx) (he : ctx.Stored e) (hf : ctx.Linear e f) :
    Leads (simplifyNode ctx e operands) s fun r s' => s.ctx.Appends s'.ctx ∧
      ∃ type, Affine.Writes s'.ctx f type r ∧ (ctx.Typed e → type = ctx.typeOf e) := by
  have hatomic := ((hctx.linear_iff he).2 hf).atomic
  have hform : ∀ {op a b form?}, form? = some f → Leads (affineOr form? (ctx.typeOf e) op a b) s
      fun r s' => s.ctx.Appends s'.ctx ∧
        ∃ type, Affine.Writes s'.ctx f type r ∧ (ctx.Typed e → type = ctx.typeOf e) := by
    rintro op a b _ rfl
    exact (Leads.ofBuild (Affine.toExpr_writes hatomic _)).mono fun r s' ⟨_, hg, h⟩ =>
      ⟨hg.appends, _, h, fun _ => rfl⟩
  unfold simplifyNode
  cases hf with
  | @const _ w t hn =>
      rw [hn]
      exact .pure ⟨.refl _, t, Affine.writes_literal (hctx.stored he) ((hctx.node_eq he).trans hn),
        fun htyped => (htyped w t hn).symm⟩
  | var hn =>
      rw [hn]
      exact .pure ⟨.refl _, _, Affine.writes_atom s.ctx e _, fun _ => rfl⟩
  | add hn ha hb hh =>
      obtain ⟨x, y, rfl, hx, hy⟩ := operands_read hn hoperands hctx he
      rw [hn]
      refine Leads.context ?_
      rw [hx _ ha, hy _ hb]
      exact hform hh
  | sub hn ha hb hh =>
      obtain ⟨x, y, rfl, hx, hy⟩ := operands_read hn hoperands hctx he
      rw [hn]
      refine Leads.context ?_
      rw [hx _ ha, hy _ hb]
      exact hform hh
  | @mulLiteral _ a b f₁ c _ hn ha hc hh =>
      obtain ⟨x, y, rfl, hx, hy⟩ := operands_read hn hoperands hctx he
      rw [hn]
      refine Leads.context ?_
      dsimp only
      rw [hx _ ha, hy _ (Context.linear_literal hc)]
      cases f₁.const? <;> exact hform hh
  | @literalMul _ a b g₁ c _ hn hc hb hh =>
      obtain ⟨x, y, rfl, hx, hy⟩ := operands_read hn hoperands hctx he
      rw [hn]
      refine Leads.context ?_
      dsimp only
      rw [hx _ (Context.linear_literal hc), hy _ hb]
      cases hd : g₁.const? with
      | none => exact hform hh
      | some d =>
          -- of two constants the second scales the first
          rw [Affine.const?_eq_some_iff.1 hd, Affine.ofConst_scale_comm] at hh
          exact hform hh

theorem simplifyNode_difference
    (hoperands : List.Forall₂ s.ctx.Canonical (ctx.node e).children operands)
    (hctx : ctx.Appends s.ctx) (he : ctx.Stored e) (hn : ctx.node e = .arith .sub a b)
    (ha : ctx.Linear a f) (hb : ctx.Linear b g) :
    Leads (simplifyNode ctx e operands) s fun r s' => s'.ctx.literal? r = some 0 ↔ f = g := by
  cases hsub : f.sub g with
  | some h =>
      have hlinear := Context.Linear.sub hn ha hb hsub
      refine (simplifyNode_written hoperands hctx he hlinear).mono fun r s' ⟨h', type, hr, _⟩ => ?_
      rw [hr.literal? (((hctx.trans h').linear_iff he).2 hlinear).atomic, Affine.const?_eq_some_iff]
      exact Context.Linear.sub_eq_zero_iff hn ha hb hsub
  | none =>
      have ha := (hctx.linear_iff (he.child (by simp [hn, Node.children]))).2 ha
      have hb := (hctx.linear_iff (he.child (by simp [hn, Node.children]))).2 hb
      unfold simplifyNode
      rw [hn] at hoperands ⊢
      obtain _ | ⟨hx, _ | ⟨hy, _ | _⟩⟩ := hoperands
      refine Leads.context ?_
      rw [hx.reads ha, hy.reads hb, hsub]
      obtain ⟨t, hwx, -⟩ := hx.written f ha
      obtain ⟨u, hwy, -⟩ := hy.written g hb
      exact (Leads.ofBuild (Build.sub_eq_zero_iff hwx hwy ha.atomic hb.atomic)).mono
        fun _ _ h => h.2.2

theorem recordSimplified_canonical (hs : s.Canonical) (hlight : s.ctx.AtMost r (s.ctx.weight · e))
    (hr : s.ctx.Canonical e r) :
    Leads (recordSimplified e r) s fun _ s' => s'.Canonical ∧ s'.ctx = s.ctx := by
  refine ⟨⟨(recordSimplified_keeps hs.light hr.stored hlight).light, fun e' r' hr' => ?_⟩, rfl⟩
  rcases Analyzer.simplified?_insert hr' with ⟨rfl, rfl⟩ | hr'
  exacts [hr, hs.simplified e' r' hr']

/-- Over canonical operands, what an expression becomes is canonical and is remembered. -/
theorem simplifyOver_canonical (hs : s.Canonical)
    (hlight : List.Forall₂ (fun c r => s.ctx.AtMost r (ctx.weight · c)) (ctx.node e).children
      operands)
    (hoperands : List.Forall₂ s.ctx.Canonical (ctx.node e).children operands)
    (hctx : ctx.Appends s.ctx) (he : ctx.Stored e) :
    Leads (simplifyOver ctx e operands) s fun r s' =>
      s'.Canonical ∧ s.ctx.Appends s'.ctx ∧ s'.ctx.Canonical e r := by
  obtain ⟨h₁, hr⟩ := simplifyNode_lightens hlight hctx he
  have hctx₁ := hctx.trans h₁
  have hcanonical : Leads (simplifyNode ctx e operands) s fun r s' => s'.ctx.Canonical e r := by
    refine ⟨hctx₁.stored he, hr.stored, fun f hf => ?_, fun a b f g hn ha hb => ?_⟩
    · obtain ⟨-, type, hwrites, htype⟩ :=
        simplifyNode_written hoperands hctx he ((hctx₁.linear_iff he).1 hf)
      refine ⟨type, hwrites, fun htyped => ?_⟩
      rw [hctx₁.typeOf_eq he]
      exact htype ((hctx₁.typed_iff he).1 htyped)
    · rw [hctx₁.node_eq he] at hn
      exact simplifyNode_difference hoperands hctx he hn
        ((hctx₁.linear_iff (he.child (by simp [hn, Node.children]))).1 ha)
        ((hctx₁.linear_iff (he.child (by simp [hn, Node.children]))).1 hb)
  refine Leads.bind (Q := fun r s' => s'.Canonical ∧ s.ctx.Appends s'.ctx ∧
    s'.ctx.AtMost r (s'.ctx.weight · e) ∧ s'.ctx.Canonical e r)
    ⟨hs.mono h₁ (quiet_simplifyNode ctx e operands s).1, h₁,
      hr.mono (.refl _) fun j => (hctx₁.weight_eq he).ge, hcanonical⟩ ?_
  rintro r s₁ ⟨hs₁, h₁, hlight₁, hr⟩
  refine (recordSimplified_canonical hs₁ hlight₁ hr).bind ?_
  rintro _ s₂ ⟨hs₂, hsame⟩
  exact .pure ⟨hs₂, hsame ▸ h₁, hsame ▸ hr⟩

end Query

/-- Every answer of a simplification is canonical. -/
theorem SimplifyRun.canonical {s s' : Session} {es rs : List ExprId} (h : SimplifyRun s es rs s')
    (hs : s.Canonical) (hes : ∀ e ∈ es, s.ctx.Stored e) :
    s'.Canonical ∧ s.ctx.Appends s'.ctx ∧ List.Forall₂ s'.ctx.Canonical es rs := by
  induction h with
  | nil => exact ⟨hs, .refl _, .nil⟩
  | known hr _ ih =>
      rw [List.forall_mem_cons] at hes
      obtain ⟨hs', h', hrs⟩ := ih hs hes.2
      exact ⟨hs', h', .cons ((hs.simplified _ _ hr).mono h') hrs⟩
  | @anew s e operands s₁ r s₂ es rs s' _ hoperands hr _ ihoperands ih =>
      rw [List.forall_mem_cons] at hes
      have hchildren : ∀ c ∈ (s.ctx.node e).children, s.ctx.Stored c := fun c => hes.1.child
      obtain ⟨hs₁, h₁, hcanonical⟩ := ihoperands hs hchildren
      have hlight := (Query.simplifyAll_keeps hs.light hchildren fun c _ s' =>
        Query.simplify_keeps c s').post
      rw [Query.run_of_simplifyRun hoperands] at hlight
      have hover := Query.simplifyOver_canonical hs₁ hlight hcanonical h₁ hes.1
      rw [Query.Leads, hr] at hover
      obtain ⟨hs₂, h₂, hresult⟩ := hover
      obtain ⟨hs', h', hrs⟩ := ih hs₂ fun c hc => (h₁.trans h₂).stored (hes.2 c hc)
      exact ⟨hs', (h₁.trans h₂).trans h', .cons (hresult.mono h') hrs⟩

namespace Query

variable {s : Session} {a b e : ExprId} {answer : Bool}

theorem simplify_canonical (hs : s.Canonical) (he : s.ctx.Stored e) :
    Leads (simplify e) s fun r s' =>
      s'.Canonical ∧ s.ctx.Appends s'.ctx ∧ s'.ctx.Canonical e r := by
  obtain ⟨hs', h', hr⟩ := (simplifyRun e s).canonical hs fun c hc => List.mem_singleton.1 hc ▸ he
  exact ⟨hs', h', (List.forall₂_cons.1 hr).1⟩

theorem recordProved_canonical (hs : s.Canonical) (e : ExprId) (answer : Bool) :
    ((recordProved e answer).run s).2.Canonical := by
  obtain ⟨ctx, an⟩ := s
  refine hs.mono (.refl ctx) fun e' => ?_
  change Analyzer.simplified? (if an.memoize then _ else an) e' = _
  split <;> rfl

end Query

theorem ProofRun.canonical {s s' : Session} {e : ExprId} {answer : Bool}
    (h : ProofRun s e answer s') (hs : s.Canonical) (he : s.ctx.Stored e) :
    s'.Canonical ∧ s.ctx.Appends s'.ctx := by
  have hsimplified : ∀ {s e r s₁}, SimplifyRun s [e] [r] s₁ → s.Canonical → s.ctx.Stored e →
      s₁.Canonical ∧ s.ctx.Appends s₁.ctx ∧ s₁.ctx.Stored r := by
    intro s e r s₁ hr hs he
    obtain ⟨hs₁, h₁, hresult⟩ := hr.canonical hs fun c hc => List.mem_singleton.1 hc ▸ he
    exact ⟨hs₁, h₁, (List.forall₂_cons.1 hresult).1.result⟩
  induction h with
  | known => exact ⟨hs, .refl _⟩
  | plain _ hr _ =>
      obtain ⟨hs₁, h₁, -⟩ := hsimplified hr hs he
      exact ⟨Query.recordProved_canonical hs₁ _ _, h₁⟩
  | first _ hr hn _ iha =>
      obtain ⟨hs₁, h₁, hresult⟩ := hsimplified hr hs he
      obtain ⟨hs₂, h₂⟩ := iha hs₁ (hresult.child (by simp [hn, Node.children]))
      exact ⟨Query.recordProved_canonical hs₂ _ _, h₁.trans h₂⟩
  | both _ hr hn _ _ iha ihb =>
      obtain ⟨hs₁, h₁, hresult⟩ := hsimplified hr hs he
      obtain ⟨hs₂, h₂⟩ := iha hs₁ (hresult.child (by simp [hn, Node.children]))
      obtain ⟨hs₃, h₃⟩ := ihb hs₂ (h₂.stored (hresult.child (by simp [hn, Node.children])))
      exact ⟨Query.recordProved_canonical hs₃ _ _, (h₁.trans h₂).trans h₃⟩

namespace Query

variable {s : Session} {a b : ExprId}

/-- Linear expressions are shown to be equal exactly if they have the same form. -/
theorem provesEqual_canonical (hs : s.Canonical) (ha : s.ctx.Stored a) (hb : s.ctx.Stored b) :
    Leads (provesEqual a b) s fun answer s' => s'.Canonical ∧ s.ctx.Appends s'.ctx ∧
      ∀ f g, s.ctx.Linear a f → s.ctx.Linear b g → (answer = true ↔ f = g) := by
  unfold provesEqual
  split
  · next hab =>
    subst hab
    exact .pure ⟨hs, .refl _, fun f g hf hg => iff_of_true rfl (hf.unique hg)⟩
  next hne =>
  refine .build (Build.sub_cases ha hb) fun d ctx hg ⟨hd, hcases⟩ => ?_
  have hs₁ : Session.Canonical ⟨ctx, s.analyzer⟩ := hs.mono hg.appends fun _ => rfl
  refine (simplify_canonical hs₁ hd).bind fun r s₂ ⟨hs₂, h₂, hr⟩ => ?_
  have hctx : s.ctx.Appends s₂.ctx := hg.appends.trans h₂
  refine .context (.pure ⟨hs₂, hctx, fun f g hf hg' => ?_⟩)
  rw [Context.isZero, decide_eq_true_eq]
  rcases hcases with ⟨x, y, v, hx, hy, hv, hlit⟩ | ⟨hy, rfl⟩ | ⟨hab, -⟩ | ⟨-, -, hn⟩
  · -- literals are subtracted
    have hlinear := Context.linear_literal ((h₂.literal?_eq hd).trans hlit)
    have hvalue := Word.toInt_of_checked hv
    rw [hr.literal? hlinear, Affine.const?_eq_some_iff, hf.unique (Context.linear_literal hx),
      hg'.unique (Context.linear_literal hy)]
    simp only [Affine.ofConst, Affine.mk.injEq, true_and]
    rw [← Word.toInt_eq_zero_iff, hvalue, Int.sub_eq_zero, Int64.toInt_inj]
  · -- zero is subtracted
    rw [hr.literal? ((hctx.linear_iff ha).2 hf), Affine.const?_eq_some_iff,
      hg'.unique (Context.linear_literal hy)]
  · exact absurd hab hne
  · rw [← h₂.node_eq hd] at hn
    exact hr.difference a b f g hn ((hctx.linear_iff ha).2 hf) ((hctx.linear_iff hb).2 hg')

end Query

/-! ## Literals -/

/-- In the contexts that programs lead to, literals have the types that they are written with. -/
theorem Reached.typed {ctx : Context} (h : Reached ctx) : ∀ e, ctx.Stored e → ctx.Typed e := by
  intro e he w t hn
  apply h.wellTyped e he
  rw [hn, Context.shapeType?]

/-! ## Sessions -/

namespace Session

theorem Arises.canonical {s : Session} (h : s.Arises) : s.Canonical := by
  induction h with
  | start ctx memoize => exact canonical_of_forgotten rfl
  | change _ hctx ih => exact ih.mono hctx fun _ => rfl
  | learn _ v d _ => exact canonical_of_forgotten rfl
  | bound _ e ih => exact ih.mono (Query.bound_appends e _) (Query.quiet_bound e _).1
  | simplify _ he ih => exact (Query.simplify_canonical ih he).1
  | proves h he ih =>
      exact (Query.proofRun h.light he (Nat.lt_succ_of_le (Context.nesting_le_index _ _))).canonical
        ih he |>.1
  | provesEqual _ ha hb ih => exact (Query.provesEqual_canonical ih ha hb).1

/-- A linear expression whose form does not overflow, simplified in one session, and another of the
same type, simplified in a later one, become the same expression exactly if they have the same
coefficients and the same constant.  Two such expressions of any types are shown to be equal exactly
if they have equal values wherever the variables have integers. -/
theorem Arises.linear_canonical {s : Session} (hs : s.Arises) {e : ExprId} {f : Affine}
    (he : s.ctx.Stored e) (hf : s.ctx.Linear e f) :
    (∀ (s' : Session) (e' : ExprId) (f' : Affine), s'.Arises →
      ((Query.simplify e).run s).2.ctx.Appends s'.ctx → s'.ctx.Stored e' → s'.ctx.Linear e' f' →
      s'.ctx.Typed e → s'.ctx.Typed e' → s'.ctx.typeOf e = s'.ctx.typeOf e' →
      (((Query.simplify e).run s).1 = ((Query.simplify e').run s').1 ↔
        (∀ v, (s'.ctx.linearPoly e).coeff v = (s'.ctx.linearPoly e').coeff v) ∧
          (s'.ctx.linearPoly e).const = (s'.ctx.linearPoly e').const)) ∧
    ∀ (e' : ExprId) (f' : Affine), s.ctx.Stored e' → s.ctx.Linear e' f' →
      (((Query.provesEqual e e').run s).1 = true ↔
        ∀ x, s.ctx.valueAt x e = s.ctx.valueAt x e') := by
  refine ⟨fun s' e' f' hs' hctx he' hf' ht ht' htype => ?_, fun e' f' he' hf' => ?_⟩
  · obtain ⟨-, h₁, hr⟩ := Query.simplify_canonical hs.canonical he
    obtain ⟨-, h₂, hr'⟩ := Query.simplify_canonical hs'.canonical he'
    have hlater := h₁.trans hctx
    have hfs' := (hlater.linear_iff he).2 hf
    have hfinal := (h₂.linear_iff (hlater.stored he)).2 hfs'
    have hfinal' := (h₂.linear_iff he').2 hf'
    obtain ⟨t, hwrites, htyped⟩ := (hr.mono (hctx.trans h₂)).written f hfinal
    obtain ⟨t', hwrites', htyped'⟩ := hr'.written f' hfinal'
    have hsame : t = t' := by
      rw [htyped ((h₂.typed_iff (hlater.stored he)).2 ht), htyped' ((h₂.typed_iff he').2 ht'),
        h₂.typeOf_eq (hlater.stored he), h₂.typeOf_eq he', htype]
    subst hsame
    rw [hwrites.eq_iff hwrites' hfinal.atomic hfinal'.atomic, hfs'.eq_iff_poly hf',
      LinearPoly.ext_iff, funext_iff]
  · obtain ⟨-, -, hanswer⟩ := Query.provesEqual_canonical hs.canonical he he'
    exact (hanswer f f' hf hf').trans (hf.eq_iff_values hf')

end Session

/-- The expressions `(x + 2) * 4 - y` and `4 * x + (8 - y)`. -/
def reordered : Build Unit := do
  let x ← Build.var (← declareVar "x" .int32)
  let y ← Build.var (← declareVar "y" .int32)
  let scaled ← Build.mulConst (← Build.addConst x 2) 4
  let _ ← Build.arith .sub scaled y
  let rest ← Build.arith .sub (← Build.constant 8 .int32) y
  let product ← Build.arith .mul (← Build.constant 4 .int32) x
  let _ ← Build.arith .add product rest

theorem reached_reordered : Reached (reordered.run {}).2 := by
  have hprogram : Program ∅ reordered :=
    .bind (.build (.declareVar "x" .int32)) fun v => .bind (.build (.var v)) fun _ =>
    .bind (.build (.declareVar "y" .int32)) fun w => .bind (.build (.var w)) fun _ =>
    .bind (.build (.addConst 2 (.inl (.inl (.inr rfl))))) fun _ =>
    .bind (.build (.mulConst 4 (.inr rfl))) fun _ =>
    .bind (.build (.arith .sub (.inr rfl) (.inl (.inl (.inr rfl))))) fun _ =>
    .bind (.build (.constant 8 .int32)) fun _ =>
    .bind (.build (.arith .sub (.inr rfl) (.inl (.inl (.inl (.inl (.inr rfl))))))) fun _ =>
    .bind (.build (.constant 4 .int32)) fun _ =>
    .bind (.build (.arith .mul (.inr rfl)
      (.inl (.inl (.inl (.inl (.inl (.inl (.inl (.inl (.inr rfl))))))))))) fun _ =>
    .bind (.build (.arith .add (.inr rfl) (.inl (.inl (.inr rfl))))) fun _ =>
    .pure (Set.empty_subset _)
  exact .step .empty (fun _ he => he.elim) hprogram

/-- Both are written as `x * 4 - y + 8`. -/
theorem Session.Arises.linear_canonical_reordered :
    let s : Session := ⟨(reordered.run {}).2, {}⟩
    let s' := ((Query.simplify ⟨6⟩).run s).2
    let f : Affine := ⟨[(⟨0⟩, 4), (⟨1⟩, -1)], 8⟩
    s.Arises ∧ s'.Arises ∧ s.ctx.Linear ⟨6⟩ f ∧ s'.ctx.Linear ⟨10⟩ f ∧
      s'.ctx.Typed ⟨6⟩ ∧ s'.ctx.Typed ⟨10⟩ ∧ s'.ctx.typeOf ⟨6⟩ = s'.ctx.typeOf ⟨10⟩ ∧
      ((Query.simplify ⟨6⟩).run s).1 = ⟨14⟩ ∧ ((Query.simplify ⟨10⟩).run s').1 = ⟨14⟩ ∧
      (∀ v, (s'.ctx.linearPoly ⟨6⟩).coeff v = (s'.ctx.linearPoly ⟨10⟩).coeff v) ∧
      ((Query.provesEqual ⟨6⟩ ⟨10⟩).run s).1 = true ∧
      ∀ x, s.ctx.valueAt x ⟨6⟩ = s.ctx.valueAt x ⟨10⟩ := by
  intro s s' f
  have hs : s.Arises := .start _ true
  have he : s.ctx.Stored ⟨6⟩ := by decide +kernel
  have he' : s.ctx.Stored ⟨10⟩ := by decide +kernel
  have hs' : s'.Arises := .simplify hs he
  have hctx : s.ctx.Appends s'.ctx := (Query.simplify_canonical hs.canonical he).2.1
  have hx : s.ctx.Linear ⟨0⟩ (.atom ⟨0⟩) := .var (v := ⟨0⟩) (by decide +kernel)
  have hy : s.ctx.Linear ⟨1⟩ (.atom ⟨1⟩) := .var (v := ⟨1⟩) (by decide +kernel)
  have hf : s.ctx.Linear ⟨6⟩ f := by
    have hsum : s.ctx.Linear ⟨3⟩ ⟨[(⟨0⟩, 1)], 2⟩ :=
      .add (a := ⟨0⟩) (b := ⟨2⟩) (by decide +kernel) hx
        (Context.linear_literal (c := 2) (by decide +kernel)) (by decide +kernel)
    have hscaled : s.ctx.Linear ⟨5⟩ ⟨[(⟨0⟩, 4)], 8⟩ :=
      .mulLiteral (b := ⟨4⟩) (c := 4) (by decide +kernel) hsum (by decide +kernel)
        (by decide +kernel)
    exact .sub (by decide +kernel) hscaled hy (by decide +kernel)
  have hf' : s.ctx.Linear ⟨10⟩ f := by
    have hproduct : s.ctx.Linear ⟨9⟩ ⟨[(⟨0⟩, 4)], 0⟩ :=
      .literalMul (a := ⟨4⟩) (c := 4) (by decide +kernel) (by decide +kernel) hx (by decide +kernel)
    have hrest : s.ctx.Linear ⟨8⟩ ⟨[(⟨1⟩, -1)], 8⟩ :=
      .sub (a := ⟨7⟩) (b := ⟨1⟩) (by decide +kernel)
        (Context.linear_literal (c := 8) (by decide +kernel)) hy (by decide +kernel)
    exact .add (by decide +kernel) hproduct hrest (by decide +kernel)
  have ht : s'.ctx.Typed ⟨6⟩ := (hctx.typed_iff he).2 (reached_reordered.typed _ he)
  have ht' : s'.ctx.Typed ⟨10⟩ := (hctx.typed_iff he').2 (reached_reordered.typed _ he')
  have htype : s'.ctx.typeOf ⟨6⟩ = s'.ctx.typeOf ⟨10⟩ := by decide +kernel
  have hr : ((Query.simplify ⟨6⟩).run s).1 = ⟨14⟩ := by decide +kernel
  have hr' : ((Query.simplify ⟨10⟩).run s').1 = ⟨14⟩ := by decide +kernel
  have hanswer : ((Query.provesEqual ⟨6⟩ ⟨10⟩).run s).1 = true := by decide +kernel
  obtain ⟨hsimplify, hproves⟩ := Session.Arises.linear_canonical hs he hf
  have hlater' := (hctx.linear_iff he').2 hf'
  have hpoly := (hsimplify s' ⟨10⟩ f hs' (.refl _) (hctx.stored he') hlater' ht ht' htype).1
    (hr.trans hr'.symm)
  exact ⟨hs, hs', hf, hlater', ht, ht', htype, hr, hr', hpoly.1, hanswer,
    (hproves ⟨10⟩ f he' hf').1 hanswer⟩

end LoopBounds
