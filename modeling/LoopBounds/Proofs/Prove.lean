import LoopBounds.Analyzer.Prove
import LoopBounds.Proofs.Simplify

/-!
# Soundness of proofs

A condition that is proved is not false at any assignment that the known domains admit, and two
expressions that are proved equal have the same value there.
-/

namespace LoopBounds

namespace Context

variable {ctx ctx' : Context} {known : Env Domain} {a b e r : ExprId}

/-- The expressions have the same value wherever both have one. -/
def Equates (ctx : Context) (known : Env Domain) (a b : ExprId) : Prop :=
  ∀ ν : Valuation, ctx ≤ ν.ctx → ν.Admits known → ∀ x y, ν.value a = some x →
    ν.value b = some y → x = y

theorem Simplifies.value_eq (h : ctx.Simplifies known e r) {ν : Valuation} (hν : ctx ≤ ν.ctx)
    (hadmits : ν.Admits known) {x : Int} (hx : ν.value e = some x) : ν.value r = some x :=
  (h.denotes .all (over_all h.stored)).value ν hν x ⟨hadmits, hx⟩

theorem Simplifies.result_stored (h : ctx.Simplifies known e r) : ctx.Stored r :=
  (h.denotes .all (over_all h.stored)).stored

/-- A condition holds where what it simplifies to does. -/
theorem Entails.of_simplifies (hr : ctx.Entails known r) (h : ctx.Simplifies known e r) :
    ctx.Entails known e :=
  fun ν hν hadmits x hx => hr ν hν hadmits x (h.value_eq hν hadmits hx)

theorem entails_of_const {v : Int64} {t : Scalar} (he : ctx.Stored e)
    (hn : ctx.node e = .const v t) (hv : v ≠ 0) : ctx.Entails known e := by
  intro ν hν _ x hx
  rw [Valuation.value_const ((node_eq hν he).trans hn), Option.some_inj] at hx
  exact hx ▸ mt (Word.toInt_eq_zero_iff v).1 hv

theorem entails_of_and (he : ctx.Stored e) (hn : ctx.node e = .and a b)
    (ha : ctx.Entails known a) (hb : ctx.Entails known b) : ctx.Entails known e := by
  intro ν hν hadmits x hx
  have hnode := (node_eq hν he).trans hn
  obtain ⟨hy, -⟩ | ⟨y, z, -, -, hz, rfl⟩ := (Valuation.value_and_eq_some hnode).1 hx
  · exact absurd rfl (ha ν hν hadmits 0 hy)
  · simp [hb ν hν hadmits z hz]

end Context

namespace Query

variable {s : Session} {a b e : ExprId}

/-- The answer for a condition is that for what it simplifies to. -/
theorem record_answer {known : Env Domain} {r : ExprId} {answer : Bool} (hs : s.Valid)
    (hd : s.domains = known) (hr : s.ctx.Simplifies known e r)
    (h : answer = true → s.ctx.Entails known r) :
    Ensures (do recordProved e answer; return answer) s fun answer ctx =>
      answer = true → ctx.Entails known e := by
  subst hd
  have hentails : answer = true → s.ctx.Entails s.domains e := fun hyes => (h hyes).of_simplifies hr
  refine (recordProved_ensures hs hentails).bind fun _ s' hs' _ _ hctx => ?_
  exact .pure hs' (hctx ▸ hentails)

theorem provesWithin_ensures (rounds : Nat) (hs : s.Valid) (he : s.ctx.Stored e) :
    Ensures (provesWithin rounds e) s fun answer ctx =>
      answer = true → ctx.Entails s.domains e := by
  induction rounds generalizing s e with
  | zero => exact .pure hs (by simp)
  | succ rounds ih =>
      refine .analyzer ?_
      split
      · next known hknown =>
        refine .pure hs ?_
        rintro rfl
        exact hs.proved e (Option.ite_none_right_eq_some.1 hknown).2
      refine (simplified e s hs he).bind fun r s₁ hs₁ hg₁ hd₁ hr => ?_
      refine .context ?_
      have hstored := hr.result_stored
      split
      · next v t hn =>
        refine record_answer hs₁ hd₁ hr fun hv => ?_
        exact Context.entails_of_const hstored hn (of_decide_eq_true hv)
      · next c d hn =>
        have hc := hstored.child (c := c) (by simp [hn, Node.children])
        have hd := hstored.child (c := d) (by simp [hn, Node.children])
        refine (ih hs₁ hc).bind fun first s₂ hs₂ hg₂ hd₂ hfirst => ?_
        split
        · next hyes =>
          refine (ih hs₂ (hd.mono hg₂.le)).bind fun second s₃ hs₃ hg₃ hd₃ hsecond => ?_
          have hle := (hg₂.trans hg₃).le
          refine record_answer hs₃ (hd₃.trans (hd₂.trans hd₁)) (hr.mono hle) fun hyes' => ?_
          rw [hd₁] at hfirst
          rw [hd₂, hd₁] at hsecond
          exact Context.entails_of_and (hstored.mono hle) ((Context.node_eq hle hstored).trans hn)
            ((hfirst hyes).mono hg₃.le) (hsecond hyes')
        · exact record_answer hs₂ (hd₂.trans hd₁) (hr.mono hg₂.le) (by simp)
      · exact record_answer hs₁ hd₁ hr (by simp)

theorem proves_ensures (hs : s.Valid) (he : s.ctx.Stored e) :
    Ensures (proves e) s fun answer ctx => answer = true → ctx.Entails s.domains e :=
  provesWithin_ensures _ hs he

/-- A comparison that is proved holds of the values of its operands. -/
theorem provesCompare_ensures (op : Comparison) (hs : s.Valid) (ha : s.ctx.Stored a)
    (hb : s.ctx.Stored b) :
    Ensures (do proves (← (liftM (Build.compare op a b) : Query ExprId))) s fun answer ctx =>
      answer = true → ∀ ν : Valuation, ctx ≤ ν.ctx → ν.Admits s.domains → ∀ x y,
        ν.value a = some x → ν.value b = some y → op.exact x y = true := by
  refine (Ensures.lift hs
    (Build.compare_denotes op (Context.over_all ha) (Context.over_all hb))).bind ?_
  intro cond s₁ hs₁ hg₁ hd₁ hcond
  refine (proves_ensures hs₁ hcond.stored).mono ?_
  intro answer ctx hg h hyes ν hν hadmits x y hx hy
  have hvalue := hcond.value ν (hg.le.trans hν) _ ⟨x, y, hx, hy, rfl⟩
  have hne := h hyes ν hν (hd₁ ▸ hadmits) _ hvalue
  cases hxy : op.exact x y with
  | true => rfl
  | false => exact absurd (by rw [hxy]; rfl) hne

theorem provesEqual_ensures (hs : s.Valid) (ha : s.ctx.Stored a) (hb : s.ctx.Stored b) :
    Ensures (provesEqual a b) s fun answer ctx => answer = true → ctx.Equates s.domains a b := by
  unfold provesEqual
  split
  · next hab =>
    subst hab
    exact .pure hs fun _ ν _ _ x y hx hy => Option.some_inj.1 (hx.symm.trans hy)
  refine (Ensures.lift hs (Build.sub_denotes (Context.over_all ha) (Context.over_all hb))).bind ?_
  intro diff s₁ hs₁ hg₁ hd₁ hdiff
  refine (simplified diff s₁ hs₁ hdiff.stored).bind fun r s₂ hs₂ hg₂ hd₂ hr => ?_
  refine .context (.pure hs₂ fun hzero ν hν hadmits x y hx hy => ?_)
  have hsub := hdiff.value ν (hg₂.le.trans hν) _ ⟨x, y, hx, hy, rfl⟩
  have hvalue := hr.value_eq hν (hd₁ ▸ hadmits) hsub
  rw [Build.value_of_literal? hν hr.result_stored (of_decide_eq_true hzero)] at hvalue
  have heq := Option.some_inj.1 hvalue
  rw [Int64.toInt_zero] at heq
  omega

end Query

end LoopBounds
