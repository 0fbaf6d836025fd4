import LoopBounds.Proofs.Prove
import LoopBounds.ValueSet

/-!
# Soundness of value sets

An end of a set delimits values when it lies on the right side of all of them, now and in all
later contexts.  Every operation on sets keeps this for each end by itself, so a set that is
found for an expression encloses its value wherever the variables stay within their sets.
-/

namespace LoopBounds

/-- The value lies between the ends that are present. -/
def Valuation.Holds (ν : Valuation) (s : ValueSet) (x : Int) : Prop :=
  (∀ e, s.lo? = some e → ∃ z, ν.value e = some z ∧ z ≤ x) ∧
    ∀ e, s.hi? = some e → ∃ z, ν.value e = some z ∧ x ≤ z

instance (ν : Valuation) (s : ValueSet) (x : Int) : Decidable (ν.Holds s x) :=
  inferInstanceAs (Decidable ((∀ e ∈ s.lo?, ∃ z ∈ ν.value e, z ≤ x) ∧
    ∀ e ∈ s.hi?, ∃ z ∈ ν.value e, x ≤ z))

namespace Context

variable {ctx ctx' : Context} {R R₁ R₂ : Int → Int → Prop} {P P' P₁ P₂ : Valuation → Int → Prop}
  {e : ExprId} {e? x? y? : Option ExprId} {s : ValueSet}

/-- Where there is an end, it stands in relation `R` to every value that `P` gives. -/
def Delimits (ctx : Context) (R : Int → Int → Prop) (e? : Option ExprId)
    (P : Valuation → Int → Prop) : Prop :=
  ∀ e, e? = some e → ctx.Stored e ∧
    ∀ ν : Valuation, ctx ≤ ν.ctx → ∀ x, P ν x → ∃ z, ν.value e = some z ∧ R z x

/-- Every value that `P` gives lies in the set. -/
structure Encloses (ctx : Context) (s : ValueSet) (P : Valuation → Int → Prop) : Prop where
  lo : ctx.Delimits (· ≤ ·) s.lo? P
  hi : ctx.Delimits (· ≥ ·) s.hi? P

theorem Delimits.mono (hctx : ctx ≤ ctx') (h : ctx.Delimits R e? P) : ctx'.Delimits R e? P :=
  fun e he => ⟨(h e he).1.mono hctx, fun ν hν => (h e he).2 ν (hctx.trans hν)⟩

theorem Delimits.of_imp (h : ctx.Delimits R e? P) (hP : ∀ ν, ctx ≤ ν.ctx → ∀ x, P' ν x → P ν x) :
    ctx.Delimits R e? P' :=
  fun e he => ⟨(h e he).1, fun ν hν x hx => (h e he).2 ν hν x (hP ν hν x hx)⟩

theorem delimits_none : ctx.Delimits R none P := nofun

theorem delimits_of_denotes (h : ctx.Denotes .all e P) (hR : ∀ x, R x x) :
    ctx.Delimits R (some e) P := by
  rintro _ ⟨⟩
  exact ⟨h.stored, fun ν hν x hx => ⟨x, h.value ν hν x hx, hR x⟩⟩

/-- What an end denotes bounds other values as well. -/
theorem delimits_of_value (h : ctx.Denotes .all e P')
    (hP : ∀ ν, ctx ≤ ν.ctx → ∀ x, P ν x → ∃ z, P' ν z ∧ R z x) : ctx.Delimits R (some e) P := by
  rintro _ ⟨⟩
  refine ⟨h.stored, fun ν hν x hx => ?_⟩
  obtain ⟨z, hz, hzx⟩ := hP ν hν x hx
  exact ⟨z, h.value ν hν z hz, hzx⟩

theorem Encloses.mono (hctx : ctx ≤ ctx') (h : ctx.Encloses s P) : ctx'.Encloses s P :=
  ⟨h.lo.mono hctx, h.hi.mono hctx⟩

theorem Encloses.of_imp (h : ctx.Encloses s P) (hP : ∀ ν, ctx ≤ ν.ctx → ∀ x, P' ν x → P ν x) :
    ctx.Encloses s P' :=
  ⟨h.lo.of_imp hP, h.hi.of_imp hP⟩

theorem Encloses.holds (h : ctx.Encloses s P) {ν : Valuation} (hν : ctx ≤ ν.ctx) {x : Int}
    (hx : P ν x) : ν.Holds s x :=
  ⟨fun e he => (h.lo e he).2 ν hν x hx, fun e he => (h.hi e he).2 ν hν x hx⟩

theorem encloses_everything : ctx.Encloses .everything P := ⟨delimits_none, delimits_none⟩

theorem encloses_point (h : ctx.Denotes .all e P) : ctx.Encloses (.point e) P :=
  ⟨delimits_of_denotes h fun _ => le_rfl, delimits_of_denotes h fun _ => le_rfl⟩

/-- The only value of a set is that of its ends. -/
theorem Encloses.denotes_point (h : ctx.Encloses s P) (hp : s.point? = some e) :
    ctx.Denotes .all e P := by
  rw [ValueSet.point?] at hp
  split at hp
  · next heq =>
    obtain ⟨hstored, hlo⟩ := h.lo e hp
    obtain ⟨-, hhi⟩ := h.hi e (heq ▸ hp)
    refine ⟨over_all hstored, fun ν hν x hx => ?_⟩
    obtain ⟨z, hz, hzx⟩ := hlo ν hν x hx
    obtain ⟨w, hw, hxw⟩ := hhi ν hν x hx
    have hzw := Option.some_inj.1 (hz.symm.trans hw)
    rw [hz, le_antisymm hzx (hzw ▸ hxw)]
  · cases hp

end Context

namespace ValueSet

variable {s : Session} {ctx : Context} {R R₁ R₂ : Int → Int → Prop}
  {P P₁ P₂ : Valuation → Int → Prop} {op : Arith} {x? y? : Option ExprId} {t u : ValueSet}
  {a b e : ExprId}

open Query

/-! ## Combining ends -/

/-- The values of an operator at admissible assignments. -/
abbrev Combines (known : Env Domain) (op : Arith) (P₁ P₂ : Valuation → Int → Prop)
    (ν : Valuation) (w : Int) : Prop :=
  ν.Admits known ∧ ∃ x y, P₁ ν x ∧ P₂ ν y ∧ op.exact x y = some w

theorem both_delimits {known : Env Domain} (hx : ctx.Delimits R₁ x? P₁)
    (hy : ctx.Delimits R₂ y? P₂)
    (hop : ∀ ν, ctx ≤ ν.ctx → ν.Admits known → ∀ x y w, P₁ ν x → P₂ ν y → op.exact x y = some w →
      ∀ l r, R₁ l x → R₂ r y → ∃ z, op.exact l r = some z ∧ R z w) :
    Build.Ensures (both op x? y?) ctx fun r? ctx' =>
      ctx'.Delimits R r? (Combines known op P₁ P₂) := by
  unfold both
  split
  · next l r =>
    obtain ⟨hl, hlx⟩ := hx l rfl
    obtain ⟨hr, hry⟩ := hy r rfl
    refine .map ((Build.arith_denotes op (Context.over_all hl) (Context.over_all hr)).mono ?_)
    refine fun q ctx' hg hq => Context.delimits_of_value hq ?_
    rintro ν hν w ⟨hadmits, x, y, hx, hy, hw⟩
    have hν' := hg.le.trans hν
    obtain ⟨m, hm, hmx⟩ := hlx ν hν' x hx
    obtain ⟨n, hn, hny⟩ := hry ν hν' y hy
    obtain ⟨z, hz, hzw⟩ := hop ν hν' hadmits x y w hx hy hw m n hmx hny
    exact ⟨z, ⟨m, n, hm, hn, hz⟩, hzw⟩
  · exact .pure Context.delimits_none

/-- An end that stands for both has to delimit the values by itself. -/
theorem either_delimits {known : Env Domain} (hx : ctx.Delimits R x? P₁)
    (hy : ctx.Delimits R y? P₂)
    (hop : ∀ x y w, op.exact x y = some w → (∀ l, R l x → R l w) ∧ (∀ r, R r y → R r w) ∧
      ∀ l r, R l x → R r y → ∃ z, op.exact l r = some z ∧ R z w) :
    Build.Ensures (either op x? y?) ctx fun r? ctx' =>
      ctx'.Delimits R r? (Combines known op P₁ P₂) := by
  unfold either
  split
  · exact both_delimits hx hy fun ν _ _ x y w _ _ hw => (hop x y w hw).2.2
  · next l =>
    refine .pure ?_
    rintro _ ⟨⟩
    refine ⟨(hx l rfl).1, ?_⟩
    rintro ν hν w ⟨-, x, y, hx', -, hw⟩
    obtain ⟨z, hz, hzx⟩ := (hx l rfl).2 ν hν x hx'
    exact ⟨z, hz, (hop x y w hw).1 z hzx⟩
  · next r =>
    refine .pure ?_
    rintro _ ⟨⟩
    refine ⟨(hy r rfl).1, ?_⟩
    rintro ν hν w ⟨-, x, y, -, hy', hw⟩
    obtain ⟨z, hz, hzy⟩ := (hy r rfl).2 ν hν y hy'
    exact ⟨z, hz, (hop x y w hw).2.1 z hzy⟩
  · exact .pure Context.delimits_none

theorem simplify_delimits (hs : s.Valid) (h : s.ctx.Delimits R (some e) P)
    (hP : ∀ ν x, P ν x → ν.Admits s.domains) :
    Ensures (simplify e) s fun r ctx => ctx.Delimits R (some r) P := by
  obtain ⟨he, hvalue⟩ := h e rfl
  refine (Query.simplified e s hs he).mono fun r ctx hg hr => ?_
  rintro _ ⟨⟩
  refine ⟨hr.result_stored, fun ν hν x hx => ?_⟩
  obtain ⟨z, hz, hzx⟩ := hvalue ν (hg.le.trans hν) x hx
  exact ⟨z, hr.value_eq hν (hP ν x hx) hz, hzx⟩

theorem simplifyEnd_ensures (hs : s.Valid) (h : s.ctx.Delimits R x? P)
    (hP : ∀ ν x, P ν x → ν.Admits s.domains) :
    Ensures (simplifyEnd x?) s fun r? ctx => ctx.Delimits R r? P := by
  unfold simplifyEnd
  split
  · exact .map (simplify_delimits hs h hP)
  · exact .pure hs Context.delimits_none

theorem simplified_ensures (hs : s.Valid) (hlo : s.ctx.Delimits (· ≤ ·) x? P)
    (hhi : s.ctx.Delimits (· ≥ ·) y? P) (hP : ∀ ν x, P ν x → ν.Admits s.domains) :
    Ensures (simplified x? y?) s fun r ctx => ctx.Encloses r P := by
  refine (simplifyEnd_ensures hs hlo hP).bind fun lo? s₁ hs₁ hg₁ hd₁ hlo => ?_
  refine (simplifyEnd_ensures hs₁ (hhi.mono hg₁.le) (hd₁ ▸ hP)).bind fun hi? s₂ hs₂ hg₂ _ hhi => ?_
  exact .pure hs₂ ⟨hlo.mono hg₂.le, hhi⟩

/-- A set whose ends are found first and simplified afterwards. -/
theorem simplifiedBoth_ensures {lo hi : Build (Option ExprId)} (hs : s.Valid)
    (hP : ∀ ν x, P ν x → ν.Admits s.domains)
    (hlo : Build.Ensures lo s.ctx fun r? ctx => ctx.Delimits (· ≤ ·) r? P)
    (hhi : ∀ ctx, s.ctx ≤ ctx → Build.Ensures hi ctx fun r? ctx => ctx.Delimits (· ≥ ·) r? P) :
    Ensures (do
      let lo? ← (liftM lo : Query (Option ExprId))
      let hi? ← (liftM hi : Query (Option ExprId))
      simplified lo? hi?) s fun r ctx => ctx.Encloses r P := by
  refine (Ensures.lift hs hlo).bind fun lo? s₁ hs₁ hg₁ hd₁ hlo => ?_
  refine (Ensures.lift hs₁ (hhi s₁.ctx hg₁.le)).bind fun hi? s₂ hs₂ hg₂ hd₂ hhi => ?_
  exact simplified_ensures hs₂ (hlo.mono hg₂.le) hhi fun ν x hx => hd₂ ▸ hd₁ ▸ hP ν x hx

/-- A set whose ends are found and simplified one after the other. -/
theorem simplifiedEach_ensures {lo hi : Build (Option ExprId)} (hs : s.Valid)
    (hP : ∀ ν x, P ν x → ν.Admits s.domains)
    (hlo : Build.Ensures lo s.ctx fun r? ctx => ctx.Delimits (· ≤ ·) r? P)
    (hhi : ∀ ctx, s.ctx ≤ ctx → Build.Ensures hi ctx fun r? ctx => ctx.Delimits (· ≥ ·) r? P) :
    Ensures (do
      let lo? ← simplifyEnd (← (liftM lo : Query (Option ExprId)))
      let hi? ← simplifyEnd (← (liftM hi : Query (Option ExprId)))
      return ⟨lo?, hi?⟩) s fun r ctx => ctx.Encloses r P := by
  refine (Ensures.lift hs hlo).bind fun lo? s₁ hs₁ hg₁ hd₁ hlo => ?_
  refine (simplifyEnd_ensures hs₁ hlo (hd₁ ▸ hP)).bind fun lo? s₂ hs₂ hg₂ hd₂ hlo => ?_
  refine (Ensures.lift hs₂ (hhi s₂.ctx (hg₁.le.trans hg₂.le))).bind ?_
  intro hi? s₃ hs₃ hg₃ hd₃ hhi
  have hP₃ : ∀ ν x, P ν x → ν.Admits s₃.domains := by
    rw [hd₃, hd₂, hd₁]
    exact hP
  refine (simplifyEnd_ensures hs₃ hhi hP₃).bind fun hi? s₄ hs₄ hg₄ hd₄ hhi => ?_
  exact .pure hs₄ ⟨hlo.mono (hg₃.le.trans hg₄.le), hhi⟩

/-! ## Operators over sets -/

/-- A factor that is not negative keeps the order of the ends, and one that is not positive
exchanges them. -/
theorem scale_ensures {factor : ExprId} (hs : s.Valid) (ht : s.ctx.Encloses t P₁)
    (hfactor : s.ctx.Denotes .all factor P₂) :
    Ensures (t.scale factor) s fun r ctx => ctx.Encloses r (Combines s.domains .mul P₁ P₂) := by
  refine (Ensures.lift hs (Build.constantLike_denotes s.ctx .all 0 factor)).bind ?_
  intro zero s₁ hs₁ hg₁ hd₁ hzero
  have hfactor₁ := hfactor.mono hg₁.le
  rw [← bind_assoc]
  refine (provesCompare_ensures .ge hs₁ hfactor₁.stored hzero.stored).bind ?_
  intro nonneg s₂ hs₂ hg₂ hd₂ hnonneg
  have hle₂ := hg₁.le.trans hg₂.le
  have hdom₂ : s₂.domains = s.domains := hd₂.trans hd₁
  have hend : ∀ {R : Int → Int → Prop} {ctx : Context}, (∀ x, R x x) → s.ctx ≤ ctx →
      ctx.Delimits R (some factor) P₂ := fun hR h =>
    Context.delimits_of_denotes (hfactor.mono h) hR
  split
  · next hyes =>
    have hsign : ∀ ν, s₂.ctx ≤ ν.ctx → ν.Admits s.domains → ∀ y, P₂ ν y → 0 ≤ y := by
      intro ν hν hadmits y hy
      have h := hnonneg hyes ν hν (hd₁ ▸ hadmits) y 0 (hfactor.value ν (hle₂.trans hν) y hy)
        (hzero.value ν (hg₂.le.trans hν) 0 rfl)
      simpa [Comparison.exact] using h
    refine simplifiedEach_ensures hs₂ (fun ν x hx => hdom₂ ▸ hx.1) ?_ fun ctx hctx => ?_
    · refine both_delimits (ht.lo.mono hle₂) (hend (fun _ => rfl) hle₂) ?_
      rintro ν hν hadmits x y w hx hy ⟨⟩ l r hl rfl
      exact ⟨_, rfl, mul_le_mul_of_nonneg_right hl (hsign ν hν hadmits _ hy)⟩
    · refine both_delimits (ht.hi.mono (hle₂.trans hctx))
        (hend (fun _ => rfl) (hle₂.trans hctx)) ?_
      rintro ν hν hadmits x y w hx hy ⟨⟩ l r hl rfl
      exact ⟨_, rfl, mul_le_mul_of_nonneg_right hl (hsign ν (hctx.trans hν) hadmits _ hy)⟩
  rw [← bind_assoc]
  refine (provesCompare_ensures .le hs₂ (hfactor.stored.mono hle₂)
    (hzero.stored.mono hg₂.le)).bind fun nonpos s₃ hs₃ hg₃ hd₃ hnonpos => ?_
  split
  · next hyes =>
    have hle₃ := hle₂.trans hg₃.le
    have hsign : ∀ ν, s₃.ctx ≤ ν.ctx → ν.Admits s.domains → ∀ y, P₂ ν y → y ≤ 0 := by
      intro ν hν hadmits y hy
      have h := hnonpos hyes ν hν (hdom₂ ▸ hadmits) y 0 (hfactor.value ν (hle₃.trans hν) y hy)
        (hzero.value ν ((hg₂.le.trans hg₃.le).trans hν) 0 rfl)
      simpa [Comparison.exact] using h
    refine simplifiedBoth_ensures hs₃ (fun ν x hx => hd₃ ▸ hdom₂ ▸ hx.1) ?_ fun ctx hctx => ?_
    · refine both_delimits (ht.hi.mono hle₃) (hend (fun _ => rfl) hle₃) ?_
      rintro ν hν hadmits x y w hx hy ⟨⟩ l r hl rfl
      exact ⟨_, rfl, mul_le_mul_of_nonpos_right hl (hsign ν hν hadmits _ hy)⟩
    · refine both_delimits (ht.lo.mono (hle₃.trans hctx))
        (hend (fun _ => rfl) (hle₃.trans hctx)) ?_
      rintro ν hν hadmits x y w hx hy ⟨⟩ l r hl rfl
      exact ⟨_, rfl, mul_le_mul_of_nonpos_right hl (hsign ν (hctx.trans hν) hadmits _ hy)⟩
  · exact .pure hs₃ Context.encloses_everything

theorem provesPositive_ensures {divisor : ExprId} (hs : s.Valid)
    (hdivisor : s.ctx.Denotes .all divisor P₂) :
    Ensures (provesPositive divisor) s fun answer ctx => answer = true →
      ∀ ν, ctx ≤ ν.ctx → ν.Admits s.domains → ∀ y, P₂ ν y → 0 < y := by
  refine (Ensures.lift hs (Build.constantLike_denotes s.ctx .all 0 divisor)).bind ?_
  intro zero s₁ hs₁ hg₁ hd₁ hzero
  refine (provesCompare_ensures .gt hs₁ (hdivisor.stored.mono hg₁.le) hzero.stored).mono ?_
  intro answer ctx hg h hyes ν hν hadmits y hy
  have hpos := h hyes ν hν (hd₁ ▸ hadmits) y 0
    (hdivisor.value ν ((hg₁.le.trans hg.le).trans hν) y hy) (hzero.value ν (hg.le.trans hν) 0 rfl)
  simpa [Comparison.exact] using hpos

/-- A positive divisor keeps the order of the ends. -/
theorem quotient_ensures {divisor : ExprId} (hs : s.Valid) (ht : s.ctx.Encloses t P₁)
    (hdivisor : s.ctx.Denotes .all divisor P₂) :
    Ensures (t.quotient divisor) s fun r ctx =>
      ctx.Encloses r (Combines s.domains .floorDiv P₁ P₂) := by
  refine (provesPositive_ensures hs hdivisor).bind fun positive s₁ hs₁ hg₁ hd₁ hpos => ?_
  have hend : ∀ {R : Int → Int → Prop} {ctx : Context}, (∀ x, R x x) → s.ctx ≤ ctx →
      ctx.Delimits R (some divisor) P₂ := fun hR h =>
    Context.delimits_of_denotes (hdivisor.mono h) hR
  split
  · next hyes =>
    have hdiv : ∀ ν, s₁.ctx ≤ ν.ctx → ν.Admits s.domains → ∀ x y w, P₂ ν y →
        Arith.exact .floorDiv x y = some w → 0 < y ∧ x.fdiv y = w := by
      intro ν hν hadmits x y w hy hw
      have hpos := hpos hyes ν hν hadmits y hy
      rw [Arith.exact, if_neg hpos.ne', Option.some_inj] at hw
      exact ⟨hpos, hw⟩
    refine simplifiedEach_ensures hs₁ (fun ν x hx => hd₁ ▸ hx.1) ?_ fun ctx hctx => ?_
    · refine both_delimits (ht.lo.mono hg₁.le) (hend (fun _ => rfl) hg₁.le) ?_
      rintro ν hν hadmits x y w hx hy hw l r hl rfl
      obtain ⟨hpos, rfl⟩ := hdiv ν hν hadmits x r w hy hw
      exact ⟨_, if_neg hpos.ne', Interval.fdiv_mono hl hpos⟩
    · refine both_delimits (ht.hi.mono (hg₁.le.trans hctx))
        (hend (fun _ => rfl) (hg₁.le.trans hctx)) ?_
      rintro ν hν hadmits x y w hx hy hw l r hl rfl
      obtain ⟨hpos, rfl⟩ := hdiv ν (hctx.trans hν) hadmits x r w hy hw
      exact ⟨_, if_neg hpos.ne', Interval.fdiv_mono hl hpos⟩
  · exact .pure hs₁ Context.encloses_everything

/-- Remainders are in the order of the dividends where the quotient does not change. -/
theorem fmod_mono_of_fdiv_eq {l x h y : Int} (hy : 0 < y) (hl : l ≤ x) (hh : x ≤ h)
    (heq : l.fdiv y = h.fdiv y) : l.fmod y ≤ x.fmod y ∧ x.fmod y ≤ h.fmod y := by
  have hlx := Interval.fdiv_mono hl hy
  have hxh := Interval.fdiv_mono hh hy
  have hx : x.fdiv y = h.fdiv y := le_antisymm hxh (heq ▸ hlx)
  rw [Int.fmod_def, Int.fmod_def, Int.fmod_def, heq, hx]
  omega

theorem remainderInBlock?_ensures {divisor : ExprId} (hs : s.Valid) (ht : s.ctx.Encloses t P₁)
    (hdivisor : s.ctx.Denotes .all divisor P₂)
    (hpos : ∀ ν, s.ctx ≤ ν.ctx → ν.Admits s.domains → ∀ y, P₂ ν y → 0 < y) :
    Ensures (t.remainderInBlock? divisor) s fun r? ctx => ∀ r, r? = some r →
      ctx.Encloses r (Combines s.domains .floorMod P₁ P₂) := by
  unfold remainderInBlock?
  split
  · next lo hi hlo hhi =>
    obtain ⟨hlo, hlox⟩ := ht.lo lo hlo
    obtain ⟨hhi, hhix⟩ := ht.hi hi hhi
    have hd := hdivisor.nodes
    refine (Ensures.lift hs (Build.arith_denotes .floorDiv (Context.over_all hlo) hd)).bind ?_
    intro qlo s₁ hs₁ hg₁ hd₁ hqlo
    refine (Ensures.lift hs₁ (Build.arith_denotes .floorDiv
      ((Context.over_all hhi).mono hg₁.le) (hd.mono hg₁.le))).bind ?_
    intro qhi s₂ hs₂ hg₂ hd₂ hqhi
    refine (provesEqual_ensures hs₂ (hqlo.stored.mono hg₂.le) hqhi.stored).bind ?_
    intro same s₃ hs₃ hg₃ hd₃ hsame
    split
    · next hyes =>
      have hle₃ := (hg₁.trans (hg₂.trans hg₃)).le
      refine (Ensures.lift hs₃ (Build.arith_denotes .floorMod
        ((Context.over_all hlo).mono hle₃) (hd.mono hle₃))).bind ?_
      intro mlo s₄ hs₄ hg₄ hd₄ hmlo
      have hle₄ := hle₃.trans hg₄.le
      refine (Ensures.lift hs₄ (Build.arith_denotes .floorMod
        ((Context.over_all hhi).mono hle₄) (hd.mono hle₄))).bind ?_
      intro mhi s₅ hs₅ hg₅ hd₅ hmhi
      have hends : ∀ ν, s₃.ctx ≤ ν.ctx → ∀ w, Combines s.domains .floorMod P₁ P₂ ν w →
          ∃ l h y, ν.value lo = some l ∧ ν.value hi = some h ∧ ν.value divisor = some y ∧
            y ≠ 0 ∧ l.fmod y ≤ w ∧ w ≤ h.fmod y := by
        rintro ν hν w ⟨hadmits, x, y, hx, hy, hw⟩
        have hν₂ := hg₃.le.trans hν
        have hν₁ := hg₂.le.trans hν₂
        have hν₀ := hg₁.le.trans hν₁
        have hy0 := hpos ν hν₀ hadmits y hy
        obtain ⟨l, hl, hlx⟩ := hlox ν hν₀ x hx
        obtain ⟨h, hh, hxh⟩ := hhix ν hν₀ x hx
        have hyv := hdivisor.value ν hν₀ y hy
        have heq := hsame hyes ν hν (hd₂ ▸ hd₁ ▸ hadmits) _ _
          (hqlo.value ν hν₁ _ ⟨l, y, hl, hyv, if_neg hy0.ne'⟩)
          (hqhi.value ν hν₂ _ ⟨h, y, hh, hyv, if_neg hy0.ne'⟩)
        rw [Arith.exact, if_neg hy0.ne', Option.some_inj] at hw
        exact ⟨l, h, y, hl, hh, hyv, hy0.ne', hw ▸ fmod_mono_of_fdiv_eq hy0 hlx hxh heq⟩
      have hdom : s₅.domains = s.domains := by rw [hd₅, hd₄, hd₃, hd₂, hd₁]
      refine .map ((simplified_ensures (P := Combines s.domains .floorMod P₁ P₂) hs₅ ?_ ?_
        fun ν x hx => hdom ▸ hx.1).mono ?_)
      · refine Context.delimits_of_value (hmlo.mono hg₅.le) fun ν hν w hw => ?_
        obtain ⟨l, h, y, hl, -, hy, hy0, hlw, -⟩ := hends ν ((hg₄.trans hg₅).le.trans hν) w hw
        exact ⟨_, ⟨l, y, hl, hy, if_neg hy0⟩, hlw⟩
      · refine Context.delimits_of_value hmhi fun ν hν w hw => ?_
        obtain ⟨l, h, y, -, hh, hy, hy0, -, hwh⟩ := hends ν ((hg₄.trans hg₅).le.trans hν) w hw
        exact ⟨_, ⟨h, y, hh, hy, if_neg hy0⟩, hwh⟩
      · rintro r ctx - hr _ ⟨⟩
        exact hr
    · exact .pure hs₃ (by simp)
  · exact .pure hs (by simp)

/-- Remainders by a positive divisor are not negative and lie below it. -/
theorem remainder_ensures {divisor : ExprId} (hs : s.Valid) (ht : s.ctx.Encloses t P₁)
    (hdivisor : s.ctx.Denotes .all divisor P₂) :
    Ensures (t.remainder divisor) s fun r ctx =>
      ctx.Encloses r (Combines s.domains .floorMod P₁ P₂) := by
  refine (provesPositive_ensures hs hdivisor).bind fun positive s₁ hs₁ hg₁ hd₁ hpos => ?_
  split
  · next hyes =>
    have hpos₁ := hpos hyes
    rw [← hd₁] at hpos₁
    refine (remainderInBlock?_ensures hs₁ (ht.mono hg₁.le) (hdivisor.mono hg₁.le) hpos₁).bind ?_
    intro block? s₂ hs₂ hg₂ hd₂ hblock
    have hle₂ := hg₁.le.trans hg₂.le
    cases block? with
    | some block => exact .pure hs₂ (hd₁ ▸ hblock block rfl)
    | none =>
        refine (Ensures.lift hs₂ (Build.constantLike_denotes s₂.ctx .all 0 divisor)).bind ?_
        intro zero s₃ hs₃ hg₃ hd₃ hzero
        refine (Ensures.lift hs₃ (Build.addConst_denotes (-1)
          (hdivisor.nodes.mono (hle₂.trans hg₃.le)))).bind fun last s₄ hs₄ hg₄ hd₄ hlast => ?_
        have hdom : s₄.domains = s.domains := by rw [hd₄, hd₃, hd₂, hd₁]
        refine simplified_ensures hs₄ ?_ ?_ fun ν x hx => hdom ▸ hx.1
        · refine Context.delimits_of_value (hzero.mono hg₄.le) ?_
          rintro ν hν w ⟨hadmits, x, y, hx, hy, hw⟩
          have hy0 := hpos hyes ν ((hg₂.trans (hg₃.trans hg₄)).le.trans hν) hadmits y hy
          rw [Arith.exact, if_neg hy0.ne', Option.some_inj] at hw
          exact ⟨0, rfl, hw ▸ Int.fmod_nonneg_of_pos x hy0⟩
        · refine Context.delimits_of_value hlast ?_
          rintro ν hν w ⟨hadmits, x, y, hx, hy, hw⟩
          have hν₁ := (hg₂.trans (hg₃.trans hg₄)).le.trans hν
          have hy0 := hpos hyes ν hν₁ hadmits y hy
          rw [Arith.exact, if_neg hy0.ne', Option.some_inj] at hw
          have hlt := Int.fmod_lt_of_pos x hy0
          refine ⟨_, ⟨y, hdivisor.value ν (hg₁.le.trans hν₁) y hy, rfl⟩, ?_⟩
          change w ≤ y + -1
          omega
  · exact .pure hs₁ Context.encloses_everything

theorem arith_ensures (op : Arith) (hs : s.Valid) (ht : s.ctx.Encloses t P₁)
    (hu : s.ctx.Encloses u P₂) :
    Ensures (arith op t u) s fun r ctx => ctx.Encloses r (Combines s.domains op P₁ P₂) := by
  have hP : ∀ ν w, Combines s.domains op P₁ P₂ ν w → ν.Admits s.domains := fun _ _ h => h.1
  cases op with
  | add =>
      refine simplifiedBoth_ensures hs hP (both_delimits ht.lo hu.lo ?_) fun ctx hctx =>
        both_delimits (ht.hi.mono hctx) (hu.hi.mono hctx) ?_
      · rintro ν - - x y _ - - ⟨⟩ l r hl hr
        exact ⟨l + r, rfl, add_le_add hl hr⟩
      · rintro ν - - x y _ - - ⟨⟩ l r hl hr
        exact ⟨l + r, rfl, add_le_add hl hr⟩
  | sub =>
      refine simplifiedBoth_ensures hs hP (both_delimits ht.lo hu.hi ?_) fun ctx hctx =>
        both_delimits (ht.hi.mono hctx) (hu.lo.mono hctx) ?_
      · rintro ν - - x y _ - - ⟨⟩ l r hl hr
        exact ⟨l - r, rfl, sub_le_sub hl hr⟩
      · rintro ν - - x y _ - - ⟨⟩ l r hl hr
        exact ⟨l - r, rfl, sub_le_sub hl hr⟩
  | mul =>
      dsimp only [arith]
      split
      · next factor hpoint => exact scale_ensures hs ht (hu.denotes_point hpoint)
      · next factor hpoint _ =>
        refine (scale_ensures hs hu (ht.denotes_point hpoint)).mono fun r ctx _ hr => hr.of_imp ?_
        rintro ν - w ⟨hadmits, x, y, hx, hy, hw⟩
        have hcomm : Arith.exact .mul x y = Arith.exact .mul y x := Arith.exact_comm rfl x y
        exact ⟨hadmits, y, x, hy, hx, hcomm ▸ hw⟩
      · exact .pure hs Context.encloses_everything
  | floorDiv =>
      dsimp only [arith]
      split
      · next divisor hpoint => exact quotient_ensures hs ht (hu.denotes_point hpoint)
      · exact .pure hs Context.encloses_everything
  | floorMod =>
      dsimp only [arith]
      split
      · next divisor hpoint => exact remainder_ensures hs ht (hu.denotes_point hpoint)
      · exact .pure hs Context.encloses_everything
  | min =>
      refine simplifiedBoth_ensures hs hP (both_delimits ht.lo hu.lo ?_) fun ctx hctx =>
        either_delimits (ht.hi.mono hctx) (hu.hi.mono hctx) ?_
      · rintro ν - - x y _ - - ⟨⟩ l r hl hr
        exact ⟨min l r, rfl, min_le_min hl hr⟩
      · rintro x y _ ⟨⟩
        exact ⟨fun l hl => (min_le_left x y).trans hl, fun r hr => (min_le_right x y).trans hr,
          fun l r hl hr => ⟨min l r, rfl, min_le_min hl hr⟩⟩
  | max =>
      refine simplifiedBoth_ensures hs hP (either_delimits ht.lo hu.lo ?_) fun ctx hctx =>
        both_delimits (ht.hi.mono hctx) (hu.hi.mono hctx) ?_
      · rintro x y _ ⟨⟩
        exact ⟨fun l hl => hl.trans (le_max_left x y), fun r hr => hr.trans (le_max_right x y),
          fun l r hl hr => ⟨max l r, rfl, max_le_max hl hr⟩⟩
      · rintro ν - - x y _ - - ⟨⟩ l r hl hr
        exact ⟨max l r, rfl, max_le_max hl hr⟩

theorem arithPoints_ensures (op : Arith) (hs : s.Valid) (ha : s.ctx.Denotes .all a P₁)
    (hb : s.ctx.Denotes .all b P₂) :
    Ensures (arithPoints op a b) s fun r ctx =>
      ctx.Encloses r (Combines s.domains op P₁ P₂) := by
  refine .context ?_
  split
  · exact .pure hs Context.encloses_everything
  refine (Ensures.lift hs (Build.arith_denotes op ha.nodes hb.nodes)).bind ?_
  intro q s₁ hs₁ hg₁ hd₁ hq
  have hcombines : s₁.ctx.Denotes .all q (Combines s.domains op P₁ P₂) := by
    refine hq.of_imp ?_
    rintro ν hν w ⟨-, x, y, hx, hy, hw⟩
    have hν₀ := hg₁.le.trans hν
    exact ⟨x, y, ha.value ν hν₀ x hx, hb.value ν hν₀ y hy, hw⟩
  refine (Query.simplify_denotes hs₁ hcombines fun ν z hz => hd₁ ▸ hz.1).bind ?_
  exact fun r s₂ hs₂ _ _ hr => .pure hs₂ (Context.encloses_point hr)

/-- The set of a domain encloses the values in the domain. -/
theorem ofDomain_encloses {d : Domain} (hd : ctx.StoredDomain d) :
    Build.Ensures (ofDomain d) ctx fun r ctx' => ctx'.Encloses r fun ν x => ν.InDomain d x := by
  refine Build.Ensures.get ?_
  split
  · next hone =>
    refine .pure (Context.encloses_point ⟨Context.over_all hd.1, ?_⟩)
    rintro ν hν x ⟨m, n, hm, hn, hmx, hxn⟩
    have hn1 := Build.value_of_literal? hν hd.2 (of_decide_eq_true hone)
    rw [hn, Option.some_inj, Int64.toInt_one] at hn1
    rw [hm, Option.some_inj]
    omega
  · refine (Domain.last_denotes (Context.over_all hd.1) (Context.over_all hd.2)).bind ?_
    intro last ctx' hg hlast
    refine .pure ⟨?_, ?_⟩
    · have hmin := Context.denotes_value (Context.over_all (hd.1.mono hg.le))
      refine Context.delimits_of_value hmin ?_
      rintro ν hν x ⟨m, n, hm, hn, hmx, hxn⟩
      exact ⟨m, hm, hmx⟩
    · refine Context.delimits_of_value hlast ?_
      rintro ν hν x ⟨m, n, hm, hn, hmx, hxn⟩
      exact ⟨_, ⟨m, n, hm, hn, rfl⟩, Int.le_sub_one_of_lt hxn⟩

end ValueSet

/-! ## Sets of expressions -/

/-- The variables stay within their sets. -/
def Valuation.Within (ν : Valuation) (sets : Env ValueSet) : Prop :=
  ∀ v t x, sets v = some t → ν.env v = some x → ν.Holds t x

/-- The ends of a set are stored. -/
def Context.StoredSet (ctx : Context) (t : ValueSet) : Prop :=
  (∀ e, t.lo? = some e → ctx.Stored e) ∧ ∀ e, t.hi? = some e → ctx.Stored e

instance (ctx : Context) (t : ValueSet) : Decidable (ctx.StoredSet t) :=
  inferInstanceAs (Decidable ((∀ e ∈ t.lo?, ctx.Stored e) ∧ ∀ e ∈ t.hi?, ctx.Stored e))

theorem Context.StoredSet.mono {ctx ctx' : Context} {t : ValueSet} (hctx : ctx ≤ ctx')
    (h : ctx.StoredSet t) : ctx'.StoredSet t :=
  ⟨fun e he => (h.1 e he).mono hctx, fun e he => (h.2 e he).mono hctx⟩

theorem Context.Encloses.storedSet {ctx : Context} {t : ValueSet}
    {P : Valuation → Int → Prop} (h : ctx.Encloses t P) : ctx.StoredSet t :=
  ⟨fun e he => (h.lo e he).1, fun e he => (h.hi e he).1⟩

namespace ValueSet

variable {s : Session} {t : ValueSet} {d : Domain}

/-- Whatever the answer, asking for it only stores expressions. -/
theorem coversExactly_ensures (hs : s.Valid) (ht : s.ctx.StoredSet t) (hd : s.ctx.StoredDomain d) :
    Query.Ensures (t.coversExactly d) s fun _ _ => True := by
  unfold coversExactly
  split
  · next lo hi hlo hhi =>
    refine (Query.Ensures.lift hs
      (Domain.last_denotes (Context.over_all hd.1) (Context.over_all hd.2))).bind ?_
    intro last s₁ hs₁ hg₁ hd₁ hlast
    refine (Query.provesEqual_ensures hs₁ ((ht.1 lo hlo).mono hg₁.le) (hd.1.mono hg₁.le)).bind ?_
    intro same s₂ hs₂ hg₂ hd₂ _
    split
    · refine (Query.provesEqual_ensures hs₂ ((ht.2 hi hhi).mono (hg₁.trans hg₂).le)
        (hlast.stored.mono hg₂.le)).mono fun _ _ _ _ => trivial
    · exact .pure hs₂ trivial
  · exact .pure hs trivial

end ValueSet

namespace Query

variable {s : Session} {sets : Env ValueSet} {e : ExprId}

/-- The value of an expression where the variables stay within their sets. -/
abbrev ValueWithin (known : Env Domain) (sets : Env ValueSet) (e : ExprId) (ν : Valuation)
    (x : Int) : Prop :=
  ν.Admits known ∧ ν.Within sets ∧ ν.value e = some x

/-- What the induction over expressions gives for an operand. -/
def Valued (sets : Env ValueSet) (e : ExprId) : Prop :=
  ∀ s : Session, s.Valid → s.ctx.Stored e → (∀ v t, sets v = some t → s.ctx.StoredSet t) →
    Ensures (valuesOf sets e) s fun r ctx => ctx.Encloses r (ValueWithin s.domains sets e)

/-- The operands of a node as the only values of their sets, if all sets have only one. -/
theorem points_ensures {args : List ExprId} (hs : s.Valid) (hargs : ∀ a ∈ args, s.ctx.Stored a)
    (hsets : ∀ v t, sets v = some t → s.ctx.StoredSet t) (ih : ∀ a ∈ args, Valued sets a) :
    Ensures (OptionT.run <| args.attach.mapM fun ⟨a, _⟩ =>
      OptionT.mk (do return (← valuesOf sets a).point?)) s fun points? ctx =>
        ∀ points, points? = some points → List.Forall₂
          (fun a c => ctx.Denotes .all c (ValueWithin s.domains sets a)) args points := by
  refine (mapM_run_ensures (C := fun ctx (a : { a // a ∈ args }) c =>
    ctx.Denotes .all c (ValueWithin s.domains sets a.1)) (fun h hc => hc.mono h) hs ?_).mono ?_
  · intro a _ s' hs' hg hd
    refine (ih a.1 a.2 s' hs' ((hargs a.1 a.2).mono hg.le)
      fun v t h => (hsets v t h).mono hg.le).bind fun t s₁ hs₁ _ _ ht => ?_
    exact .pure hs₁ fun c hc => hd ▸ ht.denotes_point hc
  · intro points? ctx _ h points hpoints
    rw [← List.attach_map_subtype_val args, List.forall₂_map_left_iff]
    exact h points hpoints

theorem exists_pair {α β : Type} {R : α → β → Prop} {a b : α} {ys : List β}
    (h : List.Forall₂ R [a, b] ys) : ∃ c d, ys = [c, d] ∧ R a c ∧ R b d := by
  obtain ⟨c, _, hc, htail, rfl⟩ := List.forall₂_cons_left_iff.1 h
  obtain ⟨d, _, hd, hnil, rfl⟩ := List.forall₂_cons_left_iff.1 htail
  obtain rfl := List.forall₂_nil_left_iff.1 hnil
  exact ⟨c, d, rfl, hc, hd⟩

/-- Comparisons and connectives over operands with the same values. -/
theorem rebuild_ensures {ctx : Context} {known : Env Domain} {points : List ExprId}
    (he : ctx.Stored e) (hn : (ctx.node e).IsCondition)
    (hpoints : List.Forall₂ (fun a c => ctx.Denotes .all c (ValueWithin known sets a))
      (ctx.node e).children points) :
    Build.Ensures (Build.rebuild (ctx.node e) points) ctx fun r ctx' =>
      ctx'.Denotes .all r (ValueWithin known sets e) := by
  cases hnode : ctx.node e with
  | const | var | arith | call => simp [hnode, Node.IsCondition] at hn
  | compare op a b =>
      rw [hnode] at hpoints
      obtain ⟨c, d, rfl, hc, hd⟩ := exists_pair hpoints
      refine (Build.compare_denotes op hc.nodes hd.nodes).mono fun r ctx' hg hr => hr.of_imp ?_
      rintro ν hν z ⟨hadmits, hwithin, hz⟩
      have hν₀ := hg.le.trans hν
      have hn := (Context.node_eq hν₀ he).trans hnode
      obtain ⟨x, y, hx, hy, hz⟩ := (Valuation.value_compare_eq_some hn).1 hz
      exact ⟨x, y, hc.value ν hν₀ x ⟨hadmits, hwithin, hx⟩,
        hd.value ν hν₀ y ⟨hadmits, hwithin, hy⟩, hz⟩
  | and a b =>
      rw [hnode] at hpoints
      obtain ⟨c, d, rfl, hc, hd⟩ := exists_pair hpoints
      refine (Build.conj_denotes hc.nodes hd.nodes).mono fun r ctx' hg hr => hr.of_imp ?_
      rintro ν hν z ⟨hadmits, hwithin, hz⟩
      have hν₀ := hg.le.trans hν
      exact (hadmits.conjoins ((Context.node_eq hν₀ he).trans hnode) hz).mono
        (fun x hx => hc.value ν hν₀ x ⟨hadmits, hwithin, hx⟩)
        fun y hy => hd.value ν hν₀ y ⟨hadmits, hwithin, hy⟩
  | or a b =>
      rw [hnode] at hpoints
      obtain ⟨c, d, rfl, hc, hd⟩ := exists_pair hpoints
      refine (Build.disj_denotes hc.nodes hd.nodes).mono fun r ctx' hg hr => hr.of_imp ?_
      rintro ν hν z ⟨hadmits, hwithin, hz⟩
      have hν₀ := hg.le.trans hν
      exact (hadmits.disjoins ((Context.node_eq hν₀ he).trans hnode) hz).mono
        (fun x hx => hc.value ν hν₀ x ⟨hadmits, hwithin, hx⟩)
        fun y hy => hd.value ν hν₀ y ⟨hadmits, hwithin, hy⟩
  | not a =>
      rw [hnode] at hpoints
      obtain ⟨c, _, hc, htail, rfl⟩ := List.forall₂_cons_left_iff.1 hpoints
      obtain rfl := List.forall₂_nil_left_iff.1 htail
      refine (Build.negation_denotes hc.nodes).mono fun r ctx' hg hr => hr.of_imp ?_
      rintro ν hν z ⟨hadmits, hwithin, hz⟩
      have hν₀ := hg.le.trans hν
      have hn := (Context.node_eq hν₀ he).trans hnode
      obtain ⟨x, hx, hz⟩ := (Valuation.value_not_eq_some hn).1 hz
      refine ⟨fun b hb y hy => ?_, x, hc.value ν hν₀ x ⟨hadmits, hwithin, hx⟩, hz⟩
      exact hadmits.isBit c b (by simp [hb, Node.conditions]) y hy

theorem ValueWithin.combines {known : Env Domain} {op : Arith} {a b : ExprId} {ν : Valuation}
    {w : Int} (hn : ν.ctx.node e = .arith op a b) (h : ValueWithin known sets e ν w) :
    ValueSet.Combines known op (ValueWithin known sets a) (ValueWithin known sets b) ν w := by
  obtain ⟨hadmits, hwithin, hw⟩ := h
  obtain ⟨x, y, hx, hy, hw⟩ := (Valuation.value_arith_eq_some hn).1 hw
  exact ⟨hadmits, x, y, ⟨hadmits, hwithin, hx⟩, ⟨hadmits, hwithin, hy⟩, hw⟩

/-- A variable stays within its set, and is a symbol where it has none. -/
theorem variable_encloses {ctx : Context} {known : Env Domain} {v : VarId} (he : ctx.Stored e)
    (hn : ctx.node e = .var v) (hsets : ∀ v t, sets v = some t → ctx.StoredSet t) :
    ctx.Encloses ((sets v).getD (.point e)) (ValueWithin known sets e) := by
  cases hv : sets v with
  | none => exact Context.encloses_point ⟨Context.over_all he, fun ν _ x hx => hx.2.2⟩
  | some t =>
      have hholds : ∀ ν, ctx ≤ ν.ctx → ∀ x, ValueWithin known sets e ν x → ν.Holds t x := by
        rintro ν hν x ⟨-, hwithin, hx⟩
        rw [Valuation.value_var ((Context.node_eq hν he).trans hn)] at hx
        exact hwithin v t x hv hx
      exact ⟨fun c hc => ⟨(hsets v t hv).1 c hc, fun ν hν x hx => (hholds ν hν x hx).1 c hc⟩,
        fun c hc => ⟨(hsets v t hv).2 c hc, fun ν hν x hx => (hholds ν hν x hx).2 c hc⟩⟩

section

variable {ctx : Context} {known : Env Domain} {f : FunId} {args : List ExprId} {dims : List DimId}

/-- A call over operands with the same values. -/
theorem call_ensures {points : List ExprId} (hwf : ctx.WellFormed) (he : ctx.Stored e)
    (hn : ctx.node e = .call f args dims)
    (hpoints : List.Forall₂ (fun a c => ctx.Denotes .all c (ValueWithin known sets a)) args
      points) :
    Build.Ensures (intern (.call f points dims)) ctx fun r ctx' =>
      ctx'.Denotes .all r (ValueWithin known sets e) := by
  refine (Build.intern_ensures (K := .all) trivial ?_ ?_).mono fun r ctx' hg hr => ?_
  · intro c hc
    obtain ⟨i, hi, rfl⟩ := List.getElem_of_mem hc
    exact (hpoints.get (hpoints.length_eq ▸ hi) hi).nodes
  · rintro _ _ _ ⟨⟩
    exact hwf.call e f args dims hn
  · obtain ⟨hover, hr⟩ := hr
    refine ⟨hover, ?_⟩
    rintro ν hν w ⟨hadmits, hwithin, hw⟩
    have hν₀ := hg.le.trans hν
    exact Valuation.value_call_congr ((Context.node_eq hν₀ he).trans hn)
      ((Context.node_eq hν hover.stored).trans hr)
      (hpoints.imp fun a c h x hx => h.value ν hν₀ x ⟨hadmits, hwithin, hx⟩) hw

/-- The values of a call lie in the codomain of its function. -/
theorem codomain_ensures {d : Domain} (hwf : ctx.WellFormed) (he : ctx.Stored e)
    (hn : ctx.node e = .call f args dims) (hd : (ctx.fn f).codomain? = some d) :
    Build.Ensures (ValueSet.ofDomain d) ctx fun r ctx' =>
      ctx'.Encloses r (ValueWithin known sets e) := by
  refine (ValueSet.ofDomain_encloses (hwf.codomain f d hd)).mono fun r ctx' hg hr =>
    hr.of_imp ?_
  rintro ν hν w ⟨hadmits, hwithin, hw⟩
  have hν₀ := hg.le.trans hν
  have hcodomain := (hν₀.fn f (hwf.call e f args dims hn)).codomain d hd
  have hin := hadmits.inCodomain ν e f args dims d w (.top e)
    ((Context.node_eq hν₀ he).trans hn) hcodomain hw
  rwa [Valuation.shadow_self] at hin

end

/-- The set of both truth values. -/
theorem truths_ensures {P : Valuation → Int → Prop} (hs : s.Valid)
    (hbit : ∀ ν, s.ctx ≤ ν.ctx → ∀ z, P ν z → IsBit z) :
    Ensures (do return .between (← Build.boolean false) (← Build.boolean true)) s fun r ctx =>
      ctx.Encloses r P := by
  refine (Ensures.lift hs (Build.boolean_denotes s.ctx .all false)).bind ?_
  intro lo s₁ hs₁ hg₁ hd₁ hlo
  refine (Ensures.lift hs₁ (Build.boolean_denotes s₁.ctx .all true)).bind ?_
  intro hi s₂ hs₂ hg₂ hd₂ hhi
  have hbit₂ : ∀ ν, s₂.ctx ≤ ν.ctx → ∀ z, P ν z → IsBit z := fun ν hν =>
    hbit ν ((hg₁.trans hg₂).le.trans hν)
  refine .pure hs₂ ⟨Context.delimits_of_value (hlo.mono hg₂.le) fun ν hν z hz => ⟨0, rfl, ?_⟩,
    Context.delimits_of_value hhi fun ν hν z hz => ⟨1, rfl, ?_⟩⟩
  · rcases hbit₂ ν hν z hz with rfl | rfl <;> decide
  · rcases hbit₂ ν hν z hz with rfl | rfl <;> decide

theorem valued (sets : Env ValueSet) (e : ExprId) : Valued sets e := by
  intro s hs he hsets
  rw [valuesOf]
  refine .context ?_
  split
  · exact .pure hs (Context.encloses_point ⟨Context.over_all he, fun ν _ x hx => hx.2.2⟩)
  · next v hn => exact .pure hs (variable_encloses he hn hsets)
  · next op a b hn =>
    have hma : a ∈ (s.ctx.node e).children := by simp [hn, Node.children]
    have hmb : b ∈ (s.ctx.node e).children := by simp [hn, Node.children]
    refine (valued sets a s hs (he.child hma) hsets).bind fun t s₁ hs₁ hg₁ hd₁ ht => ?_
    refine (valued sets b s₁ hs₁ ((he.child hmb).mono hg₁.le)
      fun v t h => (hsets v t h).mono hg₁.le).bind fun u s₂ hs₂ hg₂ hd₂ hu => ?_
    have hparts : ∀ ν, s₂.ctx ≤ ν.ctx → ∀ w, ValueWithin s.domains sets e ν w →
        ValueSet.Combines s₂.domains op (ValueWithin s.domains sets a)
          (ValueWithin s.domains sets b) ν w := by
      intro ν hν w hw
      rw [hd₂, hd₁]
      exact hw.combines ((Context.node_eq ((hg₁.trans hg₂).le.trans hν) he).trans hn)
    have ht₂ := ht.mono hg₂.le
    rw [hd₁] at hu
    split
    · next x y hx hy =>
      refine (ValueSet.arithPoints_ensures op hs₂ (ht₂.denotes_point hx)
        (hu.denotes_point hy)).mono fun r ctx hg hr => ?_
      exact hr.of_imp fun ν hν => hparts ν (hg.le.trans hν)
    · refine (ValueSet.arith_ensures op hs₂ ht₂ hu).mono fun r ctx hg hr => ?_
      exact hr.of_imp fun ν hν => hparts ν (hg.le.trans hν)
  · next f args dims hn =>
    have hmem : ∀ c ∈ args, c ∈ (s.ctx.node e).children := by simp [hn, Node.children]
    refine (points_ensures hs (fun a ha => he.child (hmem a ha)) hsets
      fun c hc => valued sets c).bind fun points? s₁ hs₁ hg₁ hd₁ hpoints => ?_
    have he₁ := he.mono hg₁.le
    have hn₁ := (Context.node_eq hg₁.le he).trans hn
    cases points? with
    | some points =>
        refine (Ensures.lift hs₁ (call_ensures hs₁.wellFormed he₁ hn₁
          (hpoints points rfl))).bind fun r s₂ hs₂ _ _ hr => ?_
        exact .pure hs₂ (Context.encloses_point hr)
    | none =>
        refine .context ?_
        split
        · next d hd => exact .lift hs₁ (codomain_ensures hs₁.wellFormed he₁ hn₁ hd)
        · exact .pure hs₁ Context.encloses_everything
  · next hconst hvar harith hcall =>
    have hcond : (s.ctx.node e).IsCondition := by
      cases hn : s.ctx.node e with
      | const v t => exact hconst v t hn
      | var v => exact hvar v hn
      | arith op a b => exact harith op a b hn
      | call f args dims => exact hcall f args dims hn
      | compare | and | or | not => trivial
    refine (points_ensures hs (fun a ha => he.child ha) hsets fun c hc => valued sets c).bind ?_
    intro points? s₁ hs₁ hg₁ hd₁ hpoints
    have hnode : s₁.ctx.node e = s.ctx.node e := Context.node_eq hg₁.le he
    cases points? with
    | some points =>
        have hdenotes := hpoints points rfl
        rw [← hnode] at hcond hdenotes
        have hrebuild := rebuild_ensures (he.mono hg₁.le) hcond hdenotes
        rw [hnode] at hrebuild
        refine (Ensures.lift hs₁ hrebuild).bind fun q s₂ hs₂ hg₂ hd₂ hq => ?_
        refine (simplify_denotes hs₂ hq fun ν z hz => hd₂ ▸ hd₁ ▸ hz.1).bind ?_
        exact fun r s₃ hs₃ _ _ hr => .pure hs₃ (Context.encloses_point hr)
    | none =>
        refine truths_ensures hs₁ fun ν hν z hz => ?_
        exact Valuation.isBit_of_isCondition (Context.node_eq (hg₁.le.trans hν) he ▸ hcond) hz.2.2
termination_by e.index
decreasing_by
  all_goals first
    | exact Context.child_lt _ hma
    | exact Context.child_lt _ hmb
    | exact Context.child_lt _ hc
    | exact Context.child_lt _ (hmem c hc)

end Query

end LoopBounds
