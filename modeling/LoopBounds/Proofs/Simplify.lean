import LoopBounds.Analyzer.Simplify
import LoopBounds.Proofs.Affine
import LoopBounds.Proofs.Session

/-!
# Exactness of simplification

Simplification keeps the exact value of an expression, at every assignment that the known domains
admit.  There is one lemma for each kind of operator, about operands that are already simple, and
an induction over the expression that joins them.
-/

namespace LoopBounds.Query

variable {s : Session} {K : NodeClass} {P : Valuation → Int → Prop} {a b e : ExprId}

/-- The value of an operator over the values of two expressions. -/
abbrev ArithOf (op : Arith) (a b : ExprId) (ν : Valuation) (z : Int) : Prop :=
  ∃ x y, ν.value a = some x ∧ ν.value b = some y ∧ op.exact x y = some z

theorem operator_ensures (op : Arith) (hs : s.Valid) (ha : s.ctx.Over K a) (hb : s.ctx.Over K b) :
    Ensures (operator op a b) s fun r ctx => ctx.Denotes K r (ArithOf op a b) := by
  unfold operator
  split
  · next h =>
    refine (Ensures.lift hs (Build.arith_denotes op hb ha)).mono fun r ctx _ hr => hr.of_imp ?_
    rintro ν - z ⟨x, y, hx, hy, hz⟩
    exact ⟨y, x, hy, hx, Arith.exact_comm h.1 x y ▸ hz⟩
  · exact .lift hs (Build.arith_denotes op ha hb)

theorem difference?_ensures (hs : s.Valid) (ha : s.ctx.Over K a) (hb : s.ctx.Over K b) :
    Ensures (difference? a b) s fun r? ctx => ∀ r, r? = some r → ctx.Denotes K r fun ν z =>
      ∃ x y, ν.value a = some x ∧ ν.value b = some y ∧ x - y = z := by
  refine .context ?_
  split
  · next diff hdiff =>
    have hform := Affine.sub_denotes (Affine.ofExpr_denotes ha) (Affine.ofExpr_denotes hb) hdiff
    refine (Ensures.lift hs (Affine.toExpr_denotes hform _)).bind fun r s' hs' _ _ hr => ?_
    refine .pure hs' fun r' hr' => ?_
    cases hr'
    exact hr
  · exact .pure hs nofun

/-- The operator is kept where no form is found, so a form only has to be right. -/
theorem affineOr_ensures {form? : Option Affine} {type : Scalar} {op : Arith} (hs : s.Valid)
    (ha : s.ctx.Over K a) (hb : s.ctx.Over K b)
    (hform : ∀ form, form? = some form → form.Denotes s.ctx K P)
    (hop : ∀ ν, s.ctx ≤ ν.ctx → ∀ z, P ν z → ArithOf op a b ν z) :
    Ensures (affineOr form? type op a b) s fun r ctx => ctx.Denotes K r P := by
  unfold affineOr
  split
  · next form => exact .lift hs (Affine.toExpr_denotes (hform form rfl) type)
  · refine (Ensures.lift hs (Build.arith_denotes op ha hb)).mono fun r ctx hg hr => ?_
    exact hr.of_imp fun ν hν => hop ν (hg.le.trans hν)

theorem simplifySum_ensures {type : Scalar} (hs : s.Valid) (ha : s.ctx.Over K a)
    (hb : s.ctx.Over K b) :
    Ensures (affineOr ((Affine.ofExpr s.ctx a).add (Affine.ofExpr s.ctx b)) type .add a b) s
      fun r ctx => ctx.Denotes K r (ArithOf .add a b) := by
  refine affineOr_ensures hs ha hb (fun form hform => ?_) fun _ _ _ => id
  refine (Affine.add_denotes (Affine.ofExpr_denotes ha) (Affine.ofExpr_denotes hb) hform).of_imp ?_
  rintro ν - z ⟨x, y, hx, hy, hz⟩
  exact ⟨x, y, hx, hy, Option.some_inj.1 hz⟩

theorem simplifyDifference_ensures {type : Scalar} (hs : s.Valid) (ha : s.ctx.Over K a)
    (hb : s.ctx.Over K b) :
    Ensures (affineOr ((Affine.ofExpr s.ctx a).sub (Affine.ofExpr s.ctx b)) type .sub a b) s
      fun r ctx => ctx.Denotes K r (ArithOf .sub a b) := by
  refine affineOr_ensures hs ha hb (fun form hform => ?_) fun _ _ _ => id
  refine (Affine.sub_denotes (Affine.ofExpr_denotes ha) (Affine.ofExpr_denotes hb) hform).of_imp ?_
  rintro ν - z ⟨x, y, hx, hy, hz⟩
  exact ⟨x, y, hx, hy, Option.some_inj.1 hz⟩

theorem simplifyProduct_ensures {type : Scalar} (hs : s.Valid) (ha : s.ctx.Over K a)
    (hb : s.ctx.Over K b) :
    Ensures (simplifyProduct type a b) s fun r ctx => ctx.Denotes K r (ArithOf .mul a b) := by
  have hfa := Affine.ofExpr_denotes ha
  have hfb := Affine.ofExpr_denotes hb
  refine .context ?_
  dsimp only
  split
  · next c _ hc =>
    refine affineOr_ensures hs ha hb (fun form hform => ?_) fun _ _ _ => id
    refine (Affine.scale_denotes hfa hform).of_imp ?_
    rintro ν hν z ⟨x, y, hx, hy, hz⟩
    have hyc := (hfb.value ν hν y hy).of_const? hc
    exact ⟨x, hx, hyc ▸ Option.some_inj.1 hz⟩
  · next c hc _ =>
    refine affineOr_ensures hs ha hb (fun form hform => ?_) fun _ _ _ => id
    refine (Affine.scale_denotes hfb hform).of_imp ?_
    rintro ν hν z ⟨x, y, hx, hy, hz⟩
    have hxc := (hfa.value ν hν x hx).of_const? hc
    exact ⟨y, hy, by rw [← hxc, mul_comm]; exact Option.some_inj.1 hz⟩
  · exact operator_ensures .mul hs ha hb

/-- A positive divisor takes its multiples out of a quotient. -/
theorem fdiv_of_split {q r c : Int} (hc : 0 < c) : (q * c + r).fdiv c = q + r.fdiv c := by
  rw [Int.fdiv_eq_ediv_of_nonneg _ hc.le, Int.fdiv_eq_ediv_of_nonneg _ hc.le, add_comm,
    Int.add_mul_ediv_right _ _ hc.ne', add_comm]

theorem fmod_of_split {q r c : Int} : (q * c + r).fmod c = r.fmod c := by
  rw [add_comm, Int.add_mul_fmod_self_right]

/-- The value of a division by a literal. -/
def DivisionOf (known : Env Domain) (op : Arith) (a : ExprId) (c : Int64) (ν : Valuation)
    (z : Int) : Prop :=
  ν.Admits known ∧ ∃ x, ν.value a = some x ∧ op.exact x c.toInt = some z

/-- The dividend `a` is a multiple of `c`, whose quotient `quotient` stands for, and a remainder
within `i`, which `remainder` stands for and which `rest` was stored for. -/
structure DivisionParts (known : Env Domain) (ctx : Context) (K : NodeClass) (a : ExprId)
    (c : Int64) (quotient remainder : Affine) (i : Interval) (rest divisor : ExprId) : Prop where
  dividend : ctx.Over K a
  forQuotient : quotient.Denotes ctx K fun ν q => Affine.HasValue ν quotient q
  forRemainder : remainder.Denotes ctx K fun ν r => Affine.HasValue ν remainder r
  forRest : ctx.Denotes K rest fun ν r => Affine.HasValue ν remainder r
  forDivisor : ctx.Denotes K divisor fun _ z => z = c.toInt
  split : ∀ ν : Valuation, ctx ≤ ν.ctx → ν.Admits known → ∀ x, ν.value a = some x →
    ∃ q r, Affine.HasValue ν quotient q ∧ Affine.HasValue ν remainder r ∧ i.Contains r ∧
      q * c.toInt + r = x

section

variable {quotient remainder : Affine} {rest divisor : ExprId} {i : Interval} {c k : Int64}
  {type : Scalar}

namespace DivisionParts

variable {known : Env Domain} {ctx ctx' : Context} {ν : Valuation} {z : Int}

theorem mono (hctx : ctx ≤ ctx')
    (h : DivisionParts known ctx K a c quotient remainder i rest divisor) :
    DivisionParts known ctx' K a c quotient remainder i rest divisor :=
  ⟨h.dividend.mono hctx, h.forQuotient.mono hctx, h.forRemainder.mono hctx, h.forRest.mono hctx,
    h.forDivisor.mono hctx, fun ν hν => h.split ν (hctx.trans hν)⟩

theorem kept {op : Arith} (h : DivisionParts known ctx K a c quotient remainder i rest divisor)
    (hν : ctx ≤ ν.ctx) (hz : DivisionOf known op a c ν z) : ArithOf op a divisor ν z := by
  obtain ⟨-, x, hx, hz⟩ := hz
  exact ⟨x, c.toInt, hx, h.forDivisor.value ν hν _ rfl, hz⟩

theorem floorDiv_value (h : DivisionParts known ctx K a c quotient remainder i rest divisor)
    (hc : 0 < c.toInt) (hν : ctx ≤ ν.ctx) (hz : DivisionOf known .floorDiv a c ν z) :
    ∃ q r, Affine.HasValue ν quotient q ∧ Affine.HasValue ν remainder r ∧ i.Contains r ∧
      q + r.fdiv c.toInt = z := by
  obtain ⟨hadmits, x, hx, hz⟩ := hz
  obtain ⟨q, r, hq, hr, hir, rfl⟩ := h.split ν hν hadmits x hx
  rw [Arith.exact, if_neg hc.ne', Option.some_inj, fdiv_of_split hc] at hz
  exact ⟨q, r, hq, hr, hir, hz⟩

theorem floorMod_value (h : DivisionParts known ctx K a c quotient remainder i rest divisor)
    (hc : 0 < c.toInt) (hν : ctx ≤ ν.ctx) (hz : DivisionOf known .floorMod a c ν z) :
    ∃ r, Affine.HasValue ν remainder r ∧ i.Contains r ∧ r.fmod c.toInt = z := by
  obtain ⟨hadmits, x, hx, hz⟩ := hz
  obtain ⟨q, r, -, hr, hir, rfl⟩ := h.split ν hν hadmits x hx
  rw [Arith.exact, if_neg hc.ne', Option.some_inj, fmod_of_split] at hz
  exact ⟨r, hr, hir, hz⟩

end DivisionParts

theorem quotientInBlock_ensures (hs : s.Valid)
    (h : DivisionParts s.domains s.ctx K a c quotient remainder i rest divisor)
    (hc : 0 < c.toInt) (hk : i.block? c = some k) :
    Ensures (affineOr (quotient.add (.ofConst k)) type .floorDiv a divisor) s fun r ctx =>
      ctx.Denotes K r (DivisionOf s.domains .floorDiv a c) := by
  refine affineOr_ensures hs h.dividend h.forDivisor.nodes (fun form hform => ?_)
    fun ν hν z => h.kept hν
  refine (Affine.add_denotes h.forQuotient (Affine.ofConst_denotes s.ctx K k) hform).of_imp ?_
  intro ν hν z hz
  obtain ⟨q, r, hq, -, hir, rfl⟩ := h.floorDiv_value hc hν hz
  exact ⟨q, k.toInt, hq, rfl, by rw [Interval.fdiv_of_block? hir hc hk]⟩

theorem remainderInBlock_ensures (hs : s.Valid)
    (h : DivisionParts s.domains s.ctx K a c quotient remainder i rest divisor)
    (hc : 0 < c.toInt) (hk : i.block? c = some k) :
    Ensures (affineOr (do remainder.sub (.ofConst (← Word.mul k c))) type .floorMod a divisor) s
      fun r ctx => ctx.Denotes K r (DivisionOf s.domains .floorMod a c) := by
  refine affineOr_ensures hs h.dividend h.forDivisor.nodes (fun form hform => ?_)
    fun ν hν z => h.kept hν
  obtain ⟨m, hm, hform⟩ := Option.bind_eq_some_iff.1 hform
  refine (Affine.sub_denotes h.forRemainder (Affine.ofConst_denotes s.ctx K m) hform).of_imp ?_
  intro ν hν z hz
  obtain ⟨r, hr, hir, rfl⟩ := h.floorMod_value hc hν hz
  refine ⟨r, m.toInt, hr, rfl, ?_⟩
  rw [Word.toInt_of_checked hm, Int.fmod_def, Interval.fdiv_of_block? hir hc hk, mul_comm]

theorem quotientOfRest_ensures (hs : s.Valid)
    (h : DivisionParts s.domains s.ctx K a c quotient remainder i rest divisor)
    (hc : 0 < c.toInt) :
    Ensures (do
      let inner ← Build.arith .floorDiv rest divisor
      if quotient.const? = some 0 then return inner
      affineOr (quotient.add (.atom inner)) type .floorDiv a divisor) s fun r ctx =>
        ctx.Denotes K r (DivisionOf s.domains .floorDiv a c) := by
  have hdiv := Build.arith_denotes .floorDiv h.forRest.nodes h.forDivisor.nodes
  refine (Ensures.lift hs hdiv).bind ?_
  intro inner s' hs' hg hd hinner
  have h' := h.mono hg.le
  have hvalue : ∀ ν, s'.ctx ≤ ν.ctx → ∀ r, Affine.HasValue ν remainder r →
      ν.value inner = some (r.fdiv c.toInt) := fun ν hν r hr =>
    hinner.value ν hν _ ⟨r, c.toInt, h'.forRest.value ν hν r hr, h'.forDivisor.value ν hν _ rfl,
      if_neg hc.ne'⟩
  split
  · next hzero =>
    refine .pure hs' ⟨hinner.nodes, fun ν hν z hz => ?_⟩
    obtain ⟨q, r, hq, hr, -, rfl⟩ := h'.floorDiv_value hc hν hz
    rw [hq.of_const? hzero, Int64.toInt_zero, zero_add]
    exact hvalue ν hν r hr
  · refine affineOr_ensures hs' h'.dividend h'.forDivisor.nodes (fun form hform => ?_)
      fun ν hν z => h'.kept hν
    refine (Affine.add_denotes h'.forQuotient
      (Affine.atom_denotes (Context.denotes_value hinner.nodes)) hform).of_imp ?_
    intro ν hν z hz
    obtain ⟨q, r, hq, hr, -, rfl⟩ := h'.floorDiv_value hc hν hz
    exact ⟨q, _, hq, hvalue ν hν r hr, rfl⟩

theorem remainderOfRest_ensures (hs : s.Valid)
    (h : DivisionParts s.domains s.ctx K a c quotient remainder i rest divisor)
    (hc : 0 < c.toInt) :
    Ensures (liftM (Build.arith .floorMod rest divisor)) s fun r ctx =>
      ctx.Denotes K r (DivisionOf s.domains .floorMod a c) := by
  have hmod := Build.arith_denotes .floorMod h.forRest.nodes h.forDivisor.nodes
  refine (Ensures.lift hs hmod).mono ?_
  refine fun r ctx hg hr => hr.of_imp fun ν hν z hz => ?_
  have h' := h.mono hg.le
  obtain ⟨y, hy, -, rfl⟩ := h'.floorMod_value hc hν hz
  exact ⟨y, c.toInt, h'.forRest.value ν hν y hy, h'.forDivisor.value ν hν _ rfl, if_neg hc.ne'⟩

theorem simplifyDivision_ensures {op : Arith} (hop : op = .floorDiv ∨ op = .floorMod)
    (hc : 0 < c) (hs : s.Valid) (ha : s.ctx.Over K a) :
    Ensures (simplifyDivision op type a c) s fun r ctx =>
      ctx.Denotes K r (DivisionOf s.domains op a c) := by
  have hc' : 0 < c.toInt := Int64.lt_iff_toInt_lt.1 hc
  have hform := Affine.ofExpr_denotes ha
  obtain ⟨hnq, hnr⟩ := Affine.nodes_splitBy (d := c) hform.nodes
  have hsplit : ∀ ν : Valuation, s.ctx ≤ ν.ctx → ∀ x, ν.value a = some x → ∃ q r,
      Affine.HasValue ν ((Affine.ofExpr s.ctx a).splitBy c).1 q ∧
        Affine.HasValue ν ((Affine.ofExpr s.ctx a).splitBy c).2 r ∧ q * c.toInt + r = x :=
    fun ν hν x hx => (hform.value ν hν x hx).splitBy hc
  refine .context ?_
  dsimp only
  generalize (Affine.ofExpr s.ctx a).splitBy c = parts at hnq hnr hsplit ⊢
  obtain ⟨quotient, remainder⟩ := parts
  have hremainder := Affine.denotes_hasValue hnr
  refine (Ensures.lift hs (Affine.toExpr_denotes hremainder type)).bind ?_
  intro rest s₁ hs₁ hg₁ hd₁ hrest
  refine (bound_ensures hs₁ hrest.stored).bind fun i s₂ hs₂ hg₂ hd₂ hi => ?_
  refine (Ensures.lift hs₂ (Build.constant_denotes s₂.ctx K c type)).bind ?_
  intro divisor s₃ hs₃ hg₃ hd₃ hdivisor
  have hle₃ := (hg₂.trans hg₃).le
  have hle := hg₁.le.trans hle₃
  have h : DivisionParts s₃.domains s₃.ctx K a c quotient remainder i rest divisor := by
    refine ⟨ha.mono hle, (Affine.denotes_hasValue hnq).mono hle, hremainder.mono hle,
      hrest.mono hle₃, hdivisor, fun ν hν hadmits x hx => ?_⟩
    obtain ⟨q, r, hq, hr, hx⟩ := hsplit ν (hle.trans hν) x hx
    have hrest := hrest.value ν (hle₃.trans hν) r hr
    rw [hd₃, hd₂] at hadmits
    exact ⟨q, r, hq, hr, hi.2.contains (hg₃.le.trans hν) hadmits hrest, hx⟩
  rw [← hd₁, ← hd₂, ← hd₃]
  rcases hop with rfl | rfl
  · cases hk : i.block? c with
    | some k => exact quotientInBlock_ensures hs₃ h hc' hk
    | none => exact quotientOfRest_ensures hs₃ h hc'
  · cases hk : i.block? c with
    | some k => exact remainderInBlock_ensures hs₃ h hc' hk
    | none => exact remainderOfRest_ensures hs₃ h hc'

end

theorem simplifyDivisionBy_ensures {op : Arith} (hop : op = .floorDiv ∨ op = .floorMod)
    {type : Scalar} (hs : s.Valid) (ha : s.ctx.Over K a) (hb : s.ctx.Over K b) :
    Ensures (simplifyDivisionBy op type a b) s fun r ctx => ctx.Denotes K r fun ν z =>
      ν.Admits s.domains ∧ ArithOf op a b ν z := by
  refine .context ?_
  have hkept : Ensures (liftM (Build.arith op a b) : Query ExprId) s fun r ctx =>
      ctx.Denotes K r fun ν z => ν.Admits s.domains ∧ ArithOf op a b ν z :=
    (Ensures.lift hs (Build.arith_denotes op ha hb)).mono fun r ctx _ hr =>
      hr.of_imp fun _ _ _ hz => hz.2
  split
  · next c hc =>
    have hval : ∀ ν : Valuation, s.ctx ≤ ν.ctx → ∀ y, ν.value b = some y → y = c.toInt :=
      fun ν hν y hy => Option.some_inj.1 (hy.symm.trans (Build.value_of_literal? hν hb.stored hc))
    split
    · next hpos =>
      refine (simplifyDivision_ensures hop hpos hs ha).mono fun r ctx hg hr => hr.of_imp ?_
      rintro ν hν z ⟨hadmits, x, y, hx, hy, hz⟩
      exact ⟨hadmits, x, hx, hval ν (hg.le.trans hν) y hy ▸ hz⟩
    · split
      · next hzero =>
        refine .lift hs (Build.intern_denotes (K.arith op a b)
          (by simpa [Node.children] using ⟨ha, hb⟩) nofun ?_)
        rintro ν r hn z ⟨-, x, y, hx, hy, hz⟩
        rw [Valuation.value_arith hn, hx, hy]
        exact hz
      · exact hkept
  · exact hkept

/-- The difference of two expressions lies in the interval. -/
def Differ (ctx : Context) (known : Env Domain) (a b : ExprId) (i : Interval) : Prop :=
  ∀ ν : Valuation, ctx ≤ ν.ctx → ν.Admits known → ∀ x y, ν.value a = some x →
    ν.value b = some y → i.Contains (x - y)

theorem bound_difference {d : ExprId} (hs : s.Valid) (hd : s.ctx.Denotes K d fun ν z =>
      ∃ x y, ν.value a = some x ∧ ν.value b = some y ∧ x - y = z) :
    Ensures (bound d) s fun i ctx => Differ ctx s.domains a b i :=
  (bound_ensures hs hd.stored).mono fun _ _ hg hi ν hν hadmits x y hx hy =>
    hi.2.contains hν hadmits (hd.value ν (hg.le.trans hν) _ ⟨x, y, hx, hy, rfl⟩)

/-- The sign of the difference chooses between the lesser and the greater operand. -/
theorem choose_ensures {op : Arith} {i : Interval} {lesser greater : ExprId} {known : Env Domain}
    (hs : s.Valid) (ha : s.ctx.Over K a) (hb : s.ctx.Over K b) (hl : s.ctx.Over K lesser)
    (hg : s.ctx.Over K greater) (hi : Differ s.ctx known a b i)
    (hchoice : ∀ (ν : Valuation) x y z, ν.value a = some x → ν.value b = some y →
      op.exact x y = some z →
      (x ≤ y → ν.value lesser = some z) ∧ (y ≤ x → ν.value greater = some z)) :
    Ensures (do
      if i.hi ≤ 0 then return lesser
      if 0 ≤ i.lo then return greater
      operator op a b) s fun r ctx => ctx.Denotes K r fun ν z =>
        ν.Admits known ∧ ArithOf op a b ν z := by
  split
  · next hhi =>
    refine .pure hs ⟨hl, ?_⟩
    rintro ν hν z ⟨hadmits, x, y, hx, hy, hz⟩
    refine (hchoice ν x y z hx hy hz).1 ?_
    have hxy := (hi ν hν hadmits x y hx hy).2.trans (Int64.le_iff_toInt_le.1 hhi)
    rw [Int64.toInt_zero] at hxy
    omega
  · split
    · next hlo =>
      refine .pure hs ⟨hg, ?_⟩
      rintro ν hν z ⟨hadmits, x, y, hx, hy, hz⟩
      refine (hchoice ν x y z hx hy hz).2 ?_
      have hxy := (Int64.le_iff_toInt_le.1 hlo).trans (hi ν hν hadmits x y hx hy).1
      rw [Int64.toInt_zero] at hxy
      omega
    · exact (operator_ensures op hs ha hb).mono fun r ctx _ hr => hr.of_imp fun _ _ _ hz => hz.2

theorem simplifyChoice_ensures {op : Arith} (hop : op = .min ∨ op = .max) (hs : s.Valid)
    (ha : s.ctx.Over K a) (hb : s.ctx.Over K b) :
    Ensures (simplifyChoice op a b) s fun r ctx => ctx.Denotes K r fun ν z =>
      ν.Admits s.domains ∧ ArithOf op a b ν z := by
  refine (difference?_ensures hs ha hb).bind fun d? s₁ hs₁ hg₁ hd₁ hdiff => ?_
  cases d? with
  | none =>
      refine (operator_ensures op hs₁ (ha.mono hg₁.le) (hb.mono hg₁.le)).mono ?_
      exact fun r ctx _ hr => hr.of_imp fun _ _ _ hz => hz.2
  | some d =>
      dsimp only
      rw [bind_map_left]
      refine (bound_difference hs₁ (hdiff d rfl)).bind fun i s₂ hs₂ hg₂ hd₂ hi => ?_
      have hle₂ := (hg₁.trans hg₂).le
      rw [hd₁] at hi
      rcases hop with rfl | rfl
      · refine choose_ensures hs₂ (ha.mono hle₂) (hb.mono hle₂) (ha.mono hle₂) (hb.mono hle₂) hi ?_
        intro ν x y z hx hy hz
        have hmin : min x y = z := Option.some_inj.1 hz
        exact ⟨fun h => hx.trans (by rw [← hmin, min_eq_left h]),
          fun h => hy.trans (by rw [← hmin, min_eq_right h])⟩
      · refine choose_ensures hs₂ (ha.mono hle₂) (hb.mono hle₂) (hb.mono hle₂) (ha.mono hle₂) hi ?_
        intro ν x y z hx hy hz
        have hmax : max x y = z := Option.some_inj.1 hz
        exact ⟨fun h => hy.trans (by rw [← hmax, max_eq_right h]),
          fun h => hx.trans (by rw [← hmax, max_eq_left h])⟩

theorem simplifyArith_ensures (op : Arith) {type : Scalar} (hs : s.Valid) (ha : s.ctx.Over K a)
    (hb : s.ctx.Over K b) :
    Ensures (simplifyArith op type a b) s fun r ctx => ctx.Denotes K r fun ν z =>
      ν.Admits s.domains ∧ ArithOf op a b ν z := by
  have weaken : ∀ {q : Query ExprId},
      Ensures q s (fun r ctx => ctx.Denotes K r (ArithOf op a b)) →
      Ensures q s fun r ctx => ctx.Denotes K r fun ν z =>
        ν.Admits s.domains ∧ ArithOf op a b ν z :=
    fun h => h.mono fun r ctx _ hr => hr.of_imp fun _ _ _ hz => hz.2
  cases op with
  | add => exact weaken (.context (simplifySum_ensures hs ha hb))
  | sub => exact weaken (.context (simplifyDifference_ensures hs ha hb))
  | mul => exact weaken (simplifyProduct_ensures hs ha hb)
  | floorDiv => exact simplifyDivisionBy_ensures (.inl rfl) hs ha hb
  | floorMod => exact simplifyDivisionBy_ensures (.inr rfl) hs ha hb
  | min => exact simplifyChoice_ensures (.inl rfl) hs ha hb
  | max => exact simplifyChoice_ensures (.inr rfl) hs ha hb

theorem simplifyCompare_ensures (op : Comparison) (hs : s.Valid) (ha : s.ctx.Over K a)
    (hb : s.ctx.Over K b) :
    Ensures (simplifyCompare op a b) s fun r ctx => ctx.Denotes K r fun ν z =>
      ν.Admits s.domains ∧
        ∃ x y, ν.value a = some x ∧ ν.value b = some y ∧ (op.exact x y).toInt = z := by
  have hkept : ∀ {s' : Session}, s'.Valid → s.ctx ≤ s'.ctx →
      Ensures (liftM (Build.compare op a b) : Query ExprId) s' fun r ctx =>
        ctx.Denotes K r fun ν z => ν.Admits s.domains ∧
          ∃ x y, ν.value a = some x ∧ ν.value b = some y ∧ (op.exact x y).toInt = z :=
    fun hs' hle => (Ensures.lift hs' (Build.compare_denotes op (ha.mono hle) (hb.mono hle))).mono
      fun r ctx _ hr => hr.of_imp fun _ _ _ hz => hz.2
  refine (difference?_ensures hs ha hb).bind fun d? s₁ hs₁ hg₁ hd₁ hdiff => ?_
  cases d? with
  | none => exact hkept hs₁ hg₁.le
  | some d =>
      refine (bound_difference hs₁ (hdiff d rfl)).bind fun i s₂ hs₂ hg₂ hd₂ hi => ?_
      rw [hd₁] at hi
      rw [pure_bind]
      cases hanswer : op.decideWithin i with
      | none => exact hkept hs₂ (hg₁.trans hg₂).le
      | some answer =>
          refine (Ensures.lift hs₂ (Build.boolean_denotes s₂.ctx K answer)).mono ?_
          refine fun r ctx hg hr => hr.of_imp ?_
          rintro ν hν z ⟨hadmits, x, y, hx, hy, rfl⟩
          rw [Comparison.exact_of_decideWithin (hi ν (hg.le.trans hν) hadmits x y hx hy) hanswer]

theorem simplifyNegation_ensures (hs : s.Valid) (ha : s.ctx.Over K a) :
    Ensures (simplifyNegation a) s fun r ctx => ctx.Denotes K r fun ν z =>
      ν.Admits s.domains ∧ ∃ x, ν.value a = some x ∧ (decide (x = 0)).toInt = z := by
  refine .context ?_
  split
  · next op x y hn =>
    have hx := ha.child (c := x) (by simp [hn, Node.children])
    have hy := ha.child (c := y) (by simp [hn, Node.children])
    refine (Ensures.lift hs (Build.compare_denotes op.negate hx hy)).mono fun r ctx hg hr => ?_
    refine hr.of_imp ?_
    rintro ν hν z ⟨-, u, hu, rfl⟩
    have hnode := (Context.node_eq (hg.le.trans hν) ha.stored).trans hn
    obtain ⟨v, w, hv, hw, rfl⟩ := (Valuation.value_compare_eq_some hnode).1 hu
    refine ⟨v, w, hv, hw, ?_⟩
    rw [Comparison.exact_negate]
    cases op.exact v w <;> rfl
  · refine (Ensures.lift hs (Build.negation_denotes ha)).mono fun r ctx hg hr => hr.of_imp ?_
    rintro ν hν z ⟨hadmits, x, hx, hz⟩
    refine ⟨fun c hc y hy => hadmits.isBit a c ?_ y hy, x, hx, hz⟩
    simp [hc, Node.conditions]

/-! ## The induction over expressions -/

/-- What the induction over expressions gives for an operand. -/
def Simplified (e : ExprId) : Prop :=
  ∀ s : Session, s.Valid → s.ctx.Stored e →
    Ensures (simplify e) s fun r ctx => ctx.Simplifies s.domains e r

/-- An operator over two operands keeps its value when it is taken over simplified ones. -/
theorem simplify_binary {q : ExprId → ExprId → Query ExprId}
    {P : ExprId → ExprId → Valuation → Int → Prop} (hs : s.Valid) (he : s.ctx.Stored e)
    (hchildren : (s.ctx.node e).children = [a, b]) (iha : Simplified a) (ihb : Simplified b)
    (hq : ∀ (s' : Session) K c d, s'.Valid → s'.ctx.Over K c → s'.ctx.Over K d →
      Ensures (q c d) s' fun r ctx => ctx.Denotes K r fun ν z =>
        ν.Admits s'.domains ∧ P c d ν z)
    (hP : ∀ ν : Valuation, s.ctx ≤ ν.ctx → ν.Admits s.domains → ∀ z, ν.value e = some z →
      ∀ c d, (∀ x, ν.value a = some x → ν.value c = some x) →
        (∀ y, ν.value b = some y → ν.value d = some y) → P c d ν z) :
    Ensures (do
      let c ← simplify a
      let d ← simplify b
      let r ← q c d
      recordSimplified e r
      return r) s fun r ctx => ctx.Simplifies s.domains e r := by
  have hma : a ∈ (s.ctx.node e).children := by simp [hchildren]
  have hmb : b ∈ (s.ctx.node e).children := by simp [hchildren]
  refine (iha s hs (he.child hma)).bind fun c s₁ hs₁ hg₁ hd₁ hc => ?_
  refine (ihb s₁ hs₁ ((he.child hmb).mono hg₁.le)).bind fun d s₂ hs₂ hg₂ hd₂ hd => ?_
  have hle := (hg₁.trans hg₂).le
  have hdom : s₂.domains = s.domains := hd₂.trans hd₁
  have hc₂ := hc.mono hg₂.le
  rw [hd₁] at hd
  refine (remember_ensures (he.mono hle) fun K hK => ?_).mono fun r ctx _ h => hdom ▸ h
  rw [hdom]
  have hKe := hK.restrict hle he
  have hca := hc₂.denotes K ((hKe.child hma).mono hle)
  have hdb := hd.denotes K ((hKe.child hmb).mono hle)
  refine (hq s₂ K c d hs₂ hca.nodes hdb.nodes).mono fun r ctx hg hr => hr.of_imp ?_
  rintro ν hν z ⟨hadmits, hz⟩
  have hν₂ := hg.le.trans hν
  exact ⟨hdom ▸ hadmits, hP ν (hle.trans hν₂) hadmits z hz c d
    (fun x hx => hca.value ν hν₂ x ⟨hadmits, hx⟩) fun y hy => hdb.value ν hν₂ y ⟨hadmits, hy⟩⟩

theorem simplify_leaf (hs : s.Valid) (he : s.ctx.Stored e) :
    Ensures (do
      let r ← (pure e : Query ExprId)
      recordSimplified e r
      return r) s fun r ctx => ctx.Simplifies s.domains e r :=
  remember_ensures he fun _ hK =>
    .pure hs ((Context.denotes_value hK).of_imp fun _ _ _ hz => hz.2)

theorem simplify_call {f : FunId} {args : List ExprId} {dims : List DimId} (hs : s.Valid)
    (he : s.ctx.Stored e) (hn : s.ctx.node e = .call f args dims)
    (ih : ∀ c ∈ args, Simplified c) :
    Ensures (do
      let args ← args.attach.mapM fun ⟨a, _⟩ => simplify a
      let r ← liftM (intern (.call f args dims))
      recordSimplified e r
      return r) s fun r ctx => ctx.Simplifies s.domains e r := by
  have hchild : ∀ c ∈ args, c ∈ (s.ctx.node e).children := by simp [hn, Node.children]
  refine (mapM_ensures (C := fun ctx (a : { a // a ∈ args }) r => ctx.Simplifies s.domains a.1 r)
    (fun hle h => h.mono hle) hs fun a _ s' hs' hg hd => ?_).bind ?_
  · exact hd ▸ ih a.1 a.2 s' hs' ((he.child (hchild a.1 a.2)).mono hg.le)
  intro args' s₁ hs₁ hg₁ hd₁ hargs
  have hargs' : List.Forall₂ (s₁.ctx.Simplifies s.domains) args args' := by
    rw [← List.forall₂_map_left_iff (f := Subtype.val), List.attach_map_subtype_val] at hargs
    exact hargs
  refine (remember_ensures (he.mono hg₁.le) fun K hK => .lift hs₁ ?_).mono
    fun r ctx _ h => hd₁ ▸ h
  have hnode : ∀ {ctx : Context}, s₁.ctx ≤ ctx → ctx.node e = .call f args dims := fun h =>
    (Context.node_eq (hg₁.le.trans h) he).trans hn
  have hmem := hK.mem
  rw [hnode le_rfl] at hmem
  have hKe := hK.restrict hg₁.le he
  have hdenotes : List.Forall₂
      (fun a r => s₁.ctx.Denotes K r (Context.AdmittedValue s.domains a)) args args' := by
    refine (List.forall₂_and_left args args' |>.2 ⟨fun a ha => ha, hargs'⟩).imp ?_
    rintro a r ⟨ha, h⟩
    exact h.denotes K ((hKe.child (hchild a ha)).mono hg₁.le)
  refine (Build.intern_ensures (K.call f args args' dims hmem) ?_ ?_).mono ?_
  · intro c hc
    obtain ⟨i, hi, rfl⟩ := List.getElem_of_mem hc
    exact (hdenotes.get (hdenotes.length_eq ▸ hi) hi).nodes
  · rintro f' _ _ ⟨⟩
    exact hs₁.wellFormed.call e f args dims (hnode le_rfl)
  · rintro r ctx hg ⟨hover, hr⟩
    refine ⟨hover, ?_⟩
    rintro ν hν z ⟨hadmits, hz⟩
    have hν₁ := hg.le.trans hν
    exact Valuation.value_call_congr (hnode hν₁) ((Context.node_eq hν hover.stored).trans hr)
      (hdenotes.imp fun a c h x hx => h.value ν hν₁ x ⟨hd₁ ▸ hadmits, hx⟩) hz

theorem simplified (e : ExprId) : Simplified e := by
  intro s hs he
  rw [simplify]
  refine .analyzer ?_
  split
  · next r hr =>
    obtain ⟨-, hr⟩ := Option.ite_none_right_eq_some.1 hr
    exact .pure hs (hs.simplified e r hr)
  refine .context ?_
  dsimp only
  split
  · next v t hn => exact simplify_leaf hs he
  · next v hn => exact simplify_leaf hs he
  · next op a b hn =>
    have hma : a ∈ (s.ctx.node e).children := by simp [hn, Node.children]
    have hmb : b ∈ (s.ctx.node e).children := by simp [hn, Node.children]
    refine simplify_binary hs he (by rw [hn, Node.children]) (simplified a) (simplified b)
      (fun s' K c d hs' hc hd => simplifyArith_ensures op hs' hc hd) ?_
    intro ν hν hadmits z hz c d hac hbd
    have hnode := (Context.node_eq hν he).trans hn
    obtain ⟨x, y, hx, hy, hz⟩ := (Valuation.value_arith_eq_some hnode).1 hz
    exact ⟨x, y, hac x hx, hbd y hy, hz⟩
  · next op a b hn =>
    have hma : a ∈ (s.ctx.node e).children := by simp [hn, Node.children]
    have hmb : b ∈ (s.ctx.node e).children := by simp [hn, Node.children]
    refine simplify_binary hs he (by rw [hn, Node.children]) (simplified a) (simplified b)
      (fun s' K c d hs' hc hd => simplifyCompare_ensures op hs' hc hd) ?_
    intro ν hν hadmits z hz c d hac hbd
    have hnode := (Context.node_eq hν he).trans hn
    obtain ⟨x, y, hx, hy, hz⟩ := (Valuation.value_compare_eq_some hnode).1 hz
    exact ⟨x, y, hac x hx, hbd y hy, hz⟩
  · next a b hn =>
    have hma : a ∈ (s.ctx.node e).children := by simp [hn, Node.children]
    have hmb : b ∈ (s.ctx.node e).children := by simp [hn, Node.children]
    refine simplify_binary (P := fun c d ν z => Conjoins (ν.value c) (ν.value d) z) hs he
      (by rw [hn, Node.children]) (simplified a) (simplified b) (fun s' K c d hs' hc hd => ?_) ?_
    · exact (Ensures.lift hs' (Build.conj_denotes hc hd)).mono fun r ctx _ hr =>
        hr.of_imp fun _ _ _ hz => hz.2
    intro ν hν hadmits z hz c d hac hbd
    exact (hadmits.conjoins ((Context.node_eq hν he).trans hn) hz).mono hac hbd
  · next a b hn =>
    have hma : a ∈ (s.ctx.node e).children := by simp [hn, Node.children]
    have hmb : b ∈ (s.ctx.node e).children := by simp [hn, Node.children]
    refine simplify_binary (P := fun c d ν z => Disjoins (ν.value c) (ν.value d) z) hs he
      (by rw [hn, Node.children]) (simplified a) (simplified b) (fun s' K c d hs' hc hd => ?_) ?_
    · exact (Ensures.lift hs' (Build.disj_denotes hc hd)).mono fun r ctx _ hr =>
        hr.of_imp fun _ _ _ hz => hz.2
    intro ν hν hadmits z hz c d hac hbd
    exact (hadmits.disjoins ((Context.node_eq hν he).trans hn) hz).mono hac hbd
  · next a hn =>
    have hma : a ∈ (s.ctx.node e).children := by simp [hn, Node.children]
    refine (simplified a s hs (he.child hma)).bind fun c s₁ hs₁ hg₁ hd₁ hc => ?_
    refine (remember_ensures (he.mono hg₁.le) fun K hK => ?_).mono fun r ctx _ h => hd₁ ▸ h
    have hca := hc.denotes K (((hK.restrict hg₁.le he).child hma).mono hg₁.le)
    refine (simplifyNegation_ensures hs₁ hca.nodes).mono fun r ctx hg hr => hr.of_imp ?_
    rintro ν hν z ⟨hadmits, hz⟩
    have hν₁ := hg.le.trans hν
    have hnode := (Context.node_eq (hg₁.le.trans hν₁) he).trans hn
    obtain ⟨x, hx, hz⟩ := (Valuation.value_not_eq_some hnode).1 hz
    exact ⟨hadmits, x, hca.value ν hν₁ x ⟨hd₁ ▸ hadmits, hx⟩, hz⟩
  · next f args dims hn =>
    have hmem : ∀ c ∈ args, c ∈ (s.ctx.node e).children := by simp [hn, Node.children]
    exact simplify_call hs he hn fun c hc => simplified c
termination_by e.index
decreasing_by
  all_goals first
    | exact Context.child_lt _ hma
    | exact Context.child_lt _ hmb
    | exact Context.child_lt _ (hmem c hc)

/-- What an expression denotes at admissible assignments is denoted by what it simplifies to. -/
theorem simplify_denotes (hs : s.Valid) (h : s.ctx.Denotes K e P)
    (hP : ∀ ν z, P ν z → ν.Admits s.domains) :
    Ensures (simplify e) s fun r ctx => ctx.Denotes K r P := by
  refine (simplified e s hs h.stored).mono fun r ctx hg hr => ?_
  refine (hr.denotes K (h.nodes.mono hg.le)).of_imp fun ν hν z hz => ?_
  exact ⟨hP ν z hz, h.value ν (hg.le.trans hν) z hz⟩

end LoopBounds.Query
