import LoopBounds.Domain
import LoopBounds.Inference.Sweep
import LoopBounds.Proofs.Fold

/-!
# Exactness of folding

What the folding constructors build has the exact value of the operator that was asked for.
The statements are about all later contexts at once: an expression that is built now keeps its
meaning when more is stored.
-/

namespace LoopBounds

namespace Context

/-- Now and in all later contexts, `r` is an expression over `K` with every value that `P` gives
it. -/
structure Denotes (ctx : Context) (K : NodeClass) (r : ExprId) (P : Valuation → Int → Prop) :
    Prop where
  nodes : ctx.Over K r
  value : ∀ ν, ctx ≤ ν.ctx → ∀ z, P ν z → ν.value r = some z

variable {ctx ctx' : Context} {K : NodeClass} {r : ExprId} {P P' : Valuation → Int → Prop}

theorem Denotes.mono (hctx : ctx ≤ ctx') (h : ctx.Denotes K r P) : ctx'.Denotes K r P :=
  ⟨h.nodes.mono hctx, fun ν hν => h.value ν (hctx.trans hν)⟩

theorem Denotes.of_imp (h : ctx.Denotes K r P)
    (hP : ∀ ν, ctx ≤ ν.ctx → ∀ z, P' ν z → P ν z) : ctx.Denotes K r P' :=
  ⟨h.nodes, fun ν hν z hz => h.value ν hν z (hP ν hν z hz)⟩

/-- An expression denotes its values. -/
theorem denotes_value (h : ctx.Over K r) : ctx.Denotes K r fun ν z => ν.value r = some z :=
  ⟨h, fun _ _ _ => id⟩

theorem Denotes.stored (h : ctx.Denotes K r P) : ctx.Stored r := h.nodes.stored

end Context

namespace Build

/-- The computation only stores expressions, and its result and the context it leaves satisfy
`Q`. -/
def Ensures {α : Type} (b : Build α) (ctx : Context) (Q : α → Context → Prop) : Prop :=
  ctx.Grows (b.run ctx).2 ∧ Q (b.run ctx).1 (b.run ctx).2

variable {α β : Type} {b : Build α} {f : α → Build β} {ctx : Context}
  {Q R : α → Context → Prop} {S : β → Context → Prop} {K : NodeClass} {a c e : ExprId}

theorem Ensures.pure {x : α} (h : Q x ctx) : Ensures (pure x : Build α) ctx Q :=
  ⟨.refl ctx, h⟩

theorem Ensures.mono (h : Ensures b ctx Q) (hQ : ∀ x ctx', ctx.Grows ctx' → Q x ctx' → R x ctx') :
    Ensures b ctx R :=
  ⟨h.1, hQ _ _ h.1 h.2⟩

theorem Ensures.bind (hb : Ensures b ctx Q)
    (hf : ∀ x ctx', ctx.Grows ctx' → Q x ctx' → Ensures (f x) ctx' S) :
    Ensures (b >>= f) ctx S := by
  obtain ⟨hgrows, hS⟩ := hf _ _ hb.1 hb.2
  exact ⟨hb.1.trans hgrows, hS⟩

theorem Ensures.get {f : Context → Build β} (h : Ensures (f ctx) ctx S) :
    Ensures (do f (← get)) ctx S := h

theorem Ensures.map {g : α → β} (h : Ensures b ctx fun x ctx' => S (g x) ctx') :
    Ensures (g <$> b) ctx S :=
  h

/-! ## Storing a node -/

theorem node_of_find? {n : Node} (h : ctx.find? n = some e) : ctx.Stored e ∧ ctx.node e = n := by
  have hget := (ctx.index_eq_some_iff n e).1 h
  obtain ⟨entry, hentry, rfl⟩ := Option.map_eq_some_iff.1 hget
  refine ⟨(Array.getElem?_eq_some_iff.1 hentry).1, ?_⟩
  rw [Context.node, Context.entry, hentry, Option.getD_some]

theorem grows_push {n : Node} (hnew : ctx.find? n = none)
    (hlt : ∀ c ∈ n.children, c.index < ctx.size)
    (hcall : ctx.WellFormed → ∀ f args dims, n = .call f args dims → f.index < ctx.funs.size) :
    ctx.Grows (ctx.push n hnew hlt) := by
  have hle : ctx ≤ ctx.push n hnew hlt :=
    ⟨by simp [Context.push], List.prefix_rfl, List.prefix_rfl, le_rfl, fun _ _ => .refl _⟩
  refine ⟨hle, rfl, rfl, rfl, fun hwf => ⟨fun e f args dims he => ?_, fun f b hb => ?_,
    fun f d hd => ?_, fun a d hd => ?_, hwf.axisVar, hwf.axisVar_inj⟩⟩
  · by_cases hs : ctx.Stored e
    · exact hwf.call e f args dims (Context.node_eq hle hs ▸ he)
    · by_cases hi : e.index = ctx.entries.size
      · refine hcall hwf f args dims ?_
        simpa [Context.node, Context.entry, Context.push, hi] using he
      · rw [Context.node, Context.entry, Context.push, Array.getElem?_eq_none] at he
        · cases he
        · simp only [Context.Stored, Context.size] at hs
          simp only [Array.size_push]
          omega
  · exact (hwf.body f b hb).mono hle
  · exact (hwf.codomain f d hd).mono hle
  · exact (hwf.domain a d hd).mono hle

theorem intern_ensures {n : Node} (hmem : K.mem n) (hchildren : ∀ c ∈ n.children, ctx.Over K c)
    (hcall : ∀ f args dims, n = .call f args dims → f.index < ctx.funs.size) :
    Ensures (intern n) ctx fun r ctx' => ctx'.Over K r ∧ ctx'.node r = n := by
  have hlt : ∀ c ∈ n.children, c.index < ctx.size := fun c hc => (hchildren c hc).stored
  have hrun : (intern n).run ctx = ctx.intern n := rfl
  rw [Ensures, hrun, Context.intern]
  split
  · next e he =>
    obtain ⟨hs, hn⟩ := node_of_find? he
    exact ⟨.refl ctx, ⟨hs, hn ▸ hmem, hn ▸ hchildren⟩, hn⟩
  · next hnew =>
    rw [dif_pos hlt]
    have hgrows := grows_push hnew hlt fun _ => hcall
    have hn : (ctx.push n hnew hlt).node ⟨ctx.size⟩ = n := by
      simp [Context.node, Context.entry, Context.push, Context.size]
    refine ⟨hgrows, ⟨?_, by rwa [hn], fun c hc => ?_⟩, hn⟩
    · simp [Context.Stored, Context.push, Context.size]
    · rw [hn] at hc
      exact (hchildren c hc).mono hgrows.le

/-- A node that is no call denotes its own value. -/
theorem intern_denotes {n : Node} {P : Valuation → Int → Prop} (hmem : K.mem n)
    (hchildren : ∀ c ∈ n.children, ctx.Over K c)
    (hcall : ∀ f args dims, n = .call f args dims → f.index < ctx.funs.size)
    (hP : ∀ ν r, ν.ctx.node r = n → ∀ z, P ν z → ν.value r = some z) :
    Ensures (intern n) ctx fun r ctx' => ctx'.Denotes K r P :=
  (intern_ensures hmem hchildren hcall).mono fun r _ _ ⟨hover, hn⟩ =>
    ⟨hover, fun ν hν => hP ν r (by rw [Context.node_eq hν hover.stored, hn])⟩

theorem constant_denotes (ctx : Context) (K : NodeClass) (v : Int64) (t : Scalar) :
    Ensures (constant v t) ctx fun r ctx' => ctx'.Denotes K r fun _ z => z = v.toInt :=
  intern_denotes (K.const v t) (by simp [Node.children]) (by simp) fun _ _ hn _ hz =>
    hz ▸ Valuation.value_const hn

theorem constantLike_denotes (ctx : Context) (K : NodeClass) (v : Int64) (e : ExprId) :
    Ensures (constantLike v e) ctx fun r ctx' => ctx'.Denotes K r fun _ z => z = v.toInt :=
  Ensures.get (constant_denotes ctx K v _)

theorem boolean_denotes (ctx : Context) (K : NodeClass) (t : Bool) :
    Ensures (boolean t) ctx fun r ctx' => ctx'.Denotes K r fun _ z => z = t.toInt :=
  toInt_truth t ▸ constant_denotes ctx K (truth t) .bool

theorem var_denotes (ctx : Context) {v : VarId} (hv : K.mem (.var v)) :
    Ensures (var v) ctx fun r ctx' => ctx'.Denotes K r fun ν z => ν.env v = some z :=
  intern_denotes hv (by simp [Node.children]) (by simp) fun _ _ hn _ hz =>
    (Valuation.value_var hn).trans hz

theorem axis_denotes (ctx : Context) {i : AxisId} (hi : K.mem (.var (ctx.axisVar i))) :
    Ensures (axis i) ctx fun r ctx' =>
      ctx'.Denotes K r fun ν z => ν.env (ctx.axisVar i) = some z :=
  Ensures.get (var_denotes ctx hi)

/-! ## Folding constructors -/

theorem value_of_literal? {ν : Valuation} (hctx : ctx ≤ ν.ctx) (ha : ctx.Stored a) {v : Int64}
    (h : ctx.literal? a = some v) : ν.value a = some v.toInt := by
  rw [← Context.literal?_eq hctx ha] at h
  obtain ⟨t, hn⟩ := Context.exists_node_of_literal? h
  exact Valuation.value_const hn

theorem sees {ν : Valuation} (hctx : ctx ≤ ν.ctx) (ha : ctx.Stored a) (hc : ctx.Stored c) :
    Fold.Sees (ctx.literal? a) (ctx.literal? c) (a == c) (ν.value a) (ν.value c) :=
  ⟨fun _ => value_of_literal? hctx ha, fun _ => value_of_literal? hctx hc,
    fun h => by rw [eq_of_beq h]⟩

theorem folded_denotes {fold : Option Int64 → Option Int64 → Bool → Fold} {t : Scalar} {n : Node}
    {P : Valuation → Int → Prop} (ha : ctx.Over K a) (hc : ctx.Over K c) (hmem : K.mem n)
    (hchildren : n.children = [a, c])
    (hfold : ∀ ν, ctx ≤ ν.ctx → ∀ z, P ν z →
      (fold (ctx.literal? a) (ctx.literal? c) (a == c)).Gives (ν.value a) (ν.value c) z)
    (hcall : ∀ f args dims, n ≠ .call f args dims)
    (hnode : ∀ ν r, ν.ctx.node r = n → ∀ z, P ν z → ν.value r = some z) :
    Ensures (folded fold t n a c) ctx fun r ctx' => ctx'.Denotes K r P := by
  refine Ensures.get ?_
  split
  · next v hv =>
    refine (constant_denotes ctx K v t).mono fun r ctx' hg h => h.of_imp fun ν hν z hz => ?_
    have hgives := hfold ν (hg.le.trans hν) z hz
    rwa [hv] at hgives
  · next hv =>
    refine .pure ⟨ha, fun ν hν z hz => ?_⟩
    have hgives := hfold ν hν z hz
    rwa [hv] at hgives
  · next hv =>
    refine .pure ⟨hc, fun ν hν z hz => ?_⟩
    have hgives := hfold ν hν z hz
    rwa [hv] at hgives
  · refine intern_denotes hmem (fun x hx => ?_)
      (fun f args dims h => absurd h (hcall f args dims)) hnode
    rw [hchildren, List.mem_pair] at hx
    rcases hx with rfl | rfl
    exacts [ha, hc]

theorem arith_denotes (op : Arith) (ha : ctx.Over K a) (hc : ctx.Over K c) :
    Ensures (arith op a c) ctx fun r ctx' => ctx'.Denotes K r fun ν z =>
      ∃ x y, ν.value a = some x ∧ ν.value c = some y ∧ op.exact x y = some z := by
  refine Ensures.get ?_
  refine folded_denotes ha hc (K.arith op a c) rfl ?_ nofun ?_
  · rintro ν hν z ⟨x, y, hx, hy, hz⟩
    exact Arith.fold_gives (sees hν ha.stored hc.stored) (by rw [hx, hy]; exact hz)
  · rintro ν r hn z ⟨x, y, hx, hy, hz⟩
    rw [Valuation.value_arith hn, hx, hy]
    exact hz

theorem compare_denotes (op : Comparison) (ha : ctx.Over K a) (hc : ctx.Over K c) :
    Ensures (compare op a c) ctx fun r ctx' => ctx'.Denotes K r fun ν z =>
      ∃ x y, ν.value a = some x ∧ ν.value c = some y ∧ (op.exact x y).toInt = z := by
  refine folded_denotes ha hc (K.compare op a c) rfl ?_ nofun ?_
  · rintro ν hν z ⟨x, y, hx, hy, hz⟩
    exact Comparison.fold_gives (sees hν ha.stored hc.stored) (by rw [hx, hy, ← hz]; rfl)
  · rintro ν r hn z ⟨x, y, hx, hy, hz⟩
    rw [Valuation.value_compare hn, hx, hy, ← hz]
    rfl

theorem add_denotes (ha : ctx.Over K a) (hc : ctx.Over K c) :
    Ensures (add a c) ctx fun r ctx' => ctx'.Denotes K r fun ν z =>
      ∃ x y, ν.value a = some x ∧ ν.value c = some y ∧ x + y = z :=
  (arith_denotes .add ha hc).mono fun _ _ _ h => h.of_imp fun _ _ _ ⟨x, y, hx, hy, hz⟩ =>
    ⟨x, y, hx, hy, congrArg some hz⟩

theorem sub_denotes (ha : ctx.Over K a) (hc : ctx.Over K c) :
    Ensures (sub a c) ctx fun r ctx' => ctx'.Denotes K r fun ν z =>
      ∃ x y, ν.value a = some x ∧ ν.value c = some y ∧ x - y = z :=
  (arith_denotes .sub ha hc).mono fun _ _ _ h => h.of_imp fun _ _ _ ⟨x, y, hx, hy, hz⟩ =>
    ⟨x, y, hx, hy, congrArg some hz⟩

theorem mul_denotes (ha : ctx.Over K a) (hc : ctx.Over K c) :
    Ensures (mul a c) ctx fun r ctx' => ctx'.Denotes K r fun ν z =>
      ∃ x y, ν.value a = some x ∧ ν.value c = some y ∧ x * y = z :=
  (arith_denotes .mul ha hc).mono fun _ _ _ h => h.of_imp fun _ _ _ ⟨x, y, hx, hy, hz⟩ =>
    ⟨x, y, hx, hy, congrArg some hz⟩

theorem addConst_denotes (n : Int64) (ha : ctx.Over K a) :
    Ensures (addConst a n) ctx fun r ctx' => ctx'.Denotes K r fun ν z =>
      ∃ x, ν.value a = some x ∧ x + n.toInt = z := by
  refine (constantLike_denotes ctx K n a).bind fun c ctx₁ hg hc => ?_
  refine (add_denotes (ha.mono hg.le) hc.nodes).mono fun r ctx₂ hg₂ h => h.of_imp ?_
  rintro ν hν z ⟨x, hx, rfl⟩
  exact ⟨x, n.toInt, hx, hc.value ν (hg₂.le.trans hν) _ rfl, rfl⟩

theorem mulConst_denotes (n : Int64) (ha : ctx.Over K a) :
    Ensures (mulConst a n) ctx fun r ctx' => ctx'.Denotes K r fun ν z =>
      ∃ x, ν.value a = some x ∧ x * n.toInt = z := by
  refine (constantLike_denotes ctx K n a).bind fun c ctx₁ hg hc => ?_
  refine (mul_denotes (ha.mono hg.le) hc.nodes).mono fun r ctx₂ hg₂ h => h.of_imp ?_
  rintro ν hν z ⟨x, hx, rfl⟩
  exact ⟨x, n.toInt, hx, hc.value ν (hg₂.le.trans hν) _ rfl, rfl⟩

theorem offset_denotes (ha : ctx.Over K a) (hc : ctx.Over K c) :
    Ensures (offset a c) ctx fun r ctx' => ctx'.Denotes K r fun ν z =>
      ∃ x y, ν.value a = some x ∧ ν.value c = some y ∧ x + y = z := by
  refine Ensures.get ?_
  split
  · next h =>
    refine .pure ⟨ha, fun ν hν z => ?_⟩
    rintro ⟨x, y, hx, hy, rfl⟩
    have hzero := value_of_literal? hν hc.stored (of_decide_eq_true h)
    rw [hx, Option.some_inj.1 (hy.symm.trans hzero), Int64.toInt_zero, add_zero]
  · exact add_denotes ha hc

theorem conj_denotes (ha : ctx.Over K a) (hc : ctx.Over K c) :
    Ensures (conj a c) ctx fun r ctx' =>
      ctx'.Denotes K r fun ν z => Conjoins (ν.value a) (ν.value c) z := by
  refine folded_denotes ha hc (K.and a c) rfl ?_ (by simp) ?_
  · exact fun ν hν z hz => foldAnd_gives (sees hν ha.stored hc.stored) hz
  · exact fun ν r hn z hz => (Valuation.value_and hn).trans hz.value

theorem disj_denotes (ha : ctx.Over K a) (hc : ctx.Over K c) :
    Ensures (disj a c) ctx fun r ctx' =>
      ctx'.Denotes K r fun ν z => Disjoins (ν.value a) (ν.value c) z := by
  refine folded_denotes ha hc (K.or a c) rfl ?_ (by simp) ?_
  · exact fun ν hν z hz => foldOr_gives (sees hν ha.stored hc.stored) hz
  · exact fun ν r hn z hz => (Valuation.value_or hn).trans hz.value

theorem negation_denotes (he : ctx.Over K e) :
    Ensures (negation e) ctx fun r ctx' => ctx'.Denotes K r fun ν z =>
      (∀ a, ν.ctx.node e = .not a → ∀ x, ν.value a = some x → IsBit x) ∧
      ∃ x, ν.value e = some x ∧ (decide (x = 0)).toInt = z := by
  refine Ensures.get ?_
  split
  · next v t hn =>
    refine (boolean_denotes ctx K _).mono fun r ctx' hg h => h.of_imp ?_
    rintro ν hν z ⟨-, x, hx, rfl⟩
    have hnode := (Context.node_eq (hg.le.trans hν) he.stored).trans hn
    rw [Valuation.value_const hnode] at hx
    simp [← Option.some_inj.1 hx, Word.toInt_eq_zero_iff]
  · next a hn =>
    refine .pure ⟨he.child (by simp [hn, Node.children]), fun ν hν z => ?_⟩
    rintro ⟨hbit, x, hx, rfl⟩
    have hnode := (Context.node_eq hν he.stored).trans hn
    rw [Valuation.value_not hnode] at hx
    obtain ⟨y, hy, rfl⟩ := Option.map_eq_some_iff.1 hx
    rw [hy]
    rcases hbit a hnode y hy with rfl | rfl <;> rfl
  · refine intern_denotes (K.not e) (by simpa [Node.children] using he) (by simp) ?_
    rintro ν r hn z ⟨-, x, hx, rfl⟩
    rw [Valuation.value_not hn, hx, Option.map_some]

end Build

/-- A literal zero is refused as a divisor. -/
theorem Attempt.divide_run (op : Arith) (a b : ExprId) (ctx : Context) :
    (divide op a b).run.run ctx = if ctx.isZero b then (.error .divisionByZero, ctx)
      else (.ok ((Build.arith op a b).run ctx).1, ((Build.arith op a b).run ctx).2) := by
  change StateT.run (ExceptT.run (if ctx.isZero b = true then _ else _)) ctx = _
  split
  · rfl
  · rfl

/-- The last point of a domain. -/
theorem Domain.last_denotes {ctx : Context} {K : NodeClass} {d : Domain}
    (hmin : ctx.Over K d.min) (hextent : ctx.Over K d.extent) :
    Build.Ensures d.last ctx fun r ctx' => ctx'.Denotes K r fun ν z =>
      ∃ m n, ν.value d.min = some m ∧ ν.value d.extent = some n ∧ m + n - 1 = z := by
  refine (Build.add_denotes hmin hextent).bind fun s ctx₁ hg hs => ?_
  refine (Build.addConst_denotes (-1) hs.nodes).mono fun r ctx₂ hg₂ h => h.of_imp ?_
  rintro ν hν z ⟨m, n, hm, hn, rfl⟩
  exact ⟨m + n, hs.value ν (hg₂.le.trans hν) _ ⟨m, n, hm, hn, rfl⟩, rfl⟩

end LoopBounds
