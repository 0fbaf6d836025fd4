import LoopBounds.Proofs.Weights

/-!
# Constructors run again

Running a constructor a second time finds what the first run stored: in every context that the
first one leads to, and that may hold more by then, the answer is the same and nothing is stored.
-/

namespace LoopBounds

namespace Context

variable {ctx ctx' : Context} {e : ExprId} {n : Node}

theorem Appends.literal?_eq (h : ctx.Appends ctx') (he : ctx.Stored e) :
    ctx'.literal? e = ctx.literal? e := by
  rw [literal?, literal?, h.node_eq he]

theorem Appends.typeOf_eq (h : ctx.Appends ctx') (he : ctx.Stored e) :
    ctx'.typeOf e = ctx.typeOf e := by
  rw [typeOf, typeOf, h.entry_eq he]

theorem find?_node (he : ctx.Stored e) : ctx.find? (ctx.node e) = some e := by
  rw [find?, ctx.index_eq_some_iff, node, entry, Array.getElem?_eq_getElem he]
  rfl

theorem intern_of_node (he : ctx.Stored e) (hn : ctx.node e = n) : ctx.intern n = (e, ctx) := by
  rw [intern]
  split
  · next c hc =>
    rw [← hn, find?_node he] at hc
    rw [Option.some_inj.1 hc]
  · next hnew =>
    rw [← hn, find?_node he] at hnew
    cases hnew

end Context

/-- The computation only stores expressions, and run again it does nothing and gives the same
result, which satisfies `Q` with the context. -/
structure Build.Replays {α : Type} (b : Build α) (ctx : Context) (Q : α → Context → Prop) :
    Prop where
  grows : ctx.Grows (b.run ctx).2
  again : ∀ ctx', (b.run ctx).2.Appends ctx' → b.run ctx' = ((b.run ctx).1, ctx')
  post : Q (b.run ctx).1 (b.run ctx).2

namespace Build

open Context (AtMost weight)

section Rules

variable {α β : Type} {b : Build α} {f : α → Build β} {ctx : Context}
  {Q R : α → Context → Prop} {S : β → Context → Prop}

theorem Replays.pure {x : α} (h : Q x ctx) : Replays (pure x : Build α) ctx Q :=
  ⟨.refl ctx, fun _ _ => rfl, h⟩

theorem Replays.mono (h : Replays b ctx Q) (hQ : ∀ x ctx', ctx.Grows ctx' → Q x ctx' → R x ctx') :
    Replays b ctx R :=
  ⟨h.grows, h.again, hQ _ _ h.grows h.post⟩

theorem Replays.bind (hb : Replays b ctx Q)
    (hf : ∀ x ctx', ctx.Grows ctx' → Q x ctx' → Replays (f x) ctx' S) :
    Replays (b >>= f) ctx S := by
  have h := hf _ _ hb.grows hb.post
  refine ⟨hb.grows.trans h.grows, fun ctx' hctx' => ?_, h.post⟩
  have hfirst := hb.again ctx' (h.grows.appends.trans hctx')
  rw [StateT.run_bind, hfirst]
  exact h.again ctx' hctx'

/-- What is read from a context has to be there for good. -/
theorem Replays.get {f : Context → Build β} (h : Replays (f ctx) ctx S)
    (hf : ∀ ctx', ctx.Appends ctx' → f ctx' = f ctx) : Replays (do f (← get)) ctx S := by
  refine ⟨h.grows, fun ctx' hctx' => ?_, h.post⟩
  have hrun : (do f (← MonadState.get) : Build β).run ctx' = (f ctx').run ctx' := rfl
  rw [hrun, hf ctx' (h.grows.appends.trans hctx')]
  exact h.again ctx' hctx'

end Rules

variable {ctx : Context} {a b e : ExprId} {n : Node}

theorem intern_replays (hn : ∀ c ∈ n.children, ctx.Stored c)
    (hcall : ctx.WellFormed → ∀ f args dims, n = .call f args dims → f.index < ctx.funs.size) :
    Replays (intern n) ctx fun r ctx' => ctx'.AtMost r fun j => ctx.nodeWeight j n := by
  have hresult : ctx.Grows (ctx.intern n).2 ∧ (ctx.intern n).2.Stored (ctx.intern n).1 ∧
      (ctx.intern n).2.node (ctx.intern n).1 = n := by
    rw [Context.intern]
    split
    · next e he =>
      obtain ⟨hs, hnode⟩ := node_of_find? he
      exact ⟨.refl ctx, hs, hnode⟩
    · next hnew =>
      have hlt : ∀ c ∈ n.children, c.index < ctx.size := hn
      rw [dif_pos hlt]
      exact ⟨grows_push hnew hlt hcall, by simp [Context.Stored, Context.push, Context.size],
        by simp [Context.node, Context.entry, Context.push, Context.size]⟩
  obtain ⟨hgrows, hstored, hnode⟩ := hresult
  refine ⟨hgrows, fun ctx' hctx' => ?_, hstored, fun j => ?_⟩
  · exact Context.intern_of_node (hctx'.stored hstored) ((hctx'.node_eq hstored).trans hnode)
  · exact ((Context.weight_of_node hnode).trans (hgrows.appends.nodeWeight_eq hn)).le

theorem constant_replays (ctx : Context) (c : Int64) (t : Scalar) (w : Join → Nat) :
    Replays (constant c t) ctx fun r ctx' => ctx'.AtMost r w :=
  (intern_replays (n := .const c t) nofun nofun).mono fun _ ctx' _ h =>
    h.mono (.refl ctx') fun _ => Nat.zero_le _

theorem constantLike_replays (c : Int64) (he : ctx.Stored e) (w : Join → Nat) :
    Replays (constantLike c e) ctx fun r ctx' => ctx'.AtMost r w :=
  .get (constant_replays ctx c _ w) fun _ h => by rw [h.typeOf_eq he]

/-- What is folded weighs no more than the node that is asked for. -/
theorem folded_replays {fold : Option Int64 → Option Int64 → Bool → Fold} {t : Scalar}
    (hn : n.children = [a, b]) (hcall : ∀ f args dims, n ≠ .call f args dims)
    (ha : ctx.Stored a) (hb : ctx.Stored b)
    (hweight : ∀ j, j.op (ctx.weight j a) (ctx.weight j b) ≤ ctx.nodeWeight j n) :
    Replays (folded fold t n a b) ctx fun r ctx' => ctx'.AtMost r fun j => ctx.nodeWeight j n := by
  refine .get ?_ fun ctx' h => by rw [h.literal?_eq ha, h.literal?_eq hb]
  split
  · exact constant_replays ctx _ t _
  · exact .pure ⟨ha, fun j => (j.le_left _ _).trans (hweight j)⟩
  · exact .pure ⟨hb, fun j => (j.le_right _ _).trans (hweight j)⟩
  · refine intern_replays (fun c hc => ?_) fun _ f args dims h => absurd h (hcall f args dims)
    rw [hn, List.mem_pair] at hc
    rcases hc with rfl | rfl
    exacts [ha, hb]

theorem arith_replays (op : Arith) (ha : ctx.Stored a) (hb : ctx.Stored b) :
    Replays (arith op a b) ctx fun r ctx' =>
      ctx'.AtMost r fun j => j.op (ctx.weight j a) (ctx.weight j b) :=
  .get (folded_replays rfl nofun ha hb fun _ => le_rfl) fun _ h => by
    rw [h.typeOf_eq ha, h.typeOf_eq hb]

theorem compare_replays (op : Comparison) (ha : ctx.Stored a) (hb : ctx.Stored b) :
    Replays (compare op a b) ctx fun r ctx' =>
      ctx'.AtMost r fun j => j.op (ctx.weight j a) (ctx.weight j b) :=
  folded_replays rfl nofun ha hb fun _ => le_rfl

theorem conj_replays (ha : ctx.Stored a) (hb : ctx.Stored b) :
    Replays (conj a b) ctx fun r ctx' =>
      ctx'.AtMost r fun j => j.op (ctx.weight j a) (ctx.weight j b) + 1 :=
  folded_replays rfl (by simp) ha hb fun _ => Nat.le_succ _

theorem disj_replays (ha : ctx.Stored a) (hb : ctx.Stored b) :
    Replays (disj a b) ctx fun r ctx' =>
      ctx'.AtMost r fun j => j.op (ctx.weight j a) (ctx.weight j b) + 1 :=
  folded_replays rfl (by simp) ha hb fun _ => Nat.le_succ _

theorem negation_replays (he : ctx.Stored e) :
    Replays (negation e) ctx fun r ctx' => ctx'.AtMost r fun j => ctx.weight j e + 1 := by
  refine .get ?_ fun ctx' h => by rw [h.node_eq he]
  split
  · exact constant_replays ctx _ _ _
  · next a hn =>
    refine .pure ⟨he.child (by simp [hn, Node.children]), fun j => ?_⟩
    rw [Context.weight_of_node hn, Context.nodeWeight]
    omega
  · exact intern_replays (fun c hc => List.mem_singleton.1 hc ▸ he) (by simp)

/-- A literal operand weighs nothing. -/
theorem arith_constant_replays (op : Arith) (c : Int64) (ha : ctx.Stored a) :
    Replays (do arith op a (← constantLike c a)) ctx fun r ctx' =>
      ctx'.AtMost r fun j => ctx.weight j a := by
  refine (constantLike_replays c ha fun _ => 0).bind fun k ctx₁ h₁ hk => ?_
  refine (arith_replays op (h₁.appends.stored ha) hk.stored).mono fun r ctx₂ _ hr => ?_
  refine hr.mono (.refl ctx₂) fun j => ?_
  rw [Nat.le_zero.1 (hk.weight_le j), j.op_zero, h₁.appends.weight_eq ha]

theorem addConst_replays (c : Int64) (ha : ctx.Stored a) :
    Replays (addConst a c) ctx fun r ctx' => ctx'.AtMost r fun j => ctx.weight j a :=
  arith_constant_replays .add c ha

theorem mulConst_replays (c : Int64) (ha : ctx.Stored a) :
    Replays (mulConst a c) ctx fun r ctx' => ctx'.AtMost r fun j => ctx.weight j a :=
  arith_constant_replays .mul c ha

end Build

/-! ## Writing affine forms -/

namespace Affine

open Build (Replays)

variable {ctx : Context} {e acc : ExprId} {acc? : Option ExprId} {w : Join → Nat}

theorem ofExpr_eq {ctx' : Context} {e : ExprId} (h : ctx.Appends ctx') (he : ctx.Stored e) :
    ofExpr ctx' e = ofExpr ctx e := by
  have hchild : ∀ c ∈ (ctx.node e).children, ofExpr ctx' c = ofExpr ctx c := fun c hc =>
    ofExpr_eq h (he.child hc)
  rw [ofExpr, ofExpr.eq_def ctx, h.node_eq he]
  cases hn : ctx.node e with
  | const c t | var v | compare op a b | and a b | or a b | not a | call f args dims => rfl
  | arith op a b =>
      have ha : a ∈ (ctx.node e).children := by simp [hn, Node.children]
      have hb : b ∈ (ctx.node e).children := by simp [hn, Node.children]
      cases op with
      | add | sub => simp only [hchild a ha, hchild b hb]
      | mul =>
          simp only [hchild a ha, hchild b hb, h.literal?_eq (he.child ha),
            h.literal?_eq (he.child hb)]
      | floorDiv | floorMod | min | max => rfl
termination_by e.index
decreasing_by exact ctx.child_lt hc

/-- The sum that was written so far weighs at most `w`. -/
def SumAtMost (ctx : Context) (acc? : Option ExprId) (w : Join → Nat) : Prop :=
  ∀ acc, acc? = some acc → ctx.AtMost acc w

theorem sumAtMost_none (ctx : Context) (w : Join → Nat) : SumAtMost ctx none w := nofun

theorem sumAtMost_some (h : ctx.AtMost acc w) : SumAtMost ctx (some acc) w := by
  rintro _ ⟨⟩
  exact h

/-- The sum or the difference of what was written and of a term. -/
theorem join_replays {ctx₀ : Context} (op : Arith) (h₀ : ctx₀.Appends ctx)
    (hacc : ctx₀.AtMost acc w) {p : ExprId} (hp : ctx.AtMost p (ctx₀.weight · e)) :
    Replays (do return some (← Build.arith op acc p)) ctx fun acc?' ctx' =>
      SumAtMost ctx' acc?' fun j => j.op (w j) (ctx₀.weight j e) := by
  have hacc' := hacc.mono h₀ fun _ => le_rfl
  refine (Build.arith_replays op hacc'.stored hp.stored).bind fun r ctx₁ _ hr => ?_
  refine .pure (sumAtMost_some (hr.mono (.refl ctx₁) fun j => ?_))
  exact j.op_le_op (hacc'.weight_le j) (hp.weight_le j)

theorem addTerm_replays (hacc : SumAtMost ctx acc? w) (he : ctx.Stored e) (c : Int64) :
    Replays (addTerm acc? (e, c)) ctx fun acc?' ctx' =>
      SumAtMost ctx' acc?' fun j => j.op (w j) (ctx.weight j e) := by
  unfold addTerm
  dsimp only
  cases acc? with
  | none =>
      have hfirst : ∀ {p : ExprId} {ctx₁ : Context}, ctx₁.AtMost p (ctx.weight · e) →
          SumAtMost ctx₁ (some p) fun j => j.op (w j) (ctx.weight j e) := fun hp =>
        sumAtMost_some (hp.mono (.refl _) fun j => j.le_right _ _)
      split
      · exact (Replays.pure (Context.atMost_self he)).bind fun _ _ _ hp => .pure (hfirst hp)
      · exact (Build.mulConst_replays c he).bind fun _ _ _ hp => .pure (hfirst hp)
  | some acc =>
      have hacc := hacc acc rfl
      split
      · exact (Replays.pure (Context.atMost_self he)).bind fun _ _ h₁ hp =>
          join_replays .add h₁.appends hacc hp
      · exact (Build.mulConst_replays c he).bind fun _ _ h₁ hp =>
          join_replays .add h₁.appends hacc hp

theorem subTerm_replays (hacc : SumAtMost ctx acc? w) (he : ctx.Stored e) (c : Int64) :
    Replays (subTerm acc? (e, c)) ctx fun acc?' ctx' =>
      SumAtMost ctx' acc?' fun j => j.op (w j) (ctx.weight j e) := by
  unfold subTerm
  dsimp only
  split
  · next acc m _ =>
    split
    · exact join_replays .sub (.refl ctx) (hacc acc rfl) (Context.atMost_self he)
    · exact (Build.mulConst_replays m he).bind fun p ctx₁ h₁ hp =>
        join_replays .sub h₁.appends (hacc acc rfl) hp
  · next acc _ =>
    exact (Build.mulConst_replays c he).bind fun p ctx₁ h₁ hp =>
      join_replays .add h₁.appends (hacc acc rfl) hp
  · exact (Build.mulConst_replays c he).bind fun p ctx₁ h₁ hp =>
      .pure (sumAtMost_some (hp.mono (.refl ctx₁) fun j => j.le_right _ _))

theorem terms_replay {step : Option ExprId → ExprId × Int64 → Build (Option ExprId)}
    (hstep : ∀ {ctx acc? w e} (c : Int64), SumAtMost ctx acc? w → ctx.Stored e →
      Replays (step acc? (e, c)) ctx fun acc?' ctx' =>
        SumAtMost ctx' acc?' fun j => j.op (w j) (ctx.weight j e))
    {ts : List (ExprId × Int64)} (hacc : SumAtMost ctx acc? w) (hts : ∀ t ∈ ts, ctx.Stored t.1) :
    Replays (ts.foldlM step acc?) ctx fun acc?' ctx' =>
      SumAtMost ctx' acc?' fun j => j.op (w j) (j.total (fun t => ctx.weight j t.1) ts) := by
  induction ts generalizing ctx acc? w with
  | nil =>
      refine .pure fun acc h => (hacc acc h).mono (.refl ctx) fun j => ?_
      rw [Join.total_nil, j.op_zero]
  | cons t ts ih =>
      rw [List.foldlM_cons]
      have ht := hts t List.mem_cons_self
      have hrest : ∀ u ∈ ts, ctx.Stored u.1 := fun u hu => hts u (List.mem_cons_of_mem t hu)
      refine (hstep t.2 hacc ht).bind fun acc?' ctx₁ h₁ hacc' => ?_
      refine (ih hacc' fun u hu => h₁.appends.stored (hrest u hu)).mono fun r ctx₂ _ hr => ?_
      intro acc hacc
      refine (hr acc hacc).mono (.refl ctx₂) fun j => ?_
      rw [j.total_congr fun u hu => h₁.appends.weight_eq (hrest u hu), Join.total_cons, j.assoc]

theorem toExpr_replays {f : Affine} (hf : AtMost ctx f w) (type : Scalar) :
    Replays (f.toExpr type) ctx fun r ctx' => ctx'.AtMost r w := by
  have hpos : ∀ t ∈ f.terms.filter (0 < ·.2), ctx.Stored t.1 := fun t ht =>
    hf.stored t (List.mem_of_mem_filter ht)
  have hneg : ∀ t ∈ f.terms.filter (·.2 < 0), ctx.Stored t.1 := fun t ht =>
    hf.stored t (List.mem_of_mem_filter ht)
  have hstart := sumAtMost_none ctx fun _ => 0
  refine (terms_replay (fun c => addTerm_replays (c := c)) hstart hpos).bind
    fun acc?₁ ctx₁ h₁ hacc₁ => ?_
  refine (terms_replay (fun c => subTerm_replays (c := c)) hacc₁
    fun t ht => h₁.appends.stored (hneg t ht)).bind fun acc?₂ ctx₂ h₂ hacc₂ => ?_
  have hacc : SumAtMost ctx₂ acc?₂ w := fun acc hacc =>
    (hacc₂ acc hacc).mono (.refl ctx₂) fun j => by
      rw [j.total_congr fun t ht => h₁.appends.weight_eq (hneg t ht), j.zero]
      refine (j.total_filter_le (fun t ht => ?_) f.terms).trans (hf.weight_le j)
      simp only [decide_eq_true_eq] at ht ⊢
      exact Int64.lt_asymm ht
  cases acc?₂ with
  | none => exact Build.constant_replays ctx₂ _ _ w
  | some acc =>
      have hacc := hacc acc rfl
      have hsame : ∀ {r : ExprId} {ctx' : Context}, ctx'.AtMost r (ctx₂.weight · acc) →
          ctx'.AtMost r w := fun hr => hr.mono (.refl _) hacc.weight_le
      dsimp only
      split
      · exact (Build.addConst_replays _ hacc.stored).mono fun _ _ _ => hsame
      split
      · split
        · exact (Build.arith_constant_replays .sub _ hacc.stored).mono fun _ _ _ => hsame
        · exact (Build.addConst_replays _ hacc.stored).mono fun _ _ _ => hsame
      · exact .pure hacc

end Affine

end LoopBounds
