import LoopBounds.Proofs.Replay
import LoopBounds.Proofs.Sharing

/-!
# Types of expressions

An expression keeps the type that it was stored with.  For an operator that is the promotion of the
types of its operands.  Where a constructor folds an operator away it either makes a literal of the
promoted type or hands back an operand, and the operand keeps a type of its own.
-/

namespace LoopBounds

/-! ## Types by shape -/

namespace Context

variable {ctx ctx' : Context} {e : ExprId} {node : Node} {t : Scalar}

/-- The type that a node has by its shape; those of variables and calls are looked up. -/
def shapeType? (ctx : Context) : Node → Option Scalar
  | .const _ type => some type
  | .arith _ a b => some ((ctx.typeOf a).promote (ctx.typeOf b))
  | .compare .. | .and .. | .or .. | .not _ => some .bool
  | .var _ | .call .. => none

/-- Every expression has the type that its shape gives. -/
def WellTyped (ctx : Context) : Prop :=
  ∀ e, ctx.Stored e → ∀ t, ctx.shapeType? (ctx.node e) = some t → ctx.typeOf e = t

theorem nodeType_eq (h : ctx.shapeType? node = some t) : ctx.nodeType node = t := by
  cases node <;> simp_all [shapeType?, nodeType]

theorem Appends.shapeType?_eq (h : ctx.Appends ctx') (hstored : ∀ c ∈ node.children, ctx.Stored c) :
    ctx'.shapeType? node = ctx.shapeType? node := by
  cases node with
  | arith op a b =>
      have ha : ctx.Stored a := hstored a List.mem_cons_self
      have hb : ctx.Stored b := hstored b (List.mem_cons_of_mem a List.mem_cons_self)
      rw [shapeType?, shapeType?, h.typeOf_eq ha, h.typeOf_eq hb]
  | const | var | compare | and | or | not | call => rfl

/-- What was stored before still has the type of its shape. -/
theorem Appends.typeOf_stored (h : ctx.Appends ctx') (hctx : ctx.WellTyped) (he : ctx.Stored e)
    (ht : ctx'.shapeType? (ctx'.node e) = some t) : ctx'.typeOf e = t := by
  rw [h.node_eq he, h.shapeType?_eq fun c hc => he.child hc] at ht
  rw [h.typeOf_eq he]
  exact hctx e he t ht

theorem wellTyped_push (hctx : ctx.WellTyped) (hnew : ctx.find? node = none)
    (hlt : ∀ c ∈ node.children, ctx.Stored c) : (ctx.push node hnew hlt).WellTyped ∧
      ∀ t, ctx.shapeType? node = some t → (ctx.push node hnew hlt).typeOf ⟨ctx.size⟩ = t := by
  have happends : ctx.Appends (ctx.push node hnew hlt) := by
    simp [Context.Appends, Context.push]
  have hentry : (ctx.push node hnew hlt).entry ⟨ctx.size⟩ = ⟨node, ctx.nodeType node⟩ := by
    simp [Context.entry, Context.push, Context.size]
  have hfresh : ∀ t, ctx.shapeType? node = some t →
      (ctx.push node hnew hlt).typeOf ⟨ctx.size⟩ = t := by
    intro t ht
    rw [typeOf, hentry]
    exact nodeType_eq ht
  refine ⟨fun e he t ht => ?_, hfresh⟩
  by_cases hs : ctx.Stored e
  · exact happends.typeOf_stored hctx hs ht
  · have hindex : e = ⟨ctx.size⟩ := by
      simp only [Stored, size, push, Array.size_push] at he hs
      exact Handle.ext_index (by simp only [size]; omega)
    subst hindex
    rw [Context.node, hentry, happends.shapeType?_eq hlt] at ht
    exact hfresh t ht

/-- A node is found with the type of its shape, or it is stored with it. -/
theorem wellTyped_intern (hctx : ctx.WellTyped) (hstored : ∀ c ∈ node.children, ctx.Stored c) :
    (ctx.intern node).2.WellTyped ∧
      ∀ t, ctx.shapeType? node = some t → (ctx.intern node).2.typeOf (ctx.intern node).1 = t := by
  rw [intern]
  split
  · next e he =>
    obtain ⟨hs, rfl⟩ := Build.node_of_find? he
    exact ⟨hctx, hctx e hs⟩
  · next hnew =>
    have hlt : ∀ c ∈ node.children, c.index < ctx.size := hstored
    rw [dif_pos hlt]
    exact wellTyped_push hctx hnew hlt

end Context

open Context (WellTyped)

theorem Interning.wellTyped {E : Set ExprId} {α : Type} [Mentions α] {b : Build α}
    (h : Interning E b) {ctx : Context} (hctx : Sound ctx) (hE : ∀ e ∈ E, ctx.Stored e)
    (htyped : ctx.WellTyped) : (b.run ctx).2.WellTyped := by
  induction h generalizing ctx with
  | pure => exact htyped
  | bind hb _ ihb ihf =>
      have hfirst := hb.leaves hctx hE
      apply ihf _ hfirst.sound _ (ihb hctx hE htyped)
      exact fun e he => he.elim (fun he => hfirst.appends.stored (hE e he)) (hfirst.stored e)
  | inspect => exact htyped
  | intern hchildren => exact (Context.wellTyped_intern htyped fun c hc => hE c (hchildren c hc)).1
  | @symbols _ _ _ b hentries _ _ =>
      have happends : ctx.Appends (b.run ctx).2 := by
        rw [Context.Appends, hentries]
      intro e he t ht
      rw [Context.Stored, Context.size, hentries] at he
      exact happends.typeOf_stored htyped he ht

/-- In the contexts that programs lead to, every expression has the type of its shape. -/
theorem Reached.wellTyped {ctx : Context} (h : Reached ctx) : ctx.WellTyped := by
  induction h with
  | empty => exact fun e he => absurd he (Nat.not_lt_zero _)
  | step hctx hE hp ih => exact hp.safe.wellTyped hctx.sound hE ih

/-! ## Operands that are handed back -/

namespace Arith

/-- The literal that leaves a left operand as it is. -/
def rightUnit? : Arith → Option Int64
  | add | sub => some 0
  | mul | floorDiv => some 1
  | floorMod | min | max => none

/-- The literal that leaves a right operand as it is. -/
def leftUnit? : Arith → Option Int64
  | add => some 0
  | mul => some 1
  | sub | floorDiv | floorMod | min | max => none

/-- Whether the operator gives back two operands that are the same. -/
def isIdempotent : Arith → Bool
  | min | max => true
  | add | sub | mul | floorDiv | floorMod => false

variable {op : Arith} {x y : Int64} {l? r? : Option Int64} {same : Bool}

theorem apply_rightUnit (h : op.rightUnit? = some y) : op.apply x y = some x := by
  cases op <;> cases h <;> simp [apply, Word.add, Word.sub, Word.mul, Word.floorDiv_eq,
    Word.checked_toInt]

theorem apply_leftUnit (h : op.leftUnit? = some x) : op.apply x y = some y := by
  cases op <;> cases h <;> simp [apply, Word.add, Word.mul, Word.checked_toInt]

theorem foldUnit_eq_lhs_iff : op.foldUnit l? r? same = .lhs ↔
    (∃ w ∈ op.rightUnit?, r? = some w) ∨ same = true ∧ op.isIdempotent = true := by
  cases op <;> simp only [foldUnit, rightUnit?, isIdempotent] <;> split_ifs <;> simp_all

theorem foldUnit_eq_rhs_iff : op.foldUnit l? r? same = .rhs ↔
    (∀ w ∈ op.rightUnit?, r? ≠ some w) ∧ ∃ w ∈ op.leftUnit?, l? = some w := by
  cases op <;> simp only [foldUnit, rightUnit?, leftUnit?] <;> split_ifs <;> simp_all

theorem fold_of_none (h : l? = none ∨ r? = none) :
    op.fold l? r? same = op.foldUnit l? r? same := by
  unfold fold
  split
  · simp at h
  · rfl

/-- Literals are handed back by no operator, as beside a unit it has a value. -/
theorem fold_literals : op.fold (some x) (some y) same ≠ .lhs ∧
    op.fold (some x) (some y) same ≠ .rhs := by
  cases happly : op.apply x y with
  | some v => simp [fold, happly]
  | none =>
      have hfold : op.fold (some x) (some y) same = op.foldUnit (some x) (some y) same := by
        simp only [fold, happly]
      rw [hfold, ne_eq, ne_eq, foldUnit_eq_lhs_iff, foldUnit_eq_rhs_iff]
      constructor
      · rintro (⟨w, hw, hy⟩ | ⟨-, hop⟩)
        · rw [Option.some_inj.1 hy, apply_rightUnit hw] at happly
          cases happly
        · cases op <;> cases hop <;> cases happly
      · rintro ⟨-, w, hw, hx⟩
        rw [Option.some_inj.1 hx, apply_leftUnit hw] at happly
        cases happly

/-- The left operand is handed back beside a unit or beside itself, unless it is a literal. -/
theorem fold_eq_lhs_iff (hsame : same = true → l? = r?) : op.fold l? r? same = .lhs ↔
    l? = none ∧ ((∃ w ∈ op.rightUnit?, r? = some w) ∨ same = true ∧ op.isIdempotent = true) := by
  cases l? with
  | none => rw [fold_of_none (.inl rfl), foldUnit_eq_lhs_iff, and_iff_right rfl]
  | some x =>
      refine iff_of_false (fun h => ?_) fun h => nomatch h.1
      cases r? with
      | some y => exact fold_literals.1 h
      | none =>
          rw [fold_of_none (.inr rfl), foldUnit_eq_lhs_iff] at h
          rcases h with ⟨w, -, hw⟩ | ⟨hs, -⟩
          · cases hw
          · cases hsame hs

/-- The right operand is handed back beside a unit, unless it is a literal. -/
theorem fold_eq_rhs_iff : op.fold l? r? same = .rhs ↔
    r? = none ∧ ∃ w ∈ op.leftUnit?, l? = some w := by
  cases r? with
  | none => simp [fold_of_none, foldUnit_eq_rhs_iff]
  | some y =>
      refine iff_of_false (fun h => ?_) fun h => nomatch h.1
      cases l? with
      | some x => exact fold_literals.2 h
      | none =>
          rw [fold_of_none (.inl rfl), foldUnit_eq_rhs_iff] at h
          obtain ⟨-, w, -, hw⟩ := h
          cases hw

end Arith

namespace Context

variable {ctx : Context} {op : Arith} {a b e : ExprId}

/-- Of the operator over `a` and `b` only the operand `e` remains, which is no literal. -/
inductive Remains (ctx : Context) : Arith → ExprId → ExprId → ExprId → Prop
  | left {op : Arith} {a b : ExprId} (ha : ctx.literal? a = none)
      (hb : ∃ w ∈ op.rightUnit?, ctx.literal? b = some w) : Remains ctx op a b a
  | right {op : Arith} {a b : ExprId} (hb : ctx.literal? b = none)
      (ha : ∃ w ∈ op.leftUnit?, ctx.literal? a = some w) : Remains ctx op a b b
  | same {op : Arith} {a : ExprId} (ha : ctx.literal? a = none) (hop : op.isIdempotent = true) :
      Remains ctx op a a a

theorem fold_eq_lhs (h : op.fold (ctx.literal? a) (ctx.literal? b) (a == b) = .lhs) :
    ctx.Remains op a b a := by
  rw [Arith.fold_eq_lhs_iff fun hab => by rw [eq_of_beq hab]] at h
  obtain ⟨ha, hb | ⟨hab, hop⟩⟩ := h
  · exact .left ha hb
  · obtain rfl := eq_of_beq hab
    exact .same ha hop

theorem fold_eq_rhs (h : op.fold (ctx.literal? a) (ctx.literal? b) (a == b) = .rhs) :
    ctx.Remains op a b b := by
  rw [Arith.fold_eq_rhs_iff] at h
  exact .right h.1 h.2

theorem Remains.fold_eq (h : ctx.Remains op a b e) :
    (op.fold (ctx.literal? a) (ctx.literal? b) (a == b) = .lhs ∧ e = a) ∨
      op.fold (ctx.literal? a) (ctx.literal? b) (a == b) = .rhs ∧ e = b := by
  have hsame : ∀ {a b : ExprId}, (a == b) = true → ctx.literal? a = ctx.literal? b :=
    fun hab => by rw [eq_of_beq hab]
  cases h with
  | left ha hb => exact .inl ⟨(Arith.fold_eq_lhs_iff hsame).2 ⟨ha, .inl hb⟩, rfl⟩
  | right hb ha => exact .inr ⟨Arith.fold_eq_rhs_iff.2 ⟨hb, ha⟩, rfl⟩
  | same ha hop => exact .inl ⟨(Arith.fold_eq_lhs_iff hsame).2 ⟨ha, .inr ⟨BEq.rfl, hop⟩⟩, rfl⟩

end Context

theorem Attempt.arith_of_divide {ctx ctx' : Context} {op : Arith} {a b r : ExprId}
    (h : (divide op a b).run.run ctx = (.ok r, ctx')) :
    (Build.arith op a b).run ctx = (r, ctx') := by
  rw [divide_run] at h
  split at h
  · cases h
  · cases h
    rfl

namespace Build

variable {ctx : Context} {op : Arith} {a b e r : ExprId}

/-- What remains of an operator is the result. -/
theorem arith_of_remains (h : ctx.Remains op a b e) : (arith op a b).run ctx = (e, ctx) := by
  rcases h.fold_eq with ⟨hfold, rfl⟩ | ⟨hfold, rfl⟩
  · simp only [arith, folded, StateT.run_bind, StateT.run_get, pure_bind, hfold]
    rfl
  · simp only [arith, folded, StateT.run_bind, StateT.run_get, pure_bind, hfold]
    rfl

/-- Where no operand remains the result is made with the promoted type. -/
theorem typeOf_arith (hctx : ctx.WellTyped) (ha : ctx.Stored a) (hb : ctx.Stored b)
    (h : ∀ e, ¬ ctx.Remains op a b e) :
    ((arith op a b).run ctx).2.typeOf ((arith op a b).run ctx).1 =
      (ctx.typeOf a).promote (ctx.typeOf b) := by
  have hchildren : ∀ c ∈ (Node.arith op a b).children, ctx.Stored c := by
    simp [Node.children, ha, hb]
  cases hfold : op.fold (ctx.literal? a) (ctx.literal? b) (a == b) with
  | literal v =>
      have hrun : (arith op a b).run ctx =
          (constant v ((ctx.typeOf a).promote (ctx.typeOf b))).run ctx := by
        simp [arith, folded, hfold]
      rw [hrun]
      exact (Context.wellTyped_intern hctx (by simp [Node.children])).2 _ rfl
  | lhs => exact absurd (Context.fold_eq_lhs hfold) (h a)
  | rhs => exact absurd (Context.fold_eq_rhs hfold) (h b)
  | node =>
      have hrun : (arith op a b).run ctx = (intern (.arith op a b)).run ctx := by
        simp [arith, folded, hfold]
      rw [hrun]
      exact (Context.wellTyped_intern hctx hchildren).2 _ rfl

/-- The result of an arithmetic constructor has the promotion of the types of the operands, unless
the operator is left out and the operand that remains has another type. -/
theorem typeOf_arith_iff {ctx' : Context} (hctx : Reached ctx) (ha : ctx.Stored a)
    (hb : ctx.Stored b) (hrun : (arith op a b).run ctx = (r, ctx') ∨
      (Attempt.divide op a b).run.run ctx = (.ok r, ctx')) :
    ctx'.typeOf r = (ctx.typeOf a).promote (ctx.typeOf b) ↔
      ∀ e, ctx.Remains op a b e → ctx.typeOf e = (ctx.typeOf a).promote (ctx.typeOf b) := by
  have hbuilt : (arith op a b).run ctx = (r, ctx') := hrun.elim id Attempt.arith_of_divide
  by_cases h : ∃ e, ctx.Remains op a b e
  · obtain ⟨e, he⟩ := h
    cases hbuilt.symm.trans (arith_of_remains he)
    refine ⟨fun htype e' he' => ?_, fun hall => hall _ he⟩
    cases (arith_of_remains he).symm.trans (arith_of_remains he')
    exact htype
  · have htype := typeOf_arith hctx.wellTyped ha hb fun e he => h ⟨e, he⟩
    rw [hbuilt] at htype
    exact iff_of_true htype fun e he => absurd ⟨e, he⟩ h

end Build

/-- A narrow variable, a wide one, and a zero of each of their types. -/
def zerosOfBothTypes : Build ExprId := do
  let _ ← Build.var (← declareVar "x" .int32)
  let _ ← Build.var (← declareVar "y" .int64)
  let _ ← Build.constant 0 .int32
  Build.constant 0 .int64

theorem reached_zerosOfBothTypes : Reached (zerosOfBothTypes.run {}).2 := by
  have hprogram : Program ∅ zerosOfBothTypes :=
    .bind (.build (.declareVar "x" .int32)) fun v => .bind (.build (.var v)) fun _ =>
      .bind (.build (.declareVar "y" .int64)) fun w => .bind (.build (.var w)) fun _ =>
        .bind (.build (.constant 0 .int32)) fun _ => .build (.constant 0 .int64)
  exact .step .empty (fun _ he => he.elim) hprogram

/-- The wide variable stays wide beside the narrow zero. -/
theorem Build.typeOf_arith_wideVariable :
    let ctx := (zerosOfBothTypes.run {}).2
    Reached ctx ∧ ctx.typeOf ⟨1⟩ = .int64 ∧ ctx.typeOf ⟨2⟩ = .int32 ∧
      ((Build.add ⟨1⟩ ⟨2⟩).run ctx).2.typeOf ((Build.add ⟨1⟩ ⟨2⟩).run ctx).1 =
        (ctx.typeOf ⟨1⟩).promote (ctx.typeOf ⟨2⟩) := by
  have hx : (zerosOfBothTypes.run {}).2.Stored ⟨1⟩ := by decide +kernel
  have hy : (zerosOfBothTypes.run {}).2.Stored ⟨2⟩ := by decide +kernel
  have hzero : (zerosOfBothTypes.run {}).2.literal? ⟨2⟩ = some 0 := by decide +kernel
  have hrun : (arith .add ⟨1⟩ ⟨2⟩).run (zerosOfBothTypes.run {}).2 =
      (add ⟨1⟩ ⟨2⟩).run (zerosOfBothTypes.run {}).2 := rfl
  have htype := typeOf_arith_iff reached_zerosOfBothTypes hx hy (.inl hrun)
  refine ⟨reached_zerosOfBothTypes, by decide +kernel, by decide +kernel, htype.2 fun e he => ?_⟩
  cases he with
  | left => decide +kernel
  | right hnone => cases hzero.symm.trans hnone

/-- The narrow variable is handed back beside the wide zero. -/
theorem Build.typeOf_arith_narrowVariable :
    let ctx := (zerosOfBothTypes.run {}).2
    Reached ctx ∧ ctx.Stored ⟨0⟩ ∧ ctx.Stored ⟨3⟩ ∧
      ((Build.add ⟨0⟩ ⟨3⟩).run ctx).2.typeOf ((Build.add ⟨0⟩ ⟨3⟩).run ctx).1 ≠
        (ctx.typeOf ⟨0⟩).promote (ctx.typeOf ⟨3⟩) :=
  ⟨reached_zerosOfBothTypes, by decide +kernel, by decide +kernel, by decide +kernel⟩

end LoopBounds
