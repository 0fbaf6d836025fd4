import LoopBounds.Proofs.Remembered
import LoopBounds.Proofs.Replay

/-!
# Simplification makes nothing heavier

However an analyzer came by its bounds, an expression simplifies to one with no more connectives,
in number and in depth, as long as it remembers only such simplifications.
-/

namespace LoopBounds

/-! ## One expression at a time -/

namespace Query

/-- What an expression becomes once its operands are simplified. -/
def simplifyNode (ctx : Context) (e : ExprId) (operands : List ExprId) : Query ExprId :=
  match ctx.node e, operands with
  | .arith op _ _, [a, b] => simplifyArith op (ctx.typeOf e) a b
  | .compare op _ _, [a, b] => simplifyCompare op a b
  | .and _ _, [a, b] => Build.conj a b
  | .or _ _, [a, b] => Build.disj a b
  | .not _, [a] => simplifyNegation a
  | .call f _ dims, args => intern (.call f args dims)
  | _, _ => return e

/-- Simplifies an expression over simplified operands and remembers the result. -/
def simplifyOver (ctx : Context) (e : ExprId) (operands : List ExprId) : Query ExprId := do
  let result ← simplifyNode ctx e operands
  recordSimplified e result
  return result

/-- What is not remembered is simplified operands first. -/
theorem simplify_eq (e : ExprId) : simplify e = (do
    match (← analyzer).simplified? e with
    | some done => return done
    | none => do
      let ctx ← context
      let operands ← (ctx.node e).children.mapM simplify
      simplifyOver ctx e operands) := by
  rw [simplify]
  refine congrArg (analyzer >>= ·) (funext fun an => ?_)
  cases an.simplified? e with
  | some done => rfl
  | none =>
      refine congrArg (context >>= ·) (funext fun ctx => ?_)
      dsimp only
      unfold simplifyOver simplifyNode
      split
      case h_8 f args dims hn =>
        have hargs : args.attach.mapM (fun a => simplify a.1) = args.mapM simplify := by
          change args.attach.mapM (simplify ∘ Subtype.val) = _
          rw [← List.mapM_map, List.attach_map_subtype_val]
        rw [hn, Node.children, ← hargs]
      all_goals
        next hn =>
        rw [hn]
        simp [Node.children, List.mapM_cons]

theorem quiet_simplifyNode (ctx : Context) (e : ExprId) (operands : List ExprId) :
    Quiet (simplifyNode ctx e operands) := by
  unfold simplifyNode
  split
  exacts [quiet_simplifyArith, quiet_simplifyCompare _, .lift _, .lift _, quiet_simplifyNegation,
    .lift _, .pure _]

/-! ## Rules -/

/-- The query only adds expressions, and what it gives weighs at most `w`. -/
def Lightens (q : Query ExprId) (s : Session) (w : Join → Nat) : Prop :=
  Leads q s fun r s' => s.ctx.Appends s'.ctx ∧ s'.ctx.AtMost r w

variable {s : Session} {w : Join → Nat} {op : Arith} {type : Scalar} {a b e r : ExprId}

theorem Lightens.pure (h : s.ctx.AtMost r w) : Lightens (pure r) s w := ⟨.refl s.ctx, h⟩

theorem Lightens.lift {x : Build ExprId} (h : Build.Replays x s.ctx fun r ctx => ctx.AtMost r w) :
    Lightens (liftM x) s w := ⟨h.grows.appends, h.post⟩

theorem Lightens.mono {w' : Join → Nat} {q : Query ExprId} (h : Lightens q s w)
    (hw : ∀ j, w j ≤ w' j) : Lightens q s w' := ⟨h.1, h.2.mono (.refl _) hw⟩

theorem Lightens.bind {α : Type} {q : Query α} {f : α → Query ExprId} {P : α → Context → Prop}
    (hq : Leads q s fun x s' => s.ctx.Appends s'.ctx ∧ P x s'.ctx)
    (hf : ∀ x s', s.ctx.Appends s'.ctx → P x s'.ctx → Lightens (f x) s' w) :
    Lightens (q >>= f) s w := by
  have h := hf _ _ hq.1 hq.2
  exact ⟨hq.1.trans h.1, h.2⟩

theorem Lightens.build {α : Type} {x : Build α} {f : α → Query ExprId} {P : α → Context → Prop}
    (hx : Build.Replays x s.ctx P)
    (hf : ∀ y s', s.ctx.Appends s'.ctx → P y s'.ctx → Lightens (f y) s' w) :
    Lightens ((liftM x : Query α) >>= f) s w :=
  .bind ⟨hx.grows.appends, hx.post⟩ hf

theorem Lightens.context {f : Context → Query ExprId} (h : Lightens (f s.ctx) s w) :
    Lightens (Query.context >>= f) s w := h

theorem bound_keeps (e : ExprId) (s : Session) : Leads (bound e) s fun _ s' => s'.ctx = s.ctx := by
  refine .analyzer ?_
  split
  · exact .pure rfl
  · exact Leads.context rfl

theorem bound_appends (e : ExprId) (s : Session) : s.ctx.Appends ((bound e).run s).2.ctx := by
  rw [bound_keeps e s]
  exact .refl s.ctx

/-- The bounds of an expression may be anything. -/
theorem Lightens.bound {f : Interval → Query ExprId}
    (hf : ∀ i s', s'.ctx = s.ctx → Lightens (f i) s' w) :
    Lightens (Query.bound e >>= f) s w := by
  have h := hf ((Query.bound e).run s).1 _ (bound_keeps e s)
  exact ⟨(bound_appends e s).trans h.1, h.2⟩

/-! ## Kinds of operators -/

/-- The joined weight of two expressions. -/
abbrev pairWeight (ctx : Context) (a b : ExprId) (j : Join) : Nat :=
  j.op (ctx.weight j a) (ctx.weight j b)

theorem operator_lightens (op : Arith) (ha : s.ctx.Stored a) (hb : s.ctx.Stored b) :
    Lightens (operator op a b) s (pairWeight s.ctx a b) := by
  unfold operator
  split
  · exact (Lightens.lift (Build.arith_replays op hb ha)).mono fun j => (j.comm _ _).le
  · exact .lift (Build.arith_replays op ha hb)

theorem difference?_leads (ha : s.ctx.Stored a) (hb : s.ctx.Stored b) :
    Leads (difference? a b) s fun _ s' => s.ctx.Appends s'.ctx ∧ True := by
  refine .context ?_
  dsimp only
  split
  · next diff hdiff =>
    have hform := Affine.atMost_sub (Affine.atMost_ofExpr ha) (Affine.atMost_ofExpr hb) hdiff
    have hrun := Affine.toExpr_replays hform ((s.ctx.typeOf a).promote (s.ctx.typeOf b))
    exact ⟨hrun.grows.appends, trivial⟩
  · exact .pure ⟨.refl s.ctx, trivial⟩

theorem affineOr_lightens {form? : Option Affine} (ha : s.ctx.Stored a) (hb : s.ctx.Stored b)
    (hform : ∀ form, form? = some form → form.AtMost s.ctx w)
    (hop : ∀ j, pairWeight s.ctx a b j ≤ w j) : Lightens (affineOr form? type op a b) s w := by
  unfold affineOr
  split
  · next form => exact .lift (Affine.toExpr_replays (hform form rfl) type)
  · exact (Lightens.lift (Build.arith_replays op ha hb)).mono hop

theorem simplifyProduct_lightens (ha : s.ctx.Stored a) (hb : s.ctx.Stored b) :
    Lightens (simplifyProduct type a b) s (pairWeight s.ctx a b) := by
  refine .context ?_
  dsimp only
  split
  · refine affineOr_lightens ha hb (fun form hform => ?_) fun j => le_rfl
    exact (Affine.atMost_scale (Affine.atMost_ofExpr ha) hform).mono (.refl _)
      fun j => j.le_left _ _
  · refine affineOr_lightens ha hb (fun form hform => ?_) fun j => le_rfl
    exact (Affine.atMost_scale (Affine.atMost_ofExpr hb) hform).mono (.refl _)
      fun j => j.le_right _ _
  · exact operator_lightens .mul ha hb

theorem simplifyDivision_lightens (op : Arith) (type : Scalar) (ha : s.ctx.Stored a) (c : Int64) :
    Lightens (simplifyDivision op type a c) s (s.ctx.weight · a) := by
  obtain ⟨u, v, hquotient, hremainder, huv⟩ := Affine.atMost_splitBy (Affine.atMost_ofExpr ha) c
  refine .context ?_
  dsimp only
  generalize (Affine.ofExpr s.ctx a).splitBy c = parts at hquotient hremainder
  have hu : ∀ j, u j ≤ s.ctx.weight j a := fun j => (j.le_left _ _).trans (huv j)
  have hv : ∀ j, v j ≤ s.ctx.weight j a := fun j => (j.le_right _ _).trans (huv j)
  refine .build (Affine.toExpr_replays hremainder type) fun rest s₁ h₁ hrest => ?_
  refine .bound fun i s₂ h₂ => ?_
  rw [← h₂] at h₁ hrest
  refine .build (Build.constant_replays s₂.ctx c type fun _ => 0) fun divisor s₃ h₃ hdivisor => ?_
  have ha₃ := (h₁.trans h₃).stored ha
  have hzero : ∀ j, s₃.ctx.weight j divisor = 0 := fun j => Nat.le_zero.1 (hdivisor.weight_le j)
  -- a division that stays as it is weighs as much as its dividend
  have hkept : ∀ j, pairWeight s₃.ctx a divisor j ≤ s.ctx.weight j a := fun j => by
    rw [pairWeight, hzero, j.op_zero, (h₁.trans h₃).weight_eq ha]
  have hrest₃ := hrest.mono h₃ fun _ => le_rfl
  have hinner : Lightens (liftM (Build.arith op rest divisor)) s₃ v :=
    (Lightens.lift (Build.arith_replays op hrest₃.stored hdivisor.stored)).mono fun j => by
      rw [hzero, j.op_zero]
      exact hrest₃.weight_le j
  cases i.block? c with
  | some k =>
      cases op with
      | floorDiv =>
          refine affineOr_lightens ha₃ hdivisor.stored (fun form hform => ?_) hkept
          refine (Affine.atMost_add hquotient (Affine.atMost_ofConst _ k fun _ => 0) hform).mono
            (h₁.trans h₃) fun j => ?_
          rw [j.op_zero]
          exact hu j
      | floorMod =>
          refine affineOr_lightens ha₃ hdivisor.stored (fun form hform => ?_) hkept
          obtain ⟨m, -, hform⟩ := Option.bind_eq_some_iff.1 hform
          refine (Affine.atMost_sub hremainder (Affine.atMost_ofConst _ m fun _ => 0) hform).mono
            (h₁.trans h₃) fun j => ?_
          rw [j.op_zero]
          exact hv j
      | add | sub | mul | min | max => exact hinner.mono hv
  | none =>
      cases op with
      | floorDiv =>
          refine .bind (P := fun r ctx => ctx.AtMost r v) hinner fun inner s₄ h₄ hinner => ?_
          split
          · exact .pure (hinner.mono (.refl _) hv)
          · have h₄' := (h₁.trans h₃).trans h₄
            have hkept₄ : ∀ j, pairWeight s₄.ctx a divisor j ≤ s.ctx.weight j a := fun j => by
              rw [pairWeight, h₄.weight_eq ha₃, h₄.weight_eq hdivisor.stored]
              exact hkept j
            refine affineOr_lightens (h₄.stored ha₃) (h₄.stored hdivisor.stored)
              (fun form hform => ?_) hkept₄
            exact (Affine.atMost_add (hquotient.mono h₄' fun _ => le_rfl)
              (Affine.atMost_atom hinner) hform).mono (.refl _) huv
      | add | sub | mul | floorMod | min | max => exact hinner.mono hv

theorem simplifyDivisionBy_lightens (op : Arith) (type : Scalar) (ha : s.ctx.Stored a)
    (hb : s.ctx.Stored b) : Lightens (simplifyDivisionBy op type a b) s (pairWeight s.ctx a b) := by
  have harith := Lightens.lift (Build.arith_replays op ha hb)
  refine .context ?_
  split
  · split
    · exact (simplifyDivision_lightens op type ha _).mono fun j => j.le_left _ _
    split
    · refine .lift (Build.intern_replays (fun c hc => ?_) nofun)
      rcases List.mem_pair.1 hc with rfl | rfl
      exacts [ha, hb]
    · exact harith
  · exact harith

theorem simplifyChoice_lightens (op : Arith) (ha : s.ctx.Stored a) (hb : s.ctx.Stored b) :
    Lightens (simplifyChoice op a b) s (pairWeight s.ctx a b) := by
  have hoperator : ∀ {s' : Session}, s.ctx.Appends s'.ctx →
      Lightens (operator op a b) s' (pairWeight s.ctx a b) := fun h =>
    (operator_lightens op (h.stored ha) (h.stored hb)).mono fun j => by
      rw [pairWeight, h.weight_eq ha, h.weight_eq hb]
  have hends : ∀ {s' : Session}, s.ctx.Appends s'.ctx →
      s'.ctx.AtMost (if op = .min then (a, b) else (b, a)).1 (pairWeight s.ctx a b) ∧
        s'.ctx.AtMost (if op = .min then (a, b) else (b, a)).2 (pairWeight s.ctx a b) := by
    intro s' h
    have hleft := (Context.atMost_self ha).mono h fun j => j.le_left _ (s.ctx.weight j b)
    have hright := (Context.atMost_self hb).mono h fun j => j.le_right (s.ctx.weight j a) _
    split
    exacts [⟨hleft, hright⟩, ⟨hright, hleft⟩]
  have hchoose : ∀ (i : Interval) {lesser greater : ExprId} {s' : Session},
      s.ctx.Appends s'.ctx → s'.ctx.AtMost lesser (pairWeight s.ctx a b) →
      s'.ctx.AtMost greater (pairWeight s.ctx a b) → Lightens (do
        if i.hi ≤ 0 then return lesser
        if 0 ≤ i.lo then return greater
        operator op a b) s' (pairWeight s.ctx a b) := by
    intro i lesser greater s' h hlesser hgreater
    split
    · exact .pure hlesser
    split
    exacts [.pure hgreater, hoperator h]
  refine .bind (P := fun _ _ => True) (difference?_leads ha hb) fun diff? s₁ h₁ _ => ?_
  cases diff? with
  | none => exact hoperator h₁
  | some diff =>
      have hbound : Leads (some <$> bound diff) s₁ fun _ s' => s₁.ctx.Appends s'.ctx ∧ True :=
        ⟨bound_appends diff s₁, trivial⟩
      refine .bind (P := fun _ _ => True) hbound fun sign? s₂ h₂ _ => ?_
      have h := h₁.trans h₂
      cases sign? with
      | none => exact hoperator h
      | some i => exact hchoose i h (hends h).1 (hends h).2

theorem simplifyArith_lightens (op : Arith) (type : Scalar) (ha : s.ctx.Stored a)
    (hb : s.ctx.Stored b) : Lightens (simplifyArith op type a b) s (pairWeight s.ctx a b) := by
  have hfa := Affine.atMost_ofExpr ha
  have hfb := Affine.atMost_ofExpr hb
  cases op with
  | add =>
      exact Lightens.context (affineOr_lightens ha hb (fun form => Affine.atMost_add hfa hfb)
        fun j => le_rfl)
  | sub =>
      exact Lightens.context (affineOr_lightens ha hb (fun form => Affine.atMost_sub hfa hfb)
        fun j => le_rfl)
  | mul => exact simplifyProduct_lightens ha hb
  | floorDiv | floorMod => exact simplifyDivisionBy_lightens _ type ha hb
  | min | max => exact simplifyChoice_lightens _ ha hb

theorem simplifyCompare_lightens (op : Comparison) (ha : s.ctx.Stored a) (hb : s.ctx.Stored b) :
    Lightens (simplifyCompare op a b) s (pairWeight s.ctx a b) := by
  have hcompare : ∀ {s' : Session}, s.ctx.Appends s'.ctx →
      Lightens (liftM (Build.compare op a b)) s' (pairWeight s.ctx a b) := by
    intro s' h
    refine (Lightens.lift (Build.compare_replays op (h.stored ha) (h.stored hb))).mono fun j => ?_
    rw [h.weight_eq ha, h.weight_eq hb]
  refine .bind (P := fun _ _ => True) (difference?_leads ha hb) fun diff? s₁ h₁ _ => ?_
  cases diff? with
  | none => exact hcompare h₁
  | some diff =>
      refine Lightens.bound fun i s₂ h₂ => ?_
      cases op.decideWithin i with
      | none => exact hcompare (h₂ ▸ h₁)
      | some answer => exact .lift (Build.constant_replays s₂.ctx _ _ _)

theorem simplifyNegation_lightens (ha : s.ctx.Stored a) :
    Lightens (simplifyNegation a) s fun j => s.ctx.weight j a + 1 := by
  refine .context ?_
  split
  · next op x y hn =>
    have hx := ha.child (c := x) (by simp [hn, Node.children])
    have hy := ha.child (c := y) (by simp [hn, Node.children])
    refine (Lightens.lift (Build.compare_replays op.negate hx hy)).mono fun j => ?_
    rw [Context.weight_of_node hn]
    exact Nat.le_succ _
  · exact .lift (Build.negation_replays ha)

/-- What an expression becomes weighs no more if its operands do not. -/
theorem simplifyNode_lightens {ctx : Context} {operands : List ExprId}
    (hoperands : List.Forall₂ (fun c r => s.ctx.AtMost r (ctx.weight · c)) (ctx.node e).children
      operands) (hctx : ctx.Appends s.ctx) (he : ctx.Stored e) :
    Lightens (simplifyNode ctx e operands) s (ctx.weight · e) := by
  have hpair : ∀ {c d x y : ExprId}, s.ctx.AtMost x (ctx.weight · c) →
      s.ctx.AtMost y (ctx.weight · d) → ∀ j, pairWeight s.ctx x y j ≤ pairWeight ctx c d j :=
    fun hx hy j => j.op_le_op (hx.weight_le j) (hy.weight_le j)
  have hweight : ∀ j, ctx.nodeWeight j (ctx.node e) = ctx.weight j e :=
    fun j => (Context.weight_eq_nodeWeight ctx j e).symm
  unfold simplifyNode
  cases hn : ctx.node e with
  | const c t | var v => exact .pure ((Context.atMost_self he).mono hctx fun _ => le_rfl)
  | arith op c d =>
      rw [hn] at hoperands hweight
      obtain _ | ⟨hx, _ | ⟨hy, _ | _⟩⟩ := hoperands
      exact (simplifyArith_lightens op _ hx.stored hy.stored).mono fun j =>
        (hpair hx hy j).trans (hweight j).le
  | compare op c d =>
      rw [hn] at hoperands hweight
      obtain _ | ⟨hx, _ | ⟨hy, _ | _⟩⟩ := hoperands
      exact (simplifyCompare_lightens op hx.stored hy.stored).mono fun j =>
        (hpair hx hy j).trans (hweight j).le
  | and c d =>
      rw [hn] at hoperands hweight
      obtain _ | ⟨hx, _ | ⟨hy, _ | _⟩⟩ := hoperands
      exact (Lightens.lift (Build.conj_replays hx.stored hy.stored)).mono fun j =>
        (Nat.succ_le_succ (hpair hx hy j)).trans (hweight j).le
  | or c d =>
      rw [hn] at hoperands hweight
      obtain _ | ⟨hx, _ | ⟨hy, _ | _⟩⟩ := hoperands
      exact (Lightens.lift (Build.disj_replays hx.stored hy.stored)).mono fun j =>
        (Nat.succ_le_succ (hpair hx hy j)).trans (hweight j).le
  | not c =>
      rw [hn] at hoperands hweight
      obtain _ | ⟨hx, _ | _⟩ := hoperands
      exact (simplifyNegation_lightens hx.stored).mono fun j =>
        (Nat.succ_le_succ (hx.weight_le j)).trans (hweight j).le
  | call f args dims =>
      rw [hn] at hoperands hweight
      have hflipped : List.Forall₂ (fun r c => s.ctx.Stored r ∧ s.ctx.AtMost r (ctx.weight · c))
          operands args :=
        List.Forall₂.flip (hoperands.imp fun _ _ h => ⟨h.stored, h⟩)
      have hstored := (List.forall₂_and_left operands args).1 hflipped
      have hdeclared : s.ctx.WellFormed → ∀ g args' dims',
          (Node.call f operands dims) = .call g args' dims' → g.index < s.ctx.funs.size := by
        rintro hwf _ _ _ ⟨⟩
        exact hwf.call e f args dims ((hctx.node_eq he).trans hn)
      refine (Lightens.lift (Build.intern_replays (n := .call f operands dims) hstored.1
        hdeclared)).mono fun j => ?_
      exact (j.total_le (hoperands.imp fun _ _ h => h.weight_le j)).trans (hweight j).le

end Query

/-! ## Sessions -/

/-- What an analyzer remembers as a simplification is stored and weighs no more. -/
def Session.Light (s : Session) : Prop :=
  ∀ e r, s.analyzer.simplified? e = some r → s.ctx.Stored e ∧ s.ctx.AtMost r (s.ctx.weight · e)

theorem Session.Light.mono {s s' : Session} (h : s.Light) (hctx : s.ctx.Appends s'.ctx)
    (hsame : ∀ e, s'.analyzer.simplified? e = s.analyzer.simplified? e) : s'.Light := by
  intro e r hr
  obtain ⟨he, hr⟩ := h e r (hsame e ▸ hr)
  exact ⟨hctx.stored he, hr.mono hctx fun j => (hctx.weight_eq he).ge⟩

namespace Query

/-- The query only adds expressions, keeps what is remembered light, and its answer and the
context satisfy `Q`. -/
structure Keeps {α : Type} (q : Query α) (s : Session) (Q : α → Context → Prop) : Prop where
  light : (q.run s).2.Light
  appends : s.ctx.Appends (q.run s).2.ctx
  post : Q (q.run s).1 (q.run s).2.ctx

variable {α β : Type} {q : Query α} {f : α → Query β} {s : Session} {Q : α → Context → Prop}
  {S : β → Context → Prop} {e r : ExprId}

theorem Keeps.pure {x : α} (hs : s.Light) (h : Q x s.ctx) : Keeps (pure x : Query α) s Q :=
  ⟨hs, .refl s.ctx, h⟩

theorem Keeps.bind (hq : Keeps q s Q)
    (hf : ∀ x s', s'.Light → s.ctx.Appends s'.ctx → Q x s'.ctx → Keeps (f x) s' S) :
    Keeps (q >>= f) s S := by
  have h := hf _ _ hq.light hq.appends hq.post
  exact ⟨h.light, hq.appends.trans h.appends, h.post⟩

theorem Keeps.context {f : Context → Query β} (h : Keeps (f s.ctx) s S) :
    Keeps (Query.context >>= f) s S := ⟨h.light, h.appends, h.post⟩

theorem Keeps.analyzer {f : Analyzer → Query β} (h : Keeps (f s.analyzer) s S) :
    Keeps (Query.analyzer >>= f) s S := ⟨h.light, h.appends, h.post⟩

theorem Quiet.keeps (hq : Quiet q) (hs : s.Light) (hctx : s.ctx.Appends (q.run s).2.ctx) :
    Keeps q s fun _ _ => True :=
  ⟨hs.mono hctx (hq s).1, hctx, trivial⟩

theorem recordSimplified_keeps (hs : s.Light) (he : s.ctx.Stored e)
    (hr : s.ctx.AtMost r (s.ctx.weight · e)) :
    Keeps (recordSimplified e r) s fun _ ctx => ctx = s.ctx := by
  obtain ⟨ctx, an⟩ := s
  refine ⟨fun e' r' hr' => ?_, .refl ctx, rfl⟩
  rcases Analyzer.simplified?_insert hr' with ⟨rfl, rfl⟩ | hr'
  exacts [⟨he, hr⟩, hs e' r' hr']

theorem recordProved_keeps (e : ExprId) (answer : Bool) (hs : s.Light) :
    Keeps (recordProved e answer) s fun _ ctx => ctx = s.ctx := by
  obtain ⟨ctx, an⟩ := s
  refine ⟨hs.mono (.refl ctx) fun e' => ?_, .refl ctx, rfl⟩
  change Analyzer.simplified? (if an.memoize then _ else an) e' = _
  split <;> rfl

theorem simplifyAll_keeps {es : List ExprId} (hs : s.Light) (hes : ∀ e ∈ es, s.ctx.Stored e)
    (hsimplify : ∀ e ∈ es, ∀ s' : Session, s'.Light → s'.ctx.Stored e →
      Keeps (simplify e) s' fun r ctx => ctx.AtMost r (s'.ctx.weight · e)) :
    Keeps (es.mapM simplify) s fun rs ctx =>
      List.Forall₂ (fun e r => ctx.AtMost r (s.ctx.weight · e)) es rs := by
  induction es generalizing s with
  | nil => exact .pure hs .nil
  | cons e es ih =>
      rw [List.mapM_cons]
      have hrest : ∀ c ∈ es, s.ctx.Stored c := fun c hc => hes c (List.mem_cons_of_mem e hc)
      refine (hsimplify e List.mem_cons_self s hs (hes e List.mem_cons_self)).bind
        fun r s₁ hs₁ h₁ hr => ?_
      refine (ih hs₁ (fun c hc => h₁.stored (hrest c hc)) fun c hc =>
        hsimplify c (List.mem_cons_of_mem e hc)).bind fun rs s₂ hs₂ h₂ hrs => ?_
      refine .pure hs₂ (.cons (hr.mono h₂ fun _ => le_rfl) ?_)
      rw [List.forall₂_iff_get] at hrs ⊢
      refine ⟨hrs.1, fun i hi hi' => (hrs.2 i hi hi').mono (.refl _) fun j => ?_⟩
      exact (h₁.weight_eq (hrest _ (List.get_mem es _))).le

/-- Simplification makes no expression heavier. -/
theorem simplify_keeps (e : ExprId) (s : Session) (hs : s.Light) (he : s.ctx.Stored e) :
    Keeps (simplify e) s fun r ctx => ctx.AtMost r (s.ctx.weight · e) := by
  rw [simplify_eq]
  refine .analyzer ?_
  split
  · next r hr => exact .pure hs (hs e r hr).2
  refine .context ?_
  have hchildren : ∀ c ∈ (s.ctx.node e).children, s.ctx.Stored c := fun c => he.child
  refine (simplifyAll_keeps hs hchildren fun c hc s' => simplify_keeps c s').bind
    fun rs s₁ hs₁ h₁ hrs => ?_
  obtain ⟨h₂, hr⟩ := simplifyNode_lightens hrs h₁ he
  have hquiet := (quiet_simplifyNode s.ctx e rs).keeps hs₁ h₂
  refine Keeps.bind (Q := fun r ctx => ctx.AtMost r (s.ctx.weight · e))
    ⟨hquiet.light, h₂, hr⟩ fun r s₂ hs₂ h₂ hr => ?_
  have hheavy : s₂.ctx.AtMost r (s₂.ctx.weight · e) :=
    hr.mono (.refl _) fun j => ((h₁.trans h₂).weight_eq he).ge
  refine (recordSimplified_keeps hs₂ ((h₁.trans h₂).stored he) hheavy).bind
    fun _ s₃ hs₃ _ hctx => ?_
  exact .pure hs₃ (hctx ▸ hr)
termination_by e.index
decreasing_by exact Context.child_lt _ hc

theorem provesWithin_keeps (rounds : Nat) (hs : s.Light) (he : s.ctx.Stored e) :
    Keeps (provesWithin rounds e) s fun _ _ => True := by
  induction rounds generalizing s e with
  | zero => exact .pure hs trivial
  | succ rounds ih =>
      have hrecord : ∀ (answer : Bool) {s' : Session}, s'.Light →
          Keeps (do recordProved e answer; return answer) s' fun _ _ => True :=
        fun answer _ hs' => (recordProved_keeps e answer hs').bind fun _ _ hs'' _ _ =>
          .pure hs'' trivial
      refine .analyzer ?_
      split
      · exact .pure hs trivial
      refine (simplify_keeps e s hs he).bind fun r s₁ hs₁ h₁ hr => ?_
      refine .context ?_
      split
      · exact hrecord _ hs₁
      · next a b hn =>
        have ha := hr.stored.child (c := a) (by simp [hn, Node.children])
        have hb := hr.stored.child (c := b) (by simp [hn, Node.children])
        refine (ih hs₁ ha).bind fun first s₂ hs₂ h₂ _ => ?_
        split
        · exact (ih hs₂ (h₂.stored hb)).bind fun second s₃ hs₃ _ _ => hrecord _ hs₃
        · exact hrecord _ hs₂
      · exact hrecord _ hs₁

end Query

end LoopBounds
