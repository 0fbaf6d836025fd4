import LoopBounds.Proofs.Rebuild
import LoopBounds.Proofs.Types

/-!
# Values of built expressions

The folding constructors are exact over words: what they build evaluates to what the operator gives
for the values of the operands, and to nothing exactly where the operator gives nothing.  The
connectives hand operands back as they are, so for them the operands have to be truth values.  A
node that is rebuilt over other operands evaluates to what a node of its kind does over them.
-/

namespace LoopBounds

/-! ## Folds -/

/-- The value of what an operator over `x` and `y` folds to, unless the operator stays. -/
def Fold.result? (x y : Int64) : Fold → Option Int64
  | literal v => some v
  | lhs => some x
  | rhs => some y
  | node => none

variable {l? r? : Option Int64} {same : Bool} {x y w : Int64}

theorem Fold.Gives.eq_of_result? {f : Fold} {z : Int64}
    (h : f.Gives (some x.toInt) (some y.toInt) z.toInt) (hw : f.result? x y = some w) : z = w := by
  cases f with
  | literal v =>
      cases hw
      exact Int64.toInt_inj.1 h
  | lhs =>
      cases hw
      exact (Int64.toInt_inj.1 (Option.some_inj.1 h)).symm
  | rhs =>
      cases hw
      exact (Int64.toInt_inj.1 (Option.some_inj.1 h)).symm
  | node => cases hw

theorem Fold.Sees.lhs_eq (h : Fold.Sees l? r? same (some x.toInt) (some y.toInt))
    (hl : l? = some w) : x = w :=
  Int64.toInt_inj.1 (Option.some_inj.1 (h.lhs w hl))

theorem Fold.Sees.rhs_eq (h : Fold.Sees l? r? same (some x.toInt) (some y.toInt))
    (hr : r? = some w) : y = w :=
  Int64.toInt_inj.1 (Option.some_inj.1 (h.rhs w hr))

namespace Arith

variable {op : Arith}

theorem apply_self (h : op.isIdempotent = true) : op.apply x x = some x := by
  cases op <;> cases h
  · exact congrArg some (Int64.toInt_inj.1 ((Word.toInt_min x x).trans (min_self _)))
  · exact congrArg some (Int64.toInt_inj.1 ((Word.toInt_max x x).trans (max_self _)))

/-- Zeros are the values of a difference of equals, a product with zero and a remainder by one. -/
theorem apply_of_foldUnit_literal (h : Fold.Sees l? r? same (some x.toInt) (some y.toInt))
    (hw : op.foldUnit l? r? same = .literal w) : op.apply x y = some w := by
  cases op with
  | add | floorDiv | min | max =>
      simp only [foldUnit] at hw
      split_ifs at hw
  | sub =>
      simp only [foldUnit] at hw
      split_ifs at hw with h0 hsame
      cases hw
      rw [apply, Word.sub, Option.some_inj.1 (h.same hsame), sub_self]
      rfl
  | mul =>
      simp only [foldUnit] at hw
      split_ifs at hw with h0 h1 hzero
      cases hw
      rcases hzero with hzero | hzero
      · rw [apply, Word.mul, h.lhs_eq hzero, Int64.toInt_zero, zero_mul]
        rfl
      · rw [apply, Word.mul, h.rhs_eq hzero, Int64.toInt_zero, mul_zero]
        rfl
  | floorMod =>
      simp only [foldUnit] at hw
      split_ifs at hw with hone
      cases hw
      rw [apply, h.rhs_eq hone, Word.floorMod_eq_some_iff]
      simp [Word.fits_toInt]

/-- An operator that folds has a value, and folds to it. -/
theorem apply_of_fold (h : Fold.Sees l? r? same (some x.toInt) (some y.toInt))
    (hw : (op.fold l? r? same).result? x y = some w) : op.apply x y = some w := by
  have hunit : (op.foldUnit l? r? same).result? x y = some w → op.apply x y = some w := by
    intro hw
    cases hf : op.foldUnit l? r? same with
    | literal v =>
        rw [hf] at hw
        cases hw
        exact apply_of_foldUnit_literal h hf
    | lhs =>
        rw [hf] at hw
        cases hw
        rcases foldUnit_eq_lhs_iff.1 hf with ⟨u, hu, hr⟩ | ⟨hsame, hop⟩
        · exact apply_rightUnit (hu.trans (congrArg some (h.rhs_eq hr).symm))
        · obtain rfl : x = y := Int64.toInt_inj.1 (Option.some_inj.1 (h.same hsame))
          exact apply_self hop
    | rhs =>
        rw [hf] at hw
        cases hw
        obtain ⟨-, u, hu, hl⟩ := foldUnit_eq_rhs_iff.1 hf
        exact apply_leftUnit (hu.trans (congrArg some (h.lhs_eq hl).symm))
    | node =>
        rw [hf] at hw
        cases hw
  unfold fold at hw
  split at hw
  · next u v =>
    split at hw
    · next z hz =>
      cases hw
      rw [h.lhs_eq rfl, h.rhs_eq rfl, hz]
    · exact hunit hw
  · exact hunit hw

end Arith

theorem Comparison.eq_of_fold {op : Comparison}
    (h : Fold.Sees l? r? same (some x.toInt) (some y.toInt))
    (hw : (op.fold l? r? same).result? x y = some w) : w = truth (op.holds x y) := by
  have hgives : (op.fold l? r? same).Gives (some x.toInt) (some y.toInt)
      (truth (op.holds x y)).toInt :=
    Comparison.fold_gives h (by rw [toInt_truth, holds_eq_exact]; rfl)
  exact (hgives.eq_of_result? hw).symm

theorem eq_of_foldAnd {p q : Bool} (h : Fold.Sees l? r? same (some (truth p).toInt)
    (some (truth q).toInt)) (hw : (foldAnd l? r? same).result? (truth p) (truth q) = some w) :
    w = truth (p && q) := by
  have hvalue : Conjoins (some (truth p).toInt) (some (truth q).toInt) (truth (p && q)).toInt := by
    cases p <;> cases q <;> simp [Conjoins, toInt_truth, IsBit]
  exact ((foldAnd_gives h hvalue).eq_of_result? hw).symm

theorem eq_of_foldOr {p q : Bool} (h : Fold.Sees l? r? same (some (truth p).toInt)
    (some (truth q).toInt)) (hw : (foldOr l? r? same).result? (truth p) (truth q) = some w) :
    w = truth (p || q) := by
  have hvalue : Disjoins (some (truth p).toInt) (some (truth q).toInt) (truth (p || q)).toInt := by
    cases p <;> cases q <;> simp [Disjoins, toInt_truth, IsBit]
  exact ((foldOr_gives h hvalue).eq_of_result? hw).symm

/-! ## Nodes -/

def Node.isConnective : Node → Bool
  | .and .. | .or .. | .not _ => true
  | .const .. | .var _ | .arith .. | .compare .. | .call .. => false

namespace Context

variable {ctx ctx' : Context} {env : Env Int64} {n : Node} {a b e r : ExprId}
  {operands : List ExprId} {xs : List Int64} {depth : Nat}

/-- What a node gives over operands with the values `xs`, where calls nest at most `depth` deep. -/
def apply (ctx : Context) (depth : Nat) (env : Env Int64) (n : Node) (xs : List Int64) :
    Option Int64 :=
  match n with
  | .const w _ => some w
  | .var v => env v
  | .arith op _ _ => match xs with
    | [x, y] => op.apply x y
    | _ => none
  | .compare op _ _ => match xs with
    | [x, y] => some (truth (op.holds x y))
    | _ => none
  | .and _ _ => match xs with
    | [x, y] => some (truth (x ≠ 0 && y ≠ 0))
    | _ => none
  | .or _ _ => match xs with
    | [x, y] => some (truth (x ≠ 0 || y ≠ 0))
    | _ => none
  | .not _ => match xs with
    | [x] => some (truth (x = 0))
    | _ => none
  | .call f _ dims => do
    let body ← (ctx.fn f).body?
    let inner ← (ctx.fn f).bindParams fun dim => do xs[← dims.idxOf? dim]?
    ctx.evalBody depth inner body

theorem Grows.evalBody_eq (h : ctx.Grows ctx') (hbodies : ctx.BodiesStored) (env : Env Int64)
    (he : ctx.Stored e) : ctx'.evalBody depth env e = ctx.evalBody depth env e := by
  cases depth with
  | zero => rfl
  | succ depth => exact h.evalWithin_eq_of_bodies hbodies depth env he

theorem Grows.apply_eq (h : ctx.Grows ctx') (hbodies : ctx.BodiesStored) :
    ctx'.apply depth env n xs = ctx.apply depth env n xs := by
  cases n with
  | call f args dims =>
      simp only [apply, h.fn_eq]
      exact Option.bind_congr fun body hbody => Option.bind_congr fun inner _ =>
        h.evalBody_eq hbodies inner (hbodies f body hbody)
  | const | var | arith | compare | and | or | not => rfl

/-- The operands evaluate to `xs`. -/
abbrev Yields (ctx : Context) (depth : Nat) (env : Env Int64) (operands : List ExprId)
    (xs : List Int64) : Prop :=
  List.Forall₂ (fun c x => ctx.evalWithin depth env c = some x) operands xs

theorem Yields.argument? (h : ctx.Yields depth env operands xs) (dims : List DimId) (d : DimId) :
    (argument? operands dims d).bind (ctx.evalWithin depth env) =
      (dims.idxOf? d).bind fun i => xs[i]? := by
  unfold LoopBounds.argument?
  cases dims.idxOf? d with
  | none => rfl
  | some i =>
      by_cases hi : i < operands.length
      · have hi' : i < xs.length := h.length_eq ▸ hi
        simp only [Option.bind_some, List.getElem?_eq_getElem hi, List.getElem?_eq_getElem hi']
        exact h.get hi hi'
      · have hi' : ¬ i < xs.length := h.length_eq ▸ hi
        simp [hi, hi']

/-- An expression evaluates to what its node gives over the values of its operands. -/
theorem Yields.evalWithin_eq (h : ctx.Yields depth env operands xs)
    (hlen : operands.length = n.children.length) (hn : ctx.node e = n.withChildren operands) :
    ctx.evalWithin depth env e = ctx.apply depth env n xs := by
  cases n with
  | const w t => exact eval_const hn
  | var v => exact eval_var hn
  | arith op c d =>
      obtain ⟨a, b, rfl⟩ := List.length_eq_two.1 hlen
      obtain ⟨x, y, hx, hy, rfl⟩ := forall₂_pair h
      rw [eval_arith hn, hx, hy]
      rfl
  | compare op c d =>
      obtain ⟨a, b, rfl⟩ := List.length_eq_two.1 hlen
      obtain ⟨x, y, hx, hy, rfl⟩ := forall₂_pair h
      rw [eval_compare hn, hx, hy]
      rfl
  | and c d =>
      obtain ⟨a, b, rfl⟩ := List.length_eq_two.1 hlen
      obtain ⟨x, y, hx, hy, rfl⟩ := forall₂_pair h
      rw [eval_and hn, hx, hy]
      by_cases h0 : x = 0 <;> simp [apply, h0, truth]
  | or c d =>
      obtain ⟨a, b, rfl⟩ := List.length_eq_two.1 hlen
      obtain ⟨x, y, hx, hy, rfl⟩ := forall₂_pair h
      rw [eval_or hn, hx, hy]
      by_cases h0 : x = 0 <;> simp [apply, h0, truth]
  | not c =>
      obtain ⟨a, rfl⟩ := List.length_eq_one_iff.1 hlen
      cases h with
      | cons hx hrest =>
          cases hrest
          rw [eval_not hn, hx]
          rfl
  | call f args dims =>
      rw [eval_call hn]
      simp only [h.argument?]
      rfl

theorem Yields.mono (h : ctx.Yields depth env operands xs) (hg : ctx.Grows ctx')
    (hbodies : ctx.BodiesStored) (hstored : ∀ c ∈ operands, ctx.Stored c) :
    ctx'.Yields depth env operands xs := by
  obtain ⟨hlen, hpairs⟩ := List.forall₂_iff_zip.1 h
  refine List.forall₂_iff_zip.2 ⟨hlen, fun {c x} hp => ?_⟩
  rw [hg.evalWithin_eq_of_bodies hbodies depth env (hstored c (List.of_mem_zip hp).1)]
  exact hpairs hp

/-- A connective has truth values as operands, and what a negation of a negation gives back is one
as well. -/
structure SeesTruth (ctx : Context) (depth : Nat) (env : Env Int64) (n : Node)
    (operands : List ExprId) (xs : List Int64) : Prop where
  operand : n.isConnective = true → ∀ x ∈ xs, ∃ p, x = truth p
  negated : ∀ c, n = .not c → ∀ a ∈ operands, ∀ b, ctx.node a = .not b →
    ∀ z, ctx.evalWithin depth env b = some z → ∃ q, z = truth q

theorem SeesTruth.of_not_isConnective (h : n.isConnective = false) :
    ctx.SeesTruth depth env n operands xs := by
  refine ⟨fun hn => by simp [h] at hn, ?_⟩
  rintro c rfl
  cases h

theorem evalWithin_of_literal? {w : Int64} (h : ctx.literal? e = some w) :
    ctx.evalWithin depth env e = some w := by
  obtain ⟨t, hn⟩ := exists_node_of_literal? h
  exact eval_const hn

theorem sees_values {x y : Int64} (hx : ctx.evalWithin depth env a = some x)
    (hy : ctx.evalWithin depth env b = some y) :
    Fold.Sees (ctx.literal? a) (ctx.literal? b) (a == b) (some x.toInt) (some y.toInt) := by
  refine ⟨fun v hv => ?_, fun v hv => ?_, fun hab => ?_⟩
  · rw [Option.some_inj.1 (hx.symm.trans (evalWithin_of_literal? hv))]
  · rw [Option.some_inj.1 (hy.symm.trans (evalWithin_of_literal? hv))]
  · obtain rfl := eq_of_beq hab
    rw [Option.some_inj.1 (hx.symm.trans hy)]

/-- A node that folds gives what it folds to. -/
theorem apply_of_fold {x y w : Int64} (hsees : Fold.Sees l? r? same (some x.toInt) (some y.toInt))
    (htruth : n.isConnective = true → ∀ z ∈ [x, y], ∃ p, z = truth p)
    (hw : (n.fold l? r? same).result? x y = some w) : ctx.apply depth env n [x, y] = some w := by
  cases n with
  | const | var | not | call => cases hw
  | arith op c d => exact Arith.apply_of_fold hsees hw
  | compare op c d => exact congrArg some (Comparison.eq_of_fold hsees hw).symm
  | and c d =>
      obtain ⟨p, rfl⟩ := htruth rfl x (by simp)
      obtain ⟨q, rfl⟩ := htruth rfl y (by simp)
      rw [eq_of_foldAnd hsees hw]
      cases p <;> cases q <;> rfl
  | or c d =>
      obtain ⟨p, rfl⟩ := htruth rfl x (by simp)
      obtain ⟨q, rfl⟩ := htruth rfl y (by simp)
      rw [eq_of_foldOr hsees hw]
      cases p <;> cases q <;> rfl

end Context

namespace Rebuilds

variable {ctx ctx' : Context} {env : Env Int64} {n : Node} {r : ExprId} {operands : List ExprId}
  {xs : List Int64} {depth : Nat}

/-- What a node is rebuilt as evaluates to what the node gives over the values of the operands. -/
theorem evalWithin_eq (h : Rebuilds ctx ctx' n operands r) (hg : ctx.Grows ctx')
    (hbodies : ctx.BodiesStored) (hlen : operands.length = n.children.length)
    (hstored : ∀ c ∈ operands, ctx.Stored c) (hvalues : ctx.Yields depth env operands xs)
    (htruth : ctx.SeesTruth depth env n operands xs) :
    ctx'.evalWithin depth env r = ctx.apply depth env n xs := by
  have hpair : ∀ {a b}, operands = [a, b] → ∃ x y, xs = [x, y] ∧
      ctx'.evalWithin depth env a = some x ∧ ctx'.evalWithin depth env b = some y ∧
      ∀ w, (n.fold (ctx.literal? a) (ctx.literal? b) (a == b)).result? x y = some w →
        ctx.apply depth env n xs = some w := by
    rintro a b rfl
    obtain ⟨x, y, hx, hy, rfl⟩ := forall₂_pair hvalues
    have hx' := hg.evalWithin_eq_of_bodies hbodies depth env (hstored a (by simp))
    have hy' := hg.evalWithin_eq_of_bodies hbodies depth env (hstored b (by simp))
    exact ⟨x, y, rfl, hx'.trans hx, hy'.trans hy, fun w =>
      Context.apply_of_fold (Context.sees_values hx hy) htruth.operand⟩
  cases h with
  | node hr hn =>
      rw [(hvalues.mono hg hbodies hstored).evalWithin_eq hlen hn, hg.apply_eq hbodies]
  | literal hr hn hfold =>
      obtain ⟨x, y, -, -, -, hw⟩ := hpair rfl
      rw [Context.eval_const hn, hw _ (by rw [hfold]; rfl)]
  | lhs hfold =>
      obtain ⟨x, y, -, hx, -, hw⟩ := hpair rfl
      rw [hx, hw x (by rw [hfold]; rfl)]
  | rhs hfold =>
      obtain ⟨x, y, -, -, hy, hw⟩ := hpair rfl
      rw [hy, hw y (by rw [hfold]; rfl)]
  | negated ha hr hn =>
      cases hvalues with
      | cons hx hrest =>
          cases hrest
          cases hx.symm.trans (Context.eval_const ha)
          exact Context.eval_const hn
  | inner ha =>
      cases hvalues with
      | cons hx hrest =>
          cases hrest
          have hr : ctx.Stored r :=
            (hstored _ List.mem_cons_self).child (by simp [ha, Node.children])
          rw [Context.eval_not ha] at hx
          obtain ⟨y, hy, rfl⟩ := Option.map_eq_some_iff.1 hx
          -- Two negations cancel on a truth value.
          obtain ⟨p, rfl⟩ := htruth.negated _ rfl _ List.mem_cons_self r ha y hy
          rw [hg.evalWithin_eq_of_bodies hbodies depth env hr, hy]
          cases p <;> rfl

end Rebuilds

/-! ## Constructors -/

namespace Context

variable {ctx ctx' : Context} {env : Env Int64} {e : ExprId} {x : Int64}

/-- The expression is stored, and evaluates to the word. -/
def EvaluatesTo (ctx : Context) (env : Env Int64) (e : ExprId) (x : Int64) : Prop :=
  ctx.Stored e ∧ ctx.eval env e = some x

theorem EvaluatesTo.grows (h : ctx.EvaluatesTo env e x) (hg : ctx.Grows ctx')
    (hbodies : ctx.BodiesStored) : ctx'.EvaluatesTo env e x :=
  ⟨h.1.mono hg.le, (hg.eval_eq_of_bodies hbodies env h.1).trans h.2⟩

end Context

theorem Reached.bodiesStored {ctx : Context} (h : Reached ctx) : ctx.BodiesStored :=
  fun _ _ hbody => h.sound _ (body_mem hbody)

namespace Build

/-- The program stores an expression that evaluates to `v?`. -/
def Computes (b : Build ExprId) (ctx : Context) (env : Env Int64) (v? : Option Int64) : Prop :=
  Ensures b ctx fun r ctx' => ctx'.Stored r ∧ ctx'.eval env r = v?

variable {ctx : Context} {env : Env Int64} {n : Node} {a b : ExprId} {operands : List ExprId}
  {xs : List Int64} {x y : Int64}

theorem forall_mem_truths (p q : Bool) : ∀ x ∈ [truth p, truth q], ∃ t, x = truth t :=
  List.forall_mem_cons.2 ⟨⟨p, rfl⟩, List.forall_mem_singleton.2 ⟨q, rfl⟩⟩

theorem computes_of_rebuilds {p : Build ExprId} (hbodies : ctx.BodiesStored)
    (h : (∀ c ∈ operands, ctx.Stored c) →
      Ensures p ctx fun r ctx' => Rebuilds ctx ctx' n operands r)
    (hlen : operands.length = n.children.length)
    (hvalues : List.Forall₂ (ctx.EvaluatesTo env) operands xs)
    (htruth : ctx.SeesTruth ctx.callDepth env n operands xs) :
    Computes p ctx env (ctx.apply ctx.callDepth env n xs) := by
  obtain ⟨hstored, hyields⟩ := (List.forall₂_and_left _ _).1 hvalues
  refine (h hstored).mono fun r ctx' hg hr => ⟨hr.stored hg.le hstored, ?_⟩
  rw [Context.eval, hg.callDepth_eq]
  exact hr.evalWithin_eq hg hbodies hlen hstored hyields htruth

theorem constant_computes (ctx : Context) (env : Env Int64) (w : Int64) (t : Scalar) :
    Computes (constant w t) ctx env (some w) :=
  (intern_ensures (K := .all) (n := .const w t) trivial (by simp [Node.children]) (by simp)).mono
    fun _ _ _ h => ⟨h.1.stored, Context.eval_const h.2⟩

theorem constantLike_computes (ctx : Context) (env : Env Int64) (w : Int64) (e : ExprId) :
    Computes (constantLike w e) ctx env (some w) :=
  Ensures.get (constant_computes ctx env w _)

theorem arith_computes (hbodies : ctx.BodiesStored) (op : Arith) (ha : ctx.EvaluatesTo env a x)
    (hb : ctx.EvaluatesTo env b y) : Computes (arith op a b) ctx env (op.apply x y) :=
  computes_of_rebuilds hbodies (arith_rebuilds op a b) rfl (.cons ha (.cons hb .nil))
    (.of_not_isConnective rfl)

/-- A node rebuilt over operands with values gives what a node of its kind does over these values;
a division by a literal zero is stored as it stands. -/
theorem rebuild_computes (hbodies : ctx.BodiesStored)
    (hcallee : ∀ f args dims, n = .call f args dims → f.index < ctx.funs.size)
    (hlen : operands.length = n.children.length)
    (hvalues : List.Forall₂ (ctx.EvaluatesTo env) operands xs)
    (htruth : ctx.SeesTruth ctx.callDepth env n operands xs) :
    Computes (rebuild n operands) ctx env (ctx.apply ctx.callDepth env n xs) :=
  computes_of_rebuilds hbodies (fun h => rebuild_rebuilds hlen h hcallee) hlen hvalues htruth

theorem compare_computes (hbodies : ctx.BodiesStored) (op : Comparison)
    (ha : ctx.EvaluatesTo env a x) (hb : ctx.EvaluatesTo env b y) :
    Computes (compare op a b) ctx env (some (truth (op.holds x y))) :=
  rebuild_computes (n := .compare op a b) hbodies (by simp) rfl (.cons ha (.cons hb .nil))
    (.of_not_isConnective rfl)

theorem conj_computes {p q : Bool} (hbodies : ctx.BodiesStored)
    (ha : ctx.EvaluatesTo env a (truth p)) (hb : ctx.EvaluatesTo env b (truth q)) :
    Computes (conj a b) ctx env (some (truth (p && q))) := by
  have h := rebuild_computes (n := .and a b) hbodies (by simp) rfl (.cons ha (.cons hb .nil))
    ⟨fun _ => forall_mem_truths p q, by simp⟩
  cases p <;> cases q <;> exact h

theorem disj_computes {p q : Bool} (hbodies : ctx.BodiesStored)
    (ha : ctx.EvaluatesTo env a (truth p)) (hb : ctx.EvaluatesTo env b (truth q)) :
    Computes (disj a b) ctx env (some (truth (p || q))) := by
  have h := rebuild_computes (n := .or a b) hbodies (by simp) rfl (.cons ha (.cons hb .nil))
    ⟨fun _ => forall_mem_truths p q, by simp⟩
  cases p <;> cases q <;> exact h

theorem negation_computes {p : Bool} (hbodies : ctx.BodiesStored)
    (ha : ctx.EvaluatesTo env a (truth p))
    (hnegated : ∀ c, ctx.node a = .not c → ∀ z, ctx.eval env c = some z → ∃ q, z = truth q) :
    Computes (negation a) ctx env (some (truth !p)) := by
  have htruth : ctx.SeesTruth ctx.callDepth env (.not a) [a] [truth p] := by
    refine ⟨fun _ => List.forall_mem_singleton.2 ⟨p, rfl⟩, fun _ _ c hc => ?_⟩
    obtain rfl := List.mem_singleton.1 hc
    exact hnegated
  have h := rebuild_computes hbodies (by simp) rfl (.cons ha .nil) htruth
  cases p <;> exact h

/-- The conjunction of a list starts from what has been built before. -/
theorem foldlM_conj_computes {es : List ExprId} {ps : List Bool} {p : Bool}
    (hbodies : ctx.BodiesStored) (ha : ctx.EvaluatesTo env a (truth p))
    (hes : List.Forall₂ (fun e q => ctx.EvaluatesTo env e (truth q)) es ps) :
    Computes (es.foldlM conj a) ctx env (some (truth (p && ps.all id))) := by
  induction es generalizing ctx a p ps with
  | nil =>
      cases hes
      rw [List.all_nil, Bool.and_true]
      exact .pure ha
  | cons e es ih =>
      cases hes with
      | @cons _ q _ ps he hes =>
          rw [List.foldlM_cons, List.all_cons, id, ← Bool.and_assoc]
          exact (conj_computes hbodies ha he).bind fun r ctx' hg hr =>
            ih (hbodies.grows hg) hr (hes.imp fun _ _ he => he.grows hg hbodies)

theorem all_computes {es : List ExprId} {ps : List Bool} (hbodies : ctx.BodiesStored)
    (hes : List.Forall₂ (fun e q => ctx.EvaluatesTo env e (truth q)) es ps) :
    Computes (all es) ctx env (some (truth (ps.all id))) :=
  (constant_computes ctx env (truth true) .bool).bind fun _ _ hg hr =>
    foldlM_conj_computes (p := true) (hbodies.grows hg) hr
      (hes.imp fun _ _ he => he.grows hg hbodies)

theorem addConst_computes (hbodies : ctx.BodiesStored) (ha : ctx.EvaluatesTo env a x) (w : Int64) :
    Computes (addConst a w) ctx env (Word.add x w) :=
  (constantLike_computes ctx env w a).bind fun _ _ hg hr =>
    arith_computes (hbodies.grows hg) .add (ha.grows hg hbodies) hr

theorem mulConst_computes (hbodies : ctx.BodiesStored) (ha : ctx.EvaluatesTo env a x) (w : Int64) :
    Computes (mulConst a w) ctx env (Word.mul x w) :=
  (constantLike_computes ctx env w a).bind fun _ _ hg hr =>
    arith_computes (hbodies.grows hg) .mul (ha.grows hg hbodies) hr

/-- The constructors are exact wherever their operands have values.  What an operator builds
evaluates to what the operator gives, and to nothing where the operator gives nothing; a literal
zero is refused as a divisor, but a node is rebuilt over it as it stands.  Connectives are exact
over truth values, which for a negation is asked of the operand of a negated operand as well. -/
theorem constructors_exact (hbodies : ctx.BodiesStored) :
    (∀ a b x y, ctx.EvaluatesTo env a x → ctx.EvaluatesTo env b y →
      (∀ op, Computes (arith op a b) ctx env (op.apply x y)) ∧
      (∀ op, if ctx.isZero b
        then (Attempt.divide op a b).run.run ctx = (.error .divisionByZero, ctx)
        else ∃ r ctx', (Attempt.divide op a b).run.run ctx = (.ok r, ctx') ∧
          ctx'.eval env r = op.apply x y) ∧
      ∀ op, Computes (compare op a b) ctx env (some (truth (op.holds x y)))) ∧
    (∀ a x w, ctx.EvaluatesTo env a x → Computes (addConst a w) ctx env (Word.add x w) ∧
      Computes (mulConst a w) ctx env (Word.mul x w)) ∧
    (∀ a b p q, ctx.EvaluatesTo env a (truth p) → ctx.EvaluatesTo env b (truth q) →
      Computes (conj a b) ctx env (some (truth (p && q))) ∧
      Computes (disj a b) ctx env (some (truth (p || q)))) ∧
    (∀ a p, ctx.EvaluatesTo env a (truth p) →
      (∀ c, ctx.node a = .not c → ∀ z, ctx.eval env c = some z → ∃ q, z = truth q) →
        Computes (negation a) ctx env (some (truth !p))) ∧
    (∀ es ps, List.Forall₂ (fun e p => ctx.EvaluatesTo env e (truth p)) es ps →
      Computes (all es) ctx env (some (truth (ps.all id)))) ∧
    ∀ n operands xs, (∀ f args dims, n = .call f args dims → f.index < ctx.funs.size) →
      operands.length = n.children.length → List.Forall₂ (ctx.EvaluatesTo env) operands xs →
      ctx.SeesTruth ctx.callDepth env n operands xs →
        Computes (rebuild n operands) ctx env (ctx.apply ctx.callDepth env n xs) := by
  refine ⟨fun a b x y ha hb => ⟨fun op => arith_computes hbodies op ha hb, fun op => ?_,
      fun op => compare_computes hbodies op ha hb⟩,
    fun a x w ha => ⟨addConst_computes hbodies ha w, mulConst_computes hbodies ha w⟩,
    fun a b p q ha hb => ⟨conj_computes hbodies ha hb, disj_computes hbodies ha hb⟩,
    fun a p ha => negation_computes hbodies ha, fun es ps => all_computes hbodies,
    fun n operands xs => rebuild_computes hbodies⟩
  rw [Attempt.divide_run]
  split
  · rfl
  · exact ⟨_, _, rfl, (arith_computes hbodies op ha hb).2.2⟩

/-- A variable `x`, whether it is negative and whether it is not, and the successor function. -/
def signAndSuccessor : Build Unit := do
  let x ← Build.var (← declareVar "x" .int64)
  let zero ← Build.constant 0 .int64
  let negative ← Build.compare .lt x zero
  let _ ← Build.negation negative
  let d ← declareDim "d" .uniform
  let p ← declareVar "p" .int64
  let next ← Build.addConst (← Build.var p) 1
  let _ ← addFun
    { name := "next", params := [p], dims := [d], body? := some next, codomain? := none }

theorem reached_signAndSuccessor : Reached (signAndSuccessor.run {}).2 := by
  have hprogram : Program ∅ signAndSuccessor :=
    .bind (.build (.declareVar "x" .int64)) fun v => .bind (.build (.var v)) fun _ =>
    .bind (.build (.constant 0 .int64)) fun _ =>
    .bind (.build (.compare .lt (.inl (.inr rfl)) (.inr rfl))) fun _ =>
    .bind (.build (.negation (.inr rfl))) fun _ =>
    .bind (.build (.declareDim "d" .uniform)) fun _ =>
    .bind (.build (.declareVar "p" .int64)) fun p => .bind (.build (.var p)) fun _ =>
    .bind (.build (.addConst 1 (.inr rfl))) fun next =>
    .bind (.build (.addFun (by
      rintro e (⟨_, ⟨⟩, rfl⟩ | ⟨_, ⟨⟩, _⟩)
      exact .inr rfl))) fun _ =>
    .pure (Set.empty_subset _)
  exact .step .empty (fun _ he => he.elim) hprogram

/-- Where `x` is the least word it has a successor and no predecessor. -/
theorem constructors_exact_leastWord :
    let ctx := (signAndSuccessor.run {}).2
    let env : Env Int64 := .ofList [(⟨0⟩, Int64.minValue)]
    ctx.BodiesStored ∧ Computes (arith .sub ⟨0⟩ ⟨5⟩) ctx env none ∧
      (Attempt.floorDiv ⟨0⟩ ⟨1⟩).run.run ctx = (.error .divisionByZero, ctx) ∧
      Computes (conj ⟨2⟩ ⟨3⟩) ctx env (some 0) ∧ Computes (negation ⟨3⟩) ctx env (some 1) ∧
      Computes (all [⟨2⟩, ⟨2⟩]) ctx env (some 1) ∧
      Computes (rebuild (.arith .floorDiv ⟨0⟩ ⟨5⟩) [⟨0⟩, ⟨1⟩]) ctx env none ∧
      Computes (rebuild (.call ⟨0⟩ [⟨5⟩] [⟨0⟩]) [⟨0⟩]) ctx env (some (-9223372036854775807)) := by
  intro ctx env
  have hbodies : ctx.BodiesStored := reached_signAndSuccessor.bodiesStored
  have hx : ctx.EvaluatesTo env ⟨0⟩ Int64.minValue := ⟨by decide +kernel, by decide +kernel⟩
  have hzero : ctx.EvaluatesTo env ⟨1⟩ 0 := ⟨by decide +kernel, by decide +kernel⟩
  have hone : ctx.EvaluatesTo env ⟨5⟩ 1 := ⟨by decide +kernel, by decide +kernel⟩
  have hnegative : ctx.EvaluatesTo env ⟨2⟩ (truth true) := ⟨by decide +kernel, by decide +kernel⟩
  have hnot : ctx.EvaluatesTo env ⟨3⟩ (truth false) := ⟨by decide +kernel, by decide +kernel⟩
  obtain ⟨hbinary, -, hconnective, hnegation, hall, hrebuild⟩ := @constructors_exact ctx env hbodies
  refine ⟨hbodies, (hbinary _ _ _ _ hx hone).1 .sub, ?_, ?_, ?_, ?_, ?_, ?_⟩
  · have hdivide := (hbinary _ _ _ _ hx hzero).2.1 .floorDiv
    rwa [if_pos (by decide +kernel)] at hdivide
  · exact (hconnective _ _ _ _ hnegative hnot).1
  · refine hnegation _ _ hnot fun c hc z hz => ⟨true, ?_⟩
    obtain rfl : (⟨2⟩ : ExprId) = c := by
      have hnode : ctx.node ⟨3⟩ = .not ⟨2⟩ := by decide +kernel
      exact Node.not.inj (hnode.symm.trans hc)
    exact Option.some_inj.1 (hz.symm.trans hnegative.2)
  · exact hall _ [true, true] (.cons hnegative (.cons hnegative .nil))
  · exact hrebuild (.arith .floorDiv ⟨0⟩ ⟨5⟩) [⟨0⟩, ⟨1⟩] _ (by simp) rfl
      (.cons hx (.cons hzero .nil)) (.of_not_isConnective rfl)
  · have hcallee : ∀ f args dims, Node.call ⟨0⟩ [⟨5⟩] [⟨0⟩] = .call f args dims →
        f.index < ctx.funs.size := by
      rintro f args dims ⟨⟩
      decide +kernel
    have hcall : ctx.apply ctx.callDepth env (.call ⟨0⟩ [⟨5⟩] [⟨0⟩]) [Int64.minValue] =
        some (-9223372036854775807) := by decide +kernel
    rw [← hcall]
    exact hrebuild (.call ⟨0⟩ [⟨5⟩] [⟨0⟩]) [⟨0⟩] _ hcallee rfl (.cons hx .nil)
      (.of_not_isConnective rfl)

end Build

end LoopBounds
