import LoopBounds.Proofs.Rebuild
import LoopBounds.Proofs.Soundness

/-!
# Substitution

Substitution looks at every node after it has been rebuilt.  An operator may fold to an operand,
and when that is a variable with an image of its own, the image is put in its place as well.
Where no operator folds to such a variable, all variables are replaced at once: the result
evaluates to what the expression evaluates to when each variable has the value of its image.
-/

namespace LoopBounds

namespace Context

/-- `r` is `e` with the variables replaced by their images, all at once, and with the operators
folded over their new operands. -/
inductive Replaced (ctx : Context) (images : Env ExprId) : ExprId → ExprId → Prop
  | image {e v r} (hn : ctx.node e = .var v) (hr : images v = some r) : Replaced ctx images e r
  | other {e v} (hn : ctx.node e = .var v) (hv : images v = none) : Replaced ctx images e e
  | node {e operands r} (hn : ∀ v, ctx.node e ≠ .var v)
    (hlen : (ctx.node e).children.length = operands.length)
    (hoperands : ∀ p ∈ (ctx.node e).children.zip operands, Replaced ctx images p.1 p.2)
    (hstored : ∀ c ∈ operands, ctx.Stored c) (hr : Rebuilds ctx ctx (ctx.node e) operands r) :
    Replaced ctx images e r

variable {ctx ctx' : Context} {images : Env ExprId} {e r c : ExprId}

theorem Replaced.mono (hctx : ctx ≤ ctx') (he : ctx.Stored e) (h : ctx.Replaced images e r) :
    ctx'.Replaced images e r := by
  induction h with
  | image hn hr => exact .image ((node_eq hctx he).trans hn) hr
  | other hn hv => exact .other ((node_eq hctx he).trans hn) hv
  | node hn hlen _ hstored hr ih =>
      have hnode := node_eq hctx he
      refine .node (hnode ▸ hn) (hnode ▸ hlen) (fun p hp => ?_)
        (fun c hc => (hstored c hc).mono hctx) (hnode ▸ hr.mono hctx hctx hstored)
      rw [hnode] at hp
      exact ih p hp (he.child (List.of_mem_zip hp).1)

/-- No operator within `e` folds to a variable that has another image. -/
def ReplacesOnce (ctx : Context) (images : Env ExprId) (e : ExprId) : Prop :=
  ∀ ctx' c r w s, ctx ≤ ctx' → ctx.Within e c → (∀ v, ctx.node c ≠ .var v) →
    ctx'.Replaced images c r → ctx'.node r = .var w → images w = some s → ctx'.node s = .var w

theorem ReplacesOnce.mono (hctx : ctx ≤ ctx') (he : ctx.Stored e) (h : ctx.ReplacesOnce images e) :
    ctx'.ReplacesOnce images e := by
  intro ctx'' c r w s hctx' hc hn
  have hc := hc.restrict hctx he
  rw [node_eq hctx (hc.stored he)] at hn
  exact h ctx'' c r w s (hctx.trans hctx') hc hn

theorem ReplacesOnce.child (hc : c ∈ (ctx.node e).children) (h : ctx.ReplacesOnce images e) :
    ctx.ReplacesOnce images c :=
  fun ctx' d r w s hctx hd => h ctx' d r w s hctx (hd.of_child hc)

end Context

/-! ## The value of the result -/

/-- The variables with an image have the value of their image in `ν'`, and the others that of the
variable, if any. -/
structure Valuation.Replaces (A : Arithmetic) (images : Env ExprId) (ν ν' : Valuation) : Prop where
  ctx : ν'.ctx = ν.ctx
  depth : ν'.depth = ν.depth
  image : ∀ v r x, images v = some r → ν'.env v = some x → ν.Evaluates A r x
  other : ∀ v x, images v = none → ν'.env v = some x → ν.env v = some x

theorem Context.Replaced.evaluates {A : Arithmetic} {images : Env ExprId} {ν ν' : Valuation}
    {e r : ExprId} (h : ν.ctx.Replaced images e r) (hreplaces : ν.Replaces A images ν') {z : Int}
    (hz : ν'.Evaluates A e z) : ν.Evaluates A r z := by
  induction h generalizing z with
  | @image e v r hn hr =>
      have hn' := hreplaces.ctx.symm ▸ hn
      exact hreplaces.image v r z hr (hz.var_inv hn')
  | @other e v hn hv =>
      have hn' := hreplaces.ctx.symm ▸ hn
      exact .var hn (hreplaces.other v z hv (hz.var_inv hn'))
  | @node e operands r hn hlen _ hstored hr ih =>
      have hoperands : List.Forall₂ (fun c d => ∀ x, ν'.Evaluates A c x → ν.Evaluates A d x)
          (ν.ctx.node e).children operands :=
        List.forall₂_iff_zip.2 ⟨hlen, fun hp x => ih _ hp⟩
      exact hr.evaluates le_rfl le_rfl hreplaces.ctx hreplaces.depth (by rw [hreplaces.ctx]) hn
        hstored hoperands hz

/-- What holds of all literals, of the images and of operators over any operands holds of all
parts of the result. -/
theorem Context.Replaced.each {ctx : Context} {images : Env ExprId} {e r : ExprId}
    {p q : Node → Prop} (h : ctx.Replaced images e r) (he : ctx.Each q e)
    (hconst : ∀ w t, p (.const w t)) (hvar : ∀ v, q (.var v) → images v = none → p (.var v))
    (hnode : ∀ n operands, q n → operands.length = n.children.length → (∀ v, n ≠ .var v) →
      p (n.withChildren operands))
    (himages : ∀ v r, images v = some r → ctx.Each p r) : ctx.Each p r := by
  induction h with
  | image _ hr => exact himages _ _ hr
  | other hn hv =>
      have hq := he _ .self
      rw [hn] at hq
      exact each_iff.2 ⟨hn ▸ hvar _ hq hv, by simp [hn, Node.children]⟩
  | @node e operands r hn hlen _ hstored hr ih =>
      have hoperands : List.Forall₂ (fun c d => ctx.Each q c → ctx.Each p d)
          (ctx.node e).children operands :=
        List.forall₂_iff_zip.2 ⟨hlen, fun hp => ih _ hp⟩
      have hoperands' : ∀ d ∈ operands, ctx.Each p d :=
        forall_of_forall₂ hoperands fun c hc d h => h (he.child hc)
      exact hr.each le_rfl hlen.symm hconst hstored hoperands'
        (hnode _ operands (he e .self) hlen.symm hn)

/-! ## The traversal -/

namespace Substitution

variable {A : Arithmetic} {images : Env ExprId} {ctx : Context} {e : ExprId}

def visit (images : Env ExprId) (e : ExprId) : Build (Option ExprId) := do
  match (← get).node e with
  | .var v => return images v
  | _ => return none

theorem visit_ensures (images : Env ExprId) (ctx : Context) (e : ExprId) :
    Build.Ensures (visit images e) ctx fun o ctx' => ctx' = ctx ∧
      ((∃ v, ctx.node e = .var v ∧ o = images v) ∨ (∀ v, ctx.node e ≠ .var v) ∧ o = none) := by
  refine Build.Ensures.get ?_
  split
  · next v hn => exact .pure ⟨rfl, .inl ⟨v, hn, rfl⟩⟩
  · next hn => exact .pure ⟨rfl, .inr ⟨hn, rfl⟩⟩

/-- What is traversed: a stored expression, with stored images, that is replaced once. -/
structure Demand (images : Env ExprId) (ctx : Context) (e : ExprId) : Prop where
  wellFormed : ctx.WellFormed
  stored : ctx.Stored e
  image : ∀ v r, images v = some r → ctx.Stored r
  once : ctx.ReplacesOnce images e

theorem traverses (images : Env ExprId) :
    Build.rules.Traverses (visit images) (Demand images)
      (fun ctx e r => ctx.Stored e ∧ ctx.Stored r ∧ ctx.Replaced images e r) where
  grows hg h := ⟨hg.wellFormed h.wellFormed, h.stored.mono hg.le,
    fun v r hr => (h.image v r hr).mono hg.le, h.once.mono hg.le h.stored⟩
  stored h := h.stored
  child h hc := ⟨h.wellFormed, h.stored.child hc, h.image, h.once.child hc⟩
  lasts hg h := ⟨h.1.mono hg.le, h.2.1.mono hg.le, h.2.2.mono hg.le h.1⟩
  visits := by
    intro ctx e operands h hoperands
    have hlen := hoperands.length_eq
    have hstored : ∀ c ∈ operands, ctx.Stored c :=
      forall_of_forall₂ hoperands fun _ _ _ h => h.2.1
    apply Build.rules.visitNode_ensures h.wellFormed h.stored hlen.symm hstored
    intro r ctx₁ hg hr
    refine Build.rules.bind (Build.rules.lift (visit_ensures images ctx₁ r)) ?_
    rintro o ctx₁ - ⟨rfl, ho⟩
    apply Build.rules.pure
    have he := h.stored.mono hg.le
    have hnode := Context.node_eq hg.le h.stored
    refine ⟨he, ?_⟩
    by_cases hvar : ∃ v, ctx.node e = .var v
    · obtain ⟨v, hn⟩ := hvar
      obtain ⟨hr', hnr⟩ := hr.var hn
      obtain rfl : r = e := Context.eq_of_node_eq hr' he (hnr.trans (hnode.trans hn).symm)
      obtain ⟨w, hw, rfl⟩ := ho.resolve_right fun h => h.1 v hnr
      cases hw.symm.trans hnr
      cases hv : images v with
      | none => exact ⟨he, .other hnr hv⟩
      | some s => exact ⟨(h.image v s hv).mono hg.le, .image hnr hv⟩
    · have hr' := hr.stored hg.le hstored
      have hreplaced : ctx₁.Replaced images e r := by
        refine .node ?_ (hnode ▸ hlen) (fun p hp => ?_) (fun c hc => (hstored c hc).mono hg.le)
          (hnode ▸ hr.mono hg.le le_rfl hstored)
        · rw [hnode]
          simpa using hvar
        · rw [hnode] at hp
          obtain ⟨hc, -, hp⟩ := (List.forall₂_iff_zip.1 hoperands).2 hp
          exact hp.mono hg.le hc
      rcases ho with ⟨w, hn, rfl⟩ | ⟨-, rfl⟩
      · cases hw : images w with
        | none => exact ⟨hr', hreplaced⟩
        | some s =>
            -- The second replacement puts a variable in the place of itself.
            have hs := h.once ctx₁ e r w s hg.le .self (by simpa using hvar) hreplaced hn hw
            have hs' := (h.image w s hw).mono hg.le
            obtain rfl : s = r := Context.eq_of_node_eq hs' hr' (hs.trans hn.symm)
            exact ⟨hs', hreplaced⟩
      · exact ⟨hr', hreplaced⟩

theorem substitute_ensures (h : Demand images ctx e) :
    Build.Ensures (substitute images e) ctx fun r ctx' =>
      ctx'.Stored r ∧ ctx'.Replaced images e r :=
  Build.rules.mono (Build.rules.rewrite_ensures (traverses images) h) fun _ _ _ h => h.2

end Substitution

/-! ## Images that are no variables -/

/-- The expression is the variable `v`, perhaps negated. -/
inductive Context.Negates (ctx : Context) (v : VarId) : ExprId → Prop
  | var {e} (hn : ctx.node e = .var v) : Negates ctx v e
  | not {e a} (hn : ctx.node e = .not a) (h : Negates ctx v a) : Negates ctx v e

section

variable {ctx ctx' : Context} {images : Env ExprId} {e r : ExprId} {u v : VarId}

theorem Context.Negates.var_or_not (h : ctx.Negates v e) :
    (∃ w, ctx.node e = .var w) ∨ ∃ a, ctx.node e = .not a := by
  cases h with
  | var hn => exact .inl ⟨v, hn⟩
  | not hn => exact .inr ⟨_, hn⟩

theorem Context.Negates.within (h : ctx.Negates v e) :
    ∃ c, ctx.Within e c ∧ ctx.node c = .var v := by
  induction h with
  | @var e hn => exact ⟨e, .self, hn⟩
  | not hn _ ih =>
      obtain ⟨c, hc, hv⟩ := ih
      exact ⟨c, hc.of_child (by simp [hn, Node.children]), hv⟩

theorem Context.Negates.restrict (hctx : ctx ≤ ctx') (he : ctx.Stored e)
    (h : ctx'.Negates v e) : ctx.Negates v e := by
  induction h with
  | var hn => exact .var ((node_eq hctx he).symm.trans hn)
  | not hn _ ih =>
      have hn' := (node_eq hctx he).symm.trans hn
      exact .not hn' (ih (he.child (by simp [hn', Node.children])))

/-- An operator folds to a negated variable only if an operand is one. -/
theorem Rebuilds.negates {n : Node} {operands : List ExprId} (h : Rebuilds ctx ctx n operands r)
    (hlen : operands.length = n.children.length) (hvar : n ≠ .var v) (hv : ctx.Negates v r) :
    ∃ c ∈ operands, ctx.Negates v c := by
  cases h with
  | node _ hn =>
      cases hv with
      | var hn' => exact absurd (Node.withChildren_eq_var.1 (hn.symm.trans hn')) hvar
      | @not _ a hn' ha =>
          obtain rfl := Node.of_withChildren_eq_not hlen (hn.symm.trans hn')
          exact ⟨a, List.mem_cons_self, ha⟩
  | literal _ hn =>
      cases hv with
      | var hn' => cases hn.symm.trans hn'
      | not hn' => cases hn.symm.trans hn'
  | lhs => exact ⟨r, by simp, hv⟩
  | rhs => exact ⟨r, by simp, hv⟩
  | negated _ _ hn =>
      cases hv with
      | var hn' => cases hn.symm.trans hn'
      | not hn' => cases hn.symm.trans hn'
  | @inner c a b ha => exact ⟨a, by simp, .not ha hv⟩

theorem Context.Replaced.eq_var_of_negates
    (himages : ∀ v r u s, images v = some r → ctx.Negates u r → images u = some s →
      ctx.node s = .var u)
    (h : ctx.Replaced images e r) (hu : ctx.Negates u r) {s : ExprId} (hs : images u = some s) :
    ctx.node s = .var u := by
  induction h with
  | image _ hr => exact himages _ _ _ _ hr hu hs
  | other hn hv =>
      cases hu with
      | var hn' =>
          cases hn.symm.trans hn'
          cases hv.symm.trans hs
      | not hn' => cases hn.symm.trans hn'
  | @node e operands r hn hlen _ _ hr ih =>
      obtain ⟨c, hc, hu⟩ := hr.negates hlen.symm (hn u) hu
      have hoperands := List.forall₂_iff_zip.2 ⟨hlen, fun hp => ih _ hp⟩
      exact forall_of_forall₂ (p := fun c => ctx.Negates u c → ctx.node s = .var u) hoperands
        (fun _ _ _ h => h) c hc hu

/-- Images that are not, negated or not, variables with another image are not replaced again. -/
theorem Context.replacesOnce (hstored : ∀ v r, images v = some r → ctx.Stored r)
    (himages : ∀ v r u s, images v = some r → ctx.Negates u r → images u = some s →
      ctx.node s = .var u) : ctx.ReplacesOnce images e := by
  intro ctx' c r w s hctx _ _ hr hn hs
  refine hr.eq_var_of_negates (fun v r u s hr hu hs => ?_) (.var hn) hs
  rw [node_eq hctx (hstored u s hs)]
  exact himages v r u s hr (hu.restrict hctx (hstored v r hr)) hs

end

/-! ## Evaluation -/

/-- Each variable with an image has the value of its image, if it has one. -/
def Context.imageValues (ctx : Context) (images : Env ExprId) (env : Env Int64) : Env Int64 :=
  fun v => match images v with
    | some r => ctx.eval env r
    | none => env v

/-- Substitution replaces all variables at once, where no operator folds to a variable that has
another image and the connectives met see truth values. -/
theorem eval_substitute {ctx : Context} {images : Env ExprId} {env : Env Int64} {e : ExprId}
    {w : Int64} (hwf : ctx.WellFormed) (he : ctx.Stored e)
    (himages : ∀ v r, images v = some r → ctx.Stored r) (honce : ctx.ReplacesOnce images e)
    (htruth : (ctx.valuation (ctx.imageValues images env)).Truthful e)
    (htruths : ∀ c v r, (ctx.valuation (ctx.imageValues images env)).Demands e
      (ctx.valuation (ctx.imageValues images env)) c → ctx.node c = .var v → images v = some r →
        (ctx.valuation env).Truthful r)
    (hw : ctx.eval (ctx.imageValues images env) e = some w) :
    ((substitute images e).run ctx).2.eval env ((substitute images e).run ctx).1 = some w := by
  obtain ⟨hg, hr, hreplaced⟩ := Substitution.substitute_ensures ⟨hwf, he, himages, honce⟩
  generalize (substitute images e).run ctx = result at hg hr hreplaced ⊢
  obtain ⟨r, ctx'⟩ := result
  have hdepth : ctx'.callDepth = ctx.callDepth := hg.callDepth_eq
  have hz := Valuation.evaluates_words (ν := ctx.valuation (ctx.imageValues images env)) rfl hw
    htruth
  generalize hν₀ : ctx.valuation (ctx.imageValues images env) = ν₀ at htruths hz
  -- Variables that evaluation does not look at get no value: their images may mention anything.
  classical
  let ν' : Valuation := ⟨ctx', ctx'.callDepth,
    fun v => if ∃ c, ν₀.Demands e ν₀ c ∧ ctx.node c = .var v then ν₀.env v else none⟩
  have hz' : ν'.Evaluates .words e w.toInt := by
    subst hν₀
    refine hz.mono ⟨hg, hwf, he, hdepth.ge, fun c v x hd hn hx => ?_⟩
    exact (if_pos ⟨c, hd, hn⟩).trans hx
  have hreplaces : (ctx'.valuation env).Replaces .words images ν' := by
    subst hν₀
    refine ⟨rfl, rfl, fun v r x hr hx => ?_, fun v x hv hx => ?_⟩
    · obtain ⟨⟨c, hd, hn⟩, hx⟩ := Option.ite_none_right_eq_some.1 hx
      simp only [Context.valuation, Env.exact, Context.imageValues, hr, Option.map_eq_some_iff]
        at hx
      obtain ⟨y, hy, rfl⟩ := hx
      have heval := Valuation.evaluates_words (ν := ctx.valuation env) rfl hy
        (htruths c v r hd hn hr)
      exact heval.mono ⟨hg, hwf, himages v r hr, hdepth.ge, fun _ _ _ _ _ => id⟩
    · obtain ⟨-, hx⟩ := Option.ite_none_right_eq_some.1 hx
      simpa only [Context.valuation, Env.exact, Context.imageValues, hv] using hx
  obtain ⟨w', hw', heq⟩ := (hreplaced.evaluates (ν := ctx'.valuation env) hreplaces hz').eval rfl
  rw [Int64.toInt_inj] at heq
  exact heq ▸ hw'

theorem Env.mem_of_ofList {α : Type} {xs : List (VarId × α)} {v : VarId} {x : α}
    (h : Env.ofList xs v = some x) : (v, x) ∈ xs := by
  have key : ∀ (xs : List (VarId × α)) (env : Env α),
      xs.foldl (fun env p => env.set p.1 p.2) env v = some x → (v, x) ∈ xs ∨ env v = some x := by
    intro xs
    induction xs with
    | nil => exact fun env h => .inr h
    | cons p xs ih =>
        intro env h
        rcases ih _ h with h | h
        · exact .inl (List.mem_cons_of_mem p h)
        · change env.set p.1 p.2 v = some x at h
          by_cases hv : v = p.1
          · rw [hv, Env.set_self, Option.some_inj] at h
            exact .inl (by simp [hv, ← h])
          · exact .inr (by rwa [Env.set_of_ne _ _ hv] at h)
  exact (key xs Env.empty h).resolve_right nofun

/-- An expression of variables `x`, `y`, `z` and `w`, and images of them. -/
structure SubstitutionSample where
  ctx : Context
  images : List (VarId × ExprId)
  expr : ExprId

namespace SubstitutionSample

def ofBuild (build : ExprId → ExprId → ExprId → ExprId → Build (List (VarId × ExprId) × ExprId)) :
    SubstitutionSample :=
  let declare : Build (List (VarId × ExprId) × ExprId) := do
    let x ← Build.var (← declareVar "x" .int64)
    let y ← Build.var (← declareVar "y" .int64)
    let z ← Build.var (← declareVar "z" .int64)
    let w ← Build.var (← declareVar "w" .int64)
    build x y z w
  let declared := declare.run default
  ⟨declared.2, declared.1.1, declared.1.2⟩

/-- `x <= y and not y < x` where `x` becomes `y + 1` and `y` becomes `x * 2`. -/
def crossed : SubstitutionSample := ofBuild fun x y _ _ => do
  let ordered ← Build.conj (← Build.compare .le x y) (← Build.negation (← Build.compare .lt y x))
  return ([(⟨0⟩, ← Build.addConst y 1), (⟨1⟩, ← Build.mulConst x 2)], ordered)

/-- `x + y` where `x` becomes `z`, `y` becomes `0` and `z` becomes `w`. -/
def chained : SubstitutionSample := ofBuild fun x y z w => do
  let zero ← Build.constant 0 .int64
  return ([(⟨0⟩, z), (⟨1⟩, zero), (⟨2⟩, w)], ← Build.add x y)

variable (s : SubstitutionSample)

def env (x y z w : Int64) : Env Int64 := .ofList [(⟨0⟩, x), (⟨1⟩, y), (⟨2⟩, z), (⟨3⟩, w)]

/-- What the expression evaluates to after substitution. -/
def substituted (env : Env Int64) : Option Int64 :=
  let result := (substitute (.ofList s.images) s.expr).run s.ctx
  result.2.eval env result.1

theorem stored_of_mem (h : ∀ p ∈ s.images, s.ctx.Stored p.2) (v : VarId) (r : ExprId)
    (hr : Env.ofList s.images v = some r) : s.ctx.Stored r :=
  h (v, r) (Env.mem_of_ofList hr)

theorem replacesOnce_of_mem (h : ∀ p ∈ s.images, s.ctx.Stored p.2)
    (hbinary : ∀ p ∈ s.images, (s.ctx.node p.2).children.length = 2) :
    s.ctx.ReplacesOnce (.ofList s.images) s.expr := by
  refine Context.replacesOnce (s.stored_of_mem h) fun v r u _ hr hu _ => ?_
  have hlen := hbinary (v, r) (Env.mem_of_ofList hr)
  rcases hu.var_or_not with ⟨w, hn⟩ | ⟨c, hn⟩
  · simp [hn, Node.children] at hlen
  · simp [hn, Node.children] at hlen

/-- At `x = 3` and `y = 5` both images are six, so the condition becomes true. -/
theorem eval_substitute_crossed :
    crossed.ctx.eval (crossed.ctx.imageValues (.ofList crossed.images) (env 3 5 0 0))
        crossed.expr = some 1 ∧
      crossed.substituted (env 3 5 0 0) = some 1 :=
  ⟨by decide +kernel, eval_substitute (by decide +kernel) (by decide +kernel)
    (crossed.stored_of_mem (by decide +kernel))
    (crossed.replacesOnce_of_mem (by decide +kernel) (by decide +kernel))
    (Valuation.Plain.truthful (by decide +kernel) _)
    (fun _ _ _ _ _ _ => Valuation.Plain.truthful (by decide +kernel) _) (by decide +kernel)⟩

/-- `x + y` folds to the image `z` of `x`, which is then replaced by its own image `w`. -/
theorem substitute_chained_twice :
    chained.ctx.WellFormed ∧ chained.ctx.Stored chained.expr ∧
      (∀ p ∈ chained.images, chained.ctx.Stored p.2) ∧
      (chained.ctx.valuation
        (chained.ctx.imageValues (.ofList chained.images) (env 1 2 3 5))).Truthful chained.expr ∧
      (∀ p ∈ chained.images, (chained.ctx.valuation (env 1 2 3 5)).Truthful p.2) ∧
      chained.ctx.eval (chained.ctx.imageValues (.ofList chained.images) (env 1 2 3 5))
        chained.expr = some 3 ∧
      chained.substituted (env 1 2 3 5) = some 5 :=
  ⟨by decide +kernel, by decide +kernel, by decide +kernel,
    Valuation.Plain.truthful (by decide +kernel) _,
    fun _ _ => Valuation.Plain.truthful (by decide +kernel) _, by decide +kernel,
    by decide +kernel⟩

end SubstitutionSample

end LoopBounds
