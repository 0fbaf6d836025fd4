import LoopBounds.Proofs.Inlining
import LoopBounds.Proofs.Replay

/-!
# Repeating rewrites

A rewrite that is run again, when more is stored but the functions are the same, finds whatever
the first run stored.  So it does for substitution and for inlining, and what these make mentions
only variables and functions that were there before.
-/

namespace LoopBounds

/-! ## Classes of nodes -/

namespace NodeClass

/-- The nodes that are no variable outside of `p` and call no function outside of `D`. -/
def limited (p : VarId → Prop) (D : FunId → Prop) : NodeClass where
  mem n := (∀ v, n = .var v → p v) ∧ ∀ f args dims, n = .call f args dims → D f
  const _ _ := by simp
  arith _ _ _ := by simp
  compare _ _ _ := by simp
  and _ _ := by simp
  or _ _ := by simp
  not _ := by simp
  call f as _ ds h := by
    refine ⟨by simp, ?_⟩
    rintro _ _ _ ⟨⟩
    exact h.2 f as ds rfl

theorem mem_withChildren {K : NodeClass} {n : Node} {operands : List ExprId}
    (hlen : operands.length = n.children.length) (h : K.mem n) :
    K.mem (n.withChildren operands) := by
  cases n with
  | const w t | var v => exact h
  | arith op c d | compare op c d | and c d | or c d =>
      obtain ⟨a, b, rfl⟩ := List.length_eq_two.1 hlen
      first | exact K.arith _ a b | exact K.compare _ a b | exact K.and a b | exact K.or a b
  | not c =>
      obtain ⟨a, rfl⟩ := List.length_eq_one_iff.1 hlen
      exact K.not a
  | call f args dims => exact K.call f args operands dims h

end NodeClass

theorem Rebuilds.over {ctx ctx' : Context} {K : NodeClass} {n : Node} {operands : List ExprId}
    {r : ExprId} (h : Rebuilds ctx ctx' n operands r) (hg : ctx ≤ ctx')
    (hlen : operands.length = n.children.length) (hoperands : ∀ c ∈ operands, ctx.Over K c)
    (hn : K.mem n) : ctx'.Over K r := by
  have hstored : ∀ c ∈ operands, ctx.Stored c := fun c hc => (hoperands c hc).stored
  rw [Context.over_iff_each]
  constructor
  · exact h.stored hg hstored
  · apply h.each hg hlen K.const hstored
    · exact fun c hc => (Context.over_iff_each.1 (hoperands c hc)).2
    · exact K.mem_withChildren hlen hn

/-! ## Outcomes -/

/-- The same result, or errors that `R` relates. -/
inductive SameOutcome {ε α : Type} (R : ε → ε → Prop) : Except ε α → Except ε α → Prop
  | ok (x : α) : SameOutcome R (.ok x) (.ok x)
  | error {e e' : ε} (h : R e e') : SameOutcome R (.error e) (.error e')

/-- The errors differ at most in what they name. -/
def ExprError.SameKind (e e' : ExprError) : Prop := e.ctorIdx = e'.ctorIdx

/-! ## Repeated computations -/

/-- The computation only stores expressions, and run again it does nothing and gives the same
result, as long as the functions stay.  The result satisfies `Q` with the context. -/
structure Build.Repeats {α : Type} (b : Build α) (ctx : Context) (Q : α → Context → Prop) :
    Prop where
  grows : ctx.Grows (b.run ctx).2
  again : ∀ ctx', (b.run ctx).2.Grows ctx' → b.run ctx' = ((b.run ctx).1, ctx')
  post : Q (b.run ctx).1 (b.run ctx).2

namespace Build

variable {α β : Type} {b : Build α} {f : α → Build β} {ctx : Context}
  {Q R : α → Context → Prop} {S : β → Context → Prop}

theorem Repeats.pure {x : α} (h : Q x ctx) : Repeats (pure x : Build α) ctx Q :=
  ⟨.refl ctx, fun _ _ => rfl, h⟩

theorem Repeats.mono (h : Repeats b ctx Q) (hQ : ∀ x ctx', ctx.Grows ctx' → Q x ctx' → R x ctx') :
    Repeats b ctx R :=
  ⟨h.grows, h.again, hQ _ _ h.grows h.post⟩

theorem Repeats.bind (hb : Repeats b ctx Q)
    (hf : ∀ x ctx', ctx.Grows ctx' → Q x ctx' → Repeats (f x) ctx' S) :
    Repeats (b >>= f) ctx S := by
  have h := hf _ _ hb.grows hb.post
  refine ⟨hb.grows.trans h.grows, fun ctx' hctx' => ?_, h.post⟩
  rw [StateT.run_bind, hb.again ctx' (h.grows.trans hctx')]
  exact h.again ctx' hctx'

theorem Repeats.get {f : Context → Build β} (h : Repeats (f ctx) ctx S)
    (hf : ∀ ctx', ctx.Grows ctx' → f ctx' = f ctx) : Repeats (do f (← get)) ctx S := by
  refine ⟨h.grows, fun ctx' hctx' => ?_, h.post⟩
  have hrun : (do f (← MonadState.get) : Build β).run ctx' = (f ctx').run ctx' := rfl
  rw [hrun, hf ctx' (h.grows.trans hctx')]
  exact h.again ctx' hctx'

/-- A constructor is repeated, whatever is known of its result. -/
theorem Replays.repeats (h : Replays b ctx Q) (hR : Ensures b ctx R) : Repeats b ctx R :=
  ⟨h.grows, fun ctx' hctx' => h.again ctx' hctx'.appends, hR.2⟩

end Build

namespace Attempt

variable {α β : Type} {b : Attempt α} {f : α → Attempt β} {ctx : Context}
  {Q R : α → Context → Prop} {S : β → Context → Prop}

/-- The computation only stores expressions.  Run again it does nothing and gives the same result,
which satisfies `Q` with the context, or fails in the same way, as long as the functions stay. -/
def Repeats (b : Attempt α) (ctx : Context) (Q : α → Context → Prop) : Prop :=
  ∀ r ctx', b.run.run ctx = (r, ctx') → ctx.Grows ctx' ∧
    (∀ ctx'', ctx'.Grows ctx'' → ∃ r', b.run.run ctx'' = (r', ctx'') ∧
      SameOutcome ExprError.SameKind r r') ∧ ∀ x, r = .ok x → Q x ctx'

theorem Repeats.pure {x : α} (h : Q x ctx) : Repeats (pure x : Attempt α) ctx Q := by
  rintro _ _ ⟨⟩
  refine ⟨.refl ctx, fun _ _ => ⟨_, rfl, .ok x⟩, ?_⟩
  rintro _ ⟨⟩
  exact h

theorem Repeats.throw {e : ExprError} : Repeats (throw e : Attempt α) ctx Q := by
  rintro _ _ ⟨⟩
  exact ⟨.refl ctx, fun _ _ => ⟨_, rfl, .error rfl⟩, nofun⟩

theorem Repeats.mono (h : Repeats b ctx Q) (hQ : ∀ x ctx', ctx.Grows ctx' → Q x ctx' → R x ctx') :
    Repeats b ctx R := by
  intro r ctx' hrun
  obtain ⟨hg, hagain, hx⟩ := h r ctx' hrun
  exact ⟨hg, hagain, fun x hr => hQ x ctx' hg (hx x hr)⟩

theorem Repeats.bind (hb : Repeats b ctx Q)
    (hf : ∀ x ctx', ctx.Grows ctx' → Q x ctx' → Repeats (f x) ctx' S) :
    Repeats (b >>= f) ctx S := by
  intro r ctx₂ hrun
  rcases hfirst : b.run.run ctx with ⟨r₁, ctx₁⟩
  obtain ⟨hg₁, hagain₁, hx⟩ := hb r₁ ctx₁ hfirst
  simp only [ExceptT.run_bind, StateT.run_bind, hfirst] at hrun
  cases r₁ with
  | error e =>
      cases hrun
      refine ⟨hg₁, fun ctx' hctx' => ?_, nofun⟩
      obtain ⟨r', hrun', hsame⟩ := hagain₁ ctx' hctx'
      cases hsame with
      | error hkind =>
          refine ⟨_, ?_, .error hkind⟩
          simp only [ExceptT.run_bind, StateT.run_bind, hrun']
          rfl
  | ok x =>
      obtain ⟨hg₂, hagain₂, hy⟩ := hf x ctx₁ hg₁ (hx x rfl) r ctx₂ hrun
      refine ⟨hg₁.trans hg₂, fun ctx' hctx' => ?_, hy⟩
      obtain ⟨r', hrun', hsame⟩ := hagain₁ ctx' (hg₂.trans hctx')
      cases hsame
      simp only [ExceptT.run_bind, StateT.run_bind, hrun']
      exact hagain₂ ctx' hctx'

theorem Repeats.build {b : Build α} (h : Build.Repeats b ctx Q) :
    Repeats (liftM b : Attempt α) ctx Q := by
  have hrun : ∀ ctx, (ExceptT.run (liftM b : Attempt α)).run ctx =
      (.ok (b.run ctx).1, (b.run ctx).2) := fun _ => rfl
  intro r ctx' hr
  cases (hrun ctx).symm.trans hr
  refine ⟨h.grows, fun ctx'' hctx'' => ⟨.ok (b.run ctx).1, ?_, .ok _⟩, ?_⟩
  · rw [hrun, h.again ctx'' hctx'']
  · rintro _ ⟨⟩
    exact h.post

theorem Repeats.get {f : Context → Attempt β} (h : Repeats (f ctx) ctx S)
    (hf : ∀ ctx', ctx.Grows ctx' → f ctx' = f ctx) :
    Repeats ((liftM (get : Build Context) : Attempt Context) >>= f) ctx S := by
  intro r ctx' hrun
  obtain ⟨hg, hagain, hy⟩ := h r ctx' hrun
  refine ⟨hg, fun ctx'' hctx'' => ?_, hy⟩
  change ∃ r', (f ctx'').run.run ctx'' = _ ∧ _
  rw [hf ctx'' (hg.trans hctx'')]
  exact hagain ctx'' hctx''

/-- What is known of a result is known of the repeated one. -/
theorem Repeats.and_yields (h : Repeats b ctx Q) (hR : Yields False b ctx R) :
    Repeats b ctx fun x ctx' => Q x ctx' ∧ R x ctx' := by
  intro r ctx' hrun
  obtain ⟨hg, hagain, hx⟩ := h r ctx' hrun
  have hpost := hR.2.2
  rw [hrun] at hpost
  exact ⟨hg, hagain, fun x hr => ⟨hx x hr, hpost x hr⟩⟩

end Attempt

/-- Rules for computations that are repeated. -/
structure RepeatingRules (m : Type → Type) [Monad m] [MonadLiftT Build m] extends Rules m where
  lift : ∀ {α : Type} {b : Build α} {ctx : Context} {Q : α → Context → Prop},
    Build.Repeats b ctx Q → Ensures (liftM b) ctx Q

def Build.repeatingRules : RepeatingRules Build where
  Ensures := Build.Repeats
  pure := .pure
  mono := .mono
  bind := .bind
  read := .get
  lift h := h

def Attempt.repeatingRules : RepeatingRules Attempt where
  Ensures := Attempt.Repeats
  pure := .pure
  mono := .mono
  bind := .bind
  read := .get
  lift := .build

/-! ## Rebuilt nodes -/

namespace Build

variable {ctx : Context} {a b : ExprId} {n : Node} {operands : List ExprId}

theorem division_replays (op : Arith) (ha : ctx.Stored a) (hb : ctx.Stored b) :
    Replays (division op a b) ctx fun _ _ => True := by
  refine .get ?_ fun ctx' h => by rw [Context.isZero, Context.isZero, h.literal?_eq hb]
  split
  · refine (intern_replays (fun c hc => ?_) (by rintro - _ _ _ ⟨⟩)).mono fun _ _ _ _ => trivial
    rcases List.mem_pair.1 hc with rfl | rfl
    exacts [ha, hb]
  · exact (arith_replays op ha hb).mono fun _ _ _ _ => trivial

theorem rebuild_repeats (hlen : operands.length = n.children.length)
    (hstored : ∀ c ∈ operands, ctx.Stored c)
    (hcall : ∀ f args dims, n = .call f args dims → f.index < ctx.funs.size) :
    Repeats (rebuild n operands) ctx fun r ctx' => Rebuilds ctx ctx' n operands r := by
  suffices h : Replays (rebuild n operands) ctx fun _ _ => True from
    h.repeats (rebuild_rebuilds hlen hstored hcall)
  have weaken : ∀ {b : Build ExprId} {Q : ExprId → Context → Prop}, Replays b ctx Q →
      Replays b ctx fun _ _ => True := fun h => h.mono fun _ _ _ _ => trivial
  have hpair : ∀ {a b}, (∀ c ∈ [a, b], ctx.Stored c) → ctx.Stored a ∧ ctx.Stored b := fun h =>
    ⟨h _ List.mem_cons_self, h _ (List.mem_cons_of_mem _ List.mem_cons_self)⟩
  cases n with
  | const w t => exact weaken (intern_replays (n := .const w t) nofun nofun)
  | var v => exact weaken (intern_replays (n := .var v) nofun nofun)
  | arith op c d =>
      obtain ⟨a, b, rfl⟩ := List.length_eq_two.1 hlen
      obtain ⟨ha, hb⟩ := hpair hstored
      cases op with
      | floorDiv | floorMod => exact division_replays _ ha hb
      | add | sub | mul | min | max => exact weaken (arith_replays _ ha hb)
  | compare op c d =>
      obtain ⟨a, b, rfl⟩ := List.length_eq_two.1 hlen
      obtain ⟨ha, hb⟩ := hpair hstored
      exact weaken (compare_replays op ha hb)
  | and c d =>
      obtain ⟨a, b, rfl⟩ := List.length_eq_two.1 hlen
      obtain ⟨ha, hb⟩ := hpair hstored
      exact weaken (conj_replays ha hb)
  | or c d =>
      obtain ⟨a, b, rfl⟩ := List.length_eq_two.1 hlen
      obtain ⟨ha, hb⟩ := hpair hstored
      exact weaken (disj_replays ha hb)
  | not c =>
      obtain ⟨a, rfl⟩ := List.length_eq_one_iff.1 hlen
      exact weaken (negation_replays (hstored a List.mem_cons_self))
  | call f args dims =>
      refine weaken (intern_replays (n := .call f operands dims) hstored ?_)
      rintro - _ _ _ ⟨⟩
      exact hcall f args dims rfl

end Build

/-! ## Constructors -/

section Constructors

variable {ctx : Context} {K : NodeClass} {a b : ExprId}

theorem Build.constant_repeats (ctx : Context) (K : NodeClass) (c : Int64) (t : Scalar) :
    Repeats (constant c t) ctx fun r ctx' => ctx'.Over K r :=
  (constant_replays ctx c t fun _ => 0).repeats
    ((constant_denotes ctx K c t).mono fun _ _ _ h => h.nodes)

theorem Build.constantLike_repeats (K : NodeClass) (c : Int64) (ha : ctx.Stored a) :
    Repeats (constantLike c a) ctx fun r ctx' => ctx'.Over K r :=
  (constantLike_replays c ha fun _ => 0).repeats
    ((constantLike_denotes ctx K c a).mono fun _ _ _ h => h.nodes)

theorem Build.arith_repeats (op : Arith) (ha : ctx.Over K a) (hb : ctx.Over K b) :
    Repeats (arith op a b) ctx fun r ctx' => ctx'.Over K r :=
  (arith_replays op ha.stored hb.stored).repeats
    ((arith_denotes op ha hb).mono fun _ _ _ h => h.nodes)

theorem Build.addConst_repeats (c : Int64) (ha : ctx.Over K a) :
    Repeats (addConst a c) ctx fun r ctx' => ctx'.Over K r := by
  apply (constantLike_repeats K c ha.stored).bind
  intro literal ctx₁ hg₁ hliteral
  exact arith_repeats .add (ha.mono hg₁.le) hliteral

theorem Build.compare_repeats (op : Comparison) (ha : ctx.Over K a) (hb : ctx.Over K b) :
    Repeats (compare op a b) ctx fun r ctx' => ctx'.Over K r :=
  (compare_replays op ha.stored hb.stored).repeats
    ((compare_denotes op ha hb).mono fun _ _ _ h => h.nodes)

theorem Attempt.divide_repeats (op : Arith) (ha : ctx.Over K a) (hb : ctx.Over K b) :
    Repeats (divide op a b) ctx fun r ctx' => ctx'.Over K r := by
  refine Repeats.get ?_ fun ctx' hg => by
    rw [Context.isZero_eq hg.le hb.stored]
  split
  · exact Repeats.throw
  · exact Repeats.build (Build.arith_repeats op ha hb)

end Constructors

/-! ## Traversals -/

section Traversals

variable {m : Type → Type} [Monad m] [LawfulMonad m] [MonadLiftT Build m] {K J : NodeClass}
  {W : Context → Prop} {visit : ExprId → m (Option ExprId)} {ctx : Context} {e : ExprId}

/-- A traversal turns nodes of `J` into nodes of `K` if its visits do so with the variables. -/
theorem RepeatingRules.rewrite_over (L : RepeatingRules m)
    (hwf : ∀ {ctx}, W ctx → ctx.WellFormed) (hlasts : ∀ {ctx ctx'}, ctx.Grows ctx' → W ctx → W ctx')
    (hK : ∀ n, J.mem n → (∀ v, n ≠ .var v) → K.mem n)
    (hvisit : ∀ ctx r, W ctx → ctx.Over K r ∨ ctx.Over J r ∧ (∃ v, ctx.node r = .var v) →
      L.Ensures (visit r) ctx fun o ctx' => ctx'.Over K (o.getD r))
    (hW : W ctx) (he : ctx.Over J e) :
    L.Ensures (rewrite visit e) ctx fun r ctx' => ctx'.Over K r := by
  have htraverses : L.Traverses visit (fun ctx e => W ctx ∧ ctx.Over J e)
      (fun ctx _ r => ctx.Over K r) := by
    refine ⟨fun hg h => ⟨hlasts hg h.1, h.2.mono hg.le⟩, fun h => h.2.stored,
      fun h hc => ⟨h.1, h.2.child hc⟩, fun hg h => h.mono hg.le, ?_⟩
    intro ctx e operands ⟨hW, he⟩ hoperands
    have hlen := hoperands.length_eq.symm
    have hover : ∀ c ∈ operands, ctx.Over K c := forall_of_forall₂ hoperands fun _ _ _ h => h
    have hrebuild := Build.rebuild_repeats hlen (fun c hc => (hover c hc).stored)
      fun f args dims hn => (hwf hW).call e f args dims hn
    apply L.visitNode_ensures he.stored (L.lift hrebuild)
    intro r ctx₁ hg hr
    have hr' : ctx₁.Over K r ∨ ctx₁.Over J r ∧ ∃ v, ctx₁.node r = .var v := by
      by_cases hvar : ∃ v, ctx.node e = .var v
      · obtain ⟨v, hn⟩ := hvar
        obtain ⟨hr', hnr⟩ := hr.var hn
        refine .inr ⟨⟨hr', ?_, ?_⟩, v, hnr⟩
        · rw [hnr, ← hn]
          exact he.mem
        · simp [hnr, Node.children]
      · exact .inl (hr.over hg.le hlen hover (hK _ he.mem (by simpa using hvar)))
    apply L.bind (hvisit ctx₁ r (hlasts hg hW) hr')
    intro o ctx₂ _ ho
    exact L.pure ho
  exact Rules.rewrite_ensures htraverses ⟨hW, he⟩

end Traversals

/-! ## Substitution -/

/-- Substitution puts images in the place of all variables of a body. -/
theorem Substitution.substitute_repeats {images : Env ExprId} {K J : NodeClass} {ctx : Context}
    {e : ExprId} (hwf : ctx.WellFormed) (himages : ∀ v a, images v = some a → ctx.Over K a)
    (hvars : ∀ v, J.mem (.var v) → ∃ a, images v = some a)
    (hK : ∀ n, J.mem n → (∀ v, n ≠ .var v) → K.mem n) (he : ctx.Over J e) :
    Build.Repeats (substitute images e) ctx fun r ctx' => ctx'.Over K r := by
  refine Build.repeatingRules.rewrite_over
    (W := fun ctx => ctx.WellFormed ∧ ∀ v a, images v = some a → ctx.Over K a) And.left
    (fun hg h => ⟨hg.wellFormed h.1, fun v a ha => (h.2 v a ha).mono hg.le⟩) hK ?_
    ⟨hwf, himages⟩ he
  rintro ctx r ⟨-, himages⟩ hr
  have hstored : ctx.Stored r := hr.elim Context.Over.stored fun h => h.1.stored
  refine Build.Repeats.get ?_ fun ctx' hg => by rw [Context.node_eq hg.le hstored]
  split
  · next v hn =>
    apply Build.Repeats.pure
    cases hv : images v with
    | some a => exact himages v a hv
    | none =>
        rcases hr with hr | ⟨hr, -⟩
        · exact hr
        · obtain ⟨a, ha⟩ := hvars v (hn ▸ hr.mem)
          cases hv.symm.trans ha
  · next hn =>
    apply Build.Repeats.pure
    rcases hr with hr | ⟨-, v, hv⟩
    · exact hr
    · exact absurd hv (hn v)

/-! ## Inlining -/

/-- The functions of `D` were declared, and their bodies call functions of `D` only. -/
structure Context.Calls (ctx : Context) (D : FunId → Prop) : Prop where
  wellFormed : ctx.WellFormed
  declared : ∀ f, D f → ctx.Declared f
  bodies : ∀ f body, D f → (ctx.fn f).body? = some body →
    ctx.Each (fun n => ∀ g args dims, n = .call g args dims → D g) body

theorem Context.Calls.mono {ctx ctx' : Context} {D : FunId → Prop} (h : ctx.Calls D)
    (hg : ctx.Grows ctx') : ctx'.Calls D := by
  refine ⟨hg.wellFormed h.wellFormed, fun f hf => (h.declared f hf).mono hg h.wellFormed, ?_⟩
  intro f body hf hbody
  rw [hg.fn_eq] at hbody
  exact (h.bodies f body hf hbody).mono hg.le (h.wellFormed.body f body hbody)

namespace Inlining

variable {D : FunId → Prop} {p : VarId → Prop} {onlySimple : Bool} {k : Nat} {ctx : Context}
  {e : ExprId}

theorem bindParams_repeats (f : IndexFun) {args : List ExprId} {dims : List DimId} :
    Attempt.Repeats (f.bindParams (Attempt.argument f args dims)) ctx fun _ _ => True := by
  suffices key : ∀ (sig : List (VarId × DimId)) (env : Env ExprId) (ctx : Context),
      Attempt.Repeats (sig.foldlM
        (fun env pd => do return env.set pd.1 (← Attempt.argument f args dims pd.2)) env) ctx
        fun _ _ => True from
    key f.signature Env.empty ctx
  intro sig
  induction sig with
  | nil => exact fun env ctx => Attempt.Repeats.pure trivial
  | cons pd sig ih =>
      intro env ctx
      rw [List.foldlM_cons]
      have hargument : Attempt.Repeats (Attempt.argument f args dims pd.2) ctx fun _ _ => True := by
        rw [Attempt.argument]
        split
        · exact Attempt.Repeats.pure trivial
        · rintro _ _ ⟨⟩
          exact ⟨.refl ctx, fun _ _ => ⟨_, rfl, .error rfl⟩, nofun⟩
      have hset := hargument.bind (f := fun a => pure (env.set pd.1 a)) (S := fun _ _ => True)
        fun _ _ _ _ => Attempt.Repeats.pure trivial
      exact hset.bind fun env' ctx' _ _ => ih env' ctx'

/-- The body of a function with arguments for its parameters. -/
theorem instantiate_repeats {f : FunId} {args : List ExprId} {dims : List DimId}
    (hcalls : ctx.Calls D) (hf : D f) (hargs : ∀ a ∈ args, ctx.Over (.limited p D) a) :
    Attempt.Repeats (Attempt.instantiate f args dims) ctx fun r ctx' =>
      ctx'.Over (.limited p D) r := by
  have hwf := hcalls.wellFormed
  refine Attempt.Repeats.get ?_ fun ctx' hg => by rw [hg.fn_eq]
  split
  · exact Attempt.Repeats.throw.bind fun _ _ _ => False.elim
  dsimp only
  split
  · exact Attempt.Repeats.throw
  next body hbody =>
  apply Attempt.Repeats.bind ((bindParams_repeats (ctx.fn f)).and_yields
    (Attempt.bindParams_yields (ctx.fn f) False.elim))
  rintro images ctx - ⟨-, rfl, himages⟩
  have hD := hcalls.declared f hf
  apply Attempt.Repeats.build
  apply Substitution.substitute_repeats (J := .limited (fun v => ∃ a, images v = some a) D) hwf
  · exact fun v a ha => hargs a (isParam_of_image himages ha).2
  · exact fun v hv => hv.1 v rfl
  · exact fun n hn hvar => ⟨fun v hv => absurd hv (hvar v), hn.2⟩
  · rw [Context.over_iff_each]
    exact ⟨hwf.body f body hbody,
      (exists_image hD hbody himages).and (hcalls.bodies f body hf hbody)⟩

theorem inlineWithin_repeats (hcalls : ctx.Calls D) (he : ctx.Over (.limited p D) e) :
    Attempt.Repeats (Attempt.inlineWithin onlySimple k e) ctx fun r ctx' =>
      ctx'.Over (.limited p D) r := by
  induction k generalizing ctx e with
  | zero => exact Attempt.Repeats.pure he
  | succ k ih =>
      rw [inlineWithin_succ]
      apply Attempt.repeatingRules.rewrite_over (W := (·.Calls D)) Context.Calls.wellFormed
        (fun hg h => h.mono hg) (fun n hn _ => hn) ?_ hcalls he
      intro ctx r hcalls hr
      have hr : ctx.Over (.limited p D) r := hr.elim id And.left
      refine Attempt.Repeats.get ?_ fun ctx' hg => ?_
      · split
        · next f args dims hn =>
          split
          · exact Attempt.Repeats.pure hr
          have hargs : ∀ a ∈ args, ctx.Over (.limited p D) a := fun a ha =>
            hr.child (by rwa [hn, Node.children])
          have hf : D f := (hn ▸ hr.mem).2 f args dims rfl
          apply (instantiate_repeats hcalls hf hargs).bind
          intro s ctx₁ hg₁ hs
          rw [map_eq_pure_bind]
          apply (ih (hcalls.mono hg₁) hs).bind
          intro t ctx₂ _ ht
          exact Attempt.Repeats.pure ht
        · exact Attempt.Repeats.pure hr
      · simp only [Context.node_eq hg.le hr.stored, hg.fn_eq, hg.isComplex_eq hcalls.wellFormed]

/-- Inlining is repeated, and leaves what mentions the same variables and functions. -/
theorem inline_repeats (hcalls : ctx.Calls D) (he : ctx.Over (.limited p D) e) :
    Attempt.Repeats (Attempt.inline onlySimple e) ctx fun r ctx' =>
      ctx'.Over (.limited p D) r := by
  rw [Attempt.inline]
  refine Attempt.Repeats.get ?_ fun ctx' hg => by rw [hg.callDepth_eq]
  exact inlineWithin_repeats hcalls he

end Inlining

end LoopBounds
