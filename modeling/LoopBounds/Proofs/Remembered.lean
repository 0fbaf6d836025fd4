import LoopBounds.Proofs.Overflow
import LoopBounds.Proofs.Soundness

/-!
# What analyzers remember

However an analyzer came to its answers, it remembers nothing else of a literal than what it is,
and of a sum or a product that leaves the word only another one.
-/

namespace LoopBounds

/-- Neither a literal nor a sum or a product of literals that leaves the word. -/
structure Context.Plain (ctx : Context) (e : ExprId) : Prop where
  stored : ctx.Stored e
  literal : ∀ z, ¬ ctx.Literal e z
  overflows : ∀ op, ¬ ctx.Overflows op e

namespace Context

variable {ctx ctx' : Context} {e r : ExprId}

theorem Plain.mono (hctx : ctx ≤ ctx') (h : ctx.Plain e) : ctx'.Plain e :=
  ⟨h.stored.mono hctx, fun z hz => h.literal z (hz.restrict hctx h.stored),
    fun op ho => h.overflows op (ho.restrict hctx h.stored)⟩

theorem Plain.faithful (h : ctx.Plain e) (r : ExprId) : ctx.Faithful e r :=
  ⟨h.stored, fun z hz => absurd hz (h.literal z), fun op ho => absurd ho (h.overflows op)⟩

end Context

namespace Query

/-! ## Queries that remember no such answer -/

/-- The query remembers nothing but bounds. -/
def Quiet {α : Type} (q : Query α) : Prop := ∀ s,
  (∀ e, (q.run s).2.analyzer.simplified? e = s.analyzer.simplified? e) ∧
    ∀ e, (q.run s).2.analyzer.proved? e = s.analyzer.proved? e

section

variable {α β : Type} {q : Query α} {f : α → Query β}

theorem Quiet.pure (x : α) : Quiet (pure x : Query α) := fun _ => ⟨fun _ => rfl, fun _ => rfl⟩

theorem Quiet.bind (hq : Quiet q) (hf : ∀ x, Quiet (f x)) : Quiet (q >>= f) := fun s =>
  ⟨fun e => ((hf _ _).1 e).trans ((hq s).1 e), fun e => ((hf _ _).2 e).trans ((hq s).2 e)⟩

theorem Quiet.map (hq : Quiet q) (f : α → β) : Quiet (f <$> q) := hq

theorem Quiet.lift (b : Build α) : Quiet (liftM b : Query α) :=
  fun _ => ⟨fun _ => rfl, fun _ => rfl⟩

theorem Quiet.context : Quiet Query.context := fun _ => ⟨fun _ => rfl, fun _ => rfl⟩

theorem Quiet.analyzer : Quiet Query.analyzer := fun _ => ⟨fun _ => rfl, fun _ => rfl⟩

end

variable {s : Session} {op : Arith} {a b e : ExprId} {type : Scalar}

theorem quiet_recordBound (e : ExprId) (i : Interval) : Quiet (recordBound e i) := by
  rintro ⟨ctx, an⟩
  change (∀ e', Analyzer.simplified? (if an.memoize then _ else an) e' = _) ∧
    ∀ e', Analyzer.proved? (if an.memoize then _ else an) e' = _
  split <;> exact ⟨fun _ => rfl, fun _ => rfl⟩

theorem quiet_bound (e : ExprId) : Quiet (bound e) := by
  refine Quiet.analyzer.bind fun an => ?_
  split
  · exact .pure _
  · exact Quiet.context.bind fun ctx => (quiet_recordBound e _).bind fun _ => .pure _

theorem quiet_operator : Quiet (operator op a b) := by
  unfold operator
  split <;> exact .lift _

theorem quiet_difference? : Quiet (difference? a b) := by
  refine Quiet.context.bind fun ctx => ?_
  dsimp only
  split
  · exact (Quiet.lift _).bind fun _ => .pure _
  · exact .pure _

theorem quiet_affineOr (form? : Option Affine) : Quiet (affineOr form? type op a b) := by
  unfold affineOr
  split <;> exact .lift _

theorem quiet_simplifyProduct : Quiet (simplifyProduct type a b) := by
  refine Quiet.context.bind fun ctx => ?_
  dsimp only
  split
  exacts [quiet_affineOr _, quiet_affineOr _, quiet_operator]

theorem quiet_simplifyDivision (c : Int64) : Quiet (simplifyDivision op type a c) := by
  unfold simplifyDivision
  refine Quiet.context.bind fun ctx => ?_
  dsimp only
  refine (Quiet.lift _).bind fun rest => ?_
  refine (quiet_bound rest).bind fun i => ?_
  refine (Quiet.lift _).bind fun divisor => ?_
  cases i.block? c with
  | some k =>
      cases op with
      | floorDiv | floorMod => exact quiet_affineOr _
      | add | sub | mul | min | max => exact .lift _
  | none =>
      cases op with
      | floorDiv =>
          refine (Quiet.lift _).bind fun inner => ?_
          split
          exacts [.pure _, quiet_affineOr _]
      | add | sub | mul | floorMod | min | max => exact .lift _

theorem quiet_simplifyDivisionBy : Quiet (simplifyDivisionBy op type a b) := by
  refine Quiet.context.bind fun ctx => ?_
  split
  · split
    · exact quiet_simplifyDivision _
    · split <;> exact .lift _
  · exact .lift _

theorem quiet_simplifyChoice : Quiet (simplifyChoice op a b) := by
  have hchoose : ∀ (i : Interval) (lesser greater : ExprId), Quiet (do
      if i.hi ≤ 0 then return lesser
      if 0 ≤ i.lo then return greater
      operator op a b) := by
    intro i lesser greater
    split
    · exact .pure _
    · split
      exacts [.pure _, quiet_operator]
  refine quiet_difference?.bind fun d? => ?_
  cases d? with
  | none => exact quiet_operator
  | some d =>
      refine ((quiet_bound d).map some).bind fun sign? => ?_
      cases sign? with
      | none => exact quiet_operator
      | some i => exact hchoose i _ _

theorem quiet_simplifyArith : Quiet (simplifyArith op type a b) := by
  cases op with
  | add | sub => exact Quiet.context.bind fun ctx => quiet_affineOr _
  | mul => exact quiet_simplifyProduct
  | floorDiv | floorMod => exact quiet_simplifyDivisionBy
  | min | max => exact quiet_simplifyChoice

theorem quiet_simplifyCompare (op : Comparison) : Quiet (simplifyCompare op a b) := by
  refine quiet_difference?.bind fun d? => ?_
  cases d? with
  | none => exact Quiet.lift (Build.compare op a b)
  | some d =>
      refine (quiet_bound d).bind fun i => (Quiet.pure _).bind fun decided => ?_
      cases decided with
      | none => exact .lift (Build.compare op a b)
      | some answer => exact .lift (Build.boolean answer)

theorem quiet_simplifyNegation : Quiet (simplifyNegation a) := by
  refine Quiet.context.bind fun ctx => ?_
  split <;> exact .lift _

/-! ## Simplification -/

theorem Quiet.leads {q : Query ExprId} (h : Quiet q) (hs : s.Settled)
    (hg : s.ctx.Grows (q.run s).2.ctx) :
    Leads q s fun _ s' => s.ctx.Grows s'.ctx ∧ s'.Settled :=
  ⟨hg, hs.of_eq hg.le (h s).1 (h s).2⟩

theorem remember_settled {q : Query ExprId} (hplain : s.ctx.Plain e)
    (hq : Leads q s fun _ s' => s.ctx.Grows s'.ctx ∧ s'.Settled) :
    Leads (do let r ← q; recordSimplified e r; return r) s fun _ s' => s'.Settled :=
  hq.bind fun r _ ⟨hg, hs'⟩ =>
    (recordSimplified_settled hs' ((hplain.mono hg.le).faithful r)).bind fun _ _ h => .pure h.2.1

/-- What the induction over expressions gives for an operand. -/
def Settling (e : ExprId) : Prop := ∀ s : Session, s.Valid → s.Settled → s.ctx.Stored e →
  Leads (simplify e) s fun r s' =>
    s'.Valid ∧ s.ctx.Grows s'.ctx ∧ s'.ctx.Stored r ∧ s'.Settled

theorem settling_of_settled
    (h : ∀ s : Session, s.Valid → s.Settled → s.ctx.Stored e →
      Leads (simplify e) s fun _ s' => s'.Settled) : Settling e := by
  intro s hs hset he
  have hsimplified := simplified e s hs he
  exact ⟨hsimplified.valid, hsimplified.grows, hsimplified.post.result_stored, h s hs hset he⟩

theorem binary_settled {q : ExprId → ExprId → Query ExprId} (hs : s.Valid) (hset : s.Settled)
    (hplain : s.ctx.Plain e) (hchildren : (s.ctx.node e).children = [a, b]) (iha : Settling a)
    (ihb : Settling b) (hquiet : ∀ c d, Quiet (q c d))
    (hq : ∀ (s' : Session) c d, s'.Valid → s'.ctx.Stored c → s'.ctx.Stored d →
      s'.ctx.Grows ((q c d).run s').2.ctx) :
    Leads (do
      let c ← simplify a
      let d ← simplify b
      let r ← q c d
      recordSimplified e r
      return r) s fun _ s' => s'.Settled := by
  have hchild : ∀ c ∈ [a, b], s.ctx.Stored c := fun c hc => hplain.stored.child (hchildren ▸ hc)
  refine (iha s hs hset (hchild a (by simp))).bind fun c s₁ ⟨hs₁, hg₁, hc, hset₁⟩ => ?_
  refine (ihb s₁ hs₁ hset₁ ((hchild b (by simp)).mono hg₁.le)).bind
    fun d s₂ ⟨hs₂, hg₂, hd, hset₂⟩ => ?_
  exact remember_settled (hplain.mono (hg₁.trans hg₂).le)
    ((hquiet c d).leads hset₂ (hq s₂ c d hs₂ (hc.mono hg₂.le) hd))

theorem mapM_settled {α : Type} {f : α → Query ExprId} {xs : List α} (hs : s.Valid)
    (hset : s.Settled) (hf : ∀ x ∈ xs, ∀ s', s'.Valid → s'.Settled → s.ctx.Grows s'.ctx →
      Leads (f x) s' fun r s'' =>
        s''.Valid ∧ s'.ctx.Grows s''.ctx ∧ s''.ctx.Stored r ∧ s''.Settled) :
    Leads (xs.mapM f) s fun rs s' =>
      s.ctx.Grows s'.ctx ∧ (∀ r ∈ rs, s'.ctx.Stored r) ∧ s'.Settled := by
  induction xs generalizing s with
  | nil => exact .pure ⟨.refl _, nofun, hset⟩
  | cons x xs ih =>
      rw [List.mapM_cons]
      refine (hf x List.mem_cons_self s hs hset (.refl _)).bind
        fun r s₁ ⟨hs₁, hg₁, hr, hset₁⟩ => ?_
      refine (ih hs₁ hset₁ fun x' hx' s' hs' hset' hg => hf x' (List.mem_cons_of_mem _ hx') s' hs'
        hset' (hg₁.trans hg)).bind fun rs s₂ ⟨hg₂, hrs, hset₂⟩ => ?_
      refine .pure ⟨hg₁.trans hg₂, fun c hc => ?_, hset₂⟩
      rcases List.mem_cons.1 hc with rfl | hc
      exacts [hr.mono hg₂.le, hrs c hc]

theorem simplify_settled (e : ExprId) : ∀ s : Session, s.Valid → s.Settled → s.ctx.Stored e →
    Leads (simplify e) s fun _ s' => s'.Settled := by
  intro s hs hset he
  have operand : ∀ c ∈ (s.ctx.node e).children, Settling c := fun c hc =>
    settling_of_settled (simplify_settled c)
  by_cases hlit : ∃ z, s.ctx.Literal e z
  · obtain ⟨z, hz⟩ := hlit
    exact (simplify_literal hset hz).mono fun _ s' h => h.2.settled hset
  by_cases hover : ∃ op, s.ctx.Overflows op e
  · obtain ⟨op, ho⟩ := hover
    exact (simplify_overflows hset ho).mono fun _ _ h => h.2.1
  have hplain : s.ctx.Plain e := ⟨he, not_exists.1 hlit, not_exists.1 hover⟩
  rw [simplify]
  refine .analyzer ?_
  split
  · exact .pure hset
  refine .context ?_
  dsimp only
  split
  · exact remember_settled hplain (.pure ⟨.refl _, hset⟩)
  · exact remember_settled hplain (.pure ⟨.refl _, hset⟩)
  · next op a b hn =>
    refine binary_settled hs hset hplain (by rw [hn, Node.children])
      (operand a (by simp [hn, Node.children])) (operand b (by simp [hn, Node.children]))
      (fun c d => quiet_simplifyArith) fun s' c d hs' hc hd => ?_
    exact (simplifyArith_ensures op hs' (Context.over_all hc) (Context.over_all hd)).grows
  · next op a b hn =>
    refine binary_settled hs hset hplain (by rw [hn, Node.children])
      (operand a (by simp [hn, Node.children])) (operand b (by simp [hn, Node.children]))
      (fun c d => quiet_simplifyCompare op) fun s' c d hs' hc hd => ?_
    exact (simplifyCompare_ensures op hs' (Context.over_all hc) (Context.over_all hd)).grows
  · next a b hn =>
    refine binary_settled hs hset hplain (by rw [hn, Node.children])
      (operand a (by simp [hn, Node.children])) (operand b (by simp [hn, Node.children]))
      (fun c d => .lift _) fun s' c d hs' hc hd => ?_
    exact (Build.conj_denotes (Context.over_all hc) (Context.over_all hd)).1
  · next a b hn =>
    refine binary_settled hs hset hplain (by rw [hn, Node.children])
      (operand a (by simp [hn, Node.children])) (operand b (by simp [hn, Node.children]))
      (fun c d => .lift _) fun s' c d hs' hc hd => ?_
    exact (Build.disj_denotes (Context.over_all hc) (Context.over_all hd)).1
  · next a hn =>
    have hma : a ∈ (s.ctx.node e).children := by simp [hn, Node.children]
    refine (operand a hma s hs hset (he.child hma)).bind ?_
    rintro c s₁ ⟨hs₁, hg₁, hc, hset₁⟩
    exact remember_settled (hplain.mono hg₁.le) (quiet_simplifyNegation.leads hset₁
      (simplifyNegation_ensures hs₁ (Context.over_all hc)).grows)
  · next f args dims hn =>
    have hmem : ∀ c ∈ args, c ∈ (s.ctx.node e).children := by simp [hn, Node.children]
    refine (mapM_settled hs hset fun c _ s' hs' hset' hg => operand c.1 (hmem c.1 c.2) s' hs' hset'
      ((he.child (hmem c.1 c.2)).mono hg.le)).bind ?_
    rintro args' s₁ ⟨hg₁, hargs, hset₁⟩
    have hf := hs.wellFormed.call e f args dims hn
    have hcall : Build.Ensures (intern (.call f args' dims)) s₁.ctx fun _ _ => True := by
      refine (Build.intern_ensures (K := .all) trivial (fun c hc => ?_) ?_).mono
        fun _ _ _ _ => trivial
      · exact Context.over_all (hargs c (by simpa [Node.children] using hc))
      · rintro _ _ _ ⟨⟩
        exact hg₁.funs ▸ hf
    exact remember_settled (hplain.mono hg₁.le) ((Quiet.lift _).leads hset₁ hcall.1)
termination_by e.index
decreasing_by exact Context.child_lt _ hc

/-! ## Proofs -/

theorem record_settled {answer : Bool} (hset : s.Settled) (he : s.ctx.Stored e)
    (h : ∀ z, ¬ s.ctx.Literal e z) :
    Leads (do recordProved e answer; return answer) s fun _ s' => s'.Settled :=
  (recordProved_settled hset he fun z hz => absurd hz (h z)).bind fun _ _ h => .pure h.2.1

theorem provesWithin_settled (rounds : Nat) (hs : s.Valid) (hset : s.Settled)
    (he : s.ctx.Stored e) : Leads (provesWithin rounds e) s fun _ s' => s'.Settled := by
  induction rounds generalizing s e with
  | zero => exact .pure hset
  | succ rounds ih =>
      by_cases hlit : ∃ z, s.ctx.Literal e z
      · obtain ⟨z, hz⟩ := hlit
        exact (provesWithin_literal rounds hset hz).mono fun _ s' h => h.2.settled hset
      have hrecord : ∀ {s' : Session} (answer : Bool), s.ctx ≤ s'.ctx → s'.Settled →
          Leads (do recordProved e answer; return answer) s' fun _ s' => s'.Settled :=
        fun answer hctx hset' => record_settled hset' (he.mono hctx)
          fun z hz => hlit ⟨z, hz.restrict hctx he⟩
      refine .analyzer ?_
      split
      · exact .pure hset
      refine (settling_of_settled (simplify_settled e) s hs hset he).bind ?_
      rintro r s₁ ⟨hs₁, hg₁, hr, hset₁⟩
      refine .context ?_
      split
      · exact hrecord _ hg₁.le hset₁
      · next c d hn =>
        have hc := hr.child (c := c) (by simp [hn, Node.children])
        have hd := hr.child (c := d) (by simp [hn, Node.children])
        have hfirst := provesWithin_ensures rounds hs₁ hc
        refine Leads.bind (Q := fun _ s' => s'.Valid ∧ s₁.ctx.Grows s'.ctx ∧ s'.Settled)
          ⟨hfirst.valid, hfirst.grows, ih hs₁ hset₁ hc⟩ ?_
        rintro first s₂ ⟨hs₂, hg₂, hset₂⟩
        split
        · have hsecond := provesWithin_ensures rounds hs₂ (hd.mono hg₂.le)
          refine Leads.bind (Q := fun _ s' => s₂.ctx.Grows s'.ctx ∧ s'.Settled)
            ⟨hsecond.grows, ih hs₂ hset₂ (hd.mono hg₂.le)⟩ ?_
          rintro second s₃ ⟨hg₃, hset₃⟩
          exact hrecord _ (hg₁.trans (hg₂.trans hg₃)).le hset₃
        · exact hrecord _ (hg₁.trans hg₂).le hset₂
      · exact hrecord _ hg₁.le hset₁

theorem provesEqual_settled (hs : s.Valid) (hset : s.Settled) (ha : s.ctx.Stored a)
    (hb : s.ctx.Stored b) : Leads (provesEqual a b) s fun _ s' => s'.Settled := by
  unfold provesEqual
  split
  · exact .pure hset
  have hsub := Ensures.lift hs (Build.sub_denotes (Context.over_all ha) (Context.over_all hb))
  refine Leads.bind (Q := fun diff s' => s'.Valid ∧ s'.Settled ∧ s'.ctx.Stored diff)
    ⟨hsub.valid, hset.mono hsub.grows.le, hsub.post.stored⟩ fun diff s₁ ⟨hs₁, hset₁, hdiff⟩ => ?_
  exact (simplify_settled diff s₁ hs₁ hset₁ hdiff).bind fun _ _ h => .context (.pure h)

end Query

namespace Session

variable {s : Session}

theorem Reachable.settled (h : s.Reachable) : s.Settled := by
  induction h with
  | start ctx memoize hwf => exact settled_of_forgotten rfl rfl
  | store _ hctx hwf ih => exact ih.mono hctx
  | learn _ v hd ih => exact (learn_forgets _ v _).1
  | bound h he ih =>
      exact ih.of_eq (Query.bound_ensures h.valid he).grows.le (Query.quiet_bound _ _).1
        (Query.quiet_bound _ _).2
  | simplify h he ih => exact Query.simplify_settled _ _ h.valid ih he
  | proves h he ih => exact Query.provesWithin_settled _ h.valid ih he
  | provesEqual h ha hb ih => exact Query.provesEqual_settled h.valid ih ha hb

end Session

end LoopBounds
