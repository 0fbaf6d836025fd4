import LoopBounds.Proofs.Prove
import LoopBounds.Proofs.Repetition
import LoopBounds.Proofs.Steadiness

/-!
# Variables that are not asked for

What a query finds out about an expression depends on the domains of the variables that occur in
it, in these domains and so on, and in the codomains of functions.  Learning the domain of any
other variable changes no answer, so a query that was answered before is answered alike.
-/

namespace LoopBounds

/-- The domains agree on all variables but those of `V`. -/
def Facts.AgreesOff (known : Facts .var Domain) (V : Set VarId) (known' : Facts .var Domain) :
    Prop :=
  ∀ v ∉ V, known'[v]? = known[v]?

namespace Facts.AgreesOff

variable {V : Set VarId} {known known' known'' : Facts .var Domain}

theorem refl (V : Set VarId) (known : Facts .var Domain) : known.AgreesOff V known :=
  fun _ _ => rfl

theorem trans (h : known.AgreesOff V known') (h' : known'.AgreesOff V known'') :
    known.AgreesOff V known'' :=
  fun v hv => (h' v hv).trans (h v hv)

theorem symm (h : known.AgreesOff V known') : known'.AgreesOff V known :=
  fun v hv => (h v hv).symm

theorem insert {v : VarId} (hv : v ∈ V) (d : Domain) : known.AgreesOff V (known.insert v d) := by
  intro w hw
  have hne : v ≠ w := fun h => hw (h ▸ hv)
  simp [Std.TreeMap.getElem?_insert, hne]

end Facts.AgreesOff

namespace Context

/-- The ends of the domain are over a class of nodes. -/
def OverDomain (ctx : Context) (K : NodeClass) (d : Domain) : Prop :=
  ctx.Over K d.min ∧ ctx.Over K d.extent

theorem OverDomain.mono {ctx ctx' : Context} {K : NodeClass} {d : Domain} (hctx : ctx ≤ ctx')
    (h : ctx.OverDomain K d) : ctx'.OverDomain K d :=
  ⟨h.1.mono hctx, h.2.mono hctx⟩

/-- Neither the domains of other variables nor codomains mention a variable of `V`, and the
functions that are called are those of `D`. -/
structure Apart (ctx : Context) (V : Set VarId) (D : FunId → Prop) (known : Facts .var Domain) :
    Prop where
  calls : ctx.Calls D
  supports : ctx.Supports known
  domains : ∀ v d, v ∉ V → known[v]? = some d → ctx.OverDomain (.limited (· ∉ V) D) d
  codomains : ∀ f d, D f → (ctx.fn f).codomain? = some d →
    ctx.OverDomain (.limited (· ∉ V) D) d

variable {ctx ctx' : Context} {V : Set VarId} {D : FunId → Prop}
  {known known' : Facts .var Domain}

theorem Apart.grow (h : ctx.Apart V D known) (hg : ctx.Grows ctx') : ctx'.Apart V D known := by
  refine ⟨h.calls.mono hg, h.supports.grow hg, fun v d hv hd => ?_, fun f d hf hd => ?_⟩
  · exact (h.domains v d hv hd).mono hg.le
  · rw [hg.fn_eq] at hd
    exact (h.codomains f d hf hd).mono hg.le

/-- What is learnt of the variables of `V` does not matter. -/
theorem Apart.agree (h : ctx.Apart V D known) (hagrees : known.AgreesOff V known')
    (hsupports : ctx.Supports known') : ctx.Apart V D known' := by
  refine ⟨h.calls, hsupports, fun v d hv hd => h.domains v d hv ?_, h.codomains⟩
  rwa [← hagrees v hv]

end Context

/-- The bounds of an expression are found on the domains of its own variables. -/
theorem BoundRun.agree {ctx : Context} {V : Set VarId} {D : FunId → Prop} {depth : Nat}
    {domains domains' : Env Domain} {given : Env Interval} {e : ExprId} {i : Interval}
    (hcodomains : ∀ f d, D f → (ctx.fn f).codomain? = some d →
      ctx.OverDomain (.limited (· ∉ V) D) d)
    (hdomains : ∀ v d, v ∉ V → domains v = some d → ctx.OverDomain (.limited (· ∉ V) D) d)
    (hagree : ∀ v ∉ V, domains' v = domains v) (he : ctx.Over (.limited (· ∉ V) D) e)
    (h : BoundRun ctx depth domains given e i) : BoundRun ctx depth domains' given e i := by
  have hvar : ∀ {e v}, ctx.Over (.limited (· ∉ V) D) e → ctx.node e = .var v → v ∉ V :=
    fun he hn => he.mem.1 _ hn
  have hcall : ∀ {e f args dims}, ctx.Over (.limited (· ∉ V) D) e →
      ctx.node e = .call f args dims → D f := fun he hn => he.mem.2 _ _ _ hn
  induction h with
  | const hn => exact .const hn
  | given hn hi => exact .given hn hi
  | unknown hn hi hd => exact .unknown hn hi (by rwa [hagree _ (hvar he hn)])
  | domain hn hi hd _ _ ihmin ihextent =>
      have hv := hvar he hn
      obtain ⟨hmin, hextent⟩ := hdomains _ _ hv hd
      exact .domain hn hi ((hagree _ hv).trans hd) (ihmin hdomains hagree hmin)
        (ihextent hdomains hagree hextent)
  | arith hn _ _ iha ihb =>
      have ha := he.child (by rw [hn]; exact List.mem_cons_self)
      have hb := he.child (by rw [hn]; exact List.mem_cons_of_mem _ List.mem_cons_self)
      exact .arith hn (iha hdomains hagree ha) (ihb hdomains hagree hb)
  | truth hn => exact .truth hn
  | deep hn => exact .deep hn
  | declared hn hbody _ _ ihmin ihextent =>
      have hf := hcall he hn
      exact .declared hn hbody
        (fun d hd => ihmin d hd hdomains hagree (hcodomains _ d hf hd).1)
        fun d hd => ihextent d hd hdomains hagree (hcodomains _ d hf hd).2
  | body hn hbody _ _ _ hrun ihmin ihextent ihargs _ =>
      have hf := hcall he hn
      -- A body is bounded without any domains, so its run is the same.
      refine .body hn hbody (fun d hd => ihmin d hd hdomains hagree (hcodomains _ d hf hd).1)
        (fun d hd => ihextent d hd hdomains hagree (hcodomains _ d hf hd).2)
        (fun pd hpd a ha => ihargs pd hpd a ha hdomains hagree (he.child ?_)) hrun
      rw [hn]
      exact mem_of_argument? ha

namespace Context.Apart

variable {ctx : Context} {V : Set VarId} {D : FunId → Prop} {known known' : Facts .var Domain}
  {e : ExprId}

theorem boundWithin_eq (h : ctx.Apart V D known) (hagrees : known.AgreesOff V known')
    (he : ctx.Over (.limited (· ∉ V) D) e) (depth : Nat) :
    ctx.boundWithin depth (known'[·]?) Env.empty e =
      ctx.boundWithin depth (known[·]?) Env.empty e :=
  boundWithin_of_run
    ((ctx.boundRun depth (known[·]?) Env.empty e).agree h.codomains h.domains hagrees he)

theorem valid (h : ctx.Apart V D known) : Session.Valid ⟨ctx, .knowing known⟩ := by
  refine ⟨h.supports.wellFormed, h.supports.domains, fun e r hr => ?_, fun e he => ?_,
    fun e i hi => ?_⟩
  · simp [Analyzer.knowing] at hr
  · simp [Analyzer.knowing] at he
  · simp [Analyzer.knowing] at hi

end Context.Apart

namespace Query

/-! ## Queries that ask for nothing -/

section Plain

variable {α β : Type} {q : Query α} {f : α → Query β} {op : Arith} {type : Scalar} {a b : ExprId}

/-- The query only reads and stores expressions. -/
def Plain (q : Query α) : Prop := ∃ b : Build α, q = liftM b

theorem plain_lift (b : Build α) : Plain (liftM b : Query α) := ⟨b, rfl⟩

theorem plain_pure (x : α) : Plain (pure x : Query α) := ⟨pure x, rfl⟩

theorem Plain.bind (hq : Plain q) (hf : ∀ x, Plain (f x)) : Plain (q >>= f) := by
  obtain ⟨b, rfl⟩ := hq
  choose g hg using hf
  refine ⟨b >>= g, ?_⟩
  rw [show f = fun x => liftM (g x) from funext hg]
  rfl

theorem Plain.context {f : Context → Query β} (hf : ∀ ctx, Plain (f ctx)) :
    Plain (Query.context >>= f) :=
  Plain.bind ⟨get, rfl⟩ hf

theorem operator_plain (op : Arith) (a b : ExprId) : Plain (operator op a b) := by
  unfold operator
  split
  · exact plain_lift _
  · exact plain_lift _

theorem difference?_plain (a b : ExprId) : Plain (difference? a b) := by
  apply Plain.context
  intro ctx
  dsimp only
  split
  · exact (plain_lift _).bind fun _ => plain_pure _
  · exact plain_pure _

theorem affineOr_plain (form? : Option Affine) (type : Scalar) (op : Arith) (a b : ExprId) :
    Plain (affineOr form? type op a b) := by
  unfold affineOr
  split
  · exact plain_lift _
  · exact plain_lift _

theorem simplifyProduct_plain (type : Scalar) (a b : ExprId) :
    Plain (simplifyProduct type a b) := by
  apply Plain.context
  intro ctx
  dsimp only
  split
  · exact affineOr_plain _ _ _ _ _
  · exact affineOr_plain _ _ _ _ _
  · exact operator_plain _ _ _

theorem simplifyNegation_plain (a : ExprId) : Plain (simplifyNegation a) := by
  apply Plain.context
  intro ctx
  split
  · exact plain_lift _
  · exact plain_lift _

end Plain

/-! ## Queries that find the same -/

/-- Without memory the query makes the same of both sets of domains. -/
def Alike {α : Type} (q : Query α) (ctx : Context) (known known' : Facts .var Domain) : Prop :=
  ∃ x ctx', q.run ⟨ctx, .knowing known⟩ = (x, ⟨ctx', .knowing known⟩) ∧
    q.run ⟨ctx, .knowing known'⟩ = (x, ⟨ctx', .knowing known'⟩)

section Rules

variable {α β : Type} {q : Query α} {f : α → Query β} {ctx : Context}
  {known known' : Facts .var Domain} {Q : α → Context → Prop}

theorem Plain.alike (h : Plain q) : Alike q ctx known known' := by
  obtain ⟨b, rfl⟩ := h
  exact ⟨(b.run ctx).1, (b.run ctx).2, rfl, rfl⟩

/-- What follows may rely on what the query ensures under the first domains. -/
theorem Alike.bind (hq : Alike q ctx known known') (hQ : Ensures q ⟨ctx, .knowing known⟩ Q)
    (hf : ∀ x ctx', ctx.Grows ctx' → Q x ctx' → Alike (f x) ctx' known known') :
    Alike (q >>= f) ctx known known' := by
  obtain ⟨x, ctx₁, hrun, hrun'⟩ := hq
  have hgrows := hQ.grows
  have hpost := hQ.post
  rw [hrun] at hgrows hpost
  obtain ⟨y, ctx₂, hf, hf'⟩ := hf x ctx₁ hgrows hpost
  refine ⟨y, ctx₂, ?_, ?_⟩
  · rw [StateT.run_bind, hrun]
    exact hf
  · rw [StateT.run_bind, hrun']
    exact hf'

theorem Alike.map {g : α → β} (h : Alike q ctx known known') :
    Alike (do return g (← q)) ctx known known' := by
  obtain ⟨x, ctx', hrun, hrun'⟩ := h
  refine ⟨g x, ctx', ?_, ?_⟩
  · rw [StateT.run_bind, hrun]
    rfl
  · rw [StateT.run_bind, hrun']
    rfl

theorem Alike.context {f : Context → Query β} (h : Alike (f ctx) ctx known known') :
    Alike (Query.context >>= f) ctx known known' :=
  h

/-- Without memory an answer is computed, and noting it does nothing. -/
theorem Alike.remember {compute : Query α} (h : Alike compute ctx known known')
    (note : α → Analyzer → Analyzer) (hnote : ∀ x known, note x (.knowing known) = .knowing known)
    (hanew : ∀ ctx known, q.run ⟨ctx, .knowing known⟩ =
      (do let x ← compute; changeAnalyzer (note x); return x : Query α).run
        ⟨ctx, .knowing known⟩) : Alike q ctx known known' := by
  obtain ⟨x, ctx', hrun, hrun'⟩ := h
  refine ⟨x, ctx', ?_, ?_⟩
  · rw [hanew, StateT.run_bind, hrun]
    change (x, (⟨ctx', note x (.knowing known)⟩ : Session)) = _
    rw [hnote]
  · rw [hanew, StateT.run_bind, hrun']
    change (x, (⟨ctx', note x (.knowing known')⟩ : Session)) = _
    rw [hnote]

end Rules

section Simplification

variable {ctx : Context} {V : Set VarId} {D : FunId → Prop} {known known' : Facts .var Domain}
  {op : Arith} {type : Scalar} {a b e : ExprId} {n : Nat}

theorem bound_alike (h : ctx.Apart V D known) (hagrees : known.AgreesOff V known')
    (he : ctx.Over (.limited (· ∉ V) D) e) : Alike (bound e) ctx known known' := by
  refine ⟨ctx.boundWithin Context.bindingDepth (known[·]?) Env.empty e, ctx, ?_, ?_⟩
  · exact bound_run_anew rfl
  · rw [← h.boundWithin_eq hagrees he]
    exact bound_run_anew rfl

theorem simplifyDivision_alike (op : Arith) (type : Scalar) (h : ctx.Apart V D known)
    (hagrees : known.AgreesOff V known') (ha : ctx.Over (.limited (· ∉ V) D) a) (c : Int64) :
    Alike (simplifyDivision op type a c) ctx known known' := by
  obtain ⟨-, hremainder⟩ := Affine.nodes_splitBy (d := c) (Affine.ofExpr_denotes ha).nodes
  apply Alike.context
  dsimp only
  have hwritten := Ensures.lift h.valid
    (Affine.toExpr_denotes (Affine.denotes_hasValue hremainder) type)
  apply Alike.bind (plain_lift _).alike hwritten
  intro rest ctx₁ hg₁ hrest
  apply (bound_alike (h.grow hg₁) hagrees hrest.nodes).bind
    (bound_ensures (h.grow hg₁).valid hrest.stored)
  intro i ctx₂ _ _
  apply Plain.alike
  apply (plain_lift _).bind
  intro divisor
  cases i.block? c with
  | some k =>
      cases op with
      | floorDiv | floorMod => exact affineOr_plain _ _ _ _ _
      | add | sub | mul | min | max => exact plain_lift _
  | none =>
      cases op with
      | floorDiv =>
          apply (plain_lift _).bind
          intro inner
          split
          · exact plain_pure _
          · exact affineOr_plain _ _ _ _ _
      | add | sub | mul | floorMod | min | max => exact plain_lift _

theorem simplifyDivisionBy_alike (op : Arith) (type : Scalar) (h : ctx.Apart V D known)
    (hagrees : known.AgreesOff V known') (ha : ctx.Over (.limited (· ∉ V) D) a) :
    Alike (simplifyDivisionBy op type a b) ctx known known' := by
  apply Alike.context
  split
  · split
    · exact simplifyDivision_alike op type h hagrees ha _
    split
    · exact (plain_lift _).alike
    · exact (plain_lift _).alike
  · exact (plain_lift _).alike

theorem simplifyChoice_alike (op : Arith) (h : ctx.Apart V D known)
    (hagrees : known.AgreesOff V known') (ha : ctx.Over (.limited (· ∉ V) D) a)
    (hb : ctx.Over (.limited (· ∉ V) D) b) : Alike (simplifyChoice op a b) ctx known known' := by
  apply (difference?_plain a b).alike.bind (difference?_ensures h.valid ha hb)
  intro diff? ctx₁ hg₁ hdiff
  cases diff? with
  | none => exact (operator_plain op a b).alike
  | some diff =>
      have hdiff := hdiff diff rfl
      dsimp only
      rw [bind_map_left]
      apply (bound_alike (h.grow hg₁) hagrees hdiff.nodes).bind
        (bound_ensures (h.grow hg₁).valid hdiff.stored)
      intro i ctx₂ _ _
      apply Plain.alike
      dsimp only
      split
      · exact plain_pure _
      split
      · exact plain_pure _
      · exact operator_plain op a b

theorem simplifyArith_alike (op : Arith) (type : Scalar) (h : ctx.Apart V D known)
    (hagrees : known.AgreesOff V known') (ha : ctx.Over (.limited (· ∉ V) D) a)
    (hb : ctx.Over (.limited (· ∉ V) D) b) :
    Alike (simplifyArith op type a b) ctx known known' := by
  cases op with
  | add | sub => exact (Plain.context fun _ => affineOr_plain _ _ _ _ _).alike
  | mul => exact (simplifyProduct_plain type a b).alike
  | floorDiv | floorMod => exact simplifyDivisionBy_alike _ type h hagrees ha
  | min | max => exact simplifyChoice_alike _ h hagrees ha hb

theorem simplifyCompare_alike (op : Comparison) (h : ctx.Apart V D known)
    (hagrees : known.AgreesOff V known') (ha : ctx.Over (.limited (· ∉ V) D) a)
    (hb : ctx.Over (.limited (· ∉ V) D) b) : Alike (simplifyCompare op a b) ctx known known' := by
  apply (difference?_plain a b).alike.bind (difference?_ensures h.valid ha hb)
  intro diff? ctx₁ hg₁ hdiff
  cases diff? with
  | none => exact (plain_lift _).alike
  | some diff =>
      have hdiff := hdiff diff rfl
      apply (bound_alike (h.grow hg₁) hagrees hdiff.nodes).bind
        (bound_ensures (h.grow hg₁).valid hdiff.stored)
      intro i ctx₂ _ _
      rw [pure_bind]
      apply Plain.alike
      dsimp only
      split
      · exact plain_lift _
      · exact plain_lift _

theorem simplifyNode_alike {ctx₀ : Context} {operands : List ExprId} (h : ctx.Apart V D known)
    (hagrees : known.AgreesOff V known')
    (hoperands : ∀ c ∈ operands, ctx.Over (.limited (· ∉ V) D) c) :
    Alike (simplifyNode ctx₀ e operands) ctx known known' := by
  unfold simplifyNode
  split
  · exact simplifyArith_alike _ _ h hagrees (hoperands _ (by simp)) (hoperands _ (by simp))
  · exact simplifyCompare_alike _ h hagrees (hoperands _ (by simp)) (hoperands _ (by simp))
  · exact (plain_lift _).alike
  · exact (plain_lift _).alike
  · exact (simplifyNegation_plain _).alike
  · exact (plain_lift _).alike
  · exact (plain_pure _).alike

/-- What an expression simplifies to is over the same nodes. -/
theorem simplify_over {K : NodeClass} {s : Session} (hs : s.Valid) (he : s.ctx.Over K e) :
    Ensures (simplify e) s fun r ctx => ctx.Over K r := by
  have hnowhere : s.ctx.Denotes K e fun _ _ => False := ⟨he, fun _ _ _ => False.elim⟩
  exact (simplify_denotes hs hnowhere fun _ _ => False.elim).mono fun _ _ _ h => h.nodes

theorem simplifyAll_alike {es : List ExprId} (h : ctx.Apart V D known)
    (hes : ∀ e ∈ es, ctx.Over (.limited (· ∉ V) D) e)
    (hsimplify : ∀ e ∈ es, ∀ ctx' : Context, ctx'.Apart V D known →
      ctx'.Over (.limited (· ∉ V) D) e → Alike (simplify e) ctx' known known') :
    Alike (es.mapM simplify) ctx known known' := by
  induction es generalizing ctx with
  | nil => exact (plain_pure _).alike
  | cons e es ih =>
      rw [List.mapM_cons]
      have he := hes e List.mem_cons_self
      apply (hsimplify e List.mem_cons_self ctx h he).bind (simplify_over h.valid he)
      intro r ctx₁ hg₁ _
      have hrest : ∀ c ∈ es, ctx₁.Over (.limited (· ∉ V) D) c := fun c hc =>
        (hes c (List.mem_cons_of_mem e hc)).mono hg₁.le
      exact (ih (h.grow hg₁) hrest fun c hc => hsimplify c (List.mem_cons_of_mem e hc)).map

theorem simplify_alike (e : ExprId) (ctx : Context) (h : ctx.Apart V D known)
    (hagrees : known.AgreesOff V known') (he : ctx.Over (.limited (· ∉ V) D) e) :
    Alike (simplify e) ctx known known' := by
  have hfresh : Alike (freshSimplify e) ctx known known' := by
    apply Alike.context
    have hchildren : ∀ c ∈ (ctx.node e).children, ctx.Over (.limited (· ∉ V) D) c :=
      fun c => he.child
    have hover := mapM_ensures (C := fun ctx _ r => ctx.Over (.limited (· ∉ V) D) r)
      (fun hle hr => hr.mono hle) h.valid fun c hc s hs hg _ =>
        simplify_over hs ((hchildren c hc).mono hg.le)
    apply (simplifyAll_alike h hchildren fun c hc ctx' h' hc' =>
      simplify_alike c ctx' h' hagrees hc').bind hover
    intro operands ctx₁ hg₁ hoperands
    apply simplifyNode_alike (h.grow hg₁) hagrees
    exact forall_of_forall₂ hoperands fun _ _ _ hr => hr
  apply hfresh.remember (Analyzer.noteSimplified e)
  · intro r known
    rfl
  · intro ctx known
    exact simplify_run_anew (s := ⟨ctx, .knowing known⟩) rfl rfl
termination_by e.index
decreasing_by exact ctx.child_lt hc

theorem provesWithin_alike (h : ctx.Apart V D known) (hagrees : known.AgreesOff V known')
    (he : ctx.Over (.limited (· ∉ V) D) e) : Alike (provesWithin n e) ctx known known' := by
  induction n generalizing ctx e with
  | zero => exact (plain_pure false).alike
  | succ n ih =>
      have hfresh : Alike (simplify e >>= simplifiedAnswer (provesWithin n)) ctx known known' := by
        apply (simplify_alike e ctx h hagrees he).bind (simplify_over h.valid he)
        intro r ctx₁ hg₁ hr
        apply Alike.context
        split
        · exact (plain_pure _).alike
        · next a b hn =>
          have h₁ := h.grow hg₁
          have ha := hr.child (c := a) (by simp [hn, Node.children])
          have hb := hr.child (c := b) (by simp [hn, Node.children])
          apply (ih h₁ ha).bind (provesWithin_ensures n h₁.valid ha.stored)
          intro first ctx₂ hg₂ _
          split
          · exact ih (h₁.grow hg₂) (hb.mono hg₂.le)
          · exact (plain_pure _).alike
        · exact (plain_pure _).alike
      apply hfresh.remember (Analyzer.noteProved e)
      · intro answer known
        rfl
      · intro ctx known
        exact provesWithin_run_anew (s := ⟨ctx, .knowing known⟩) rfl

theorem provesEqual_alike (h : ctx.Apart V D known) (hagrees : known.AgreesOff V known')
    (ha : ctx.Over (.limited (· ∉ V) D) a) (hb : ctx.Over (.limited (· ∉ V) D) b) :
    Alike (provesEqual a b) ctx known known' := by
  unfold provesEqual
  split
  · exact (plain_pure _).alike
  apply (plain_lift _).alike.bind (Ensures.lift h.valid (Build.arith_denotes .sub ha hb))
  intro diff ctx₁ hg₁ hdiff
  have hdiff := hdiff.nodes
  apply (simplify_alike diff ctx₁ (h.grow hg₁) hagrees hdiff).bind
    (simplify_over (h.grow hg₁).valid hdiff)
  intro r ctx₂ _ _
  exact Alike.context (plain_pure _).alike

end Simplification

/-! ## Queries that are repeated -/

/-- The query gives an answer, whatever is known of the variables of `V`, and it gives the same one
and stores nothing when more is stored.  The answer and the context that it leads to satisfy `Q`. -/
def Repeats {α : Type} (q : Query α) (V : Set VarId) (ctx : Context) (known : Facts .var Domain)
    (Q : α → Context → Prop) : Prop :=
  ∃ x ctx', ctx.Grows ctx' ∧
    (∀ known', known.AgreesOff V known' → ctx.Supports known' → Gives q ctx known' x ctx') ∧
    (∀ ctx'' known', ctx'.Grows ctx'' → known.AgreesOff V known' → ctx''.Supports known' →
      Gives q ctx'' known' x ctx'') ∧ Q x ctx'

section Repetition

variable {α : Type} {q : Query α} {ctx : Context} {V : Set VarId} {D : FunId → Prop}
  {known : Facts .var Domain} {e : ExprId} {Q : α → Context → Prop}

/-- An answer that does not depend on what is remembered, and found alike, is repeated. -/
theorem repeats_of_steady (h : ctx.Apart V D known)
    (hsteady : ∀ ctx' known', ctx.Grows ctx' → ctx'.Supports known' →
      Steady q ctx' known' fun _ _ => True)
    (halike : ∀ ctx' known', ctx.Grows ctx' → known.AgreesOff V known' →
      Alike q ctx' known known')
    (hQ : Ensures q ⟨ctx, .knowing known⟩ Q) : Repeats q V ctx known Q := by
  have hfresh : ∀ {ctx₁ known₁ x ctx₂}, ctx₁.Supports known₁ → Gives q ctx₁ known₁ x ctx₂ →
      (q.run ⟨ctx₁, .knowing known₁⟩).1 = x ∧ (q.run ⟨ctx₁, .knowing known₁⟩).2.ctx = ctx₂ := by
    intro ctx₁ known₁ x ctx₂ hsupports hgives
    obtain ⟨an, hrun, -⟩ := hgives _ rfl (Session.truthful_knowing hsupports)
    rw [hrun]
    exact ⟨rfl, rfl⟩
  -- Under other domains the same is found wherever the old ones have found it.
  have hother : ∀ {ctx₁ x ctx₂ known'}, ctx.Grows ctx₁ → known.AgreesOff V known' →
      ctx₁.Supports known' → Gives q ctx₁ known x ctx₂ → Gives q ctx₁ known' x ctx₂ := by
    intro ctx₁ x ctx₂ known' hg hagrees hsupports hold
    obtain ⟨hx, hctx₂⟩ := hfresh (h.supports.grow hg) hold
    obtain ⟨y, ctx₃, hrun, hrun'⟩ := halike ctx₁ known' hg hagrees
    obtain ⟨z, ctx₄, hsettles, -⟩ := hsteady ctx₁ known' hg hsupports
    obtain ⟨hz, hctx₄⟩ := hfresh hsupports hsettles.first
    rw [hrun] at hx hctx₂
    rw [hrun'] at hz hctx₄
    obtain rfl : z = x := hz.symm.trans hx
    obtain rfl : ctx₄ = ctx₂ := hctx₄.symm.trans hctx₂
    exact hsettles.first
  obtain ⟨x, ctx', hsettles, -⟩ := hsteady ctx known (.refl ctx) h.supports
  obtain ⟨hx, hctx'⟩ := hfresh h.supports hsettles.first
  refine ⟨x, ctx', hsettles.grows, fun known' hagrees hsupports => ?_,
    fun ctx'' known' hg hagrees hsupports => ?_, ?_⟩
  · exact hother (.refl ctx) hagrees hsupports hsettles.first
  · exact hother (hsettles.grows.trans hg) hagrees hsupports (hsettles.again ctx'' hg.adds)
  · have hpost := hQ.post
    rwa [hx, hctx'] at hpost

theorem repeats_lift {b : Build α} (h : b.Repeats ctx Q) :
    Repeats (liftM b : Query α) V ctx known Q := by
  have hlift : ∀ {s : Session}, (liftM b : Query α).run s =
      ((b.run s.ctx).1, ⟨(b.run s.ctx).2, s.analyzer⟩) := rfl
  refine ⟨(b.run ctx).1, (b.run ctx).2, h.grows, fun known' _ _ an hknown htrue => ?_, ?_, h.post⟩
  · exact ⟨an, hlift, hknown, htrue.grow h.grows⟩
  · intro ctx'' known' hg _ _ an hknown htrue
    refine ⟨an, ?_, hknown, htrue⟩
    rw [hlift, h.again ctx'' hg]

theorem simplify_repeats (h : ctx.Apart V D known) (he : ctx.Over (.limited (· ∉ V) D) e) :
    Repeats (simplify e) V ctx known fun r ctx' => ctx'.Over (.limited (· ∉ V) D) r := by
  apply repeats_of_steady h
  · intro ctx' known' hg hsupports
    exact (simplify_steady e ctx' hsupports (he.mono hg.le).stored).mono fun _ _ _ _ => trivial
  · intro ctx' known' hg hagrees
    exact simplify_alike e ctx' (h.grow hg) hagrees (he.mono hg.le)
  · exact simplify_over h.valid he

theorem proves_repeats (h : ctx.Apart V D known) (he : ctx.Over (.limited (· ∉ V) D) e) :
    Repeats (proves e) V ctx known fun _ _ => True := by
  apply repeats_of_steady h
  · intro ctx' known' hg hsupports
    exact proves_steady hsupports (he.mono hg.le).stored
  · intro ctx' known' hg hagrees
    exact provesWithin_alike (h.grow hg) hagrees (he.mono hg.le)
  · exact (proves_ensures h.valid he.stored).mono fun _ _ _ _ => trivial

theorem provesEqual_repeats {a b : ExprId} (h : ctx.Apart V D known)
    (ha : ctx.Over (.limited (· ∉ V) D) a) (hb : ctx.Over (.limited (· ∉ V) D) b) :
    Repeats (provesEqual a b) V ctx known fun _ _ => True := by
  apply repeats_of_steady h
  · intro ctx' known' hg hsupports
    exact provesEqual_steady hsupports (ha.mono hg.le).stored (hb.mono hg.le).stored
  · intro ctx' known' hg hagrees
    exact provesEqual_alike (h.grow hg) hagrees (ha.mono hg.le) (hb.mono hg.le)
  · exact (provesEqual_ensures h.valid ha.stored hb.stored).mono fun _ _ _ _ => trivial

end Repetition

end Query

end LoopBounds
