import LoopBounds.Proofs.Domains
import LoopBounds.Proofs.Reading

/-!
# Literals

An operator over literals is computed when it is built.  Where the result leaves the word the
operator stays, and simplification makes no literal of it either.
-/

namespace LoopBounds

namespace Context

variable {ctx ctx' : Context} {e a b : ExprId} {w : Int64} {x y z : Int}

/-- The expression is stored as a literal. -/
def Literal (ctx : Context) (e : ExprId) (z : Int) : Prop :=
  ctx.Stored e ∧ ∃ w, ctx.literal? e = some w ∧ w.toInt = z

instance : Decidable (ctx.Literal e z) :=
  inferInstanceAs (Decidable (ctx.Stored e ∧ ∃ w ∈ ctx.literal? e, w.toInt = z))

/-- The expression is stored, but not as a literal. -/
def Stuck (ctx : Context) (e : ExprId) : Prop := ctx.Stored e ∧ ctx.literal? e = none

theorem literal_of_node {t : Scalar} (he : ctx.Stored e) (hn : ctx.node e = .const w t) :
    ctx.Literal e w.toInt :=
  ⟨he, w, by rw [literal?, hn], rfl⟩

theorem literal_of_isZero (he : ctx.Stored e) (h : ctx.isZero e = true) : ctx.Literal e 0 :=
  ⟨he, 0, by simpa [isZero] using h, rfl⟩

theorem stuck_of_node {op : Arith} (he : ctx.Stored e) (hn : ctx.node e = .arith op a b) :
    ctx.Stuck e :=
  ⟨he, by rw [literal?, hn]⟩

theorem Literal.exists_node (h : ctx.Literal e z) :
    ∃ w t, ctx.node e = .const w t ∧ w.toInt = z := by
  obtain ⟨-, w, hw, hz⟩ := h
  obtain ⟨t, hn⟩ := exists_node_of_literal? hw
  exact ⟨w, t, hn, hz⟩

theorem Literal.mono (hctx : ctx ≤ ctx') (h : ctx.Literal e z) : ctx'.Literal e z :=
  ⟨h.1.mono hctx, by rw [literal?_eq hctx h.1]; exact h.2⟩

theorem Literal.restrict (hctx : ctx ≤ ctx') (he : ctx.Stored e) (h : ctx'.Literal e z) :
    ctx.Literal e z :=
  ⟨he, by rw [← literal?_eq hctx he]; exact h.2⟩

theorem Stuck.mono (hctx : ctx ≤ ctx') (h : ctx.Stuck e) : ctx'.Stuck e :=
  ⟨h.1.mono hctx, by rw [literal?_eq hctx h.1]; exact h.2⟩

theorem Stuck.not_literal (h : ctx.Stuck e) : ¬ ctx.Literal e z := by
  rintro ⟨-, w, hw, -⟩
  cases h.2.symm.trans hw

theorem Literal.unique (hx : ctx.Literal e x) (hy : ctx.Literal e y) : x = y := by
  obtain ⟨-, u, hu, rfl⟩ := hx
  obtain ⟨-, v, hv, rfl⟩ := hy
  cases hu.symm.trans hv
  rfl

theorem Literal.fits (h : ctx.Literal e z) : Word.Fits z := by
  obtain ⟨-, w, -, rfl⟩ := h
  exact Word.fits_toInt w

theorem Literal.over (h : ctx.Literal e z) : ctx.Over .callFree e := by
  obtain ⟨w, t, hn, -⟩ := h.exists_node
  exact ⟨h.1, hn ▸ NodeClass.callFree.const w t, by simp [hn, Node.children]⟩

end Context

theorem Build.constant_literal (ctx : Context) (w : Int64) (t : Scalar) :
    Ensures (constant w t) ctx fun r ctx' => ctx'.Literal r w.toInt :=
  Ensures.mono (intern_ensures (K := .all) trivial (by simp [Node.children]) (by simp))
    fun _ _ _ h => Context.literal_of_node h.1.stored h.2

theorem Build.constantLike_literal (ctx : Context) (w : Int64) (like : ExprId) :
    Ensures (constantLike w like) ctx fun r ctx' => ctx'.Literal r w.toInt :=
  Ensures.get (constant_literal ctx w _)

/-- The domain of an extent starts at a literal zero. -/
theorem Domain.ofExtent_fromZero (ctx : Context) (extent : ExprId) :
    Build.Ensures (Domain.ofExtent extent) ctx fun d ctx' =>
      ctx'.Literal d.min 0 ∧ d.extent = extent :=
  (Build.constantLike_literal ctx 0 extent).bind fun _ _ _ hzero => .pure ⟨hzero, rfl⟩

theorem Build.arith_literal {ctx : Context} {a b : ExprId} {x y z : Int} {op : Arith}
    (ha : ctx.Literal a x) (hb : ctx.Literal b y) (hz : op.exact x y = some z)
    (hfits : op.Within Word.Fits x y z) :
    Ensures (arith op a b) ctx fun r ctx' => ctx'.Literal r z := by
  obtain ⟨-, u, hu, rfl⟩ := ha
  obtain ⟨-, v, hv, rfl⟩ := hb
  obtain ⟨w, hw, rfl⟩ := Arith.exists_apply_of_within hz hfits
  refine Ensures.get (Ensures.get ?_)
  have hfold : op.fold (some u) (some v) (a == b) = .literal w := by rw [Arith.fold, hw]
  rw [hu, hv, hfold]
  exact constant_literal ctx w _

namespace Context

variable {ctx ctx' : Context} {op : Arith} {e : ExprId}

/-- A sum or a product of literals that leaves the word. -/
structure Overflows (ctx : Context) (op : Arith) (e : ExprId) : Prop where
  stored : ctx.Stored e
  sumOrProduct : op = .add ∨ op = .mul
  node : ∃ a b x y z, ctx.node e = .arith op a b ∧ ctx.Literal a x ∧ ctx.Literal b y ∧
    op.exact x y = some z ∧ ¬ Word.Fits z

theorem Overflows.mono (hctx : ctx ≤ ctx') (h : ctx.Overflows op e) : ctx'.Overflows op e := by
  obtain ⟨hstored, hop, a, b, x, y, z, hn, ha, hb, hz⟩ := h
  exact ⟨hstored.mono hctx, hop, a, b, x, y, z, (node_eq hctx hstored).trans hn, ha.mono hctx,
    hb.mono hctx, hz⟩

theorem Overflows.restrict (hctx : ctx ≤ ctx') (he : ctx.Stored e) (h : ctx'.Overflows op e) :
    ctx.Overflows op e := by
  obtain ⟨-, hop, a, b, x, y, z, hn, ha, hb, hz⟩ := h
  rw [node_eq hctx he] at hn
  have hchild : ∀ c ∈ [a, b], ctx.Stored c := fun c hc =>
    he.child (by simpa [hn, Node.children] using hc)
  exact ⟨he, hop, a, b, x, y, z, hn, ha.restrict hctx (hchild a (by simp)),
    hb.restrict hctx (hchild b (by simp)), hz⟩

theorem Overflows.stuck (h : ctx.Overflows op e) : ctx.Stuck e := by
  obtain ⟨hstored, -, a, b, x, y, z, hn, -⟩ := h
  exact stuck_of_node hstored hn

end Context

theorem Arith.apply_eq_none {op : Arith} (hop : op = .add ∨ op = .mul) {u v : Int64} {z : Int}
    (hz : op.exact u.toInt v.toInt = some z) (h : ¬ Word.Fits z) : op.apply u v = none := by
  rcases hop with rfl | rfl
  · cases hz
    exact if_neg h
  · cases hz
    exact if_neg h

/-- No unit and no zero leaves the word. -/
theorem Arith.fold_overflow {op : Arith} (hop : op = .add ∨ op = .mul) {u v : Int64} {z : Int}
    (hz : op.exact u.toInt v.toInt = some z) (h : ¬ Word.Fits z) (same : Bool) :
    op.fold (some u) (some v) same = .node := by
  have hfits : ∀ w : Int64, z ≠ w.toInt := fun w hw => h (hw ▸ Word.fits_toInt w)
  rw [fold, apply_eq_none hop hz h]
  rcases hop with rfl | rfl
  · cases hz
    have hv : v ≠ 0 := fun hv => hfits u (by simp [hv])
    have hu : u ≠ 0 := fun hu => hfits v (by simp [hu])
    simp [foldUnit, hu, hv]
  · cases hz
    have hv : v ≠ 0 := fun hv => hfits 0 (by simp [hv])
    have hu : u ≠ 0 := fun hu => hfits 0 (by simp [hu])
    have hv' : v ≠ 1 := fun hv => hfits u (by simp [hv])
    have hu' : u ≠ 1 := fun hu => hfits v (by simp [hu])
    simp [foldUnit, hu, hv, hu', hv']

namespace Build

variable {ctx : Context} {op : Arith} {a b : ExprId} {x y z : Int}

theorem arith_node (ha : ctx.Stored a) (hb : ctx.Stored b)
    (hfold : op.fold (ctx.literal? a) (ctx.literal? b) (a == b) = .node) :
    Ensures (arith op a b) ctx fun r ctx' => ctx'.Stored r ∧ ctx'.node r = .arith op a b := by
  refine Ensures.get (Ensures.get ?_)
  rw [hfold]
  refine Ensures.mono (intern_ensures (K := .all) trivial (fun c hc => Context.over_all ?_)
    (by simp)) fun r ctx' _ h => ⟨h.1.stored, h.2⟩
  rcases List.mem_pair.1 hc with rfl | rfl
  exacts [ha, hb]

theorem arith_overflows (hop : op = .add ∨ op = .mul) (ha : ctx.Literal a x) (hb : ctx.Literal b y)
    (hz : op.exact x y = some z) (h : ¬ Word.Fits z) :
    Ensures (arith op a b) ctx fun r ctx' => ctx'.Overflows op r := by
  obtain ⟨hastored, u, hu, rfl⟩ := ha
  obtain ⟨hbstored, v, hv, rfl⟩ := hb
  refine (arith_node hastored hbstored ?_).mono fun r ctx' hg ⟨hr, hn⟩ =>
    ⟨hr, hop, a, b, _, _, z, hn, Context.Literal.mono hg.le ⟨hastored, u, hu, rfl⟩,
      Context.Literal.mono hg.le ⟨hbstored, v, hv, rfl⟩, hz, h⟩
  rw [hu, hv]
  exact Arith.fold_overflow hop hz h _

theorem compare_literal (op : Comparison) (ha : ctx.Literal a x) (hb : ctx.Literal b y) :
    Ensures (compare op a b) ctx fun r ctx' => ctx'.Literal r (op.exact x y).toInt := by
  obtain ⟨-, u, hu, rfl⟩ := ha
  obtain ⟨-, v, hv, rfl⟩ := hb
  refine Ensures.get ?_
  rw [hu, hv, Comparison.fold]
  dsimp only
  rw [← Comparison.holds_eq_exact, ← toInt_truth]
  exact constant_literal ctx _ _

end Build

/-! ## What an analyzer remembers -/

/-- An answer to what an expression simplifies to: a literal stays that literal, and a sum or a
product that leaves the word stays one. -/
structure Context.Faithful (ctx : Context) (e r : ExprId) : Prop where
  stored : ctx.Stored e
  literal : ∀ z, ctx.Literal e z → ctx.Literal r z
  overflows : ∀ op, ctx.Overflows op e → ctx.Overflows op r

theorem Context.Literal.faithful {ctx : Context} {e r : ExprId} {z : Int} (he : ctx.Literal e z)
    (hr : ctx.Literal r z) : ctx.Faithful e r :=
  ⟨he.1, fun _ hz => he.unique hz ▸ hr, fun _ ho => absurd he ho.stuck.not_literal⟩

namespace Session

/-- The analyzer remembers nothing else of literals than what they are. -/
structure Settled (s : Session) : Prop where
  simplified : ∀ e r, s.analyzer.simplified? e = some r → s.ctx.Faithful e r
  proved : ∀ e answer, s.analyzer.proved? e = some answer →
    s.ctx.Stored e ∧ ∀ z, s.ctx.Literal e z → answer = decide (z ≠ 0)

/-- The analyzer has been asked about literals only. -/
structure Fresh (s : Session) : Prop where
  simplified : ∀ e r, s.analyzer.simplified? e = some r → ∃ z, s.ctx.Literal e z
  bound : ∀ e, s.analyzer.bound? e = none

/-- What asking about literals makes of a session. -/
structure Notes (s s' : Session) : Prop where
  ctx : s'.ctx = s.ctx
  settled : s.Settled → s'.Settled
  fresh : s.Fresh → s'.Fresh
  bound : ∀ e, s'.analyzer.bound? e = s.analyzer.bound? e

variable {s s' s'' : Session} {e r : ExprId} {z : Int}

theorem Notes.refl (s : Session) : s.Notes s := ⟨rfl, id, id, fun _ => rfl⟩

theorem Notes.trans (h : s.Notes s') (h' : s'.Notes s'') : s.Notes s'' :=
  ⟨h'.ctx.trans h.ctx, fun hs => h'.settled (h.settled hs), fun hs => h'.fresh (h.fresh hs),
    fun e => (h'.bound e).trans (h.bound e)⟩

/-- Storing more, and remembering bounds, changes nothing of this. -/
theorem Settled.of_eq (h : s.Settled) (hctx : s.ctx ≤ s'.ctx)
    (hsimplified : ∀ e, s'.analyzer.simplified? e = s.analyzer.simplified? e)
    (hproved : ∀ e, s'.analyzer.proved? e = s.analyzer.proved? e) : s'.Settled := by
  refine ⟨fun e r hr => ?_, fun e answer he => ?_⟩
  · obtain ⟨hstored, hlit, hover⟩ := h.simplified e r (hsimplified e ▸ hr)
    exact ⟨hstored.mono hctx, fun z hz => (hlit z (hz.restrict hctx hstored)).mono hctx,
      fun op ho => (hover op (ho.restrict hctx hstored)).mono hctx⟩
  · obtain ⟨hstored, hlit⟩ := h.proved e answer (hproved e ▸ he)
    exact ⟨hstored.mono hctx, fun z hz => hlit z (hz.restrict hctx hstored)⟩

theorem Settled.mono {ctx ctx' : Context} {an : Analyzer} (h : Settled ⟨ctx, an⟩)
    (hctx : ctx ≤ ctx') : Settled ⟨ctx', an⟩ :=
  h.of_eq hctx (fun _ => rfl) fun _ => rfl

theorem Fresh.mono {ctx ctx' : Context} {an : Analyzer} (h : Fresh ⟨ctx, an⟩)
    (hctx : ctx ≤ ctx') : Fresh ⟨ctx', an⟩ := by
  refine ⟨fun e r hr => ?_, h.bound⟩
  obtain ⟨z, hz⟩ := h.simplified e r hr
  exact ⟨z, hz.mono hctx⟩

theorem settled_of_forgotten {ctx : Context} {an : Analyzer} (hsimplified : an.simplified = {})
    (hproved : an.proved = {}) : Settled ⟨ctx, an⟩ := by
  refine ⟨fun e r hr => ?_, fun e answer he => ?_⟩
  · simp [Analyzer.simplified?, hsimplified] at hr
  · simp [Analyzer.proved?, hproved] at he

theorem fresh_of_forgotten {ctx : Context} {an : Analyzer} (hsimplified : an.simplified = {})
    (hbounds : an.bounds = {}) : Fresh ⟨ctx, an⟩ := by
  refine ⟨fun e r hr => ?_, fun e => ?_⟩
  · simp [Analyzer.simplified?, hsimplified] at hr
  · simp [Analyzer.bound?, hbounds]

/-- Who learns a domain remembers nothing. -/
theorem learn_forgets (s : Session) (v : VarId) (d : Domain) :
    ((Query.learn v d).run s).2.Settled ∧ ((Query.learn v d).run s).2.Fresh :=
  ⟨settled_of_forgotten rfl rfl, fresh_of_forgotten rfl rfl⟩

end Session

namespace Analyzer

variable {an : Analyzer} {e r e' r' : ExprId} {answer answer' : Bool}

theorem simplified?_insert (h : ((if an.memoize then { an with
      simplified := an.simplified.insert e r } else an) : Analyzer).simplified? e' = some r') :
    e' = e ∧ r' = r ∨ an.simplified? e' = some r' := by
  split at h
  · next hm =>
    simp only [simplified?, hm, if_true] at h ⊢
    exact (Handle.getElem?_insert_eq_some.1 h).imp_right And.right
  · exact .inr h

theorem proved?_insert (h : ((if an.memoize then { an with
      proved := an.proved.insert e answer } else an) : Analyzer).proved? e' = some answer') :
    e' = e ∧ answer' = answer ∨ an.proved? e' = some answer' := by
  split at h
  · next hm =>
    simp only [proved?, hm, if_true] at h ⊢
    exact (Handle.getElem?_insert_eq_some.1 h).imp_right And.right
  · exact .inr h

end Analyzer

namespace Query

section

variable {α β : Type} {q : Query α} {f : α → Query β} {s : Session} {Q R : α → Session → Prop}
  {S : β → Session → Prop}

/-- The answer of the query and the session that it leaves satisfy `Q`. -/
def Leads (q : Query α) (s : Session) (Q : α → Session → Prop) : Prop := Q (q.run s).1 (q.run s).2

theorem Leads.pure {x : α} (h : Q x s) : Leads (pure x : Query α) s Q := h

theorem Leads.mono (h : Leads q s Q) (hQ : ∀ x s', Q x s' → R x s') : Leads q s R := hQ _ _ h

theorem Leads.bind (hq : Leads q s Q) (hf : ∀ x s', Q x s' → Leads (f x) s' S) :
    Leads (q >>= f) s S := hf _ _ hq

theorem Leads.build {b : Build α} {P : α → Context → Prop} (h : Build.Ensures b s.ctx P)
    (hf : ∀ x ctx, s.ctx.Grows ctx → P x ctx → Leads (f x) ⟨ctx, s.analyzer⟩ S) :
    Leads ((liftM b : Query α) >>= f) s S := hf _ _ h.1 h.2

theorem Leads.ofBuild {b : Build α} {P : α → Context → Prop} (h : Build.Ensures b s.ctx P) :
    Leads (liftM b : Query α) s fun x s' =>
      s'.analyzer = s.analyzer ∧ s.ctx.Grows s'.ctx ∧ P x s'.ctx := ⟨rfl, h⟩

theorem Leads.context {f : Context → Query β} (h : Leads (f s.ctx) s S) :
    Leads (Query.context >>= f) s S := h

theorem Leads.analyzer {f : Analyzer → Query β} (h : Leads (f s.analyzer) s S) :
    Leads (Query.analyzer >>= f) s S := h

end

variable {s : Session} {e r : ExprId} {z : Int}

theorem recordSimplified_settled (hs : s.Settled) (h : s.ctx.Faithful e r) :
    Leads (recordSimplified e r) s fun _ s' => s'.ctx = s.ctx ∧ s'.Settled ∧
      ∀ e', s'.analyzer.bound? e' = s.analyzer.bound? e' := by
  obtain ⟨ctx, an⟩ := s
  refine ⟨rfl, ⟨fun e' r' hr => ?_, fun e' answer he => hs.proved e' answer (he.symm ▸ ?_)⟩,
    fun e' => ?_⟩
  · rcases Analyzer.simplified?_insert hr with ⟨rfl, rfl⟩ | hr
    exacts [h, hs.simplified e' r' hr]
  · change _ = Analyzer.proved? (if an.memoize then _ else an) e'
    split <;> rfl
  · change Analyzer.bound? (if an.memoize then _ else an) e' = _
    split <;> rfl

theorem recordSimplified_notes (he : s.ctx.Literal e z) (hr : s.ctx.Literal r z) :
    Leads (recordSimplified e r) s fun _ s' => s.Notes s' := by
  obtain ⟨ctx, an⟩ := s
  have hbound : ∀ e', Analyzer.bound? (if an.memoize then
      { an with simplified := an.simplified.insert e r } else an) e' = an.bound? e' := by
    intro e'
    split <;> rfl
  refine ⟨rfl, fun hs => (recordSimplified_settled hs (Context.Literal.faithful he hr)).2.1,
    fun hs => ⟨fun e' r' hr' => ?_, fun e' => (hbound e').trans (hs.bound e')⟩, hbound⟩
  rcases Analyzer.simplified?_insert hr' with ⟨rfl, -⟩ | hr'
  exacts [⟨z, he⟩, hs.simplified e' r' hr']

theorem recordProved_settled {answer : Bool} (hs : s.Settled) (he : s.ctx.Stored e)
    (h : ∀ z, s.ctx.Literal e z → answer = decide (z ≠ 0)) :
    Leads (recordProved e answer) s fun _ s' => s'.ctx = s.ctx ∧ s'.Settled ∧
      (∀ e', s'.analyzer.simplified? e' = s.analyzer.simplified? e') ∧
      ∀ e', s'.analyzer.bound? e' = s.analyzer.bound? e' := by
  obtain ⟨ctx, an⟩ := s
  have hsimplified : ∀ e', Analyzer.simplified? (if an.memoize then
      { an with proved := an.proved.insert e answer } else an) e' = an.simplified? e' := by
    intro e'
    split <;> rfl
  refine ⟨rfl, ⟨fun e' r hr => hs.simplified e' r ((hsimplified e').symm.trans hr),
    fun e' answer' he' => ?_⟩, hsimplified, fun e' => ?_⟩
  · rcases Analyzer.proved?_insert he' with ⟨rfl, rfl⟩ | he'
    exacts [⟨he, h⟩, hs.proved e' answer' he']
  · change Analyzer.bound? (if an.memoize then _ else an) e' = _
    split <;> rfl

theorem recordProved_notes {answer : Bool} (hs : s.Settled) (he : s.ctx.Literal e z)
    (h : answer = decide (z ≠ 0)) :
    Leads (recordProved e answer) s fun _ s' => s.Notes s' := by
  refine (recordProved_settled hs he.1 fun y hy => he.unique hy ▸ h).mono
    fun _ s' ⟨hctx, hset, hsimplified, hbound⟩ => ?_
  refine ⟨hctx, fun _ => hset, fun hf => ⟨fun e' r hr => ?_, fun e' => ?_⟩, hbound⟩
  · rw [hctx]
    exact hf.simplified e' r ((hsimplified e').symm.trans hr)
  · exact (hbound e').trans (hf.bound e')

/-- A literal simplifies to itself, or to a literal of another type. -/
theorem simplify_literal (hs : s.Settled) (he : s.ctx.Literal e z) :
    Leads (simplify e) s fun r s' => s.ctx.Literal r z ∧ s.Notes s' := by
  rw [simplify]
  refine .analyzer ?_
  split
  · next r hr => exact .pure ⟨(hs.simplified e r hr).literal z he, .refl s⟩
  obtain ⟨w, t, hn, hw⟩ := he.exists_node
  refine .context ?_
  dsimp only
  split
  case h_1 => exact (recordSimplified_notes he he).bind fun _ s' hs' => .pure ⟨he, hs'⟩
  all_goals simp_all

theorem provesWithin_literal (rounds : Nat) (hs : s.Settled) (he : s.ctx.Literal e z) :
    Leads (provesWithin (rounds + 1) e) s fun answer s' =>
      answer = decide (z ≠ 0) ∧ s.Notes s' := by
  refine .analyzer ?_
  split
  · next answer hanswer => exact .pure ⟨(hs.proved e answer hanswer).2 z he, .refl s⟩
  refine (simplify_literal hs he).bind fun r s₁ ⟨hr, hs₁⟩ => ?_
  obtain ⟨w, t, hn, rfl⟩ := hr.exists_node
  have hanswer : decide (w ≠ 0) = decide (w.toInt ≠ 0) := by simp [Word.toInt_eq_zero_iff]
  rw [← hs₁.ctx] at hn he
  refine .context ?_
  rw [hn]
  exact (recordProved_notes (hs₁.settled hs) he hanswer).bind
    fun _ s₂ hs₂ => .pure ⟨hanswer, hs₁.trans hs₂⟩

theorem proves_literal (hs : s.Settled) (he : s.ctx.Literal e z) :
    Leads (proves e) s fun answer s' => answer = decide (z ≠ 0) ∧ s.Notes s' :=
  provesWithin_literal _ hs he

end Query

end LoopBounds
