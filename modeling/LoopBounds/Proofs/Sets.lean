import LoopBounds.Inference.Sets
import LoopBounds.Proofs.Points
import LoopBounds.Proofs.Sweep
import LoopBounds.Proofs.ValueSet

/-!
# Soundness of axis sets

At a point that lies in the known domains and satisfies the relations of a nest, the sets that go
up a relation hold the axes that it consumes whenever they hold those that it makes.
-/

namespace LoopBounds

/-- The ends of all domains in a table are stored. -/
def Context.StoredDomains (ctx : Context) (known : Facts .axis Domain) : Prop :=
  ∀ (a : AxisId) (d : Domain), known[a]? = some d → ctx.StoredDomain d

theorem Context.StoredDomains.mono {ctx ctx' : Context} {known : Facts .axis Domain}
    (hctx : ctx ≤ ctx') (h : ctx.StoredDomains known) : ctx'.StoredDomains known :=
  fun a d hd => (h a d hd).mono hctx

namespace Valuation

variable {ν : Valuation}

/-- The only value at the only valuation. -/
def Only (ν : Valuation) (z : Int) : Valuation → Int → Prop := fun μ w => μ = ν ∧ w = z

theorem admits_of_only {known : Env Domain} {z : Int} (h : ν.Admits known) :
    ∀ μ y, ν.Only z μ y → μ.Admits known := by
  rintro _ _ ⟨rfl, -⟩
  exact h

/-- The axes are at a point of the box that their domains span. -/
structure Places (ν : Valuation) (axes : List AxisId) (known : Facts .axis Domain) (b : Box)
    (x : AxisId → Int) : Prop where
  env : ∀ a ∈ axes, ν.env (ν.ctx.axisVar a) = some (x a)
  domain : ∀ a ∈ axes, ∀ d, known[a]? = some d → ν.value d.min = some (b.min a) ∧
    ν.value d.extent = some (b.extent a) ∧ b.Contains x a

theorem Places.inDomain {ν : Valuation} {axes : List AxisId} {known : Facts .axis Domain} {b : Box}
    {x : AxisId → Int} (h : ν.Places axes known b x) {a : AxisId} (ha : a ∈ axes) {d : Domain}
    (hd : known[a]? = some d) : ν.InDomain d (x a) := by
  obtain ⟨hmin, hextent, hcontains⟩ := h.domain a ha d hd
  exact ⟨_, _, hmin, hextent, hcontains.1, hcontains.2⟩

end Valuation

theorem Context.Denotes.of_le {ctx : Context} {K : NodeClass} {e : ExprId} {ν ν' : Valuation}
    {z : Int} (hle : ν ≤ ν') (h : ctx.Denotes K e (ν.Only z)) : ctx.Denotes K e (ν'.Only z) := by
  refine ⟨h.nodes, ?_⟩
  rintro _ hctx _ ⟨rfl, rfl⟩
  exact Valuation.value_mono hle (h.value ν (hle.ctx ▸ hctx) _ ⟨rfl, rfl⟩)

namespace Sweep

variable {s : Session} {t : SetTable} {ν : Valuation} {axes : List AxisId}
  {known : Facts .axis Domain} {b : Box} {x : AxisId → Int}

theorem domains_eq_of_frame {s s' : Session}
    (h : ∀ v ∉ (∅ : Set VarId), s'.domains v = s.domains v) :
    s'.domains = s.domains :=
  funext fun v => h v (Set.notMem_empty v)

theorem ofDomain_only {d : Domain} {z : Int} (hs : s.Valid) (hd : s.ctx.StoredDomain d)
    (hz : ν.InDomain d z) :
    Ensures ∅ (liftM (ValueSet.ofDomain d) : Sweep SetTable ValueSet) t s fun r t' s' =>
      t' = t ∧ s'.ctx.Encloses r (ν.Only z) := by
  refine (Ensures.ofQuery (.lift hs (ValueSet.ofDomain_encloses hd))).mono fun r t' s' _ _ _ h => ?_
  refine ⟨h.1, h.2.2.of_imp ?_⟩
  rintro _ - _ ⟨rfl, rfl⟩
  exact hz

theorem axis_only {a : AxisId} (hplaces : ν.Places axes known b x) (ha : a ∈ axes)
    (hreg : a.index < s.ctx.axes.size) :
    Build.Ensures (Build.axis a) s.ctx fun r ctx => ctx.Denotes .all r (ν.Only (x a)) := by
  refine (Build.axis_denotes s.ctx trivial).mono fun r ctx hg hr => hr.of_imp ?_
  rintro _ hν _ ⟨rfl, rfl⟩
  rw [← Context.axisVar_eq (hg.le.trans hν) hreg]
  exact hplaces.env a ha

/-- The values of an index of which the variables are at the point. -/
theorem valuesOf_only {sets : Env ValueSet} {index : ExprId} {z : Int} (hs : s.Valid)
    (hadmits : ν.Admits s.domains) (hindex : s.ctx.Denotes .all index (ν.Only z))
    (hsets : ∀ v set, sets v = some set →
      ∃ y, s.ctx.Encloses set (ν.Only y) ∧ (s.ctx ≤ ν.ctx → ν.env v = some y)) :
    Ensures ∅ (liftM (Query.valuesOf sets index) : Sweep SetTable ValueSet) t s fun r t' s' =>
      t' = t ∧ s'.ctx.Encloses r (ν.Only z) := by
  refine (Ensures.ofQuery (Query.valued sets index s hs hindex.stored fun v set hset => ?_)).mono
    fun r t' s' hs' hg _ h => ⟨h.1, h.2.2.of_imp ?_⟩
  · obtain ⟨y, hy, -⟩ := hsets v set hset
    exact hy.storedSet
  · rintro _ hν _ ⟨rfl, rfl⟩
    have hctx := hg.le.trans hν
    refine ⟨hadmits, fun v set y hset hy => ?_, hindex.value _ hctx _ ⟨rfl, rfl⟩⟩
    obtain ⟨y', hencloses, hy'⟩ := hsets v set hset
    cases hy.symm.trans (hy' hctx)
    exact hencloses.holds hctx ⟨rfl, rfl⟩

/-- The set of the index of a parent over the sets of its parts. -/
theorem splitIndex_ensures {outer inner : AxisId} {outerSet innerSet : ValueSet} {d e : Domain}
    {z : Int} (hs : s.Valid) (hd : s.ctx.StoredDomain d) (he : s.ctx.StoredDomain e)
    (hreg : ∀ a ∈ axes, a.index < s.ctx.axes.size) (hadmits : ν.Admits s.domains)
    (hplaces : ν.Places axes known b x) (ho : outer ∈ axes) (hi : inner ∈ axes)
    (hz : ∃ m n, ν.value d.min = some m ∧ ν.value e.extent = some n ∧
      x outer * n + x inner + m = z)
    (houter : s.ctx.Encloses outerSet (ν.Only (x outer)))
    (hinner : s.ctx.Encloses innerSet (ν.Only (x inner))) :
    Ensures ∅ (do
      let outerVar ← Build.axis outer
      let innerVar ← Build.axis inner
      let index ← Build.add (← Build.mul outerVar e.extent) innerVar
      let index ← Build.offset index d.min
      let ctx ← Query.context
      let sets := (Env.empty.set (ctx.axisVar outer) outerSet).set (ctx.axisVar inner) innerSet
      Query.valuesOf sets index : Sweep SetTable ValueSet) t s fun r t' s' =>
        t' = t ∧ s'.ctx.Encloses r (ν.Only z) := by
  obtain ⟨m, n, hm, hn, rfl⟩ := hz
  refine .build hs (axis_only hplaces ho (hreg outer ho)) fun o s₁ hs₁ hg₁ hd₁ ho' => ?_
  have hreg₁ : inner.index < s₁.ctx.axes.size := hg₁.axes ▸ hreg inner hi
  refine .build hs₁ (axis_only hplaces hi hreg₁) fun i s₂ hs₂ hg₂ hd₂ hi' => ?_
  have hle₂ := (hg₁.trans hg₂).le
  refine .build hs₂ (Build.mul_denotes (ho'.nodes.mono hg₂.le)
    (Context.over_all (he.2.mono hle₂))) fun p s₃ hs₃ hg₃ hd₃ hp => ?_
  refine .build hs₃ (Build.add_denotes hp.nodes (hi'.nodes.mono hg₃.le))
    fun q s₄ hs₄ hg₄ hd₄ hq => ?_
  refine .build hs₄ (Build.offset_denotes hq.nodes (Context.over_all (hd.1.mono
    (hle₂.trans (hg₃.trans hg₄).le)))) fun index s₅ hs₅ hg₅ hd₅ hindex => ?_
  refine .context ?_
  have hg := hg₁.trans (hg₂.trans (hg₃.trans (hg₄.trans hg₅)))
  have hdom : s₅.domains = s.domains := by rw [hd₅, hd₄, hd₃, hd₂, hd₁]
  refine valuesOf_only hs₅ (hdom ▸ hadmits) (hindex.of_imp ?_) ?_
  · rintro _ hν _ ⟨rfl, rfl⟩
    have hν₄ := hg₅.le.trans hν
    have hν₃ := hg₄.le.trans hν₄
    have hν₂ := hg₃.le.trans hν₃
    have hprod := hp.value _ hν₃ _ ⟨_, _, ho'.value _ (hg₂.le.trans hν₂) _ ⟨rfl, rfl⟩, hn, rfl⟩
    have hsum := hq.value _ hν₄ _ ⟨_, _, hprod, hi'.value _ hν₂ _ ⟨rfl, rfl⟩, rfl⟩
    exact ⟨_, _, hsum, hm, rfl⟩
  · intro v set hset
    have henv : ∀ a ∈ axes, s₅.ctx ≤ ν.ctx → ν.env (s₅.ctx.axisVar a) = some (x a) := by
      intro a ha hν
      rw [← Context.axisVar_eq hν (hg.axes ▸ hreg a ha)]
      exact hplaces.env a ha
    by_cases hv : v = s₅.ctx.axisVar inner
    · subst hv
      rw [Env.set_self, Option.some_inj] at hset
      exact ⟨_, hset ▸ hinner.mono hg.le, henv inner hi⟩
    · rw [Env.set_of_ne _ _ hv] at hset
      by_cases hv' : v = s₅.ctx.axisVar outer
      · subst hv'
        rw [Env.set_self, Option.some_inj] at hset
        exact ⟨_, hset ▸ houter.mono hg.le, henv outer ho⟩
      · rw [Env.set_of_ne _ _ hv'] at hset
        cases hset

theorem splitSets_ensures {parent outer inner : AxisId} {outerSet innerSet : ValueSet}
    (hs : s.Valid) (hknown : s.ctx.StoredDomains known)
    (hreg : ∀ a ∈ axes, a.index < s.ctx.axes.size) (hadmits : ν.Admits s.domains)
    (hplaces : ν.Places axes known b x) (hp : parent ∈ axes) (ho : outer ∈ axes)
    (hi : inner ∈ axes)
    (heq : x parent - b.min parent = x outer * b.extent inner + x inner)
    (houter : s.ctx.Encloses outerSet (ν.Only (x outer)))
    (hinner : s.ctx.Encloses innerSet (ν.Only (x inner))) :
    Ensures ∅ (splitSets known parent outer inner outerSet innerSet) t s fun r t' s' =>
      t' = t ∧ s'.ctx.Encloses r (ν.Only (x parent)) := by
  unfold splitSets domainFor
  refine .fetch hs fun parentDomain hparentDomain => ?_
  refine .fetch hs fun outerDomain houterDomain => ?_
  refine .fetch hs fun innerDomain hinnerDomain => ?_
  have hpd := hknown parent parentDomain hparentDomain
  have hid := hknown inner innerDomain hinnerDomain
  obtain ⟨hm, -, -⟩ := hplaces.domain parent hp parentDomain hparentDomain
  obtain ⟨-, hn, -⟩ := hplaces.domain inner hi innerDomain hinnerDomain
  have hrest : ∀ (whole : Bool) s', s'.Valid → s.ctx.Grows s'.ctx → s'.domains = s.domains →
      Ensures ∅ (if whole = true then (ValueSet.ofDomain parentDomain : Sweep SetTable ValueSet)
        else do
          let outerVar ← Build.axis outer
          let innerVar ← Build.axis inner
          let index ← Build.add (← Build.mul outerVar innerDomain.extent) innerVar
          let index ← Build.offset index parentDomain.min
          let ctx ← Query.context
          let sets := (Env.empty.set (ctx.axisVar outer) outerSet).set (ctx.axisVar inner) innerSet
          Query.valuesOf sets index) t s' fun r t' s' =>
            t' = t ∧ s'.ctx.Encloses r (ν.Only (x parent)) := by
    intro whole s' hs' hg hd
    split
    · exact ofDomain_only hs' (hpd.mono hg.le) (hplaces.inDomain hp hparentDomain)
    · refine splitIndex_ensures hs' (hpd.mono hg.le) (hid.mono hg.le) (hg.axes ▸ hreg)
        (hd ▸ hadmits) hplaces ho hi ⟨_, _, hm, hn, ?_⟩ (houter.mono hg.le) (hinner.mono hg.le)
      omega
  refine .query (ValueSet.coversExactly_ensures hs houter.storedSet
    (hknown outer outerDomain houterDomain)) fun wholeOuter s₁ hs₁ hg₁ hd₁ _ => ?_
  split
  · refine .query (ValueSet.coversExactly_ensures hs₁ (hinner.mono hg₁.le).storedSet
      (hid.mono hg₁.le)) fun wholeInner s₂ hs₂ hg₂ hd₂ _ => ?_
    exact hrest wholeInner s₂ hs₂ (hg₁.trans hg₂) (hd₂.trans hd₁)
  · rw [pure_bind]
    exact hrest false s₁ hs₁ hg₁ hd₁

theorem rebaseSets_ensures {parent rebased : AxisId} {rebasedSet : ValueSet} (hs : s.Valid)
    (hknown : s.ctx.StoredDomains known) (hreg : ∀ a ∈ axes, a.index < s.ctx.axes.size)
    (hadmits : ν.Admits s.domains) (hplaces : ν.Places axes known b x) (hp : parent ∈ axes)
    (hr : rebased ∈ axes) (heq : x parent = x rebased + b.min parent)
    (hrebased : s.ctx.Encloses rebasedSet (ν.Only (x rebased))) :
    Ensures ∅ (rebaseSets known parent rebased rebasedSet) t s fun r t' s' =>
      t' = t ∧ s'.ctx.Encloses r (ν.Only (x parent)) := by
  unfold rebaseSets domainFor
  refine .fetch hs fun parentDomain hparentDomain => ?_
  refine .fetch hs fun rebasedDomain hrebasedDomain => ?_
  have hpd := hknown parent parentDomain hparentDomain
  obtain ⟨hm, -, -⟩ := hplaces.domain parent hp parentDomain hparentDomain
  refine .query (ValueSet.coversExactly_ensures hs hrebased.storedSet
    (hknown rebased rebasedDomain hrebasedDomain)) fun whole s₁ hs₁ hg₁ hd₁ _ => ?_
  split
  · exact ofDomain_only hs₁ (hpd.mono hg₁.le) (hplaces.inDomain hp hparentDomain)
  have hreg₁ : rebased.index < s₁.ctx.axes.size := hg₁.axes ▸ hreg rebased hr
  refine .build hs₁ (axis_only hplaces hr hreg₁) fun v s₂ hs₂ hg₂ hd₂ hv => ?_
  refine .build hs₂ (Build.offset_denotes hv.nodes (Context.over_all (hpd.1.mono
    (hg₁.trans hg₂).le))) fun index s₃ hs₃ hg₃ hd₃ hindex => ?_
  refine .context ?_
  have hg := hg₁.trans (hg₂.trans hg₃)
  refine valuesOf_only hs₃ (hd₃ ▸ hd₂ ▸ hd₁ ▸ hadmits) (hindex.of_imp ?_) fun w set hset => ?_
  · rintro _ hν _ ⟨rfl, rfl⟩
    exact ⟨_, _, hv.value _ (hg₃.le.trans hν) _ ⟨rfl, rfl⟩, hm, heq.symm⟩
  · by_cases hw : w = s₃.ctx.axisVar rebased
    · subst hw
      rw [Env.set_self, Option.some_inj] at hset
      refine ⟨_, hset ▸ hrebased.mono hg.le, fun hν => ?_⟩
      rw [← Context.axisVar_eq hν (hg.axes ▸ hreg rebased hr)]
      exact hplaces.env rebased hr
    · rw [Env.set_of_ne _ _ hw] at hset
      cases hset

/-! ## Fused sets -/

/-- A divisor that is shown to divide a value does so. -/
theorem divides_ensures {divisor value : ExprId} (hs : s.Valid) (hadmits : ν.Admits s.domains)
    (hdivisor : s.ctx.Stored divisor) (hvalue : s.ctx.Stored value) :
    Ensures ∅ (divides divisor value : Sweep SetTable Bool) t s fun answer t' s' => t' = t ∧
      (answer = true → s'.ctx ≤ ν.ctx → ∀ n d, ν.value value = some n →
        ν.value divisor = some d → d ≠ 0 → n.fmod d = 0) := by
  refine .attempt hs (Attempt.divide_denotes .floorMod (Context.over_all hvalue)
    (Context.over_all hdivisor)) fun q s₁ hs₁ hg₁ hd₁ hq => ?_
  refine .query (Query.simplified q s₁ hs₁ hq.stored) fun rest s₂ hs₂ hg₂ hd₂ hrest => ?_
  refine .context (.pure hs₂ ⟨rfl, fun hzero hν n d hn hd hd0 => ?_⟩)
  have hmod := hq.value ν (hg₂.le.trans hν) _ ⟨n, d, hn, hd, if_neg hd0⟩
  have hvalue := hrest.value_eq hν (hd₁ ▸ hadmits) hmod
  rw [Build.value_of_literal? hν hrest.result_stored (of_decide_eq_true hzero)] at hvalue
  exact (Option.some_inj.1 hvalue).symm

theorem dividesBoth_ensures {divisor y z : ExprId} (hs : s.Valid) (hadmits : ν.Admits s.domains)
    (hdivisor : s.ctx.Stored divisor) (hy : s.ctx.Stored y) (hz : s.ctx.Stored z) :
    Ensures ∅ (dividesBoth divisor y z : Sweep SetTable Bool) t s fun answer t' s' => t' = t ∧
      (answer = true → s'.ctx ≤ ν.ctx → ∀ m n d, ν.value y = some m → ν.value z = some n →
        ν.value divisor = some d → d ≠ 0 → m.fmod d = 0 ∧ n.fmod d = 0) := by
  refine (divides_ensures hs hadmits hdivisor hy).bind ?_
  rintro first t₁ s₁ hs₁ hg₁ hd₁ ⟨rfl, hfirst⟩
  have hdom₁ := domains_eq_of_frame hd₁
  split
  · next hyes =>
    refine (divides_ensures hs₁ (hdom₁ ▸ hadmits) (hdivisor.mono hg₁.le) (hz.mono hg₁.le)).mono ?_
    rintro second t₂ s₂ hs₂ hg₂ hd₂ ⟨rfl, hsecond⟩
    refine ⟨rfl, fun hyes' hν m n d hm hn hd hd0 => ?_⟩
    exact ⟨hfirst hyes (hg₂.le.trans hν) m d hm hd hd0, hsecond hyes' hν n d hn hd hd0⟩
  · exact .pure hs₁ ⟨rfl, nofun⟩

/-- Quotients and remainders, counted from the least point of a domain. -/
theorem offsetIndex_ensures (op : Arith) {d : Domain} {factor value : ExprId} (hs : s.Valid)
    (hd : s.ctx.StoredDomain d) (hfactor : s.ctx.Stored factor) (hvalue : s.ctx.Stored value) :
    Ensures ∅ (do Build.offset (← Attempt.divide op value factor) d.min : Sweep SetTable ExprId)
      t s fun r t' s' => t' = t ∧ s'.domains = s.domains ∧ s'.ctx.Denotes .all r fun μ z =>
        ∃ a b m q, μ.value value = some a ∧ μ.value factor = some b ∧ μ.value d.min = some m ∧
          op.exact a b = some q ∧ q + m = z := by
  refine .attempt hs (Attempt.divide_denotes op (Context.over_all hvalue)
    (Context.over_all hfactor)) fun q s₁ hs₁ hg₁ hd₁ hq => ?_
  refine (Ensures.ofQuery (.lift hs₁ (Build.offset_denotes hq.nodes
    (Context.over_all (hd.1.mono hg₁.le))))).mono ?_
  rintro r t₂ s₂ - hg₂ - ⟨rfl, hd₂, hr⟩
  refine ⟨rfl, hd₂.trans hd₁, hr.of_imp ?_⟩
  rintro μ hμ _ ⟨a, b, m, q', ha, hb, hm, hq', rfl⟩
  exact ⟨q', m, hq.value μ (hg₂.le.trans hμ) q' ⟨a, b, ha, hb, hq'⟩, hm, rfl⟩

/-- An interval of which the length divides a row and the start lies in one row. -/
theorem fdiv_eq_of_aligned {lo hi n : Int} (hn : 0 < n) (hle : lo ≤ hi)
    (hrow : n.fmod (hi - lo + 1) = 0) (hstart : lo.fmod (hi - lo + 1) = 0) :
    lo.fdiv n = hi.fdiv n := by
  obtain ⟨rows, hrows⟩ := Int.dvd_of_fmod_eq_zero hrow
  obtain ⟨start, hstart⟩ := Int.dvd_of_fmod_eq_zero hstart
  rw [mul_comm] at hstart
  have hspan : 0 < hi - lo + 1 := by omega
  have hlo : lo / (hi - lo + 1) = start := by
    rw [Int.ediv_eq_iff_of_pos hspan]
    omega
  have hhi : hi / (hi - lo + 1) = start := by
    rw [Int.ediv_eq_iff_of_pos hspan]
    omega
  rw [Int.fdiv_eq_ediv_of_nonneg _ hn.le, Int.fdiv_eq_ediv_of_nonneg _ hn.le, hrows,
    ← Int.ediv_ediv_of_nonneg hspan.le, ← Int.ediv_ediv_of_nonneg hspan.le, hlo, hhi]

/-- The set between the parts of two ends, where these lie on both sides of `z`. -/
theorem offsetIndices_ensures (op : Arith) {α : Type} {f : ValueSet → Sweep SetTable α} {d : Domain}
    {factor lo hi : ExprId} {m n z : Int} {S : α → SetTable → Session → Prop} (hs : s.Valid)
    (hadmits : ν.Admits s.domains) (hd : s.ctx.StoredDomain d) (hfactor : s.ctx.Stored factor)
    (hlo : s.ctx.Stored lo) (hhi : s.ctx.Stored hi) (hm : ν.value d.min = some m)
    (hn : ν.value factor = some n)
    (hends : s.ctx ≤ ν.ctx → ∃ l h p q, ν.value lo = some l ∧ ν.value hi = some h ∧
      op.exact l n = some p ∧ op.exact h n = some q ∧ p + m ≤ z ∧ z ≤ q + m)
    (hf : ∀ r s', s'.Valid → s.ctx.Grows s'.ctx → s'.domains = s.domains →
      s'.ctx.Encloses r (ν.Only z) → Ensures ∅ (f r) t s' S) :
    Ensures ∅ (do
      let first ← (do Build.offset (← Attempt.divide op lo factor) d.min : Sweep SetTable ExprId)
      let last ← (do Build.offset (← Attempt.divide op hi factor) d.min : Sweep SetTable ExprId)
      let first ← Query.simplify first
      let last ← Query.simplify last
      f (.between first last) : Sweep SetTable α) t s S := by
  refine (offsetIndex_ensures op hs hd hfactor hlo).bind ?_
  rintro first _ s₁ hs₁ hg₁ - ⟨rfl, hd₁, hfirst⟩
  refine (offsetIndex_ensures op hs₁ (hd.mono hg₁.le) (hfactor.mono hg₁.le)
    (hhi.mono hg₁.le)).bind ?_
  rintro last _ s₂ hs₂ hg₂ - ⟨rfl, hd₂, hlast⟩
  have hdom : s₂.domains = s.domains := hd₂.trans hd₁
  have hle₂ := (hg₁.trans hg₂).le
  have hlower : s₂.ctx.Delimits (· ≤ ·) (some first) (ν.Only z) := by
    refine Context.delimits_of_value (hfirst.mono hg₂.le) ?_
    rintro _ hν _ ⟨rfl, rfl⟩
    obtain ⟨l, h, p, q, hl, -, hp, -, hlow, -⟩ := hends (hle₂.trans hν)
    exact ⟨_, ⟨l, n, m, p, hl, hn, hm, hp, rfl⟩, hlow⟩
  have hupper : s₂.ctx.Delimits (· ≥ ·) (some last) (ν.Only z) := by
    refine Context.delimits_of_value hlast ?_
    rintro _ hν _ ⟨rfl, rfl⟩
    obtain ⟨l, h, p, q, -, hh, -, hq, -, hhigh⟩ := hends (hle₂.trans hν)
    exact ⟨_, ⟨h, n, m, q, hh, hn, hm, hq, rfl⟩, hhigh⟩
  refine .query (ValueSet.simplify_delimits hs₂ hlower (hdom ▸ Valuation.admits_of_only hadmits))
    fun first' s₃ hs₃ hg₃ hd₃ hfirst' => ?_
  refine .query (ValueSet.simplify_delimits hs₃ (hupper.mono hg₃.le)
    (hd₃ ▸ hdom ▸ Valuation.admits_of_only hadmits)) fun last' s₄ hs₄ hg₄ hd₄ hlast' => ?_
  refine hf _ s₄ hs₄ ((hg₁.trans hg₂).trans (hg₃.trans hg₄)) ?_ ⟨hfirst'.mono hg₄.le, hlast'⟩
  rw [hd₄, hd₃, hdom]

/-- The number of values between two ends. -/
theorem span_ensures {α : Type} {f : ExprId → Sweep SetTable α} {lo hi : ExprId}
    {S : α → SetTable → Session → Prop} (hs : s.Valid) (hadmits : ν.Admits s.domains)
    (hlo : s.ctx.Stored lo) (hhi : s.ctx.Stored hi)
    (hf : ∀ span s', s'.Valid → s.ctx.Grows s'.ctx → s'.domains = s.domains →
      s'.ctx.Stored span → (s'.ctx ≤ ν.ctx → ∀ l h, ν.value lo = some l → ν.value hi = some h →
        ν.value span = some (h - l + 1)) → Ensures ∅ (f span) t s' S) :
    Ensures ∅ (do
      let span ← Query.simplify (← Build.addConst (← Build.sub hi lo) 1)
      f span : Sweep SetTable α) t s S := by
  refine .build hs (Build.sub_denotes (Context.over_all hhi) (Context.over_all hlo))
    fun diff s₁ hs₁ hg₁ hd₁ hdiff => ?_
  refine .build hs₁ (Build.addConst_denotes 1 hdiff.nodes) fun length s₂ hs₂ hg₂ hd₂ hlength => ?_
  refine .query (Query.simplified length s₂ hs₂ hlength.stored)
    fun span s₃ hs₃ hg₃ hd₃ hspan => ?_
  have hdom₂ : s₂.domains = s.domains := hd₂.trans hd₁
  refine hf span s₃ hs₃ (hg₁.trans (hg₂.trans hg₃)) (hd₃.trans hdom₂) hspan.result_stored ?_
  intro hν l h hl hh
  have hsub := hdiff.value ν ((hg₂.trans hg₃).le.trans hν) _ ⟨h, l, hh, hl, rfl⟩
  have hadd := hlength.value ν (hg₃.le.trans hν) _ ⟨_, hsub, rfl⟩
  exact hspan.value_eq hν (hdom₂ ▸ hadmits) hadd

/-- The inner part of a fused value that lies between two ends. -/
theorem fusedInnerSet_ensures {d : Domain} {lo hi : ExprId} {fusedName : String} {m n w z : Int}
    (hs : s.Valid) (hadmits : ν.Admits s.domains) (hd : s.ctx.StoredDomain d)
    (hm : ν.value d.min = some m) (hn : ν.value d.extent = some n) (hpos : 0 < n)
    (hz : ν.InDomain d z) (hrest : w.fmod n + m = z)
    (hlo : s.ctx.Delimits (· ≤ ·) (some lo) (ν.Only w))
    (hhi : s.ctx.Delimits (· ≥ ·) (some hi) (ν.Only w)) :
    Ensures ∅ (fusedInnerSet fusedName d lo hi) t s fun r t' s' =>
      t'.sets = t.sets ∧ s'.ctx.Encloses r (ν.Only z) := by
  obtain ⟨hlo, hlow⟩ := hlo lo rfl
  obtain ⟨hhi, hhiw⟩ := hhi hi rfl
  refine span_ensures hs hadmits hlo hhi fun span s₁ hs₁ hg₁ hd₁ hstored hspan => ?_
  refine (dividesBoth_ensures hs₁ (hd₁ ▸ hadmits) hstored (hd.2.mono hg₁.le)
    (hlo.mono hg₁.le)).bind ?_
  rintro aligned t₂ s₂ hs₂ hg₂ hd₂ ⟨rfl, haligned⟩
  have hadmits₂ : ν.Admits s₂.domains := (domains_eq_of_frame hd₂).trans hd₁ ▸ hadmits
  have hle := (hg₁.trans hg₂).le
  have hd' := hd.mono hle
  split
  · next hyes =>
    refine offsetIndices_ensures .floorMod (f := pure) hs₂ hadmits₂ hd' hd'.2
      (hlo.mono hle) (hhi.mono hle) hm hn (fun hν => ?_)
      fun r s' hs' _ _ hr => .pure hs' ⟨rfl, hr⟩
    -- Both ends lie in the row of the value.
    obtain ⟨l, hl, hlw : l ≤ w⟩ := hlow ν (hle.trans hν) w ⟨rfl, rfl⟩
    obtain ⟨h, hh, hwh : w ≤ h⟩ := hhiw ν (hle.trans hν) w ⟨rfl, rfl⟩
    obtain ⟨hrow, hstart⟩ := haligned hyes hν n l _ hn hl (hspan (hg₂.le.trans hν) l h hl hh)
      (by omega)
    obtain ⟨hlow', hhigh'⟩ := ValueSet.fmod_mono_of_fdiv_eq hpos hlw hwh
      (fdiv_eq_of_aligned hpos (hlw.trans hwh) hrow hstart)
    refine ⟨l, h, _, _, hl, hh, if_neg hpos.ne', if_neg hpos.ne', ?_, ?_⟩ <;> omega
  · have hwhole : ∀ t' s', t'.sets = t₂.sets → s'.Valid → s₂.ctx.Grows s'.ctx →
        Ensures ∅ (liftM (ValueSet.ofDomain d) : Sweep SetTable ValueSet) t' s' fun r t' s' =>
          t'.sets = t₂.sets ∧ s'.ctx.Encloses r (ν.Only z) := by
      intro t' s' ht' hs' hg'
      refine (ofDomain_only hs' (hd'.mono hg'.le) hz).mono ?_
      rintro r _ s'' - - - ⟨rfl, hr⟩
      exact ⟨ht', hr⟩
    refine (dividesBoth_ensures hs₂ hadmits₂ hd'.2 (hstored.mono hg₂.le) (hlo.mono hle)).bind ?_
    rintro rows t₃ s₃ hs₃ hg₃ - ⟨rfl, -⟩
    split
    · refine .context ?_
      refine (Ensures.changeTable (Q := fun _ t' s' => t'.sets = t₃.sets ∧ s' = s₃) hs₃
        ⟨rfl, rfl⟩).bind ?_
      rintro _ t₄ _ - - - ⟨ht₄, rfl⟩
      exact hwhole t₄ _ ht₄ hs₃ hg₃
    · exact hwhole _ s₃ rfl hs₃ hg₃

/-- The part of a fused point. -/
theorem pointIndex_ensures (op : Arith) {d : Domain} {factor value : ExprId} {m n q w z : Int}
    (hs : s.Valid) (hd : s.ctx.StoredDomain d) (hfactor : s.ctx.Stored factor)
    (hvalue : s.ctx.Denotes .all value (ν.Only w)) (hm : ν.value d.min = some m)
    (hn : ν.value factor = some n) (hq : op.exact w n = some q) (hz : q + m = z) :
    Ensures ∅ (do Build.offset (← Attempt.divide op value factor) d.min : Sweep SetTable ExprId)
      t s fun r t' s' => t' = t ∧ s'.domains = s.domains ∧ s'.ctx.Denotes .all r (ν.Only z) := by
  refine (offsetIndex_ensures op hs hd hfactor hvalue.stored).mono ?_
  rintro r t' s' - hg - ⟨ht, hdom, hr⟩
  refine ⟨ht, hdom, hr.of_imp ?_⟩
  rintro _ hν _ ⟨rfl, rfl⟩
  exact ⟨w, n, m, q, hvalue.value _ (hg.le.trans hν) w ⟨rfl, rfl⟩, hn, hm, hq, hz⟩

/-- The sets of both parts of a fused axis. -/
def EnclosesBoth (ν : Valuation) (y z : Int) (sets : ValueSet × ValueSet) (s : Session) : Prop :=
  s.ctx.Encloses sets.1 (ν.Only y) ∧ s.ctx.Encloses sets.2 (ν.Only z)

theorem wholeDomains_ensures {d e : Domain} {y z : Int} (hs : s.Valid) (hd : s.ctx.StoredDomain d)
    (he : s.ctx.StoredDomain e) (hy : ν.InDomain d y) (hz : ν.InDomain e z) :
    Ensures ∅ (do return (← ValueSet.ofDomain d, ← ValueSet.ofDomain e) :
      Sweep SetTable (ValueSet × ValueSet)) t s fun r t' s' =>
        t'.sets = t.sets ∧ EnclosesBoth ν y z r s' := by
  refine (ofDomain_only hs hd hy).bind ?_
  rintro outerSet t₁ s₁ hs₁ hg₁ - ⟨rfl, houter⟩
  refine (ofDomain_only hs₁ (he.mono hg₁.le) hz).bind ?_
  rintro innerSet t₂ s₂ hs₂ hg₂ - ⟨rfl, hinner⟩
  exact .pure hs₂ ⟨rfl, houter.mono hg₂.le, hinner⟩

theorem fuseSets_ensures {outer inner fused : AxisId} {fusedSet : ValueSet} (hs : s.Valid)
    (hknown : s.ctx.StoredDomains known) (hadmits : ν.Admits s.domains)
    (hplaces : ν.Places axes known b x) (ho : outer ∈ axes) (hi : inner ∈ axes)
    (heq : AxisRelation.Equation b x (.reshape (.fuse outer inner fused)))
    (hfused : s.ctx.Encloses fusedSet (ν.Only (x fused))) :
    Ensures ∅ (fuseSets known outer inner fused fusedSet) t s fun r t' s' =>
      t'.sets = t.sets ∧ EnclosesBoth ν (x outer) (x inner) r s' := by
  unfold fuseSets domainFor
  refine .fetch hs fun d hd => ?_
  refine .fetch hs fun e he => ?_
  refine .fetch hs fun fusedDomain hfusedDomain => ?_
  have hsd := hknown outer d hd
  have hse := hknown inner e he
  have hyd := hplaces.inDomain ho hd
  have hze := hplaces.inDomain hi he
  obtain ⟨hmo, -, -⟩ := hplaces.domain outer ho d hd
  obtain ⟨hmi, hn, hcontains⟩ := hplaces.domain inner hi e he
  obtain ⟨hpos, hquotient, hrest⟩ := AxisRelation.fuse_eq heq hcontains
  refine .query (ValueSet.coversExactly_ensures hs hfused.storedSet
    (hknown fused fusedDomain hfusedDomain)) fun whole s₁ hs₁ hg₁ hd₁ _ => ?_
  have hsd₁ := hsd.mono hg₁.le
  have hse₁ := hse.mono hg₁.le
  have hfused₁ := hfused.mono hg₁.le
  split
  · exact wholeDomains_ensures hs₁ hsd₁ hse₁ hyd hze
  split
  · next value hvalue =>
    refine (pointIndex_ensures .floorDiv hs₁ hsd₁ hse₁.2 (hfused₁.denotes_point hvalue) hmo hn
      (if_neg hpos.ne') (by rw [hquotient, sub_add_cancel])).bind ?_
    rintro outerValue t₂ s₂ hs₂ hg₂ - ⟨rfl, hd₂, houter⟩
    refine (pointIndex_ensures .floorMod hs₂ (hse₁.mono hg₂.le) (hse₁.2.mono hg₂.le)
      ((hfused₁.mono hg₂.le).denotes_point hvalue) hmi hn (if_neg hpos.ne')
      (by rw [hrest, sub_add_cancel])).bind ?_
    rintro innerValue t₃ s₃ hs₃ hg₃ - ⟨rfl, hd₃, hinner⟩
    have hdom : s₃.domains = s.domains := by rw [hd₃, hd₂, hd₁]
    refine .query (Query.simplify_denotes hs₃ (houter.mono hg₃.le)
      (hdom ▸ Valuation.admits_of_only hadmits)) fun y s₄ hs₄ hg₄ hd₄ hy => ?_
    refine .query (Query.simplify_denotes hs₄ (hinner.mono hg₄.le)
      (hd₄ ▸ hdom ▸ Valuation.admits_of_only hadmits)) fun z s₅ hs₅ hg₅ hd₅ hz => ?_
    exact .pure hs₅ ⟨rfl, Context.encloses_point (hy.mono hg₅.le), Context.encloses_point hz⟩
  · next lo hi _ hlo hhi =>
    have hlower : s₁.ctx.Delimits (· ≤ ·) (some lo) (ν.Only (x fused)) := hlo ▸ hfused₁.lo
    have hupper : s₁.ctx.Delimits (· ≥ ·) (some hi) (ν.Only (x fused)) := hhi ▸ hfused₁.hi
    obtain ⟨hlo', hlow⟩ := hlower lo rfl
    obtain ⟨hhi', hhigh⟩ := hupper hi rfl
    refine offsetIndices_ensures .floorDiv (z := x outer) (f := fun outerSet => do
      let fusedName := (← Query.context).axisName fused
      return (outerSet, ← fusedInnerSet fusedName e lo hi)) hs₁ (hd₁ ▸ hadmits) hsd₁ hse₁.2
      hlo' hhi' hmo hn (fun hν => ?_) fun outerSet s₂ hs₂ hg₂ hd₂ houter => ?_
    · obtain ⟨l, hl, hlw⟩ := hlow ν hν _ ⟨rfl, rfl⟩
      obtain ⟨h, hh, hwh⟩ := hhigh ν hν _ ⟨rfl, rfl⟩
      have hfirst := Interval.fdiv_mono hlw hpos
      have hlast := Interval.fdiv_mono hwh hpos
      rw [hquotient] at hfirst hlast
      refine ⟨l, h, _, _, hl, hh, if_neg hpos.ne', if_neg hpos.ne', ?_, ?_⟩ <;> omega
    · refine .context ((fusedInnerSet_ensures hs₂ (hd₂ ▸ hd₁ ▸ hadmits) (hse₁.mono hg₂.le) hmi hn
        hpos hze (by rw [hrest, sub_add_cancel]) (hlower.mono hg₂.le) (hupper.mono hg₂.le)).bind ?_)
      rintro innerSet t₃ s₃ hs₃ hg₃ - ⟨ht₃, hinner⟩
      exact .pure hs₃ ⟨ht₃, houter.mono hg₃.le, hinner⟩
  · exact wholeDomains_ensures hs₁ hsd₁ hse₁ hyd hze

/-! ## The sweep -/

/-- The sets found so far hold the axes. -/
def Entered (ν : Valuation) (x : AxisId → Int) (t : SetTable) (s : Session) : Prop :=
  ∀ (a : AxisId) (set : ValueSet), t.sets[a]? = some set → s.ctx.Encloses set (ν.Only (x a))

theorem Entered.mono {s s' : Session} (hctx : s.ctx ≤ s'.ctx) (h : Entered ν x t s) :
    Entered ν x t s' :=
  fun a set hset => (h a set hset).mono hctx

theorem Entered.of_sets_eq {t' : SetTable} (heq : t'.sets = t.sets) (h : Entered ν x t s) :
    Entered ν x t' s := by
  rwa [Entered, heq]

theorem Ensures.axisSets {α : Type} {f : Facts .axis ValueSet → Sweep SetTable α} {V : Set VarId}
    {S : α → SetTable → Session → Prop} (h : Ensures V (f t.sets) t s S) :
    Ensures V (axisSets >>= f) t s S := h

theorem enterSet_ensures {a : AxisId} {set : ValueSet} {V : Set VarId} (hs : s.Valid)
    (h : Entered ν x t s) (hset : s.ctx.Encloses set (ν.Only (x a))) :
    Ensures V (enterSet a set) t s fun _ t' s' =>
      Entered ν x t' s' ∧ a ∈ t'.sets ∧ ∀ c ∈ t.sets, c ∈ t'.sets := by
  refine .changeTable hs ⟨fun c set' hset' => ?_, Std.TreeMap.mem_insert_self,
    fun c hc => Std.TreeMap.mem_insert.2 (.inr hc)⟩
  rcases Handle.getElem?_insert_eq_some.1 hset' with ⟨rfl, rfl⟩ | ⟨-, hset'⟩
  exacts [hset, h c set' hset']

theorem relationSets_ensures {r : AxisRelation} (hs : s.Valid)
    (hknown : s.ctx.StoredDomains known) (hreg : ∀ a ∈ axes, a.index < s.ctx.axes.size)
    (hadmits : ν.Admits s.domains) (hplaces : ν.Places axes known b x)
    (hconsumed : ∀ a ∈ r.consumed, a ∈ axes) (hmade : ∀ a ∈ r.made, a ∈ axes)
    (heq : r.Equation b x) (h : Entered ν x t s) :
    Ensures ∅ (relationSets known r) t s fun _ t' s' => Entered ν x t' s' ∧
      (∀ a ∈ r.consumed, a ∈ t'.sets) ∧ ∀ a ∈ t.sets, a ∈ t'.sets := by
  rcases r with (⟨parent, outer, inner, size⟩ | ⟨outer, inner, fused⟩) | ⟨parent, rebased⟩ | a
  · simp only [AxisRelation.consumed, AxisRelation.made, List.mem_cons, List.not_mem_nil, or_false,
      forall_eq_or_imp, forall_eq] at hconsumed hmade ⊢
    refine .axisSets (.fetch hs fun outerSet houter => ?_)
    refine .axisSets (.fetch hs fun innerSet hinner => ?_)
    refine (splitSets_ensures hs hknown hreg hadmits hplaces hconsumed hmade.1 hmade.2 heq
      (h outer outerSet houter) (h inner innerSet hinner)).bind ?_
    rintro set t₁ s₁ hs₁ hg₁ - ⟨rfl, hset⟩
    exact enterSet_ensures hs₁ (h.mono hg₁.le) hset
  · simp only [AxisRelation.consumed, AxisRelation.made, List.mem_cons, List.not_mem_nil, or_false,
      forall_eq_or_imp, forall_eq] at hconsumed hmade ⊢
    refine .axisSets (.fetch hs fun fusedSet hfused => ?_)
    refine (fuseSets_ensures hs hknown hadmits hplaces hconsumed.1 hconsumed.2 heq
      (h fused fusedSet hfused)).bind ?_
    rintro sets t₁ s₁ hs₁ hg₁ - ⟨ht₁, houter, hinner⟩
    have h₁ := (h.mono hg₁.le).of_sets_eq ht₁
    refine (enterSet_ensures hs₁ h₁ houter).bind ?_
    rintro - t₂ s₂ hs₂ hg₂ - ⟨h₂, houter₂, hold₂⟩
    refine (enterSet_ensures hs₂ h₂ (hinner.mono hg₂.le)).mono ?_
    rintro - t₃ s₃ - - - ⟨h₃, hinner₃, hold₃⟩
    exact ⟨h₃, ⟨hold₃ _ houter₂, hinner₃⟩, fun a ha => hold₃ a (hold₂ a (ht₁ ▸ ha))⟩
  · simp only [AxisRelation.consumed, AxisRelation.made, List.mem_cons, List.not_mem_nil, or_false,
      forall_eq] at hconsumed hmade ⊢
    refine .axisSets (.fetch hs fun rebasedSet hrebased => ?_)
    refine (rebaseSets_ensures hs hknown hreg hadmits hplaces hconsumed hmade heq
      (h rebased rebasedSet hrebased)).bind ?_
    rintro set t₁ s₁ hs₁ hg₁ - ⟨rfl, hset⟩
    exact enterSet_ensures hs₁ (h.mono hg₁.le) hset
  · exact .pure hs ⟨h, List.forall_mem_nil _, fun _ => id⟩

theorem setsUp_ensures {nest : LoopNest} (hs : s.Valid) (hshaped : LoopNest.Shaped s.ctx nest)
    (hknown : s.ctx.StoredDomains known) (hadmits : ν.Admits s.domains)
    (hplaces : ν.Places nest.axes known b x) (heq : ∀ r ∈ nest.relations, r.Equation b x)
    (hleaves : ∀ a ∈ nest.leaves, a ∈ t.sets) (h : Entered ν x t s) :
    Ensures ∅ (setsUp nest known) t s fun _ t' s' =>
      Entered ν x t' s' ∧ ∀ a ∈ nest.axes, a ∈ t'.sets := by
  refine (forM_ensures (fun done t' s' => s'.domains = s.domains ∧ s.ctx.Grows s'.ctx ∧
    Entered ν x t' s' ∧ (∀ a ∈ nest.leaves, a ∈ t'.sets) ∧
      ∀ r ∈ done, ∀ a ∈ r.consumed, a ∈ t'.sets) hs ⟨rfl, .refl _, h, hleaves, nofun⟩ ?_).mono ?_
  · rintro done r rest t₁ s₁ hsplit hs₁ ⟨hd₁, hg₁, h₁, hleaves₁, hdone₁⟩
    have hr : r ∈ nest.relations := by
      rw [← List.mem_reverse, hsplit]
      exact List.mem_append_right _ List.mem_cons_self
    refine (relationSets_ensures hs₁ (hknown.mono hg₁.le) (hg₁.axes ▸ hshaped.registered)
      (hd₁ ▸ hadmits) hplaces (fun a ha => hshaped.mem_axes_of_mem_consumed hr ha)
      (fun a ha => hshaped.mem_axes_of_mem_made hr ha) (heq r hr) h₁).mono ?_
    rintro - t₂ s₂ - hg₂ hd₂ ⟨h₂, hconsumed, hold⟩
    refine ⟨(domains_eq_of_frame hd₂).trans hd₁, hg₁.trans hg₂, h₂,
      fun a ha => hold a (hleaves₁ a ha), fun r' hr' a ha => ?_⟩
    rw [List.mem_append, List.mem_singleton] at hr'
    rcases hr' with hr' | rfl
    exacts [hold a (hdone₁ r' hr' a ha), hconsumed a ha]
  · rintro - t' s' - - - ⟨-, -, h', hleaves', hdone⟩
    refine ⟨h', fun a ha => ?_⟩
    rw [← hshaped.perm.mem_iff, List.mem_append, List.mem_flatMap] at ha
    rcases ha with ha | ⟨r, hr, ha⟩
    exacts [hleaves' a ha, hdone r (List.mem_reverse.2 hr) a ha]

end Sweep

end LoopBounds
