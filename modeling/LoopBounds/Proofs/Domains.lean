import LoopBounds.Inference.Domains
import LoopBounds.Proofs.CallFree
import LoopBounds.Proofs.Sets

/-!
# Domains of scheduled nests

At an assignment of the size variables that gives every root and every factor a positive extent,
the domains that go down the relations of a nest have values, and what a relation makes has a
point for each point of what it consumes.  A relation only finds domains of axes that had none,
so what holds of the relations before it stays.
-/

namespace LoopBounds

namespace Box

/-- The box with another interval for one axis. -/
def set (b : Box) (a : AxisId) (min extent : Int) : Box where
  min := Function.update b.min a min
  extent := Function.update b.extent a extent

variable {b b' : Box} {a c : AxisId} {m n : Int}

@[simp] theorem set_min_self : (b.set a m n).min a = m := Function.update_self ..

@[simp] theorem set_extent_self : (b.set a m n).extent a = n := Function.update_self ..

@[simp] theorem set_min_of_ne (h : c ≠ a) : (b.set a m n).min c = b.min c :=
  Function.update_of_ne h ..

@[simp] theorem set_extent_of_ne (h : c ≠ a) : (b.set a m n).extent c = b.extent c :=
  Function.update_of_ne h ..

/-- The boxes give the axes of a table the same intervals. -/
def Agrees (b b' : Box) (known : Facts .axis Domain) : Prop :=
  ∀ a ∈ known, b'.min a = b.min a ∧ b'.extent a = b.extent a

theorem agrees_set {known : Facts .axis Domain} (ha : a ∉ known) :
    b.Agrees (b.set a m n) known := by
  intro c hc
  have hne : c ≠ a := fun h => ha (h ▸ hc)
  simp [hne]

theorem Agrees.refl (b : Box) (known : Facts .axis Domain) : b.Agrees b known :=
  fun _ _ => ⟨rfl, rfl⟩

theorem Agrees.trans {b'' : Box} {known known' : Facts .axis Domain} (h : b.Agrees b' known)
    (h' : b'.Agrees b'' known') (hsub : ∀ a ∈ known, a ∈ known') : b.Agrees b'' known :=
  fun a ha => ⟨(h' a (hsub a ha)).1.trans (h a ha).1, (h' a (hsub a ha)).2.trans (h a ha).2⟩

end Box

theorem AxisRelation.Covers.congr {b b' : Box} {r : AxisRelation} (h : r.Covers b)
    (heq : ∀ a ∈ r.consumed ++ r.made, b'.min a = b.min a ∧ b'.extent a = b.extent a) :
    r.Covers b' := by
  rcases r with (⟨parent, outer, inner, size⟩ | ⟨outer, inner, fused⟩) | ⟨parent, rebased⟩ | a <;>
    simp_all [AxisRelation.Covers, AxisRelation.consumed, AxisRelation.made]

/-- The variables of `V` have no value, so their domains do not matter. -/
theorem Valuation.Admits.frame {ν : Valuation} {known known' : Env Domain} {V : Set VarId}
    (h : ν.Admits known) (hfree : ∀ v ∈ V, ν.env v = none) (hd : ∀ v ∉ V, known' v = known v) :
    ν.Admits known' := by
  refine h.congr fun v d x hv hx => ?_
  have hmem : v ∉ V := by
    intro hv'
    rw [hfree v hv'] at hx
    cases hx
  rw [← hd v hmem]
  exact hv

/-- The ends of every domain in the table have the values that the box gives them, and no domain
is empty. -/
structure Box.Measures (b : Box) (ν : Valuation) (known : Facts .axis Domain) (ctx : Context) :
    Prop where
  min : ∀ (a : AxisId) (d : Domain), known[a]? = some d →
    ctx.Denotes .callFree d.min (ν.Only (b.min a))
  extent : ∀ (a : AxisId) (d : Domain), known[a]? = some d →
    ctx.Denotes .callFree d.extent (ν.Only (b.extent a))
  pos : ∀ a ∈ known, 0 < b.extent a

/-- What the ends of the domains denote does not change when more variables get values. -/
theorem Box.Measures.of_le {b : Box} {ν ν' : Valuation} {known : Facts .axis Domain}
    {ctx : Context} (hle : ν ≤ ν') (h : b.Measures ν known ctx) : b.Measures ν' known ctx :=
  ⟨fun a d hd => (h.min a d hd).of_le hle, fun a d hd => (h.extent a d hd).of_le hle, h.pos⟩

namespace Valuation

/-- An assignment over a context that stores nothing.  A context that stores anything is no part
of this one, so what expressions denote at it is no restriction on them. -/
def nowhere (env : Env Int) : Valuation := ⟨default, 0, env⟩

theorem nowhere_keeps (env : Env Int) : (nowhere env).Keeps := by
  refine ⟨fun e c hc => absurd hc List.not_mem_nil, fun e x hx => ?_⟩
  cases (value_const (ν := nowhere env) (e := e) rfl).symm.trans hx
  decide

end Valuation

theorem Context.Over.denotes_nowhere {ctx : Context} {K : NodeClass} {e : ExprId}
    (he : ctx.Over K e) (env : Env Int) (z : Int) :
    ctx.Denotes K e ((Valuation.nowhere env).Only z) := by
  refine ⟨he, ?_⟩
  rintro _ hctx _ ⟨rfl, rfl⟩
  exact absurd (he.mono hctx).stored (Nat.not_lt_zero _)

theorem mem_of_get {known : Facts .axis Domain} {a : AxisId} {d : Domain}
    (hd : known[a]? = some d) : a ∈ known :=
  Std.TreeMap.mem_iff_isSome_getElem?.2 (hd ▸ rfl)

theorem exists_get_of_mem {known : Facts .axis Domain} {a : AxisId} (ha : a ∈ known) :
    ∃ d, known[a]? = some d :=
  ⟨_, Std.TreeMap.getElem?_eq_some_getElem ha⟩

/-- What has an entry in one table has it in the other. -/
def Facts.Subset (known known' : Facts .axis Domain) : Prop :=
  ∀ (a : AxisId) (d : Domain), known[a]? = some d → known'[a]? = some d

theorem Facts.Subset.mem {known known' : Facts .axis Domain} (h : known.Subset known')
    {a : AxisId} (ha : a ∈ known) : a ∈ known' :=
  mem_of_get (h a _ (Std.TreeMap.getElem?_eq_some_getElem ha))

/-- The table with entries for more axes. -/
structure Enters (known : Facts .axis Domain) (new : List AxisId) (known' : Facts .axis Domain) :
    Prop where
  mem : ∀ a, a ∈ known' ↔ a ∈ new ∨ a ∈ known
  old : known.Subset known'

theorem Enters.refl (known : Facts .axis Domain) : Enters known [] known :=
  ⟨fun a => by simp, fun _ _ => id⟩

theorem enters_insert {known : Facts .axis Domain} {a : AxisId} (ha : a ∉ known) (d : Domain) :
    Enters known [a] (known.insert a d) := by
  refine ⟨fun c => ?_, fun c e hc => Handle.getElem?_insert_of_notMem ha hc⟩
  rw [Std.TreeMap.mem_insert, Std.compare_eq_iff_eq, List.mem_singleton, eq_comm]

theorem Enters.swap {known known' : Facts .axis Domain} {a c : AxisId}
    (h : Enters known [a, c] known') : Enters known [c, a] known' :=
  ⟨fun e => (h.mem e).trans (or_congr_left (List.Perm.swap c a []).mem_iff), h.old⟩

theorem Enters.trans {known known' known'' : Facts .axis Domain} {new new' : List AxisId}
    (h : Enters known new known') (h' : Enters known' new' known'') :
    Enters known (new' ++ new) known'' :=
  ⟨fun a => by rw [h'.mem, h.mem, List.mem_append, or_assoc],
   fun a d hd => h'.old a d (h.old a d hd)⟩

theorem Box.Measures.mono {b : Box} {ν : Valuation} {known : Facts .axis Domain}
    {ctx ctx' : Context} (hctx : ctx ≤ ctx') (h : b.Measures ν known ctx) :
    b.Measures ν known ctx' :=
  ⟨fun a d hd => (h.min a d hd).mono hctx, fun a d hd => (h.extent a d hd).mono hctx, h.pos⟩

namespace Sweep

section ceilDiv

variable {σ : Type} {s : Session} {t : σ} {V : Set VarId} {ν : Valuation} {a b : ExprId} {x y : Int}

theorem le_ceil_mul (hy : 0 < y) : x ≤ (x + y - 1).fdiv y * y := by
  rw [Int.fdiv_eq_ediv_of_nonneg _ hy.le]
  have := Int.lt_ediv_add_one_mul_self (x + y - 1) hy
  rw [add_mul, one_mul] at this
  omega

theorem ceil_eq_of_dvd (hy : 0 < y) (h : x.fmod y = 0) : x.fdiv y = (x + y - 1).fdiv y := by
  obtain ⟨q, rfl⟩ := Int.dvd_of_fmod_eq_zero h
  rw [Int.fdiv_eq_ediv_of_nonneg _ hy.le, Int.fdiv_eq_ediv_of_nonneg _ hy.le,
    Int.mul_ediv_cancel_left q hy.ne', add_sub_assoc, Int.add_comm,
    Int.add_mul_ediv_left _ q hy.ne',
    Int.ediv_eq_zero_of_lt (by omega) (by omega), zero_add]

theorem simplify_only {K : NodeClass} {q : ExprId} {z : Int} (hs : s.Valid)
    (hadmits : ν.Admits s.domains) (hq : s.ctx.Denotes K q (ν.Only z)) :
    Ensures V (liftM (Query.simplify q) : Sweep σ ExprId) t s fun r t' s' =>
      t' = t ∧ s'.domains = s.domains ∧ s'.ctx.Denotes K r (ν.Only z) :=
  .ofQuery (Query.simplify_denotes hs hq (Valuation.admits_of_only hadmits))

/-- What `ceilDiv` gives at an assignment that the known domains admit. -/
abbrev RoundedUp (known : Env Domain) (a b : ExprId) (ν : Valuation) (z : Int) : Prop :=
  ν.Admits known ∧ ∃ x y, ν.value a = some x ∧ ν.value b = some y ∧ 0 < y ∧
    z = (x + y - 1).fdiv y

/-- The quotient rounded up, whichever way it is found. -/
theorem ceilDiv_denotes {K : NodeClass} (hs : s.Valid) (ha : s.ctx.Over K a)
    (hb : s.ctx.Over K b) :
    Ensures V (ceilDiv a b : Sweep σ ExprId) t s fun r t' s' =>
      t' = t ∧ s'.domains = s.domains ∧ s'.ctx.Denotes K r (RoundedUp s.domains a b) := by
  unfold ceilDiv
  refine .attempt hs (Attempt.divide_denotes .floorMod ha hb)
    fun rest s₁ hs₁ hg₁ hd₁ hrest => ?_
  refine .build hs₁ (Build.constantLike_denotes s₁.ctx K 0 rest)
    fun zero s₂ hs₂ hg₂ hd₂ hzero => ?_
  refine .build hs₂ (Build.compare_denotes .eq (hrest.nodes.mono hg₂.le) hzero.nodes)
    fun divisible s₃ hs₃ hg₃ hd₃ hdivisible => ?_
  refine .query (Query.proves_ensures hs₃ hdivisible.stored)
    fun answer s₄ hs₄ hg₄ hd₄ hanswer => ?_
  have hg := hg₁.trans (hg₂.trans (hg₃.trans hg₄))
  have hdom₃ : s₃.domains = s.domains := by rw [hd₃, hd₂, hd₁]
  have hdom : s₄.domains = s.domains := hd₄.trans hdom₃
  have hsimplify : ∀ {q : ExprId} {s' : Session}, s'.Valid → s'.domains = s.domains →
      s'.ctx.Denotes K q (RoundedUp s.domains a b) →
      Ensures V (liftM (Query.simplify q) : Sweep σ ExprId) t s' fun r t'' s'' =>
        t'' = t ∧ s''.domains = s.domains ∧ s''.ctx.Denotes K r (RoundedUp s.domains a b) := by
    intro q s' hs' hd' hq
    refine (Ensures.ofQuery (Query.simplify_denotes hs' hq fun ν z hz => hd' ▸ hz.1)).mono ?_
    exact fun r t'' s'' _ _ _ ⟨ht, hd, hr⟩ => ⟨ht, hd.trans hd', hr⟩
  dsimp only
  split
  · next hyes =>
    refine .attempt hs₄ (Attempt.divide_denotes .floorDiv (ha.mono hg.le)
      (hb.mono hg.le)) fun q s₅ hs₅ hg₅ hd₅ hq => ?_
    refine hsimplify hs₅ (hd₅.trans hdom) (hq.of_imp ?_)
    rintro ν hν _ ⟨hadmits, x, y, hx, hy', hy, rfl⟩
    have hν₄ := hg₅.le.trans hν
    have hν₃ := hg₄.le.trans hν₄
    have hν₂ := hg₃.le.trans hν₃
    have hν₁ := hg₂.le.trans hν₂
    have hmod := hrest.value _ hν₁ (x.fmod y) ⟨x, y, hx, hy', if_neg hy.ne'⟩
    have hcond := hdivisible.value _ hν₃ _ ⟨_, _, hmod, hzero.value _ hν₂ _ rfl, rfl⟩
    have hne := hanswer hyes _ hν₄ (hdom₃ ▸ hadmits) _ hcond
    refine ⟨x, y, hx, hy', (if_neg hy.ne').trans (congrArg some (ceil_eq_of_dvd hy ?_))⟩
    by_contra h0
    exact hne (by simp [Comparison.exact, h0])
  · refine .build hs₄ (Build.add_denotes (ha.mono hg.le) (hb.mono hg.le))
      fun sum s₅ hs₅ hg₅ hd₅ hsum => ?_
    refine .build hs₅ (Build.addConst_denotes (-1) hsum.nodes)
      fun bumped s₆ hs₆ hg₆ hd₆ hbumped => ?_
    have hg₆' := hg.trans (hg₅.trans hg₆)
    refine .attempt hs₆ (Attempt.divide_denotes .floorDiv hbumped.nodes
      (hb.mono hg₆'.le)) fun q s₇ hs₇ hg₇ hd₇ hq => ?_
    refine hsimplify hs₇ (by rw [hd₇, hd₆, hd₅, hdom]) (hq.of_imp ?_)
    rintro ν hν _ ⟨-, x, y, hx, hy', hy, rfl⟩
    have hν₆ := hg₇.le.trans hν
    have hs' := hsum.value _ (hg₆.le.trans hν₆) _ ⟨x, y, hx, hy', rfl⟩
    exact ⟨_, y, hbumped.value _ hν₆ _ ⟨_, hs', rfl⟩, hy', if_neg hy.ne'⟩

theorem ceilDiv_ensures (hs : s.Valid) (hadmits : ν.Admits s.domains) (hy : 0 < y)
    (ha : s.ctx.Denotes .callFree a (ν.Only x)) (hb : s.ctx.Denotes .callFree b (ν.Only y)) :
    Ensures V (ceilDiv a b : Sweep σ ExprId) t s fun r t' s' =>
      t' = t ∧ s'.domains = s.domains ∧
        s'.ctx.Denotes .callFree r (ν.Only ((x + y - 1).fdiv y)) := by
  refine (ceilDiv_denotes hs ha.nodes hb.nodes).mono ?_
  rintro r t' s' - hg - ⟨ht, hd, hr⟩
  refine ⟨ht, hd, hr.of_imp ?_⟩
  rintro _ hν _ ⟨rfl, rfl⟩
  exact ⟨hadmits, x, y, ha.value _ (hg.le.trans hν) x ⟨rfl, rfl⟩,
    hb.value _ (hg.le.trans hν) y ⟨rfl, rfl⟩, hy, rfl⟩

end ceilDiv

variable {s : Session} {ν : Valuation} {V : Set VarId} {known : Facts .axis Domain} {b : Box}
  {key : AxisId} {d e : Domain} {m n : Int}

/-- Comparing with a domain that is there already changes nothing but the session. -/
theorem agrees_ensures {σ : Type} {t : σ} (hs : s.Valid) (hd : s.ctx.Over .callFree d.extent)
    (he : s.ctx.Over .callFree e.extent) :
    Ensures V (agrees d e : Sweep σ Bool) t s fun _ t' s' => t' = t ∧ s'.domains = s.domains := by
  unfold agrees
  split
  · exact .pure hs ⟨rfl, rfl⟩
  refine .build hs (Build.sub_denotes he hd) fun diff s₁ hs₁ hg₁ hd₁ hdiff => ?_
  refine .attempt hs₁ (Attempt.inline_ensures false hdiff.nodes) ?_
  rintro diff s₂ hs₂ hg₂ hd₂ ⟨rfl, -⟩
  have hdiff₂ := hdiff.mono hg₂.le
  refine .build hs₂ (Build.constantLike_denotes s₂.ctx .callFree 0 diff)
    fun zero s₃ hs₃ hg₃ hd₃ hzero => ?_
  refine .build hs₃ (Build.compare_denotes .eq (hdiff₂.nodes.mono hg₃.le) hzero.nodes)
    fun same s₄ hs₄ hg₄ hd₄ hsame => ?_
  have hdom : s₄.domains = s.domains := by rw [hd₄, hd₃, hd₂, hd₁]
  refine .context ?_
  split
  · refine (Ensures.ofQuery (Query.proves_ensures hs₄ hsame.stored)).mono ?_
    rintro answer t' s' - - - ⟨rfl, hd', -⟩
    exact ⟨rfl, hd'.trans hdom⟩
  · exact .pure hs₄ ⟨rfl, hdom⟩

/-- The domain of an axis that had none is entered. -/
theorem setDomain_ensures (hs : s.Valid) (hkey : s.ctx.axisVar key ∈ V) (hnew : key ∉ known)
    (h : b.Measures ν known s.ctx) (hmin : s.ctx.Denotes .callFree d.min (ν.Only m))
    (hextent : s.ctx.Denotes .callFree d.extent (ν.Only n)) (hpos : 0 < n) :
    Ensures V (setDomain key d) known s fun _ known' s' =>
      known' = known.insert key d ∧ (b.set key m n).Measures ν known' s'.ctx := by
  unfold setDomain
  refine .table ?_
  rw [Std.TreeMap.getElem?_eq_none hnew]
  refine (Ensures.changeTable (Q := fun _ t' s' => t' = known.insert key d ∧ s' = s) hs
    ⟨rfl, rfl⟩).bind ?_
  rintro _ t₁ s₁ - - - ⟨rfl, rfl⟩
  refine .context ?_
  refine (Ensures.learn hs ⟨hmin.stored, hextent.stored⟩ hkey).mono ?_
  rintro _ t₂ s₂ - - - ⟨rfl, hctx, -⟩
  refine ⟨rfl, fun a c hc => ?_, fun a c hc => ?_, fun a ha => ?_⟩
  · rw [hctx]
    rcases Handle.getElem?_insert_eq_some.1 hc with ⟨rfl, rfl⟩ | ⟨hne, hc⟩
    · rwa [Box.set_min_self]
    · rw [Box.set_min_of_ne hne]
      exact h.min a c hc
  · rw [hctx]
    rcases Handle.getElem?_insert_eq_some.1 hc with ⟨rfl, rfl⟩ | ⟨hne, hc⟩
    · rwa [Box.set_extent_self]
    · rw [Box.set_extent_of_ne hne]
      exact h.extent a c hc
  · by_cases hne : a = key
    · rwa [hne, Box.set_extent_self]
    · rw [Box.set_extent_of_ne hne]
      refine h.pos a ?_
      rcases Std.TreeMap.mem_insert.1 ha with heq | ha
      exacts [absurd (Std.compare_eq_iff_eq.1 heq).symm hne, ha]

/-- The domain of an axis that has one stays. -/
theorem setDomain_of_mem (hs : s.Valid) (hold : key ∈ known) (h : b.Measures ν known s.ctx)
    (hextent : s.ctx.Over .callFree d.extent) :
    Ensures V (setDomain key d) known s fun _ known' s' =>
      known' = known ∧ b.Measures ν known s'.ctx := by
  unfold setDomain
  refine .table ?_
  have hget := Std.TreeMap.getElem?_eq_some_getElem hold
  rw [hget]
  refine (agrees_ensures hs (h.extent key _ hget).nodes hextent).bind ?_
  rintro same _ s₁ hs₁ hg₁ - ⟨rfl, -⟩
  split
  · exact .context .throw
  · exact .pure hs₁ ⟨rfl, h.mono hg₁.le⟩

/-! ## One relation -/

/-- What finding the domains of a relation leads to: what had a domain keeps it, and the axes
that the relation makes get theirs. -/
structure Follows (ν : Valuation) (r : AxisRelation) (b : Box) (known : Facts .axis Domain)
    (b' : Box) (known' : Facts .axis Domain) (ctx : Context) : Prop where
  agrees : b.Agrees b' known
  measures : b'.Measures ν known' ctx
  covers : r.Covers b'
  enters : Enters known r.made known' ∨ ∃ a, r = .singleton a ∧ Enters known [a] known'
  consumed : ∀ a ∈ r.consumed, a ∈ known

theorem ofExtent_only {ctx : Context} {extent : ExprId}
    (hextent : ctx.Denotes .callFree extent (ν.Only n)) :
    Build.Ensures (Domain.ofExtent extent) ctx fun d ctx' =>
      ctx'.Denotes .callFree d.min (ν.Only 0) ∧ ctx'.Denotes .callFree d.extent (ν.Only n) := by
  refine (Build.constantLike_denotes ctx .callFree 0 _).bind fun zero ctx' hg hzero => ?_
  refine .pure ⟨hzero.of_imp ?_, hextent.mono hg.le⟩
  rintro _ - _ ⟨-, rfl⟩
  rfl

/-- An axis that counts from zero up to a given extent gets its domain. -/
theorem enterExtent_ensures {extent : ExprId} (hs : s.Valid) (hkey : s.ctx.axisVar key ∈ V)
    (hnew : key ∉ known) (h : b.Measures ν known s.ctx)
    (hextent : s.ctx.Denotes .callFree extent (ν.Only n)) (hpos : 0 < n) :
    Ensures V (do setDomain key (← Domain.ofExtent extent)) known s fun _ known' s' =>
      Enters known [key] known' ∧ (b.set key 0 n).Measures ν known' s'.ctx := by
  refine .build hs (ofExtent_only hextent) fun d s₁ hs₁ hg₁ hd₁ ⟨hmin, hextent₁⟩ => ?_
  refine (setDomain_ensures hs₁ (hg₁.axisVar_eq key ▸ hkey) hnew (h.mono hg₁.le) hmin hextent₁
    hpos).mono ?_
  rintro _ known' s' - - - ⟨rfl, h'⟩
  exact ⟨enters_insert hnew d, h'⟩

/-- The parts of a split: one has the given extent and the other the quotient rounded up. -/
theorem partDomains_ensures {given other : AxisId} {whole size : ExprId} (hs : s.Valid)
    (hadmits : ν.Admits s.domains) (hfree : ∀ v ∈ V, ν.env v = none)
    (hgiven : s.ctx.axisVar given ∈ V) (hother : s.ctx.axisVar other ∈ V)
    (hgivenNew : given ∉ known) (hotherNew : other ∉ known) (hne : other ≠ given)
    (h : b.Measures ν known s.ctx) (hwhole : s.ctx.Denotes .callFree whole (ν.Only m))
    (hsize : s.ctx.Denotes .callFree size (ν.Only n)) (hm : 0 < m) (hn : 0 < n) :
    Ensures V (do
      setDomain given (← Domain.ofExtent size)
      let count ← ceilDiv whole size
      setDomain other (← Domain.ofExtent count)) known s fun _ known' s' =>
        Enters known [other, given] known' ∧
          ((b.set given 0 n).set other 0 ((m + n - 1).fdiv n)).Measures ν known' s'.ctx := by
  rw [← bind_assoc]
  refine (enterExtent_ensures hs hgiven hgivenNew h hsize hn).bind ?_
  rintro _ known₁ s₁ hs₁ hg₁ hd₁ ⟨henters₁, h₁⟩
  refine Ensures.bind (Q := fun count t' s' => t' = known₁ ∧
    s'.ctx.Denotes .callFree count (ν.Only ((m + n - 1).fdiv n))) ?_ ?_
  · refine (ceilDiv_ensures hs₁ (hadmits.frame hfree hd₁) hn (hwhole.mono hg₁.le)
      (hsize.mono hg₁.le)).mono ?_
    rintro count t' s' - - - ⟨rfl, -, hcount⟩
    exact ⟨rfl, hcount⟩
  rintro count known₁ s₂ hs₂ hg₂ - ⟨rfl, hcount⟩
  have hceil : 0 < (m + n - 1).fdiv n := by
    have := le_ceil_mul (x := m) hn
    exact (mul_pos_iff_of_pos_right hn).1 (hm.trans_le this)
  have hnew : other ∉ known₁ := by
    rw [henters₁.mem, List.mem_singleton]
    exact not_or.2 ⟨hne, hotherNew⟩
  refine (enterExtent_ensures hs₂ ?_ hnew (h₁.mono hg₂.le) hcount hceil).mono ?_
  · rwa [hg₂.axisVar_eq, hg₁.axisVar_eq]
  · rintro _ known' s' - - - ⟨henters, h'⟩
    exact ⟨henters₁.trans henters, h'⟩

theorem splitDomains_ensures {parent outer inner : AxisId} {size : SplitBy} (hs : s.Valid)
    (hadmits : ν.Admits s.domains) (hfree : ∀ v ∈ V, ν.env v = none)
    (hV : ∀ a ∈ [outer, inner], s.ctx.axisVar a ∈ V) (hnew : ∀ a ∈ [outer, inner], a ∉ known)
    (hdistinct : outer ≠ inner) (hn : 0 < n)
    (hsize : s.ctx.Denotes .callFree size.extent (ν.Only n)) (h : b.Measures ν known s.ctx) :
    Ensures V (relationDomains false (.reshape (.split parent outer inner size))) known s
      fun _ known' s' => ∃ b', Follows ν (.reshape (.split parent outer inner size)) b known b'
        known' s'.ctx := by
  simp only [List.mem_cons, List.not_mem_nil, or_false, forall_eq_or_imp, forall_eq] at hV hnew
  refine .table (.require hs fun whole hwhole => ?_)
  have hparent : parent ∈ known := mem_of_get hwhole
  have hm := h.pos parent hparent
  have hle := le_ceil_mul (x := b.extent parent) hn
  have hceil := (mul_pos_iff_of_pos_right hn).1 (hm.trans_le hle)
  have hfollows : ∀ (b' : Box) known' ctx', Enters known [outer, inner] known' →
      b'.Measures ν known' ctx' →
      (∀ a, a ≠ outer → a ≠ inner → b'.min a = b.min a ∧ b'.extent a = b.extent a) →
      b'.min outer = 0 ∧ b'.min inner = 0 ∧ 0 < b'.extent inner ∧
        b.extent parent ≤ b'.extent outer * b'.extent inner →
      Follows ν (.reshape (.split parent outer inner size)) b known b' known' ctx' := by
    intro b' known' ctx' henters h' hagrees hcovers
    have hagrees' : b.Agrees b' known := fun a ha =>
      hagrees a (fun h => hnew.1 (h ▸ ha)) fun h => hnew.2 (h ▸ ha)
    refine ⟨hagrees', h', ?_, .inl henters, by simpa [AxisRelation.consumed] using hparent⟩
    rw [AxisRelation.Covers, (hagrees' parent hparent).2]
    exact hcovers
  cases size with
  | factor extent =>
      refine (partDomains_ensures hs hadmits hfree hV.2 hV.1 hnew.2 hnew.1 hdistinct h
        (h.extent parent whole hwhole) hsize hm hn).mono ?_
      rintro _ known' s' _ _ _ ⟨hmem, h'⟩
      refine ⟨_, hfollows _ _ _ hmem h' (fun a hao hai => by simp [hao, hai]) ?_⟩
      simp [hdistinct.symm, hn, hle]
  | parts extent =>
      refine (partDomains_ensures hs hadmits hfree hV.1 hV.2 hnew.1 hnew.2 hdistinct.symm h
        (h.extent parent whole hwhole) hsize hm hn).mono ?_
      rintro _ known' s' _ _ _ ⟨hmem, h'⟩
      refine ⟨_, hfollows _ _ _ hmem.swap h' (fun a hao hai => by simp [hao, hai]) ?_⟩
      simp [hdistinct, hceil, mul_comm n, hle]

theorem fuseDomains_ensures {outer inner fused : AxisId} (hs : s.Valid)
    (hadmits : ν.Admits s.domains) (hV : s.ctx.axisVar fused ∈ V) (hnew : fused ∉ known)
    (h : b.Measures ν known s.ctx) :
    Ensures V (relationDomains false (.reshape (.fuse outer inner fused))) known s
      fun _ known' s' => ∃ b', Follows ν (.reshape (.fuse outer inner fused)) b known b'
        known' s'.ctx := by
  refine .table (.require hs fun d hd => ?_)
  refine .table (.require hs fun e he => ?_)
  have houter : outer ∈ known := mem_of_get hd
  have hinner : inner ∈ known := mem_of_get he
  have hof : outer ≠ fused := fun h => hnew (h ▸ houter)
  have hif : inner ≠ fused := fun h => hnew (h ▸ hinner)
  have hm := h.pos outer houter
  have hn := h.pos inner hinner
  have hdextent := h.extent outer d hd
  have heextent := h.extent inner e he
  refine .build hs (Build.mul_denotes hdextent.nodes heextent.nodes)
    fun product s₁ hs₁ hg₁ hd₁ hproduct => ?_
  have hproduct' : s₁.ctx.Denotes .callFree product (ν.Only (b.extent outer * b.extent inner)) := by
    refine hproduct.of_imp ?_
    rintro _ hν _ ⟨rfl, rfl⟩
    have hν₀ := hg₁.le.trans hν
    exact ⟨_, _, hdextent.value _ hν₀ _ ⟨rfl, rfl⟩, heextent.value _ hν₀ _ ⟨rfl, rfl⟩, rfl⟩
  refine (simplify_only hs₁ (hd₁ ▸ hadmits) hproduct').bind ?_
  rintro extent known s₂ hs₂ hg₂ - ⟨rfl, -, hextent⟩
  have hg := hg₁.trans hg₂
  refine (enterExtent_ensures hs₂ (hg.axisVar_eq fused ▸ hV) hnew (h.mono hg.le) hextent
    (mul_pos hm hn)).mono fun _ known' s' _ _ _ ⟨henters, h'⟩ => ?_
  refine ⟨_, Box.agrees_set hnew, h', ?_, .inl henters, ?_⟩
  · simp [AxisRelation.Covers, hif, hof, hn]
  · simp [AxisRelation.consumed, houter, hinner]

theorem rebaseDomains_ensures {parent rebased : AxisId} (hs : s.Valid)
    (hV : s.ctx.axisVar rebased ∈ V) (hnew : rebased ∉ known) (h : b.Measures ν known s.ctx) :
    Ensures V (relationDomains false (.rebase parent rebased)) known s
      fun _ known' s' => ∃ b', Follows ν (.rebase parent rebased) b known b' known' s'.ctx := by
  refine .table (.require hs fun d hd => ?_)
  have hparent : parent ∈ known := mem_of_get hd
  have hne : parent ≠ rebased := fun h => hnew (h ▸ hparent)
  refine (enterExtent_ensures hs hV hnew h (h.extent parent d hd) (h.pos parent hparent)).mono
    fun _ known' s' _ _ _ ⟨henters, h'⟩ => ?_
  refine ⟨_, Box.agrees_set hnew, h', ?_, .inl henters, ?_⟩
  · simp [AxisRelation.Covers, hne]
  · simp [AxisRelation.consumed, hparent]

theorem singletonDomain_ensures {a : AxisId} (hs : s.Valid) (hV : s.ctx.axisVar a ∈ V)
    (h : b.Measures ν known s.ctx) :
    Ensures V (relationDomains false (.singleton a)) known s
      fun _ known' s' => ∃ b', Follows ν (.singleton a) b known b' known' s'.ctx := by
  refine .build hs (P := fun d ctx =>
    ctx.Denotes .callFree d.min (ν.Only 0) ∧ ctx.Denotes .callFree d.extent (ν.Only 1)) ?_
    fun d s₁ hs₁ hg₁ _ ⟨hmin, hextent⟩ => ?_
  · refine (Build.constant_denotes s.ctx .callFree 0 .int32).bind fun zero ctx₁ hg₁ hzero => ?_
    refine (Build.constant_denotes ctx₁ .callFree 1 .int32).bind fun one ctx₂ hg₂ hone => ?_
    refine .pure ⟨(hzero.mono hg₂.le).of_imp ?_, hone.of_imp ?_⟩
    · rintro _ - _ ⟨-, rfl⟩
      rfl
    · rintro _ - _ ⟨-, rfl⟩
      rfl
  by_cases hold : a ∈ known
  · refine (setDomain_of_mem hs₁ hold (h.mono hg₁.le) hextent.nodes).mono ?_
    rintro _ known s₂ - - - ⟨rfl, h₂⟩
    exact ⟨b, Box.Agrees.refl b known, h₂, trivial, .inl (.refl known), nofun⟩
  · refine (setDomain_ensures hs₁ (hg₁.axisVar_eq a ▸ hV) hold (h.mono hg₁.le) hmin hextent
      one_pos).mono ?_
    rintro _ _ s₂ - - - ⟨rfl, h₂⟩
    exact ⟨_, Box.agrees_set hold, h₂, trivial, .inr ⟨a, rfl, enters_insert hold d⟩, nofun⟩

theorem relationDomains_ensures {r : AxisRelation} (hs : s.Valid) (hadmits : ν.Admits s.domains)
    (hfree : ∀ v ∈ V, ν.env v = none)
    (hV : ∀ a, (a ∈ r.made ∨ r = .singleton a) → s.ctx.axisVar a ∈ V)
    (hnew : ∀ a ∈ r.made, a ∉ known) (hdistinct : r.made.Nodup)
    (hsizes : ∀ e ∈ r.exprs, ∃ n, 0 < n ∧ s.ctx.Denotes .callFree e (ν.Only n))
    (h : b.Measures ν known s.ctx) :
    Ensures V (relationDomains false r) known s fun _ known' s' =>
      ∃ b', Follows ν r b known b' known' s'.ctx := by
  rcases r with (⟨parent, outer, inner, size⟩ | ⟨outer, inner, fused⟩) | ⟨parent, rebased⟩ | a
  · obtain ⟨n, hn, hsize⟩ := hsizes size.extent (by simp [AxisRelation.exprs])
    simp only [AxisRelation.made, List.nodup_cons, List.mem_singleton] at hdistinct
    exact splitDomains_ensures hs hadmits hfree (fun a ha => hV a (.inl ha)) hnew hdistinct.1 hn
      hsize h
  · exact fuseDomains_ensures hs hadmits (hV fused (.inl (by simp [AxisRelation.made])))
      (hnew fused (by simp [AxisRelation.made])) h
  · exact rebaseDomains_ensures hs (hV rebased (.inl (by simp [AxisRelation.made])))
      (hnew rebased (by simp [AxisRelation.made])) h
  · exact singletonDomain_ensures hs (hV a (.inr rfl)) h

/-! ## The sweep -/

theorem Follows.old {r : AxisRelation} {b' : Box} {known' : Facts .axis Domain} {ctx : Context}
    (h : Follows ν r b known b' known' ctx) : known.Subset known' := by
  rcases h.enters with henters | ⟨_, _, henters⟩
  exacts [henters.old, henters.old]

theorem Follows.made {r : AxisRelation} {b' : Box} {known' : Facts .axis Domain} {ctx : Context}
    (h : Follows ν r b known b' known' ctx) {a : AxisId} (ha : a ∈ r.made) : a ∈ known' := by
  rcases h.enters with henters | ⟨c, rfl, -⟩
  · exact (henters.mem a).2 (.inl ha)
  · cases ha

/-- What holds when the domains of some relations have been found, from a table and a box that
measures it. -/
structure FoundFrom (ν : Valuation) (start : Facts .axis Domain) (b : Box)
    (roots : List AxisId) (done : List AxisRelation) (b' : Box) (known : Facts .axis Domain)
    (ctx : Context) : Prop where
  agrees : b.Agrees b' start
  measures : b'.Measures ν known ctx
  covers : ∀ r ∈ done, r.Covers b'
  old : start.Subset known
  mem : ∀ r ∈ done, ∀ a ∈ r.consumed ++ r.made, a ∈ known
  cases : ∀ a ∈ known, a ∈ roots ∨ a ∈ done.flatMap AxisRelation.made

theorem FoundFrom.step {start known' : Facts .axis Domain} {b b' b'' : Box} {roots : List AxisId}
    {done : List AxisRelation} {r : AxisRelation} {ctx ctx' : Context}
    (h : FoundFrom ν start b roots done b' known ctx) (h' : Follows ν r b' known b'' known' ctx')
    (hpinned : ∀ a, r = .singleton a → a ∈ roots ∨ a ∈ done.flatMap AxisRelation.made) :
    FoundFrom ν start b roots (done ++ [r]) b'' known' ctx' := by
  constructor
  · exact h.agrees.trans h'.agrees fun a ha => h.old.mem ha
  · exact h'.measures
  · intro r' hr'
    rw [List.mem_append, List.mem_singleton] at hr'
    rcases hr' with hr' | rfl
    · exact (h.covers r' hr').congr fun a ha => h'.agrees a (h.mem r' hr' a ha)
    · exact h'.covers
  · exact fun a d hd => h'.old a d (h.old a d hd)
  · intro r' hr' a ha
    rw [List.mem_append, List.mem_singleton] at hr'
    rcases hr' with hr' | rfl
    · exact h'.old.mem (h.mem r' hr' a ha)
    · rcases List.mem_append.1 ha with ha | ha
      exacts [h'.old.mem (h'.consumed a ha), h'.made ha]
  · intro a ha
    rw [List.flatMap_append, List.flatMap_singleton, List.mem_append]
    rcases h'.enters with henters | ⟨c, rfl, henters⟩
    · rcases (henters.mem a).1 ha with ha | ha
      exacts [.inr (.inr ha), (h.cases a ha).imp_right .inl]
    · rcases (henters.mem a).1 ha with ha | ha
      · rw [List.mem_singleton] at ha
        exact (hpinned a (ha ▸ rfl)).imp_right .inl
      · exact (h.cases a ha).imp_right .inl

/-- What each relation keeps, given what holds of the relations before it, holds of them all. -/
theorem relations_induction {nest : LoopNest} {start : Facts .axis Domain}
    (I : List AxisRelation → Facts .axis Domain → Session → Prop) (hs : s.Valid)
    (hnest : LoopNest.Scheduled s.ctx nest) (hadmits : ν.Admits s.domains)
    (hfree : ∀ v ∈ V, ν.env v = none) (hV : ∀ a ∈ nest.axes, s.ctx.axisVar a ∈ V)
    (hsizes : ∀ r ∈ nest.relations, ∀ e ∈ r.exprs,
      ∃ n, 0 < n ∧ s.ctx.Denotes .callFree e (ν.Only n))
    (hroots : ∀ a ∈ start, a ∈ nest.roots) (h : b.Measures ν start s.ctx) (hI : I [] start s)
    (hstep : ∀ done r rest b₁ known s₁, nest.relations = done ++ r :: rest → s₁.Valid →
      s.ctx.Grows s₁.ctx → FoundFrom ν start b nest.roots done b₁ known s₁.ctx →
      I done known s₁ →
      Ensures V (relationDomains false r) known s₁ (fun _ known' s' =>
        ∃ b₂, Follows ν r b₁ known b₂ known' s'.ctx) →
      Ensures V (relationDomains false r) known s₁ fun _ known' s' => I (done ++ [r]) known' s') :
    Ensures V (nest.relations.forM (relationDomains false)) start s fun _ known s' =>
      (∃ b', FoundFrom ν start b nest.roots nest.relations b' known s'.ctx) ∧
        I nest.relations known s' := by
  have hshaped := hnest.shaped
  refine (forM_ensures (fun done known s' => s.ctx.Grows s'.ctx ∧
    (∀ v ∉ V, s'.domains v = s.domains v) ∧
      (∃ b', FoundFrom ν start b nest.roots done b' known s'.ctx) ∧ I done known s') hs
    ⟨.refl _, fun _ _ => rfl, ⟨b, .refl b start, h, nofun, fun _ _ => id, nofun,
      fun a ha => .inl (hroots a ha)⟩, hI⟩ ?_).mono fun _ _ _ _ _ _ h => h.2.2
  rintro done r rest known s₁ hsplit hs₁ ⟨hg₁, hd₁, ⟨b₁, h₁⟩, hI₁⟩
  have hr : r ∈ nest.relations := hsplit ▸ List.mem_append_right _ List.mem_cons_self
  have hpinned : ∀ a, r = .singleton a →
      a ∈ nest.roots ∨ a ∈ done.flatMap AxisRelation.made :=
    fun a ha => hnest.mem_before hsplit (.inr ha)
  have hfound : Ensures V (relationDomains false r) known s₁ fun _ known' s' =>
      ∃ b₂, Follows ν r b₁ known b₂ known' s'.ctx := by
    refine relationDomains_ensures hs₁ (hadmits.frame hfree hd₁) hfree (fun a ha => ?_)
      (fun a ha hold => ?_) ?_ (fun e he => ?_) h₁.measures
    · rw [hg₁.axisVar_eq]
      refine hV a ?_
      rcases ha with ha | rfl
      exacts [hshaped.mem_axes_of_mem_made hr ha, hshaped.pinned a hr]
    · obtain ⟨hroot, hdone⟩ := hshaped.not_mem_before hsplit ha
      exact (h₁.cases a hold).elim hroot hdone
    · exact (hnest.nodup_of_mem hr).of_append_right
    · obtain ⟨n, hn, hsize⟩ := hsizes r hr e he
      exact ⟨n, hn, hsize.mono hg₁.le⟩
  refine (hfound.and (hstep done r rest b₁ known s₁ hsplit hs₁ hg₁ h₁ hI₁ hfound)).mono ?_
  rintro _ known' s₂ - hg₂ hd₂ ⟨⟨b₂, h₂⟩, hI₂⟩
  exact ⟨hg₁.trans hg₂, fun v hv => (hd₂ v hv).trans (hd₁ v hv), ⟨b₂, h₁.step h₂ hpinned⟩, hI₂⟩

theorem relations_ensures {nest : LoopNest} {start : Facts .axis Domain} (hs : s.Valid)
    (hnest : LoopNest.Scheduled s.ctx nest) (hadmits : ν.Admits s.domains)
    (hfree : ∀ v ∈ V, ν.env v = none) (hV : ∀ a ∈ nest.axes, s.ctx.axisVar a ∈ V)
    (hsizes : ∀ r ∈ nest.relations, ∀ e ∈ r.exprs,
      ∃ n, 0 < n ∧ s.ctx.Denotes .callFree e (ν.Only n))
    (hroots : ∀ a ∈ start, a ∈ nest.roots) (h : b.Measures ν start s.ctx) :
    Ensures V (nest.relations.forM (relationDomains false)) start s fun _ known s' =>
      ∃ b', FoundFrom ν start b nest.roots nest.relations b' known s'.ctx :=
  (relations_induction (fun _ _ _ => True) hs hnest hadmits hfree hV hsizes hroots h trivial
    fun _ _ _ _ _ _ _ _ _ _ _ hfound => hfound.mono fun _ _ _ _ _ _ _ => trivial).mono
      fun _ _ _ _ _ _ h => h.1

/-- A thread axis takes over the domain of its leaf, unless it has that domain already. -/
theorem threadDomain_ensures {a thread : AxisId} (hs : s.Valid)
    (hV : s.ctx.axisVar thread ∈ V) (h : b.Measures ν known s.ctx) :
    Ensures V (threadDomain false a thread) known s fun _ known' s' =>
      ∃ b', b.Agrees b' known ∧ b'.Measures ν known' s'.ctx ∧
        (Enters known [thread] known' ∨ known' = known) := by
  refine .table (.require hs fun d hd => ?_)
  by_cases hold : thread ∈ known
  · refine (setDomain_of_mem hs hold h (h.extent a d hd).nodes).mono ?_
    rintro _ known s' - - - ⟨rfl, h'⟩
    exact ⟨b, .refl b known, h', .inr rfl⟩
  · refine (setDomain_ensures hs hV hold h (h.min a d hd) (h.extent a d hd)
      (h.pos a (mem_of_get hd))).mono ?_
    rintro _ _ s' - - - ⟨rfl, h'⟩
    exact ⟨_, Box.agrees_set hold, h', .inl (enters_insert hold d)⟩

/-- The domains of a scheduled nest, from those of its roots: all have values, and those made by a
relation have a point for each of those consumed. -/
theorem domains_ensures {nest : LoopNest} {start : Facts .axis Domain} (hs : s.Valid)
    (hnest : LoopNest.Scheduled s.ctx nest) (hadmits : ν.Admits s.domains)
    (hfree : ∀ v ∈ V, ν.env v = none) (hV : ∀ a ∈ nest.axes, s.ctx.axisVar a ∈ V)
    (hthreads : ∀ p ∈ nest.threads.toList, s.ctx.axisVar p.2 ∈ V)
    (hsizes : ∀ r ∈ nest.relations, ∀ e ∈ r.exprs,
      ∃ n, 0 < n ∧ s.ctx.Denotes .callFree e (ν.Only n))
    (hroots : ∀ a ∈ start, a ∈ nest.roots) (h : b.Measures ν start s.ctx) :
    Ensures V (domains nest false) start s fun _ known s' => ∃ b', b.Agrees b' start ∧
      b'.Measures ν known s'.ctx ∧ nest.Covers b' ∧ start.Subset known ∧
      (∀ r ∈ nest.relations, ∀ a ∈ r.consumed ++ r.made, a ∈ known) ∧
      ∀ a ∈ known, a ∈ nest.axes ∨ ∃ p ∈ nest.threads.toList, p.2 = a := by
  refine (relations_ensures hs hnest hadmits hfree hV hsizes hroots h).bind ?_
  rintro _ known₁ s₁ hs₁ hg₁ hd₁ ⟨b₁, h₁⟩
  refine (forM_ensures (fun _ known s' => s.ctx.Grows s'.ctx ∧ ∃ b', b₁.Agrees b' known₁ ∧
    b'.Measures ν known s'.ctx ∧ known₁.Subset known ∧
    ∀ a ∈ known, a ∈ known₁ ∨ ∃ p ∈ nest.threads.toList, p.2 = a) hs₁
    ⟨hg₁, b₁, .refl b₁ known₁, h₁.measures, fun _ _ => id, fun _ => .inl⟩ ?_).mono ?_
  · rintro done ⟨a, thread⟩ rest known s₂ hsplit hs₂ ⟨hg₂, b₂, hagrees₂, h₂, hold₂, hcases₂⟩
    have hmem : (a, thread) ∈ nest.threads.toList :=
      hsplit ▸ List.mem_append_right _ List.mem_cons_self
    refine (threadDomain_ensures hs₂ (hg₂.axisVar_eq thread ▸ hthreads _ hmem) h₂).mono ?_
    rintro _ known' s₃ - hg₃ - ⟨b₃, hagrees₃, h₃, henters | rfl⟩
    · refine ⟨hg₂.trans hg₃, b₃, hagrees₂.trans hagrees₃ fun c hc => hold₂.mem hc, h₃,
        fun c d hd => henters.old c d (hold₂ c d hd), fun c hc => ?_⟩
      rcases (henters.mem c).1 hc with hc | hc
      · exact .inr ⟨_, hmem, (List.mem_singleton.1 hc).symm⟩
      · exact hcases₂ c hc
    · exact ⟨hg₂.trans hg₃, b₃, hagrees₂.trans hagrees₃ fun c hc => hold₂.mem hc,
      h₃, hold₂, hcases₂⟩
  · rintro _ known s₂ - - - ⟨-, b₂, hagrees, h₂, hold, hcases⟩
    refine ⟨b₂, h₁.agrees.trans hagrees fun a ha => h₁.old.mem ha, h₂, fun r hr => ?_,
      fun a d hd => hold a d (h₁.old a d hd), fun r hr a ha => ?_, fun a ha => ?_⟩
    · exact (h₁.covers r hr).congr fun a ha => hagrees a (h₁.mem r hr a ha)
    · exact hold.mem (h₁.mem r hr a ha)
    · refine (hcases a ha).imp_left fun ha => ?_
      rw [hnest.shaped.axes_eq, List.mem_append]
      exact h₁.cases a ha

end Sweep

end LoopBounds
