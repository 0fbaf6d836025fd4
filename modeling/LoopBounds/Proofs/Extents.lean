import LoopBounds.Proofs.Remembered
import LoopBounds.Proofs.Tiling

/-!
# Literal extents

Over roots and factors that are literals, an extent that is found is the exact literal, unless a
sum or a product left the word on the way to it, and then it is no literal.  No assignment has a
part in this, so nothing is asked of the values of what else is stored.
-/

namespace LoopBounds

/-! ## Sessions that are followed through a sweep -/

namespace Session

/-- The analyzer has only been asked about literals since it last learnt a domain. -/
structure Clear (s : Session) : Prop where
  settled : s.Settled
  fresh : s.Fresh

variable {s s' : Session}

theorem Settled.store (h : s.Settled) (hg : s.ctx.Grows s'.ctx) (han : s'.analyzer = s.analyzer) :
    s'.Settled :=
  h.of_eq hg.le (fun _ => by rw [han]) fun _ => by rw [han]

theorem Clear.store (h : s.Clear) (hg : s.ctx.Grows s'.ctx) (han : s'.analyzer = s.analyzer) :
    s'.Clear := by
  obtain ⟨ctx, an⟩ := s
  obtain ⟨ctx', an'⟩ := s'
  cases han
  exact ⟨h.settled.mono hg.le, h.fresh.mono hg.le⟩

theorem Notes.clear (h : s.Notes s') (hs : s.Clear) : s'.Clear :=
  ⟨h.settled hs.settled, h.fresh hs.fresh⟩

end Session

namespace Sweep

variable {σ α β : Type} {V : Set VarId} {f : α → Sweep σ β} {t : σ} {s : Session}
  {S : β → σ → Session → Prop}

theorem Ensures.ofAsk {q : Query α} {P : α → Context → Prop} {R : α → Session → Prop}
    (h : Query.Ensures q s P) (hleads : Query.Leads q s R) :
    Ensures V (liftM q : Sweep σ α) t s fun x t' s' =>
      t' = t ∧ s'.domains = s.domains ∧ R x s' := by
  rintro x t' s' hrun
  cases hrun
  exact ⟨h.valid, h.grows, fun v _ => congrFun h.domains v, rfl, h.domains, hleads⟩

theorem Ensures.ask {q : Query α} {P : α → Context → Prop} {R : α → Session → Prop}
    (h : Query.Ensures q s P) (hleads : Query.Leads q s R)
    (hf : ∀ x s', s'.Valid → s.ctx.Grows s'.ctx → R x s' → Ensures V (f x) t s' S) :
    Ensures V ((liftM q : Sweep σ α) >>= f) t s S :=
  (Ensures.ofAsk h hleads).bind fun x _ s' hs' hg _ ⟨ht, _, hR⟩ => ht ▸ hf x s' hs' hg hR

end Sweep

/-! ## Operators on extents -/

theorem Word.Fits.of_le {z w : Int} (hw : Fits w) (hz : 0 ≤ z) (hle : z ≤ w) : Fits z := by
  refine ⟨?_, hle.trans hw.2⟩
  rw [Int64.toInt_minValue]
  omega

/-- The difference of two words that are not negative is a word. -/
theorem Word.Fits.sub {z w : Int} (hz : Fits z) (hw : Fits w) (hz' : 0 ≤ z) (hw' : 0 ≤ w) :
    Fits (z - w) := by
  obtain ⟨-, hz⟩ := hz
  obtain ⟨-, hw⟩ := hw
  rw [Int64.toInt_maxValue] at hw
  refine ⟨?_, by omega⟩
  rw [Int64.toInt_minValue]
  omega

namespace Arith

variable {x y : Int}

theorem fdiv_le (hx : 0 ≤ x) (hy : 0 < y) : 0 ≤ x.fdiv y ∧ x.fdiv y ≤ x := by
  rw [Int.fdiv_eq_ediv_of_nonneg _ hy.le]
  exact ⟨Int.ediv_nonneg hx hy.le, Int.ediv_le_self _ hx⟩

theorem fdiv_mul_le (hx : 0 ≤ x) (hy : 0 < y) : 0 ≤ x.fdiv y * y ∧ x.fdiv y * y ≤ x := by
  refine ⟨mul_nonneg (fdiv_le hx hy).1 hy.le, ?_⟩
  rw [Int.fdiv_eq_ediv_of_nonneg _ hy.le]
  exact Int.ediv_mul_le x hy.ne'

theorem within_floorDiv (hfits : Word.Fits x) (hx : 0 ≤ x) (hy : 0 < y) :
    Within .floorDiv Word.Fits x y (x.fdiv y) :=
  ⟨hfits.of_le (fdiv_le hx hy).1 (fdiv_le hx hy).2, nofun⟩

theorem within_floorMod (hfits : Word.Fits x) (hx : 0 ≤ x) (hy : 0 < y) :
    Within .floorMod Word.Fits x y (x.fmod y) := by
  obtain ⟨hnonneg, hle⟩ := fdiv_mul_le hx hy
  have hrest : x.fmod y ≤ x := by
    rw [Int.fmod_def, mul_comm]
    exact sub_le_self _ hnonneg
  refine ⟨hfits.of_le (Int.fmod_nonneg_of_pos x hy) hrest, fun _ => ⟨?_, hfits.of_le hnonneg hle⟩⟩
  exact hfits.of_le (fdiv_le hx hy).1 (fdiv_le hx hy).2

end Arith

namespace Sweep

variable {σ : Type} {t : σ} {V : Set VarId} {s : Session} {a b e p l : ExprId} {x y z : Int}

/-- A literal is simplified to itself. -/
theorem simplify_exact (hs : s.Valid) (hset : s.Settled) (he : s.ctx.Literal e z) :
    Ensures V (liftM (Query.simplify e) : Sweep σ ExprId) t s fun r _ s' =>
      ∀ w, s'.ctx.Literal r w → w = z := by
  refine (Ensures.ofAsk (Query.simplified e s hs he.1) (Query.simplify_literal hset he)).mono ?_
  rintro r t' s' - - - ⟨-, -, hr, hnotes⟩ w hw
  exact hw.unique (hnotes.ctx ▸ hr)

theorem addConst_literal {ctx : Context} (ha : ctx.Literal a x) (hx : 0 < x) :
    Build.Ensures (Build.addConst a (-1)) ctx fun r ctx' => ctx'.Literal r (x - 1) := by
  refine (Build.constantLike_literal ctx (-1) a).bind fun l ctx₁ hg hl => ?_
  exact Build.arith_literal (ha.mono hg.le) hl rfl
    ⟨ha.fits.of_le (by omega) (sub_le_self _ zero_le_one), nofun⟩

/-- One less than a sum that leaves the word is written as it stands. -/
theorem addConst_overflow {ctx : Context} (ha : ctx.Overflows .add a) :
    Build.Ensures (Build.addConst a (-1)) ctx fun r ctx' => ctx'.Stored r ∧
      ∃ l, ctx'.node r = .arith .add a l ∧ ctx'.Literal l (-1) := by
  refine (Build.constantLike_literal ctx (-1) a).bind fun l ctx₁ hg hl => ?_
  obtain ⟨hstored, w, hw, hw1⟩ := id hl
  obtain rfl := Int64.toInt_inj.1 hw1
  refine (Build.arith_node (ha.stored.mono hg.le) hstored ?_).mono fun r ctx₂ hg₂ ⟨hr, hn⟩ =>
    ⟨hr, l, hn, hl.mono hg₂.le⟩
  rw [(ha.stuck.mono hg.le).2, hw]
  simp [Arith.fold, Arith.foldUnit]

theorem quotient_ensures {ctx : Context} (hp : ctx.Stuck p) (hb : ctx.Literal b y) (hy : 1 < y) :
    Build.Ensures (Build.arith .floorDiv p b) ctx fun r ctx' =>
      ctx'.Stored r ∧ ctx'.node r = .arith .floorDiv p b := by
  refine Build.arith_node hp.1 hb.1 ?_
  obtain ⟨-, w, hw, rfl⟩ := hb
  have hw1 : w ≠ 1 := by
    rintro rfl
    exact absurd hy (by decide)
  rw [hp.2, hw]
  simp [Arith.fold, Arith.foldUnit, hw1]

/-- Where the quotient rounded up is found to be a literal, it is the exact one. -/
theorem ceilDiv_exact (hs : s.Valid) (hclear : s.Clear) (ha : s.ctx.Literal a x)
    (hb : s.ctx.Literal b y) (hx : 0 < x) (hy : 0 < y) :
    Ensures V (ceilDiv a b : Sweep σ ExprId) t s fun r _ s' =>
      ∀ z, s'.ctx.Literal r z → z = (x + y - 1).fdiv y := by
  unfold ceilDiv
  refine .storeAttempt hs (Attempt.divide_ensures (Build.arith_literal ha hb (if_neg hy.ne')
    (Arith.within_floorMod ha.fits hx.le hy))) fun rest s₁ hs₁ hg₁ han₁ hrest => ?_
  refine .store hs₁ (Build.constantLike_literal s₁.ctx 0 rest)
    fun zero s₂ hs₂ hg₂ han₂ hzero => ?_
  refine .store hs₂ (Build.compare_literal .eq (hrest.mono hg₂.le) hzero)
    fun divisible s₃ hs₃ hg₃ han₃ hdivisible => ?_
  have hclear₃ := ((hclear.store hg₁ han₁).store hg₂ han₂).store hg₃ han₃
  refine .ask (Query.proves_ensures hs₃ hdivisible.1)
    (Query.proves_literal hclear₃.settled hdivisible) ?_
  rintro answer s₄ hs₄ hg₄ ⟨hanswer, hnotes⟩
  have hclear₄ := hnotes.clear hclear₃
  have hg := hg₁.trans (hg₂.trans (hg₃.trans hg₄))
  have ha₄ := ha.mono hg.le
  have hb₄ := hb.mono hg.le
  have hyes : answer = true ↔ x.fmod y = 0 := by
    rw [hanswer, Comparison.exact]
    by_cases h : x.fmod y = 0 <;> simp [h]
  dsimp only
  split
  · next hdivides =>
    refine .storeAttempt hs₄ (Attempt.divide_ensures (Build.arith_literal ha₄ hb₄ (if_neg hy.ne')
      (Arith.within_floorDiv ha.fits hx.le hy))) fun q s₅ hs₅ hg₅ han₅ hq => ?_
    rw [ceil_eq_of_dvd hy (hyes.1 hdivides)] at hq
    exact simplify_exact hs₅ (hclear₄.store hg₅ han₅).settled hq
  · next hdivides =>
    have hy1 : 1 < y := by
      by_contra h
      obtain rfl : y = 1 := by omega
      exact hdivides (hyes.2 (Int.fmod_one x))
    by_cases hfits : Word.Fits (x + y)
    · refine .store hs₄ (Build.arith_literal ha₄ hb₄ rfl ⟨hfits, by simp⟩)
        fun sum s₅ hs₅ hg₅ han₅ hsum => ?_
      refine .store hs₅ (addConst_literal hsum (add_pos hx hy)) fun p s₆ hs₆ hg₆ han₆ hp => ?_
      refine .storeAttempt hs₆ (Attempt.divide_ensures (Build.arith_literal hp
        ((hb₄.mono hg₅.le).mono hg₆.le) (if_neg hy.ne')
          (Arith.within_floorDiv hp.fits (by omega) hy))) fun q s₇ hs₇ hg₇ han₇ hq => ?_
      have hclear₇ := ((hclear₄.store hg₅ han₅).store hg₆ han₆).store hg₇ han₇
      exact simplify_exact hs₇ hclear₇.settled hq
    · refine .store hs₄ (Build.arith_overflows (.inl rfl) ha₄ hb₄ rfl hfits)
        fun sum s₅ hs₅ hg₅ han₅ hsum => ?_
      refine .store hs₅ (addConst_overflow hsum) ?_
      rintro p s₆ hs₆ hg₆ han₆ ⟨hp, l, hn, hl⟩
      have hb₆ := (hb₄.mono hg₅.le).mono hg₆.le
      refine .storeAttempt hs₆ (Attempt.divide_ensures
        (quotient_ensures (Context.stuck_of_node hp hn)
        hb₆ hy1)) ?_
      rintro q s₇ hs₇ hg₇ han₇ ⟨hq, hnq⟩
      have hclear₇ := ((hclear₄.store hg₅ han₅).store hg₆ han₆).store hg₇ han₇
      have hp₇ := (Context.node_eq hg₇.le hp).trans hn
      refine (Ensures.ofAsk (Query.simplified q s₇ hs₇ hq) (Query.simplify_quotient_stuck
        hclear₇.settled hclear₇.fresh hq hnq hp₇ ((hsum.mono hg₆.le).mono hg₇.le)
          (hl.mono hg₇.le) (hb₆.mono hg₇.le) hy1)).mono ?_
      rintro r t' s' - - - ⟨-, -, hstuck⟩ z hz
      exact absurd hz hstuck.not_literal

end Sweep

/-! ## Tables of literal domains -/

/-- The axis counts from zero up to a literal extent, and is not empty. -/
def Facts.Counts (known : Facts .axis Domain) (ctx : Context) (a : AxisId) (n : Int) : Prop :=
  0 < n ∧ ∃ d, known.FromZero ctx a d ∧ ctx.Literal d.extent n

/-- The domain of the axis has literal ends, and is not empty. -/
def Facts.Ranges (known : Facts .axis Domain) (ctx : Context) (a : AxisId) (m n : Int) : Prop :=
  0 < n ∧ ∃ d, known[a]? = some d ∧ ctx.Literal d.min m ∧ ctx.Literal d.extent n

/-- The extents in the table are literals. -/
def Facts.Spelled (known : Facts .axis Domain) (ctx : Context) : Prop :=
  ∀ (a : AxisId) (d : Domain), known[a]? = some d → ∃ n, ctx.Literal d.extent n

/-- The literal extents of what a relation makes go with those of what it consumes. -/
def AxisRelation.Counted (known : Facts .axis Domain) (ctx : Context) : AxisRelation → Prop
  | .reshape (.split parent outer inner _) => ∃ x m n, known.Counts ctx parent x ∧
      known.Counts ctx outer m ∧ known.Counts ctx inner n ∧ x ≤ m * n
  | .reshape (.fuse outer inner fused) => ∃ m n, known.Counts ctx outer m ∧
      known.Counts ctx inner n ∧ known.Counts ctx fused (m * n)
  | .rebase parent rebased => ∃ n, known.Counts ctx parent n ∧ known.Counts ctx rebased n
  | .singleton a => known.Counts ctx a 1

/-- What a relation makes counts from zero, and its literal extents go with those of what it
consumes, wherever that starts. -/
def AxisRelation.Measured (known : Facts .axis Domain) (ctx : Context) : AxisRelation → Prop
  | .reshape (.split parent outer inner _) => ∃ l x m n, known.Ranges ctx parent l x ∧
      known.Counts ctx outer m ∧ known.Counts ctx inner n ∧ x ≤ m * n
  | .reshape (.fuse outer inner fused) => ∃ k l m n, known.Ranges ctx outer k m ∧
      known.Ranges ctx inner l n ∧ known.Counts ctx fused (m * n)
  | .rebase parent rebased => ∃ l n, known.Ranges ctx parent l n ∧ known.Counts ctx rebased n
  | .singleton a => known.Counts ctx a 1

/-- A scheduled nest over literal factors and roots with literal domains, which may start
anywhere, and the domains of its roots. -/
structure LoopNest.OverRanges (nest : LoopNest) (roots : Facts .axis Domain)
    (ctx : Context) : Prop where
  scheduled : Scheduled ctx nest
  threads : ∀ p ∈ nest.threads.toList, p.2.index < ctx.axes.size
  mem_roots : ∀ a, a ∈ roots ↔ a ∈ nest.roots
  roots : ∀ a ∈ nest.roots, ∃ m n, roots.Ranges ctx a m n
  factors : ∀ r ∈ nest.relations, ∀ e ∈ r.exprs, ∃ n, 0 < n ∧ ctx.Literal e n

/-- A scheduled nest over roots and factors that are literals, and the domains of its roots. -/
structure LoopNest.OverLiterals (nest : LoopNest) (roots : Facts .axis Domain)
    (ctx : Context) : Prop where
  scheduled : Scheduled ctx nest
  threads : ∀ p ∈ nest.threads.toList, p.2.index < ctx.axes.size
  mem_roots : ∀ a, a ∈ roots ↔ a ∈ nest.roots
  roots : ∀ (a : AxisId) (d : Domain), roots[a]? = some d →
    ctx.Literal d.min 0 ∧ ∃ n, 1 ≤ n ∧ ctx.Literal d.extent n
  factors : ∀ r ∈ nest.relations, ∀ e ∈ r.exprs, ∃ n, 0 < n ∧ ctx.Literal e n

section

variable {known known' : Facts .axis Domain} {ctx ctx' : Context} {a : AxisId} {m n : Int}
  {r : AxisRelation}

theorem Facts.Ranges.mono (hsub : known.Subset known') (hctx : ctx ≤ ctx')
    (h : known.Ranges ctx a m n) : known'.Ranges ctx' a m n := by
  obtain ⟨hpos, d, hd, hmin, hextent⟩ := h
  exact ⟨hpos, d, hsub a d hd, hmin.mono hctx, hextent.mono hctx⟩

theorem Facts.Counts.ranges (h : known.Counts ctx a n) : known.Ranges ctx a 0 n := by
  obtain ⟨hpos, d, ⟨hd, hmin⟩, hextent⟩ := h
  exact ⟨hpos, d, hd, hmin, hextent⟩

theorem Facts.Ranges.counts (h : known.Ranges ctx a 0 n) : known.Counts ctx a n := by
  obtain ⟨hpos, d, hd, hmin, hextent⟩ := h
  exact ⟨hpos, d, ⟨hd, hmin⟩, hextent⟩

theorem Facts.Ranges.unique {m' n' : Int} (h : known.Ranges ctx a m n)
    (h' : known.Ranges ctx a m' n') : m = m' ∧ n = n' := by
  obtain ⟨-, d, hd, hm, hn⟩ := h
  obtain ⟨-, d', hd', hm', hn'⟩ := h'
  cases hd.symm.trans hd'
  exact ⟨hm.unique hm', hn.unique hn'⟩

theorem Facts.Counts.mono (hsub : known.Subset known') (hctx : ctx ≤ ctx')
    (h : known.Counts ctx a n) : known'.Counts ctx' a n :=
  (h.ranges.mono hsub hctx).counts

theorem Facts.Counts.unique (hm : known.Counts ctx a m) (hn : known.Counts ctx a n) : m = n :=
  (hm.ranges.unique hn.ranges).2

/-- An axis of which the domain counts from zero starts nowhere else. -/
theorem Facts.Ranges.counts_of_counts {n' : Int} (h : known.Ranges ctx a m n)
    (h' : known.Counts ctx a n') : known.Counts ctx a n := by
  obtain ⟨rfl, rfl⟩ := h.unique h'.ranges
  exact h'

theorem AxisRelation.Measured.mono (hsub : known.Subset known') (hctx : ctx ≤ ctx')
    (h : r.Measured known ctx) : r.Measured known' ctx' := by
  rcases r with (⟨parent, outer, inner, size⟩ | ⟨outer, inner, fused⟩) | ⟨parent, rebased⟩ | a
  · obtain ⟨l, x, m, n, hx, hm, hn, hle⟩ := h
    exact ⟨l, x, m, n, hx.mono hsub hctx, hm.mono hsub hctx, hn.mono hsub hctx, hle⟩
  · obtain ⟨k, l, m, n, hm, hn, hmn⟩ := h
    exact ⟨k, l, m, n, hm.mono hsub hctx, hn.mono hsub hctx, hmn.mono hsub hctx⟩
  · obtain ⟨l, n, hn, hn'⟩ := h
    exact ⟨l, n, hn.mono hsub hctx, hn'.mono hsub hctx⟩
  · exact Facts.Counts.mono hsub hctx h

theorem AxisRelation.Measured.made (h : r.Measured known ctx) :
    ∀ a ∈ r.made, ∃ n, known.Counts ctx a n := by
  rcases r with (⟨parent, outer, inner, size⟩ | ⟨outer, inner, fused⟩) | ⟨parent, rebased⟩ | a
  · obtain ⟨l, x, m, n, -, hm, hn, -⟩ := h
    simpa [AxisRelation.made] using ⟨⟨m, hm⟩, n, hn⟩
  · obtain ⟨k, l, m, n, -, -, hmn⟩ := h
    simpa [AxisRelation.made] using ⟨m * n, hmn⟩
  · obtain ⟨l, n, -, hn⟩ := h
    simpa [AxisRelation.made] using ⟨n, hn⟩
  · exact List.forall_mem_nil _

/-- Over axes that count from zero. -/
theorem AxisRelation.Measured.counted (h : r.Measured known ctx)
    (hconsumed : ∀ a ∈ r.consumed, ∃ n, known.Counts ctx a n) : r.Counted known ctx := by
  rcases r with (⟨parent, outer, inner, size⟩ | ⟨outer, inner, fused⟩) | ⟨parent, rebased⟩ | a
  · obtain ⟨l, x, m, n, hx, hm, hn, hle⟩ := h
    obtain ⟨_, hzero⟩ := hconsumed parent (.head _)
    exact ⟨x, m, n, hx.counts_of_counts hzero, hm, hn, hle⟩
  · obtain ⟨k, l, m, n, hm, hn, hmn⟩ := h
    obtain ⟨_, houter⟩ := hconsumed outer (.head _)
    obtain ⟨_, hinner⟩ := hconsumed inner (.tail _ (.head _))
    exact ⟨m, n, hm.counts_of_counts houter, hn.counts_of_counts hinner, hmn⟩
  · obtain ⟨l, n, hn, hn'⟩ := h
    obtain ⟨_, hzero⟩ := hconsumed parent (.head _)
    exact ⟨n, hn.counts_of_counts hzero, hn'⟩
  · exact h

theorem LoopNest.OverLiterals.overRanges {nest : LoopNest} (h : nest.OverLiterals known ctx) :
    nest.OverRanges known ctx := by
  refine ⟨h.scheduled, h.threads, h.mem_roots, fun a ha => ?_, h.factors⟩
  obtain ⟨d, hd⟩ := exists_get_of_mem ((h.mem_roots a).2 ha)
  obtain ⟨hmin, n, hn, hextent⟩ := h.roots a d hd
  exact ⟨0, n, hn, d, hd, hmin, hextent⟩

/-- The literals of a later table were literals before. -/
theorem Facts.Spelled.restrict (hsub : known.Subset known') (hctx : ctx ≤ ctx')
    (hstored : ∀ (a : AxisId) (d : Domain), known[a]? = some d → ctx.StoredDomain d)
    (h : known'.Spelled ctx') : known.Spelled ctx := by
  intro a d hd
  obtain ⟨n, hn⟩ := h a d (hsub a d hd)
  exact ⟨n, hn.restrict hctx (hstored a d hd).2⟩

end

namespace Sweep

variable {s : Session} {given : Env Domain} {start known : Facts .axis Domain} {key : AxisId}
  {d e : Domain} {allowMissing : Bool} {x n : Int}

theorem learn_clear {σ : Type} {t : σ} {v : VarId} (hs : s.Valid) (hd : s.ctx.StoredDomain d) :
    Ensures .univ (liftM (Query.learn v d) : Sweep σ Unit) t s fun _ _ s' => s'.Clear := by
  intro _ _ _ hrun
  obtain ⟨hs', hg, hdomains, -⟩ := Ensures.learn hs hd (Set.mem_univ v) _ _ _ hrun
  cases hrun
  exact ⟨hs', hg, hdomains, (Session.learn_forgets s v d).1, (Session.learn_forgets s v d).2⟩

/-- Who enters a domain forgets what was asked before. -/
theorem enterExtent_clear {extent : ExprId} (hs : s.Valid) (hnew : key ∉ known)
    (hextent : s.ctx.Stored extent) :
    Ensures .univ (do setDomain key (← Domain.ofExtent extent)) known s fun _ _ s' => s'.Clear := by
  refine .store hs (Domain.ofExtent_fromZero s.ctx extent)
    fun d s₁ hs₁ hg₁ han₁ ⟨hmin, hd⟩ => ?_
  unfold setDomain
  refine .table ?_
  rw [Std.TreeMap.getElem?_eq_none hnew]
  refine (Ensures.changeTable (Q := fun _ _ s' => s' = s₁) hs₁ rfl).bind ?_
  rintro _ _ _ - - - rfl
  refine .context ?_
  exact learn_clear hs₁ ⟨hmin.1, hd ▸ hextent.mono hg₁.le⟩

theorem enterExtent_found {extent : ExprId} (hs : s.Valid) (hkey : key.index < s.ctx.axes.size)
    (hnew : key ∉ known) (h : Tabled given start known s) (hextent : s.ctx.Stored extent) :
    Ensures .univ (do setDomain key (← Domain.ofExtent extent)) known s fun _ known' s' =>
      Finds given start known [key] known' s' ∧ s'.Clear ∧
        ∃ d, known'.FromZero s'.ctx key d ∧ d.extent = extent := by
  refine ((enterExtent_tabled hs hkey hnew h hextent).and
    (enterExtent_clear hs hnew hextent)).mono ?_
  rintro _ known' s' - - - ⟨⟨hfinds, hd⟩, hclear⟩
  exact ⟨hfinds, hclear, hd⟩

/-- An extent that is found is a literal only if it is the one that it should be. -/
theorem counts_of_spelled {ctx ctx' : Context} {extent : ExprId} (hg : ctx.Grows ctx')
    (hextent : ctx.Stored extent) (hexact : ∀ z, ctx.Literal extent z → z = n) (hn : 0 < n)
    (hd : known.FromZero ctx' key d ∧ d.extent = extent) (hspelled : known.Spelled ctx') :
    known.Counts ctx' key n := by
  obtain ⟨hzero, rfl⟩ := hd
  obtain ⟨z, hz⟩ := hspelled key d hzero.1
  obtain rfl := hexact z (hz.restrict hg.le hextent)
  exact ⟨hn, d, hzero, hz⟩

/-- The parts of a split over literals: if both extents are literals then they are the given one
and the exact quotient rounded up. -/
theorem partDomains_counts {first second : AxisId} {whole size : ExprId} (hs : s.Valid)
    (hfirst : first.index < s.ctx.axes.size) (hsecond : second.index < s.ctx.axes.size)
    (hfirstNew : first ∉ known) (hsecondNew : second ∉ known) (hne : second ≠ first)
    (h : Tabled given start known s) (hwhole : s.ctx.Literal whole x) (hx : 0 < x)
    (hsize : s.ctx.Literal size n) (hn : 0 < n) :
    Ensures .univ (do
      setDomain first (← Domain.ofExtent size)
      let count ← ceilDiv whole size
      setDomain second (← Domain.ofExtent count)) known s fun _ known' s' =>
        Finds given start known [second, first] known' s' ∧ s'.Settled ∧
          (known'.Spelled s'.ctx → known'.Counts s'.ctx first n ∧
            known'.Counts s'.ctx second ((x + n - 1).fdiv n)) := by
  rw [← bind_assoc]
  refine (enterExtent_found hs hfirst hfirstNew h hsize.1).bind ?_
  rintro _ known₁ s₁ hs₁ hg₁ - ⟨hfinds₁, hclear₁, d, hd, hdsize⟩
  refine Ensures.bind (Q := fun count t' s' => t' = known₁ ∧ s'.domains = s₁.domains ∧
    s'.ctx.Stored count ∧ ∀ z, s'.ctx.Literal count z → z = (x + n - 1).fdiv n) ?_ ?_
  · refine ((ceilDiv_denotes hs₁ (hwhole.mono hg₁.le).over (hsize.mono hg₁.le).over).and
      (ceilDiv_exact hs₁ hclear₁ (hwhole.mono hg₁.le) (hsize.mono hg₁.le) hx hn)).mono ?_
    rintro count t' s' - - - ⟨⟨rfl, hd, hcount⟩, hexact⟩
    exact ⟨rfl, hd, hcount.stored, hexact⟩
  rintro count known₁ s₂ hs₂ hg₂ - ⟨rfl, hd₂, hcount, hexact⟩
  have hnew : second ∉ known₁ := by
    rw [hfinds₁.enters.mem, List.mem_singleton]
    exact not_or.2 ⟨hne, hsecondNew⟩
  refine (enterExtent_found hs₂ (by rwa [hg₂.axes, hg₁.axes]) hnew
    (hfinds₁.tabled.mono hg₂ hd₂) hcount).mono ?_
  rintro _ known' s' - hg' - ⟨hfinds', hclear', e, he⟩
  refine ⟨⟨hfinds₁.enters.trans hfinds'.enters, hfinds'.tabled⟩, hclear'.settled,
    fun hspelled => ⟨⟨hn, d, ?_, ?_⟩, counts_of_spelled hg' hcount hexact ?_ he hspelled⟩⟩
  · exact ⟨hfinds'.enters.old _ _ hd.1, (hd.2.mono hg₂.le).mono hg'.le⟩
  · exact hdsize ▸ hsize.mono (hg₁.trans (hg₂.trans hg')).le
  · exact (mul_pos_iff_of_pos_right hn).1 (hx.trans_le (le_ceil_mul hn))

/-- What finding the domains of a relation over literals leads to. -/
abbrev CountsTo (given : Env Domain) (start known : Facts .axis Domain) (r : AxisRelation)
    (known' : Facts .axis Domain) (s' : Session) : Prop :=
  Finds given start known r.made known' s' ∧ s'.Settled ∧
    (known'.Spelled s'.ctx → r.Measured known' s'.ctx)

theorem splitDomains_count {parent outer inner : AxisId} {size : SplitBy} {l : Int} (hs : s.Valid)
    (hreg : ∀ a ∈ [outer, inner], a.index < s.ctx.axes.size)
    (hold : known.Ranges s.ctx parent l x) (hnew : ∀ a ∈ [outer, inner], a ∉ known)
    (hdistinct : outer ≠ inner) (hsize : s.ctx.Literal size.extent n) (hn : 0 < n)
    (h : Tabled given start known s) :
    Ensures .univ (relationDomains allowMissing (.reshape (.split parent outer inner size))) known s
      fun _ known' s' =>
        CountsTo given start known (.reshape (.split parent outer inner size)) known' s' := by
  simp only [List.mem_cons, List.not_mem_nil, or_false, forall_eq_or_imp, forall_eq] at hreg hnew
  obtain ⟨hx, whole, hwhole, -, hextent⟩ := id hold
  have hle := le_ceil_mul (x := x) hn
  refine .table (.requireFound hwhole ?_)
  cases size with
  | factor extent =>
      refine (partDomains_counts hs hreg.2 hreg.1 hnew.2 hnew.1 hdistinct h hextent hx hsize
        hn).mono ?_
      rintro _ known' s' - hg - ⟨hfinds, hsettled, hcounts⟩
      refine ⟨hfinds, hsettled, fun hspelled => ?_⟩
      obtain ⟨hinner, houter⟩ := hcounts hspelled
      exact ⟨l, x, _, n, hold.mono hfinds.enters.old hg.le, houter, hinner, hle⟩
  | parts extent =>
      refine (partDomains_counts hs hreg.1 hreg.2 hnew.1 hnew.2 hdistinct.symm h hextent hx hsize
        hn).mono ?_
      rintro _ known' s' - hg - ⟨hfinds, hsettled, hcounts⟩
      refine ⟨⟨hfinds.enters.swap, hfinds.tabled⟩, hsettled, fun hspelled => ?_⟩
      obtain ⟨houter, hinner⟩ := hcounts hspelled
      exact ⟨l, x, n, _, hold.mono hfinds.enters.old hg.le, houter, hinner, mul_comm n _ ▸ hle⟩

/-- A product of literals that is simplified to a literal is the exact one. -/
theorem product_exact {σ : Type} {t : σ} {V : Set VarId} {a b : ExprId} {m : Int} (hs : s.Valid)
    (hset : s.Settled) (ha : s.ctx.Literal a m) (hb : s.ctx.Literal b n) :
    Ensures V (do Query.simplify (← Build.mul a b) : Sweep σ ExprId) t s fun r t' s' =>
      t' = t ∧ s'.domains = s.domains ∧ s'.ctx.Stored r ∧ ∀ z, s'.ctx.Literal r z → z = m * n := by
  have hkeeps : ∀ {e : ExprId} {s' : Session} {R : ExprId → Session → Prop}, s'.Valid →
      s'.analyzer = s.analyzer → s'.ctx.Stored e →
      Ensures V (liftM (Query.simplify e) : Sweep σ ExprId) t s' (fun r _ s'' => R r s'') →
      Ensures V (liftM (Query.simplify e) : Sweep σ ExprId) t s' fun r t' s'' =>
        t' = t ∧ s''.domains = s.domains ∧ s''.ctx.Stored r ∧ R r s'' := by
    intro e s' R hs' han he hR
    refine ((Ensures.ofQuery (Query.simplified e s' hs' he)).and hR).mono ?_
    rintro r t' s'' - - - ⟨⟨rfl, hd, hpost⟩, hr⟩
    exact ⟨rfl, hd.trans (Session.domains_eq han), hpost.result_stored, hr⟩
  by_cases hfits : Word.Fits (m * n)
  · refine .store hs (Build.arith_literal ha hb rfl ⟨hfits, by simp⟩)
      fun product s₁ hs₁ hg₁ han₁ hproduct => ?_
    exact hkeeps hs₁ han₁ hproduct.1 (simplify_exact hs₁ (hset.store hg₁ han₁) hproduct)
  · refine .store hs (Build.arith_overflows (.inr rfl) ha hb rfl hfits)
      fun product s₁ hs₁ hg₁ han₁ hproduct => ?_
    refine hkeeps hs₁ han₁ hproduct.stored ((Ensures.ofAsk
      (Query.simplified product s₁ hs₁ hproduct.stored)
        (Query.simplify_overflows (hset.store hg₁ han₁) hproduct)).mono ?_)
    rintro r t' s' - - - ⟨-, -, -, -, hr, -⟩ z hz
    exact absurd hz hr.stuck.not_literal

theorem fuseDomains_count {outer inner fused : AxisId} {k l m : Int} (hs : s.Valid)
    (hset : s.Settled) (hreg : fused.index < s.ctx.axes.size)
    (houter : known.Ranges s.ctx outer k m) (hinner : known.Ranges s.ctx inner l n)
    (hnew : fused ∉ known) (h : Tabled given start known s) :
    Ensures .univ (relationDomains allowMissing (.reshape (.fuse outer inner fused))) known s
      fun _ known' s' =>
        CountsTo given start known (.reshape (.fuse outer inner fused)) known' s' := by
  obtain ⟨hm, first, hfirst, -, hfirstExtent⟩ := id houter
  obtain ⟨hn, second, hsecond, -, hsecondExtent⟩ := id hinner
  refine .table (.requireFound hfirst (.table (.requireFound hsecond ?_)))
  dsimp only
  rw [← bind_assoc]
  refine (product_exact hs hset hfirstExtent hsecondExtent).bind ?_
  rintro extent _ s₁ hs₁ hg₁ - ⟨rfl, hd₁, hextent, hexact⟩
  refine (enterExtent_found hs₁ (hg₁.axes ▸ hreg) hnew (h.mono hg₁ hd₁) hextent).mono ?_
  rintro _ known' s' - hg' - ⟨hfinds, hclear, d, hd⟩
  have hg := hg₁.trans hg'
  refine ⟨hfinds, hclear.settled, fun hspelled => ⟨k, l, m, n,
    houter.mono hfinds.enters.old hg.le, hinner.mono hfinds.enters.old hg.le, ?_⟩⟩
  exact counts_of_spelled hg' hextent hexact (mul_pos hm hn) hd hspelled

theorem rebaseDomains_count {parent rebased : AxisId} {l : Int} (hs : s.Valid)
    (hreg : rebased.index < s.ctx.axes.size) (hold : known.Ranges s.ctx parent l n)
    (hnew : rebased ∉ known) (h : Tabled given start known s) :
    Ensures .univ (relationDomains allowMissing (.rebase parent rebased)) known s
      fun _ known' s' => CountsTo given start known (.rebase parent rebased) known' s' := by
  obtain ⟨hn, whole, hwhole, -, hextent⟩ := id hold
  refine .table (.requireFound hwhole ?_)
  refine (enterExtent_found hs hreg hnew h hextent.1).mono ?_
  rintro _ known' s' - hg' - ⟨hfinds, hclear, d, hd⟩
  refine ⟨hfinds, hclear.settled, fun hspelled => ⟨l, n, hold.mono hfinds.enters.old hg'.le, ?_⟩⟩
  exact counts_of_spelled hg' hextent.1 (fun z hz => hz.unique hextent) hn hd hspelled

/-- Literal extents are shown to be the same only if they are. -/
theorem agrees_exact {σ : Type} {t : σ} {V : Set VarId} {m : Int} (hs : s.Valid) (hset : s.Settled)
    (hd : s.ctx.Literal d.extent m) (he : s.ctx.Literal e.extent n) (hm : 0 < m) (hn : 0 < n) :
    Ensures V (agrees d e : Sweep σ Bool) t s fun same _ s' =>
      s'.Settled ∧ (same = true → m = n) := by
  unfold agrees
  split
  · next heq => exact .pure hs ⟨hset, fun _ => hd.unique (heq ▸ he)⟩
  have hfits := he.fits.sub hd.fits hn.le hm.le
  refine .store hs (Build.arith_literal he hd rfl ⟨hfits, by simp⟩)
    fun diff s₁ hs₁ hg₁ han₁ hdiff => ?_
  refine .storeAttempt hs₁ (Attempt.inline_ensures false hdiff.over) ?_
  rintro diff s₂ hs₂ hg₂ han₂ ⟨rfl, -⟩
  refine .store hs₂ (Build.constantLike_literal s₂.ctx 0 diff)
    fun zero s₃ hs₃ hg₃ han₃ hzero => ?_
  refine .store hs₃ (Build.compare_literal .eq ((hdiff.mono hg₂.le).mono hg₃.le) hzero)
    fun same s₄ hs₄ hg₄ han₄ hsame => ?_
  have hset₄ := (((hset.store hg₁ han₁).store hg₂ han₂).store hg₃ han₃).store hg₄ han₄
  refine .context ?_
  split
  · refine (Ensures.ofAsk (Query.proves_ensures hs₄ hsame.1)
      (Query.proves_literal hset₄ hsame)).mono ?_
    rintro answer t' s' - - - ⟨-, -, hanswer, hnotes⟩
    refine ⟨hnotes.settled hset₄, fun hyes => ?_⟩
    rw [hanswer, Comparison.exact] at hyes
    by_contra hne
    have hne' : n - m ≠ 0 := sub_ne_zero.2 (Ne.symm hne)
    simp [hne'] at hyes
  · exact .pure hs₄ ⟨hset₄, by simp⟩

/-- A pinned axis has the point zero alone: it starts there, and a literal that is shown to be one
is one. -/
theorem singletonDomain_counts {a : AxisId} {l : Int} (hs : s.Valid) (hset : s.Settled)
    (hold : known.Ranges s.ctx a l n) (h : Tabled given start known s) :
    Ensures .univ (relationDomains allowMissing (.singleton a)) known s
      fun _ known' s' => CountsTo given start known (.singleton a) known' s' := by
  refine .store hs (P := fun d ctx => ctx.Literal d.min 0 ∧ ctx.Literal d.extent 1) ?_
    fun unit s₁ hs₁ hg₁ han₁ ⟨hzero, hunit⟩ => ?_
  · refine (Build.constant_literal s.ctx 0 .int32).bind fun zero ctx₁ hg₁ hzero => ?_
    refine (Build.constant_literal ctx₁ 1 .int32).bind fun one ctx₂ hg₂ hone => ?_
    exact .pure ⟨hzero.mono hg₂.le, hone⟩
  have hset₁ := hset.store hg₁ han₁
  obtain ⟨hn, d, hd, hmin, hextent⟩ := hold.mono (fun _ _ => id) hg₁.le
  have htabled₁ := h.mono hg₁ (Session.domains_eq han₁)
  unfold setDomain
  refine .table ?_
  rw [hd]
  refine ((agrees_sound hs₁ ⟨hmin.1, hextent.1⟩ ⟨hzero.1, hunit.1⟩).and
    (agrees_exact hs₁ hset₁ hextent hunit hn one_pos)).bind ?_
  rintro same known s₂ hs₂ hg₂ - ⟨⟨rfl, hd₂, hconfirms⟩, hset₂, hsame⟩
  split
  · exact .context .throw
  · next hyes =>
    have hyes : same = true := by simpa using hyes
    obtain rfl := hsame hyes
    refine .pure hs₂ ⟨⟨.refl known, htabled₁.mono hg₂ hd₂⟩, hset₂, fun _ => ?_⟩
    refine ⟨one_pos, d, ⟨hd, ?_⟩, hextent.mono hg₂.le⟩
    rcases (hconfirms hyes).anchored with rfl | hmin'
    exacts [hzero.mono hg₂.le, hmin']

theorem relationDomains_count {r : AxisRelation} (hs : s.Valid) (hset : s.Settled)
    (hr : Upcoming r known s)
    (hold : ∀ a, a ∈ r.consumed ∨ r = .singleton a → ∃ m n, known.Ranges s.ctx a m n)
    (hsizes : ∀ e ∈ r.exprs, ∃ n, 0 < n ∧ s.ctx.Literal e n) (h : Tabled given start known s) :
    Ensures .univ (relationDomains allowMissing r) known s
      fun _ known' s' => CountsTo given start known r known' s' := by
  obtain ⟨-, hnew, hreg, hdistinct, -⟩ := hr
  rcases r with (⟨parent, outer, inner, size⟩ | ⟨outer, inner, fused⟩) | ⟨parent, rebased⟩ | a
  · obtain ⟨n, hn, hsize⟩ := hsizes size.extent (by simp [AxisRelation.exprs])
    obtain ⟨l, x, hx⟩ := hold parent (by simp [AxisRelation.consumed])
    simp only [AxisRelation.made, List.nodup_cons, List.mem_singleton] at hdistinct
    exact splitDomains_count hs hreg hx hnew hdistinct.1 hsize hn h
  · obtain ⟨k, m, hm⟩ := hold outer (by simp [AxisRelation.consumed])
    obtain ⟨l, n, hn⟩ := hold inner (by simp [AxisRelation.consumed])
    exact fuseDomains_count hs hset (hreg fused (by simp [AxisRelation.made])) hm hn
      (hnew fused (by simp [AxisRelation.made])) h
  · obtain ⟨l, n, hn⟩ := hold parent (by simp [AxisRelation.consumed])
    exact rebaseDomains_count hs (hreg rebased (by simp [AxisRelation.made])) hn
      (hnew rebased (by simp [AxisRelation.made])) h
  · obtain ⟨l, n, hn⟩ := hold a (.inr rfl)
    exact singletonDomain_counts hs hset hn h

/-! ## The sweep -/

theorem relations_count {nest : LoopNest} (hs : s.Valid) (hset : s.Settled)
    (hnest : nest.OverRanges start s.ctx) (h : Tabled given start start s) :
    Ensures .univ (nest.relations.forM (relationDomains allowMissing)) start s fun _ known s' =>
      Tabled given start known s' ∧ (known.Spelled s'.ctx →
        (∀ a ∈ nest.axes, ∃ m n, known.Ranges s'.ctx a m n) ∧
          ∀ r ∈ nest.relations, r.Measured known s'.ctx) := by
  have hshaped := hnest.scheduled.shaped
  have hcount : ∀ {done : List AxisRelation} {known : Facts .axis Domain} {s₁ : Session},
      s.ctx.Grows s₁.ctx → start.Subset known → (∀ r ∈ done, r.Measured known s₁.ctx) →
        ∀ a, a ∈ nest.roots ∨ a ∈ done.flatMap AxisRelation.made →
          ∃ m n, known.Ranges s₁.ctx a m n := by
    rintro done known s₁ hg hsub hdone a (ha | ha)
    · obtain ⟨m, n, hn⟩ := hnest.roots a ha
      exact ⟨m, n, hn.mono hsub hg.le⟩
    · obtain ⟨r, hr, ha⟩ := List.mem_flatMap.1 ha
      obtain ⟨n, hn⟩ := (hdone r hr).made a ha
      exact ⟨0, n, hn.ranges⟩
  refine (relations_tabled (fun done known s' => s.ctx.Grows s'.ctx ∧ (known.Spelled s'.ctx →
    s'.Settled ∧ ∀ r ∈ done, r.Measured known s'.ctx)) hs hnest.scheduled hnest.mem_roots h
    ⟨.refl _, fun _ => ⟨hset, nofun⟩⟩ ?_).mono ?_
  · rintro done r known s₁ hr hs₁ hg₁ htabled hmem hnext ⟨-, hdone⟩
    by_cases hspelled : known.Spelled s₁.ctx
    · obtain ⟨hset₁, hdone⟩ := hdone hspelled
      refine (relationDomains_count hs₁ hset₁ hnext (fun a ha => ?_) (fun e he => ?_)
        htabled).mono ?_
      · exact hcount hg₁ htabled.old hdone a ((hmem a).1 (hnext.consumed a ha))
      · obtain ⟨n, hn, hsize⟩ := hnest.factors r hr e he
        exact ⟨n, hn, hsize.mono hg₁.le⟩
      · rintro _ known' s₂ - hg₂ - ⟨hfinds, hset₂, hr'⟩
        refine ⟨hfinds, hg₁.trans hg₂, fun hspelled' => ⟨hset₂, fun r' hr'' => ?_⟩⟩
        rcases List.mem_append.1 hr'' with hr'' | hr''
        · exact (hdone r' hr'').mono hfinds.enters.old hg₂.le
        · exact List.mem_singleton.1 hr'' ▸ hr' hspelled'
    -- Domains stay, so an extent that is no literal will not become one.
    · refine (relationDomains_tiles hs₁ hnext htabled).mono ?_
      rintro _ known' s₂ - hg₂ - ⟨hfinds, -⟩
      exact ⟨hfinds, hg₁.trans hg₂, fun hspelled' =>
        absurd (hspelled'.restrict hfinds.enters.old hg₂.le htabled.stored) hspelled⟩
  · rintro _ known s' - - - ⟨htabled, hg, hdone⟩
    refine ⟨htabled, fun hspelled => ⟨fun a ha => ?_, (hdone hspelled).2⟩⟩
    refine hcount hg htabled.old (hdone hspelled).2 a ?_
    rwa [← List.mem_append, ← hshaped.axes_eq]

/-- If all extents that are found are literals then they are the exact ones, wherever the roots
start. -/
theorem domains_measure {nest : LoopNest} {roots known : Facts .axis Domain} {s s' : Session}
    (hnest : nest.OverRanges roots s.ctx) (hs : s.Reachable)
    (hrun : ((domains nest allowMissing).run.run roots).run s = ((.ok (), known), s'))
    (hspelled : known.Spelled s'.ctx) :
    s.ctx.Grows s'.ctx ∧ roots.Subset known ∧
      (∀ a ∈ nest.axes, ∃ m n, known.Ranges s'.ctx a m n) ∧
        ∀ r ∈ nest.relations, r.Measured known s'.ctx := by
  have hshaped := hnest.scheduled.shaped
  have hstart : Tabled s.domains roots roots s := by
    refine ⟨⟨fun a d ha hd => absurd (mem_of_get hd) ha, fun v d => .inl⟩, fun a d hd => ?_,
      fun a ha => ?_, fun _ _ => id⟩
    · obtain ⟨_, _, -, d', hd', hmin, hextent⟩ :=
        hnest.roots a ((hnest.mem_roots a).1 (mem_of_get hd))
      cases hd.symm.trans hd'
      exact ⟨hmin.1, hextent.1⟩
    · exact hshaped.registered a (hshaped.mem_axes_of_mem_roots ((hnest.mem_roots a).1 ha))
  have hsweep : Ensures .univ (domains nest allowMissing) roots s fun _ known s' =>
      roots.Subset known ∧ (known.Spelled s'.ctx →
        (∀ a ∈ nest.axes, ∃ m n, known.Ranges s'.ctx a m n) ∧
          ∀ r ∈ nest.relations, r.Measured known s'.ctx) := by
    refine (relations_count hs.valid hs.settled hnest hstart).bind ?_
    rintro _ known₁ s₁ hs₁ hg₁ - ⟨htabled₁, hcount₁⟩
    refine (threads_tabled hs₁ (hg₁.axes ▸ hnest.threads) htabled₁).mono ?_
    rintro _ known s₂ - hg₂ - ⟨htabled₂, hsub⟩
    refine ⟨htabled₂.old, fun hspelled => ?_⟩
    obtain ⟨haxes, hrelations⟩ := hcount₁ (hspelled.restrict hsub hg₂.le htabled₁.stored)
    refine ⟨fun a ha => ?_, fun r hr => (hrelations r hr).mono hsub hg₂.le⟩
    obtain ⟨m, n, hn⟩ := haxes a ha
    exact ⟨m, n, hn.mono hsub hg₂.le⟩
  obtain ⟨-, hg, -, hsub, hcount⟩ := hsweep _ _ _ hrun
  exact ⟨hg, hsub, hcount hspelled⟩

/-- Over roots that count from zero, so do all axes. -/
theorem domains_count {nest : LoopNest} {roots known : Facts .axis Domain} {s s' : Session}
    (hnest : nest.OverLiterals roots s.ctx) (hs : s.Reachable)
    (hrun : ((domains nest allowMissing).run.run roots).run s = ((.ok (), known), s'))
    (hspelled : known.Spelled s'.ctx) :
    s.ctx.Grows s'.ctx ∧ roots.Subset known ∧
      (∀ a ∈ nest.axes, ∃ n, known.Counts s'.ctx a n) ∧
        ∀ r ∈ nest.relations, r.Counted known s'.ctx := by
  have hshaped := hnest.scheduled.shaped
  obtain ⟨hg, hsub, -, hmeasured⟩ := domains_measure hnest.overRanges hs hrun hspelled
  have haxes : ∀ a ∈ nest.axes, ∃ n, known.Counts s'.ctx a n := by
    intro a ha
    rw [hshaped.axes_eq, List.mem_append] at ha
    rcases ha with ha | ha
    · obtain ⟨d, hd⟩ := exists_get_of_mem ((hnest.mem_roots a).2 ha)
      obtain ⟨hmin, n, hn, hextent⟩ := hnest.roots a d hd
      exact ⟨n, hn, d, ⟨hsub a d hd, hmin.mono hg.le⟩, hextent.mono hg.le⟩
    · obtain ⟨r, hr, ha⟩ := List.mem_flatMap.1 ha
      exact (hmeasured r hr).made a ha
  exact ⟨hg, hsub, haxes, fun r hr => (hmeasured r hr).counted fun a ha =>
    haxes a (hshaped.mem_axes_of_mem_consumed hr ha)⟩

end Sweep

end LoopBounds
