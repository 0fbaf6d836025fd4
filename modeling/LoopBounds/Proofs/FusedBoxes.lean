import LoopBounds.Proofs.Extents
import LoopBounds.Proofs.Sets
import Mathlib.Order.Interval.Finset.Basic

/-!
# Boxes of fused intervals

An interval of a fused axis goes up to a box of rows and columns.  Over literals nothing fails and
both sets are literal intervals.  The box has no more points than the interval if this is a
stretch of equal parts of a row, or whole rows; otherwise all columns are taken.
-/

namespace LoopBounds

/-! ## Sweeps over literals -/

theorem Context.Literal.isZero_eq {ctx : Context} {e : ExprId} {z : Int} (h : ctx.Literal e z) :
    ctx.isZero e = decide (z = 0) := by
  obtain ⟨-, w, hw, rfl⟩ := h
  rw [isZero, hw]
  simp [Word.toInt_eq_zero_iff]

namespace Build

variable {ctx : Context} {a b : ExprId} {x y : Int}

theorem add_literal (ha : ctx.Literal a x) (hb : ctx.Literal b y) (hfits : Word.Fits (x + y)) :
    Ensures (add a b) ctx fun r ctx' => ctx'.Literal r (x + y) :=
  arith_literal ha hb rfl ⟨hfits, nofun⟩

theorem sub_literal (ha : ctx.Literal a x) (hb : ctx.Literal b y) (hfits : Word.Fits (x - y)) :
    Ensures (sub a b) ctx fun r ctx' => ctx'.Literal r (x - y) :=
  arith_literal ha hb rfl ⟨hfits, nofun⟩

theorem addConst_literal {w : Int64} (ha : ctx.Literal a x) (hfits : Word.Fits (x + w.toInt)) :
    Ensures (addConst a w) ctx fun r ctx' => ctx'.Literal r (x + w.toInt) :=
  (constantLike_literal ctx w a).bind fun _ _ hg hl => add_literal (ha.mono hg.le) hl hfits

theorem offset_literal (ha : ctx.Literal a x) (hb : ctx.Literal b y)
    (hfits : Word.Fits (x + y)) :
    Ensures (offset a b) ctx fun r ctx' => ctx'.Literal r (x + y) := by
  refine .get ?_
  rw [hb.isZero_eq]
  by_cases hy : y = 0
  · subst hy
    exact .pure (by rwa [add_zero])
  · rw [decide_eq_false hy]
    exact add_literal ha hb hfits

end Build

theorem Session.Reachable.grow {s s' : Session} (h : s.Reachable) (hg : s.ctx.Grows s'.ctx)
    (han : s'.analyzer = s.analyzer) : s'.Reachable := by
  obtain ⟨ctx, an⟩ := s
  obtain ⟨ctx', an'⟩ := s'
  cases han
  exact .store h hg.le (hg.wellFormed h.valid.wellFormed)

namespace Query

variable {α β : Type} {q : Query α} {f : α → Query β} {s : Session} {P R : α → Context → Prop}
  {S : β → Context → Prop} {e a b : ExprId} {x y z : Int}

/-- The query leaves a session that arises as its own did, and an answer of which `P` holds. -/
structure Answers (q : Query α) (s : Session) (P : α → Context → Prop) : Prop where
  reachable : (q.run s).2.Reachable
  grows : s.ctx.Grows (q.run s).2.ctx
  post : P (q.run s).1 (q.run s).2.ctx

theorem Answers.pure {x : α} (hs : s.Reachable) (h : P x s.ctx) : Answers (pure x) s P :=
  ⟨hs, .refl _, h⟩

theorem Answers.mono (h : Answers q s P)
    (hP : ∀ x ctx, s.ctx.Grows ctx → P x ctx → R x ctx) : Answers q s R :=
  ⟨h.reachable, h.grows, hP _ _ h.grows h.post⟩

theorem Answers.bind (hq : Answers q s P)
    (hf : ∀ x s', s'.Reachable → s.ctx.Grows s'.ctx → P x s'.ctx → Answers (f x) s' S) :
    Answers (q >>= f) s S := by
  obtain ⟨hs', hg', hpost⟩ := hf _ _ hq.reachable hq.grows hq.post
  exact ⟨hs', hq.grows.trans hg', hpost⟩

theorem Answers.build {b : Build α} (hs : s.Reachable) (h : Build.Ensures b s.ctx P) :
    Answers (liftM b : Query α) s P :=
  ⟨hs.grow h.1 rfl, h.1, h.2⟩

theorem simplify_answers (hs : s.Reachable) (he : s.ctx.Literal e z) :
    Answers (simplify e) s fun r ctx => ctx.Literal r z := by
  obtain ⟨hr, hnotes⟩ := simplify_literal hs.settled he
  refine ⟨.simplify hs he.1, ?_, ?_⟩ <;> rw [hnotes.ctx]
  exacts [.refl _, hr]

theorem provesEqual_answers (hs : s.Reachable) (ha : s.ctx.Literal a x) (hb : s.ctx.Literal b y)
    (hfits : Word.Fits (x - y)) :
    Answers (provesEqual a b) s fun answer _ => answer = decide (x = y) := by
  unfold provesEqual
  split
  · next heq => exact .pure hs (decide_eq_true (ha.unique (heq ▸ hb))).symm
  refine (Answers.build hs (Build.sub_literal ha hb hfits)).bind
    fun diff s₁ hs₁ _ hdiff => ?_
  refine (simplify_answers hs₁ hdiff).bind fun rest s₂ hs₂ _ hrest => ?_
  refine ⟨hs₂, .refl _, ?_⟩
  change s₂.ctx.isZero rest = _
  rw [hrest.isZero_eq]
  exact decide_eq_decide.2 sub_eq_zero

end Query

namespace Sweep

section

variable {σ α β : Type} {m : Sweep σ α} {f : α → Sweep σ β} {t : σ} {s : Session}
  {Q R : α → σ → Context → Prop} {S : β → σ → Context → Prop} {P : α → Context → Prop}

/-- The sweep does not fail.  It leaves a session that arises as its own did, and `Q` holds of its
result, its table and the context. -/
def Finishes (m : Sweep σ α) (t : σ) (s : Session) (Q : α → σ → Context → Prop) : Prop :=
  ∃ x t' s', (m.run.run t).run s = ((.ok x, t'), s') ∧ s'.Reachable ∧ s.ctx.Grows s'.ctx ∧
    Q x t' s'.ctx

theorem Finishes.pure {x : α} (hs : s.Reachable) (h : Q x t s.ctx) :
    Finishes (pure x : Sweep σ α) t s Q := ⟨x, t, s, rfl, hs, .refl _, h⟩

theorem Finishes.mono (h : Finishes m t s Q)
    (hQ : ∀ x t' ctx, s.ctx.Grows ctx → Q x t' ctx → R x t' ctx) : Finishes m t s R := by
  obtain ⟨x, t', s', hrun, hs', hg, h⟩ := h
  exact ⟨x, t', s', hrun, hs', hg, hQ x t' _ hg h⟩

theorem Finishes.bind (hm : Finishes m t s Q)
    (hf : ∀ x t' s', s'.Reachable → s.ctx.Grows s'.ctx → Q x t' s'.ctx → Finishes (f x) t' s' S) :
    Finishes (m >>= f) t s S := by
  obtain ⟨x, t₁, s₁, hfirst, hs₁, hg₁, h⟩ := hm
  obtain ⟨y, t₂, s₂, hsecond, hs₂, hg₂, h'⟩ := hf x t₁ s₁ hs₁ hg₁ h
  refine ⟨y, t₂, s₂, ?_, hs₂, hg₁.trans hg₂, h'⟩
  simp only [ExceptT.run_bind, StateT.run_bind, hfirst]
  exact hsecond

theorem Finishes.ofQuery {q : Query α} (h : Query.Answers q s P) :
    Finishes (liftM q : Sweep σ α) t s fun x t' ctx => t' = t ∧ P x ctx :=
  ⟨_, t, _, rfl, h.reachable, h.grows, rfl, h.post⟩

theorem Finishes.query {q : Query α} (h : Query.Answers q s P)
    (hf : ∀ x s', s'.Reachable → s.ctx.Grows s'.ctx → P x s'.ctx → Finishes (f x) t s' S) :
    Finishes ((liftM q : Sweep σ α) >>= f) t s S :=
  (ofQuery h).bind fun x _ s' hs' hg ⟨ht, hP⟩ => ht ▸ hf x s' hs' hg hP

theorem Finishes.build {b : Build α} (hs : s.Reachable) (h : Build.Ensures b s.ctx P)
    (hf : ∀ x s', s'.Reachable → s.ctx.Grows s'.ctx → P x s'.ctx → Finishes (f x) t s' S) :
    Finishes ((liftM b : Sweep σ α) >>= f) t s S := .query (.build hs h) hf

theorem Finishes.attempt {b : Attempt α} (hs : s.Reachable) (h : Attempt.Ensures b s.ctx P)
    (hok : ∃ x, (b.run.run s.ctx).1 = .ok x)
    (hf : ∀ x s', s'.Reachable → s.ctx.Grows s'.ctx → P x s'.ctx → Finishes (f x) t s' S) :
    Finishes ((liftM b : Sweep σ α) >>= f) t s S := by
  refine Finishes.bind (Q := fun x t' ctx => t' = t ∧ P x ctx) ?_
    fun x _ s' hs' hg ⟨ht, hP⟩ => ht ▸ hf x s' hs' hg hP
  refine Finishes.build (P := fun r ctx => (∀ x, r = .ok x → P x ctx) ∧ ∃ x, r = .ok x) hs
    ⟨h.1, h.2, hok⟩ ?_
  rintro _ s' hs' - ⟨hP, x, rfl⟩
  exact .pure hs' ⟨rfl, hP x rfl⟩

theorem Finishes.context {f : Context → Sweep σ β} (h : Finishes (f s.ctx) t s S) :
    Finishes ((liftM Query.context : Sweep σ Context) >>= f) t s S := h

theorem Finishes.table {f : σ → Sweep σ β} (h : Finishes (f t) t s S) :
    Finishes (Sweep.table >>= f) t s S := h

theorem Finishes.changeTable {change : σ → σ} {Q : Unit → σ → Context → Prop} (hs : s.Reachable)
    (h : Q () (change t) s.ctx) : Finishes (Sweep.changeTable change) t s Q :=
  ⟨(), change t, s, rfl, hs, .refl _, h⟩

theorem Finishes.require {τ : Table} [Keyed τ] {allowMissing : Bool} {pass : Pass} {role : Role}
    {facts : Facts τ α} {key : Handle τ} {f : Option α → Sweep σ β} {x : α}
    (hx : facts[key]? = some x) (h : Finishes (f (some x)) t s S) :
    Finishes (Sweep.require allowMissing pass role facts key >>= f) t s S := by
  rw [require_eq hx, pure_bind]
  exact h

theorem Finishes.fetch {τ : Table} [Keyed τ] {pass : Pass} {role : Role} {facts : Facts τ α}
    {key : Handle τ} {x : α} (hx : facts[key]? = some x) (h : Finishes (f x) t s S) :
    Finishes (Sweep.fetch pass role facts key >>= f) t s S := by
  unfold Sweep.fetch
  rw [hx, pure_bind]
  exact h

theorem Finishes.forM_nil {body : α → Sweep σ Unit} {Q : Unit → σ → Context → Prop}
    (hs : s.Reachable) (h : Q () t s.ctx) : Finishes (([] : List α).forM body) t s Q := .pure hs h

theorem Finishes.forM_singleton {body : α → Sweep σ Unit} {x : α}
    {Q : Unit → σ → Context → Prop} (h : Finishes (body x) t s Q) :
    Finishes ([x].forM body) t s Q :=
  h.bind fun _ _ _ hs' _ h => .pure hs' h

theorem Finishes.learn {v : VarId} {d : Domain} (hs : s.Reachable) (hd : s.ctx.StoredDomain d)
    {Q : Unit → σ → Context → Prop} (h : Q () t s.ctx) :
    Finishes (liftM (Query.learn v d) : Sweep σ Unit) t s Q :=
  ⟨(), t, _, rfl, .learn hs v hd, .refl _, h⟩

end

end Sweep

/-! ## Literal sets -/

/-- The domain has the literal ends `m` and `m + n` and is not empty, and its points are words. -/
structure Context.LiteralDomain (ctx : Context) (d : Domain) (m n : Int) : Prop where
  min : ctx.Literal d.min m
  extent : ctx.Literal d.extent n
  pos : 0 < n
  fits : Word.Fits (m + n)

/-- The set has the literal ends `a` and `b`. -/
def Context.LiteralSet (ctx : Context) (set : ValueSet) (a b : Int) : Prop :=
  ∃ lo hi, set = .between lo hi ∧ ctx.Literal lo a ∧ ctx.Literal hi b

section

variable {ctx ctx' : Context} {d : Domain} {set : ValueSet} {m n a b : Int}

theorem Context.LiteralDomain.mono (hctx : ctx ≤ ctx') (h : ctx.LiteralDomain d m n) :
    ctx'.LiteralDomain d m n :=
  ⟨h.min.mono hctx, h.extent.mono hctx, h.pos, h.fits⟩

theorem Context.LiteralSet.mono (hctx : ctx ≤ ctx') (h : ctx.LiteralSet set a b) :
    ctx'.LiteralSet set a b := by
  obtain ⟨lo, hi, rfl, hlo, hhi⟩ := h
  exact ⟨lo, hi, rfl, hlo.mono hctx, hhi.mono hctx⟩

theorem Context.LiteralDomain.fits_of_mem (h : ctx.LiteralDomain d m n) {z : Int} (hlo : m ≤ z)
    (hhi : z ≤ m + n) : Word.Fits z :=
  ⟨h.min.fits.1.trans hlo, hhi.trans h.fits.2⟩

theorem Domain.last_literal (h : ctx.LiteralDomain d m n) :
    Build.Ensures d.last ctx fun r ctx' => ctx'.Literal r (m + n - 1) := by
  have hpos := h.pos
  refine (Build.add_literal h.min h.extent h.fits).bind fun sum ctx₁ hg₁ hsum => ?_
  exact Build.addConst_literal hsum (h.fits_of_mem (by simp; omega) (by simp))

theorem Domain.ofExtent_literal {extent : ExprId} (h : ctx.Literal extent n) (hn : 0 < n) :
    Build.Ensures (Domain.ofExtent extent) ctx fun r ctx' => ctx'.LiteralDomain r 0 n :=
  (Domain.ofExtent_fromZero ctx extent).mono fun _ _ hg ⟨hzero, hd⟩ =>
    ⟨hzero, hd ▸ h.mono hg.le, hn, by simpa using h.fits⟩

theorem ValueSet.ofDomain_literal (h : ctx.LiteralDomain d m n) :
    Build.Ensures (ValueSet.ofDomain d) ctx fun r ctx' => ctx'.LiteralSet r m (m + n - 1) := by
  refine .get ?_
  split
  · next hone =>
    obtain ⟨-, w, hw, rfl⟩ := id h.extent
    have hw1 : w = 1 := by simpa [Domain.isPoint, Context.isOne, hw] using hone
    subst hw1
    exact .pure ⟨d.min, d.min, rfl, h.min, by simpa using h.min⟩
  · exact (Domain.last_literal h).bind fun last ctx' hg hlast =>
      .pure ⟨d.min, last, rfl, h.min.mono hg.le, hlast⟩

theorem ValueSet.coversExactly_answers {s : Session} (hs : s.Reachable)
    (hset : s.ctx.LiteralSet set a b) (hd : s.ctx.LiteralDomain d m n) (ha : Word.Fits (a - m))
    (hb : Word.Fits (b - (m + n - 1))) :
    Query.Answers (set.coversExactly d) s fun answer _ =>
      answer = decide (a = m ∧ b = m + n - 1) := by
  obtain ⟨lo, hi, rfl, hlo, hhi⟩ := hset
  refine (Query.Answers.build hs (Domain.last_literal hd)).bind fun last s₁ hs₁ hg₁ hlast => ?_
  refine (Query.provesEqual_answers hs₁ (hlo.mono hg₁.le) (hd.min.mono hg₁.le) ha).bind ?_
  rintro _ s₂ hs₂ hg₂ rfl
  by_cases hstart : a = m
  · rw [if_pos (decide_eq_true hstart)]
    refine (Query.provesEqual_answers hs₂ ((hhi.mono hg₁.le).mono hg₂.le) (hlast.mono hg₂.le)
      hb).mono ?_
    rintro _ _ - rfl
    simp [hstart]
  · rw [if_neg (by simpa using hstart)]
    exact .pure hs₂ (by simp [hstart])

end

/-! ## Rows and columns -/

/-- `span` points from `lo` on are one of equal parts of a row of `cols`, or they are whole rows. -/
def Aligned (cols lo span : Int) : Prop := span ∣ cols ∧ span ∣ lo ∨ cols ∣ span ∧ cols ∣ lo

/-- A box of rows and columns, counted from `m₀` and `m₁`, around the points of `[lo, hi]` in rows
of `cols`.  Around an aligned interval it is no larger, and around any other it has all columns. -/
structure BoxAround (m₀ m₁ cols lo hi a b c d : Int) : Prop where
  contains : ∀ k, lo ≤ k → k ≤ hi →
    (m₀ + k / cols, m₁ + k % cols) ∈ Finset.Icc a b ×ˢ Finset.Icc c d
  tight : Aligned cols lo (hi - lo + 1) →
    ((Finset.Icc a b ×ˢ Finset.Icc c d).card : Int) = hi - lo + 1
  full : ¬Aligned cols lo (hi - lo + 1) → c = m₁ ∧ d = m₁ + cols - 1

section

variable {m₀ m₁ cols lo hi : Int}

theorem card_box {a b c d : Int} (hab : a ≤ b + 1) (hcd : c ≤ d + 1) :
    ((Finset.Icc a b ×ˢ Finset.Icc c d).card : Int) = (b + 1 - a) * (d + 1 - c) := by
  rw [Finset.card_product, Int.card_Icc, Int.card_Icc, Nat.cast_mul,
    Int.toNat_of_nonneg (by omega), Int.toNat_of_nonneg (by omega)]

theorem mem_rows (hcols : 0 < cols) {k c d : Int} (hlo : lo ≤ k) (hhi : k ≤ hi)
    (hc : c ≤ m₁ + k % cols) (hd : m₁ + k % cols ≤ d) :
    (m₀ + k / cols, m₁ + k % cols) ∈
      Finset.Icc (lo / cols + m₀) (hi / cols + m₀) ×ˢ Finset.Icc c d := by
  have hfirst := Int.ediv_le_ediv hcols hlo
  have hlast := Int.ediv_le_ediv hcols hhi
  simp only [Finset.mem_product, Finset.mem_Icc]
  omega

/-- Equal parts of a row. -/
theorem boxAround_part (hcols : 0 < cols) (hle : lo ≤ hi) (hrow : hi - lo + 1 ∣ cols)
    (hstart : hi - lo + 1 ∣ lo) :
    BoxAround m₀ m₁ cols lo hi (lo / cols + m₀) (hi / cols + m₀) (lo % cols + m₁)
      (hi % cols + m₁) := by
  have hquotient : lo / cols = hi / cols := by
    rw [← Int.fdiv_eq_ediv_of_nonneg _ hcols.le, ← Int.fdiv_eq_ediv_of_nonneg _ hcols.le]
    exact Sweep.fdiv_eq_of_aligned hcols hle (Int.fmod_eq_zero_of_dvd hrow)
      (Int.fmod_eq_zero_of_dvd hstart)
  have hlo := Int.emod_add_mul_ediv lo cols
  have hhi := Int.emod_add_mul_ediv hi cols
  rw [← hquotient] at hhi
  refine ⟨fun k hk hk' => ?_, fun _ => ?_, fun h => absurd (.inl ⟨hrow, hstart⟩) h⟩
  · have hk₁ := Int.ediv_le_ediv hcols hk
    have hk₂ := Int.ediv_le_ediv hcols hk'
    have hmid := Int.emod_add_mul_ediv k cols
    rw [le_antisymm (hquotient ▸ hk₂) hk₁] at hmid
    refine mem_rows hcols hk hk' ?_ ?_ <;> omega
  · rw [card_box (by omega) (by omega), ← hquotient]
    ring_nf
    omega

/-- All columns, around whole rows or an interval that is not aligned. -/
theorem boxAround_rows (hcols : 0 < cols) (hle : lo ≤ hi)
    (hrows : Aligned cols lo (hi - lo + 1) → cols ∣ hi - lo + 1 ∧ cols ∣ lo) :
    BoxAround m₀ m₁ cols lo hi (lo / cols + m₀) (hi / cols + m₀) m₁ (m₁ + cols - 1) := by
  refine ⟨fun k hk hk' => ?_, fun h => ?_, fun _ => ⟨rfl, rfl⟩⟩
  · have hnonneg := Int.emod_nonneg k hcols.ne'
    have hlt := Int.emod_lt_of_pos k hcols
    refine mem_rows hcols hk hk' ?_ ?_ <;> omega
  · obtain ⟨⟨rows, hspan⟩, start, rfl⟩ := hrows h
    obtain rfl : hi = cols * (start + rows) - 1 := by
      rw [mul_add]
      omega
    have hlast : (cols * (start + rows) - 1) / cols = start + rows - 1 := by
      rw [Int.ediv_eq_iff_of_pos hcols]
      constructor <;> nlinarith
    have hpos : 0 < rows := by
      by_contra hneg
      have := mul_nonneg hcols.le (by omega : 0 ≤ -rows)
      rw [mul_neg] at this
      omega
    rw [card_box, hlast, Int.mul_ediv_cancel_left _ hcols.ne', hspan]
    · ring
    · have := Int.ediv_le_ediv hcols hle
      omega
    · omega

theorem boxAround_whole {rows : Int} (hrows : 0 < rows) (hcols : 0 < cols) :
    BoxAround m₀ m₁ cols 0 (rows * cols - 1) m₀ (m₀ + rows - 1) m₁ (m₁ + cols - 1) := by
  have hpos := mul_pos hrows hcols
  have hlast : (rows * cols - 1) / cols = rows - 1 := by
    rw [Int.ediv_eq_iff_of_pos hcols]
    constructor <;> linarith [sub_mul rows 1 cols]
  have hbox : BoxAround m₀ m₁ cols 0 (rows * cols - 1) (0 / cols + m₀)
      ((rows * cols - 1) / cols + m₀) m₁ (m₁ + cols - 1) :=
    boxAround_rows hcols (by omega) fun _ => ⟨⟨rows, by ring⟩, dvd_zero _⟩
  rwa [hlast, Int.zero_ediv, zero_add, sub_add_eq_add_sub, add_comm rows] at hbox

end

/-! ## Sets of fused axes -/

namespace Sweep

variable {s : Session} {t : SetTable} {d e : Domain} {lo hi : ExprId} {l h m n : Int}

/-- Literals divide, and it is seen whether without a rest. -/
theorem divides_literal {divisor value : ExprId} {x y : Int} (hs : s.Reachable)
    (hdivisor : s.ctx.Literal divisor y) (hvalue : s.ctx.Literal value x) (hx : 0 ≤ x)
    (hy : 0 < y) :
    Finishes (divides divisor value) t s fun answer t' _ => t' = t ∧ answer = decide (y ∣ x) := by
  refine .attempt hs (Attempt.divide_ensures (Build.arith_literal hvalue hdivisor (if_neg hy.ne')
    (Arith.within_floorMod hvalue.fits hx hy))) (Attempt.divide_ok (by
      rw [hdivisor.isZero_eq, decide_eq_false hy.ne'])) fun rest s₁ hs₁ hg₁ hrest => ?_
  refine .query (Query.simplify_answers hs₁ hrest) fun rest' s₂ hs₂ hg₂ hrest' => ?_
  refine .context (.pure hs₂ ⟨rfl, ?_⟩)
  rw [hrest'.isZero_eq]
  exact decide_eq_decide.2 ⟨Int.dvd_of_fmod_eq_zero, Int.fmod_eq_zero_of_dvd⟩

theorem dividesBoth_literal {divisor v w : ExprId} {x y z : Int} (hs : s.Reachable)
    (hdivisor : s.ctx.Literal divisor z) (hv : s.ctx.Literal v x) (hw : s.ctx.Literal w y)
    (hx : 0 ≤ x) (hy : 0 ≤ y) (hz : 0 < z) :
    Finishes (dividesBoth divisor v w) t s fun answer t' _ =>
      t' = t ∧ answer = decide (z ∣ x ∧ z ∣ y) := by
  refine (divides_literal hs hdivisor hv hx hz).bind ?_
  rintro _ _ s₁ hs₁ hg₁ ⟨rfl, rfl⟩
  by_cases hdvd : z ∣ x
  · rw [if_pos (decide_eq_true hdvd)]
    refine (divides_literal hs₁ (hdivisor.mono hg₁.le) (hw.mono hg₁.le) hy hz).mono ?_
    rintro _ _ _ - ⟨rfl, rfl⟩
    simp [hdvd]
  · rw [if_neg (by simpa using hdvd)]
    exact .pure hs₁ (by simp [hdvd])

/-- A row of a domain of rows is a word. -/
theorem row_fits {ctx : Context} {rows cols z : Int} (hd : ctx.LiteralDomain d m rows)
    (hcols : 0 < cols) (hz : 0 ≤ z) (hlt : z < rows * cols) : Word.Fits (z / cols + m) := by
  have hnonneg := AxisRelation.fdiv_nonneg_of_pos hz hcols
  have hrow := AxisRelation.fdiv_lt_of_lt_mul hcols hlt
  rw [Int.fdiv_eq_ediv_of_nonneg _ hcols.le] at hnonneg hrow
  exact hd.fits_of_mem (by omega) (by omega)

/-- A column of a domain of columns is a word. -/
theorem column_fits {ctx : Context} (hd : ctx.LiteralDomain d m n) (z : Int) :
    Word.Fits (z % n + m) := by
  have hnonneg := Int.emod_nonneg z hd.pos.ne'
  have hlt := Int.emod_lt_of_pos z hd.pos
  exact hd.fits_of_mem (by omega) (by omega)

/-- A part of a literal, counted from the least point of a domain. -/
theorem offsetIndex_literal (op : Arith) {factor value : ExprId} {q w : Int} (hs : s.Reachable)
    (hd : s.ctx.Literal d.min m) (hfactor : s.ctx.Literal factor n) (hvalue : s.ctx.Literal value w)
    (hn : n ≠ 0) (hq : op.exact w n = some q) (hwithin : op.Within Word.Fits w n q)
    (hfits : Word.Fits (q + m)) :
    Finishes (do Build.offset (← Attempt.divide op value factor) d.min : Sweep SetTable ExprId)
      t s fun r t' ctx => t' = t ∧ ctx.Literal r (q + m) := by
  refine .attempt hs (Attempt.divide_ensures (Build.arith_literal hvalue hfactor hq hwithin))
    (Attempt.divide_ok (by rw [hfactor.isZero_eq, decide_eq_false hn]))
    fun part s₁ hs₁ hg₁ hpart => ?_
  exact .ofQuery (.build hs₁ (Build.offset_literal hpart (hd.mono hg₁.le) hfits))

theorem outerIndex_literal {factor value : ExprId} {rows cols z : Int} (hs : s.Reachable)
    (hd : s.ctx.LiteralDomain d m rows) (hfactor : s.ctx.Literal factor cols) (hcols : 0 < cols)
    (hvalue : s.ctx.Literal value z) (hz : 0 ≤ z) (hlt : z < rows * cols) :
    Finishes (outerIndex d factor value) t s fun r t' ctx =>
      t' = t ∧ ctx.Literal r (z / cols + m) := by
  have hquotient := Int.fdiv_eq_ediv_of_nonneg z hcols.le
  rw [← hquotient]
  exact offsetIndex_literal .floorDiv hs hd.min hfactor hvalue hcols.ne' (if_neg hcols.ne')
    (Arith.within_floorDiv hvalue.fits hz hcols) (hquotient ▸ row_fits hd hcols hz hlt)

theorem innerIndex_literal {value : ExprId} {z : Int} (hs : s.Reachable)
    (hd : s.ctx.LiteralDomain d m n) (hvalue : s.ctx.Literal value z) (hz : 0 ≤ z) :
    Finishes (innerIndex d d.extent value) t s fun r t' ctx =>
      t' = t ∧ ctx.Literal r (z % n + m) := by
  have hrest := Int.fmod_eq_emod_of_nonneg z hd.pos.le
  rw [← hrest]
  exact offsetIndex_literal .floorMod hs hd.min hd.extent hvalue hd.pos.ne' (if_neg hd.pos.ne')
    (Arith.within_floorMod hvalue.fits hz hd.pos) (hrest ▸ column_fits hd z)

/-- The set between what two literals become. -/
theorem between_literal {α : Type} (index : ExprId → Sweep SetTable ExprId)
    {f : ValueSet → Sweep SetTable α} {p q : Int} {S : α → SetTable → Context → Prop}
    (hlo : Finishes (index lo) t s fun r t' ctx => t' = t ∧ ctx.Literal r p)
    (hhi : ∀ s', s'.Reachable → s.ctx.Grows s'.ctx →
      Finishes (index hi) t s' fun r t' ctx => t' = t ∧ ctx.Literal r q)
    (hf : ∀ r s', s'.Reachable → s.ctx.Grows s'.ctx → s'.ctx.LiteralSet r p q →
      Finishes (f r) t s' S) :
    Finishes (do
      let first ← index lo
      let last ← index hi
      let first ← Query.simplify first
      let last ← Query.simplify last
      f (.between first last) : Sweep SetTable α) t s S := by
  refine hlo.bind ?_
  rintro first _ s₁ hs₁ hg₁ ⟨rfl, hfirst⟩
  refine (hhi s₁ hs₁ hg₁).bind ?_
  rintro last _ s₂ hs₂ hg₂ ⟨rfl, hlast⟩
  refine .query (Query.simplify_answers hs₂ (hfirst.mono hg₂.le))
    fun first' s₃ hs₃ hg₃ hfirst' => ?_
  refine .query (Query.simplify_answers hs₃ (hlast.mono hg₃.le)) fun last' s₄ hs₄ hg₄ hlast' => ?_
  exact hf _ s₄ hs₄ ((hg₁.trans hg₂).trans (hg₃.trans hg₄))
    ⟨first', last', rfl, hfirst'.mono hg₄.le, hlast'⟩

theorem fusedInnerSet_literal {fusedName : String} (m₀ : Int) (hs : s.Reachable)
    (hd : s.ctx.LiteralDomain d m n) (hlo : s.ctx.Literal lo l) (hhi : s.ctx.Literal hi h)
    (hl : 0 ≤ l) (hle : l ≤ h) (hfits : Word.Fits (h + 1)) :
    Finishes (fusedInnerSet fusedName d lo hi) t s fun r t' ctx => t'.sets = t.sets ∧
      ∃ a b, ctx.LiteralSet r a b ∧ BoxAround m₀ m n l h (l / n + m₀) (h / n + m₀) a b := by
  have hpos := hd.pos
  have hn := hd.extent
  refine .build hs (Build.sub_literal hhi hlo (hhi.fits.of_le (by omega) (by omega)))
    fun diff s₁ hs₁ hg₁ hdiff => ?_
  refine .build hs₁ (Build.addConst_literal hdiff (hfits.of_le (by simp; omega) (by simp; omega)))
    fun length s₂ hs₂ hg₂ hlength => ?_
  refine .query (Query.simplify_answers hs₂ hlength) fun span s₃ hs₃ hg₃ hspan => ?_
  rw [show (1 : Int64).toInt = 1 from rfl] at hspan
  have hg := hg₁.trans (hg₂.trans hg₃)
  refine (dividesBoth_literal hs₃ hspan (hn.mono hg.le) (hlo.mono hg.le) hpos.le hl
    (by omega)).bind ?_
  rintro _ t₄ s₄ hs₄ hg₄ ⟨rfl, rfl⟩
  have hg' := hg.trans hg₄
  by_cases hpart : h - l + 1 ∣ n ∧ h - l + 1 ∣ l
  · rw [if_pos (decide_eq_true hpart)]
    exact between_literal (innerIndex d d.extent) (f := pure)
      (innerIndex_literal hs₄ (hd.mono hg'.le) (hlo.mono hg'.le) hl)
      (fun s' hs' hg'' => innerIndex_literal hs' (hd.mono (hg'.trans hg'').le)
        (hhi.mono (hg'.trans hg'').le) (hl.trans hle))
      fun r s' hs' _ hr => .pure hs' ⟨rfl, _, _, hr, boxAround_part hpos hle hpart.1 hpart.2⟩
  · rw [if_neg (by simpa using hpart)]
    have hwhole : ∀ {t' : SetTable} {s' : Session}, t'.sets = t₄.sets → s'.Reachable →
        s₄.ctx.Grows s'.ctx → Finishes (liftM (ValueSet.ofDomain d) : Sweep SetTable ValueSet) t' s'
          fun r t' ctx => t'.sets = t₄.sets ∧
            ∃ a b, ctx.LiteralSet r a b ∧ BoxAround m₀ m n l h (l / n + m₀) (h / n + m₀) a b := by
      intro t' s' ht' hs' hg''
      refine (Finishes.ofQuery (.build hs' (ValueSet.ofDomain_literal
        (hd.mono (hg'.trans hg'').le)))).mono ?_
      rintro r _ ctx - ⟨rfl, hr⟩
      exact ⟨ht', _, _, hr, boxAround_rows hpos hle (Or.resolve_left · hpart)⟩
    refine (dividesBoth_literal hs₄ (hn.mono hg'.le) (hspan.mono hg₄.le) (hlo.mono hg'.le)
      (by omega) hl hpos).bind ?_
    rintro rows t₅ s₅ hs₅ hg₅ ⟨rfl, -⟩
    split
    · refine .context ((Finishes.changeTable (Q := fun _ t' ctx => t'.sets = t₅.sets ∧ ctx = s₅.ctx)
        hs₅ ⟨rfl, rfl⟩).bind ?_)
      rintro _ t₆ s₆ hs₆ - ⟨ht₆, hctx⟩
      exact hwhole ht₆ hs₆ (hctx ▸ hg₅)
    · exact hwhole rfl hs₅ hg₅

/-- The sets of both parts of a fused axis are those of the rows and the columns of a box. -/
def SpansBox (ctx : Context) (m₀ m₁ cols lo hi : Int) (sets : ValueSet × ValueSet) : Prop :=
  ∃ a b c d, ctx.LiteralSet sets.1 a b ∧ ctx.LiteralSet sets.2 c d ∧
    BoxAround m₀ m₁ cols lo hi a b c d

/-- The row and the column of one point. -/
theorem fusePoint_literal {value : ExprId} {m₀ m₁ rows cols z : Int} (hs : s.Reachable)
    (hd : s.ctx.LiteralDomain d m₀ rows) (he : s.ctx.LiteralDomain e m₁ cols)
    (hvalue : s.ctx.Literal value z) (hz : 0 ≤ z) (hlt : z < rows * cols) :
    Finishes (do
      let outerValue ← outerIndex d e.extent value
      let innerValue ← innerIndex e e.extent value
      return (.point (← Query.simplify outerValue), .point (← Query.simplify innerValue)) :
        Sweep SetTable (ValueSet × ValueSet)) t s fun r t' ctx =>
      t' = t ∧ SpansBox ctx m₀ m₁ cols z z r := by
  refine (outerIndex_literal hs hd he.extent he.pos hvalue hz hlt).bind ?_
  rintro outerValue _ s₁ hs₁ hg₁ ⟨rfl, houterValue⟩
  refine (innerIndex_literal hs₁ (he.mono hg₁.le) (hvalue.mono hg₁.le) hz).bind ?_
  rintro innerValue _ s₂ hs₂ hg₂ ⟨rfl, hinnerValue⟩
  refine .query (Query.simplify_answers hs₂ (houterValue.mono hg₂.le))
    fun row s₃ hs₃ hg₃ hrow => ?_
  refine .query (Query.simplify_answers hs₃ (hinnerValue.mono hg₃.le))
    fun column s₄ hs₄ hg₄ hcolumn => ?_
  exact .pure hs₄ ⟨rfl, _, _, _, _, ⟨row, row, rfl, hrow.mono hg₄.le, hrow.mono hg₄.le⟩,
    ⟨column, column, rfl, hcolumn, hcolumn⟩, boxAround_part he.pos le_rfl (by simp) (by simp)⟩

theorem fuseSets_literal {known : Facts .axis Domain} {outer inner fused : AxisId}
    {fusedDomain : Domain} {m₀ m₁ rows cols : Int} (hs : s.Reachable)
    (houter : known[outer]? = some d) (hinner : known[inner]? = some e)
    (hfused : known[fused]? = some fusedDomain) (hd : s.ctx.LiteralDomain d m₀ rows)
    (he : s.ctx.LiteralDomain e m₁ cols)
    (hdomain : s.ctx.LiteralDomain fusedDomain 0 (rows * cols)) (hlo : s.ctx.Literal lo l)
    (hhi : s.ctx.Literal hi h) (hl : 0 ≤ l) (hle : l ≤ h) (hh : h < rows * cols) :
    Finishes (fuseSets known outer inner fused (.between lo hi)) t s fun r t' ctx =>
      t'.sets = t.sets ∧ SpansBox ctx m₀ m₁ cols l h r := by
  have hlast : Word.Fits (0 + rows * cols - 1) := hdomain.fits_of_mem (by omega) (by omega)
  unfold fuseSets domainFor
  refine .fetch houter (.fetch hinner (.fetch hfused ?_))
  refine .query (ValueSet.coversExactly_answers hs ⟨lo, hi, rfl, hlo, hhi⟩ hdomain
    (by simpa using hlo.fits) (hhi.fits.sub hlast (hl.trans hle) (by omega))) ?_
  rintro _ s₁ hs₁ hg₁ rfl
  have hd₁ := hd.mono hg₁.le
  have he₁ := he.mono hg₁.le
  have hlo₁ := hlo.mono hg₁.le
  have hhi₁ := hhi.mono hg₁.le
  by_cases hwhole : l = 0 ∧ h = 0 + rows * cols - 1
  · rw [if_pos (decide_eq_true hwhole)]
    refine .build hs₁ (ValueSet.ofDomain_literal hd₁) fun outerSet s₂ hs₂ hg₂ houterSet => ?_
    refine .build hs₂ (ValueSet.ofDomain_literal (he₁.mono hg₂.le))
      fun innerSet s₃ hs₃ hg₃ hinnerSet => ?_
    refine .pure hs₃ ⟨rfl, _, _, _, _, houterSet.mono hg₃.le, hinnerSet, ?_⟩
    obtain ⟨rfl, rfl⟩ := hwhole
    rw [zero_add]
    exact boxAround_whole hd.pos he.pos
  rw [if_neg (by simpa using hwhole)]
  by_cases hpoint : lo = hi
  · subst hpoint
    obtain rfl := hlo.unique hhi
    have hset : (ValueSet.between lo lo).point? = some lo := if_pos rfl
    rw [hset]
    refine (fusePoint_literal hs₁ hd₁ he₁ hlo₁ hl hh).mono ?_
    rintro r _ _ - ⟨rfl, hbox⟩
    exact ⟨rfl, hbox⟩
  · have hset : (ValueSet.between lo hi).point? = none :=
      if_neg (by simpa [ValueSet.between] using hpoint)
    rw [hset]
    refine between_literal (outerIndex d e.extent) (f := fun outerSet => do
      let fusedName := (← Query.context).axisName fused
      return (outerSet, ← fusedInnerSet fusedName e lo hi))
      (outerIndex_literal hs₁ hd₁ he₁.extent he.pos hlo₁ hl (hle.trans_lt hh))
      (fun s' hs' hg' => outerIndex_literal hs' (hd₁.mono hg'.le) (he₁.mono hg'.le).extent he.pos
        (hhi₁.mono hg'.le) (hl.trans hle) hh) fun outerSet s₂ hs₂ hg₂ houterSet => ?_
    refine .context ((fusedInnerSet_literal m₀ hs₂ (he₁.mono hg₂.le) (hlo₁.mono hg₂.le)
      (hhi₁.mono hg₂.le) hl hle (hdomain.fits_of_mem (by omega) (by omega))).bind ?_)
    rintro innerSet t₃ s₃ hs₃ hg₃ ⟨ht₃, a, b, hinnerSet, hbox⟩
    exact .pure hs₃ ⟨ht₃, _, _, _, _, houterSet.mono hg₃.le, hinnerSet, hbox⟩

end Sweep

/-! ## Two fused roots -/

/-- Two roots that follow each other can be fused. -/
theorem LoopNest.fuse_roots (ctx : Context) {i j : AxisId} (name : String) (hij : i ≠ j) :
    ∃ nest fused ctx', ((LoopNest.ofRoots name [i, j]).fuse i j).run.run ctx =
        (.ok (nest, fused), ctx') ∧
      nest.relations = [.reshape (.fuse i j fused)] ∧ nest.threads = {} ∧
        fused.index = ctx.axes.size ∧ ctx ≤ ctx' ∧ (ctx.WellFormed → ctx'.WellFormed) := by
  have hfirst : (ofRoots name [i, j]).leafIndex i = pure 0 := by
    simp [leafIndex, ofRoots, List.idxOf?_cons]
  have hsecond : (ofRoots name [i, j]).leafIndex j = pure 1 := by
    simp [leafIndex, ofRoots, List.idxOf?_cons, hij]
  unfold fuse
  rw [hfirst, pure_bind, hsecond, pure_bind]
  obtain ⟨hle, hwf, hindex, -, -⟩ := addAxis_gains ctx
    ⟨ctx.axisName i ++ "." ++ ctx.axisName j ++ ".fused", (ctx.var (ctx.axisVar i)).type⟩
    ((ctx.axis i).kind.join (ctx.axis j).kind)
  exact ⟨_, _, _, rfl, rfl, rfl, hindex, hle, hwf⟩

namespace Sweep

variable {nest : LoopNest} {i j fused : AxisId} {s : Session} {d e : Domain}
  {m₀ m₁ rows cols : Int}

theorem domains_fused {roots : Facts .axis Domain} {allowMissing : Bool} (hs : s.Reachable)
    (hrelations : nest.relations = [.reshape (.fuse i j fused)]) (hthreads : nest.threads = {})
    (hi : roots[i]? = some d) (hj : roots[j]? = some e) (hnew : fused ∉ roots)
    (hd : s.ctx.LiteralDomain d m₀ rows) (he : s.ctx.LiteralDomain e m₁ cols)
    (hfits : Word.Fits (rows * cols)) :
    Finishes (domains nest allowMissing) roots s fun _ known ctx => known[i]? = some d ∧
      known[j]? = some e ∧ ∃ c, known[fused]? = some c ∧ ctx.LiteralDomain c 0 (rows * cols) := by
  have hthreads' : nest.threads.toList = [] := by rw [hthreads]; rfl
  have hrelation : Finishes (relationDomains allowMissing (.reshape (.fuse i j fused))) roots s
      fun _ known ctx => known[i]? = some d ∧ known[j]? = some e ∧
        ∃ c, known[fused]? = some c ∧ ctx.LiteralDomain c 0 (rows * cols) := by
    refine .table (.require hi (.table (.require hj ?_)))
    refine .build hs (Build.arith_literal hd.extent he.extent rfl ⟨hfits, nofun⟩)
      fun product s₁ hs₁ hg₁ hproduct => ?_
    refine .query (Query.simplify_answers hs₁ hproduct) fun extent s₂ hs₂ hg₂ hextent => ?_
    refine .build hs₂ (Domain.ofExtent_literal hextent (mul_pos hd.pos he.pos))
      fun c s₃ hs₃ hg₃ hdomain => ?_
    unfold setDomain
    refine .table ?_
    rw [Std.TreeMap.getElem?_eq_none hnew]
    refine (Finishes.changeTable (Q := fun _ known ctx =>
      known = roots.insert fused c ∧ ctx = s₃.ctx) hs₃ ⟨rfl, rfl⟩).bind ?_
    rintro _ _ s₄ hs₄ - ⟨rfl, hctx⟩
    rw [← hctx] at hdomain
    exact .context (.learn hs₄ ⟨hdomain.min.1, hdomain.extent.1⟩
      ⟨Handle.getElem?_insert_of_notMem hnew hi, Handle.getElem?_insert_of_notMem hnew hj,
        c, Std.TreeMap.getElem?_insert_self, hdomain⟩)
  unfold domains
  rw [hrelations, hthreads']
  exact (Finishes.forM_singleton hrelation).bind fun _ _ _ hs' _ h => .forM_nil hs' h

/-- The interval of a fused axis goes up to the box of rows and columns. -/
theorem setsUp_fused {known : Facts .axis Domain} {fusedDomain : Domain} {t : SetTable}
    {lo hi : ExprId} {l h : Int} (hs : s.Reachable)
    (hrelations : nest.relations = [.reshape (.fuse i j fused)]) (hij : i ≠ j)
    (hi' : known[i]? = some d) (hj : known[j]? = some e)
    (hfused : known[fused]? = some fusedDomain) (hd : s.ctx.LiteralDomain d m₀ rows)
    (he : s.ctx.LiteralDomain e m₁ cols)
    (hdomain : s.ctx.LiteralDomain fusedDomain 0 (rows * cols)) (hlo : s.ctx.Literal lo l)
    (hhi : s.ctx.Literal hi h) (hl : 0 ≤ l) (hle : l ≤ h) (hh : h < rows * cols)
    (hset : t.sets[fused]? = some (.between lo hi)) :
    Finishes (setsUp nest known) t s fun _ t' ctx => ∃ sets, t'.sets[i]? = some sets.1 ∧
      t'.sets[j]? = some sets.2 ∧ SpansBox ctx m₀ m₁ cols l h sets := by
  unfold setsUp
  rw [hrelations, List.reverse_singleton]
  refine .forM_singleton (.table (.fetch hset ?_))
  refine (fuseSets_literal hs hi' hj hfused hd he hdomain hlo hhi hl hle hh).bind ?_
  rintro sets t₁ s₁ hs₁ hg₁ ⟨-, hbox⟩
  refine (Finishes.changeTable (Q := fun _ t' ctx => t'.sets = t₁.sets.insert i sets.1 ∧
    SpansBox ctx m₀ m₁ cols l h sets) hs₁ ⟨rfl, hbox⟩).bind ?_
  rintro _ t₂ s₂ hs₂ - ⟨ht₂, hbox⟩
  refine .changeTable hs₂ ⟨sets, ?_, ?_, hbox⟩
  · rw [ht₂]
    exact Handle.getElem?_insert_eq_some.2 (.inr ⟨hij, Std.TreeMap.getElem?_insert_self⟩)
  · exact Std.TreeMap.getElem?_insert_self

/-- Two roots over literals can be fused, and the domains are found.  Whatever interval of the
fused axis goes up, the roots get literal intervals, and these are a box around its points. -/
theorem setsUp_boxAround (ctx : Context) (name : String) (hwf : ctx.WellFormed) (hij : i ≠ j)
    (hi : i.index < ctx.axes.size) (hj : j.index < ctx.axes.size) :
    ∃ nest fused ctx', ((LoopNest.ofRoots name [i, j]).fuse i j).run.run ctx =
        (.ok (nest, fused), ctx') ∧ ctx ≤ ctx' ∧ ctx'.WellFormed ∧
      ∀ (allowMissing : Bool) {s : Session} {roots : Facts .axis Domain} {m₀ m₁ rows cols : Int},
        s.Reachable → ctx' ≤ s.ctx → (∀ a, a ∈ roots ↔ a ∈ [i, j]) →
        roots.Ranges s.ctx i m₀ rows → roots.Ranges s.ctx j m₁ cols → Word.Fits (rows * cols) →
        Word.Fits (m₀ + rows) → Word.Fits (m₁ + cols) →
        ∃ known s', ((domains nest allowMissing).run.run roots).run s = ((.ok (), known), s') ∧
          s.ctx ≤ s'.ctx ∧ s'.Reachable ∧
          ∀ {su : Session} {t : SetTable} {lo hi : ExprId} {l h : Int}, su.Reachable →
            s'.ctx ≤ su.ctx → su.ctx.Literal lo l → su.ctx.Literal hi h → 0 ≤ l → l ≤ h →
            h < rows * cols → t.sets[fused]? = some (.between lo hi) →
            ∃ t' su', ((setsUp nest known).run.run t).run su = ((.ok (), t'), su') ∧
              ∃ outerSet innerSet a b c d, t'.sets[i]? = some outerSet ∧
                t'.sets[j]? = some innerSet ∧ su'.ctx.LiteralSet outerSet a b ∧
                  su'.ctx.LiteralSet innerSet c d ∧ BoxAround m₀ m₁ cols l h a b c d := by
  obtain ⟨nest, fused, ctx', hfuse, hrelations, hthreads, hfused, hctx, hwf'⟩ :=
    LoopNest.fuse_roots ctx name hij
  refine ⟨nest, fused, ctx', hfuse, hctx, hwf' hwf, ?_⟩
  intro allowMissing s roots m₀ m₁ rows cols hs hs' hroots houter hinner hfits hfits₀ hfits₁
  obtain ⟨hrows, d, hd, hdmin, hdextent⟩ := houter
  obtain ⟨hcols, e, he, hemin, heextent⟩ := hinner
  have hdLiteral : s.ctx.LiteralDomain d m₀ rows := ⟨hdmin, hdextent, hrows, hfits₀⟩
  have heLiteral : s.ctx.LiteralDomain e m₁ cols := ⟨hemin, heextent, hcols, hfits₁⟩
  have hnew : fused ∉ roots := by
    rw [hroots, List.mem_pair]
    rintro (rfl | rfl) <;> omega
  have hdomains : Finishes (domains nest allowMissing) roots s _ :=
    domains_fused hs hrelations hthreads hd he hnew hdLiteral heLiteral hfits
  obtain ⟨_, known, s₁, hrun, hs₁, hg₁, hdi, hej, c, hc, hcLiteral⟩ := hdomains
  refine ⟨known, s₁, hrun, hg₁.le, hs₁, ?_⟩
  intro su t lo hi l h hsu hle hlo hhi hl hlh hh hset
  obtain ⟨_, t', su', hrun', -, -, sets, houter, hinner, a, b, c', d', hbox⟩ :=
    setsUp_fused hsu hrelations hij hdi hej hc (hdLiteral.mono (hg₁.le.trans hle))
      (heLiteral.mono (hg₁.le.trans hle)) (hcLiteral.mono hle) hlo hhi hl hlh hh hset
  exact ⟨t', su', hrun', sets.1, sets.2, a, b, c', d', houter, hinner, hbox⟩

/-- Two roots over literals, and an interval of their fusion. -/
structure FusedSample where
  outer : AxisId × Domain
  inner : AxisId × Domain
  lo : ExprId
  hi : ExprId

/-- Rows 1, 2 and 3 of the columns -2, -1, 0 and 1, and the points 8 and 9 of the twelve. -/
def halfRow : FusedSample × Context := (do
  let d ← Domain.literal 1 3
  let e ← Domain.literal (-2) 4
  let i ← declareAxis "i" (some d) .dataParallel
  let j ← declareAxis "j" (some e) .dataParallel
  return ⟨(i, d), (j, e), ← Build.int 8, ← Build.int 9⟩ : Build _).run default

def FusedSample.roots (sample : FusedSample) : Facts .axis Domain :=
  (Std.TreeMap.empty.insert sample.outer.1 sample.outer.2).insert sample.inner.1 sample.inner.2

theorem FusedSample.mem_roots (sample : FusedSample) (a : AxisId) :
    a ∈ sample.roots ↔ a ∈ [sample.outer.1, sample.inner.1] := by
  rw [roots, Std.TreeMap.mem_insert, Std.TreeMap.mem_insert, Std.compare_eq_iff_eq,
    Std.compare_eq_iff_eq, List.mem_pair]
  have hempty : a ∉ (Std.TreeMap.empty : Facts .axis Domain) := Std.TreeMap.not_mem_emptyc
  tauto

theorem setsUp_boxAround_halfRow :
    ∃ nest fused ctx', ((LoopNest.ofRoots "halves" [halfRow.1.outer.1, halfRow.1.inner.1]).fuse
        halfRow.1.outer.1 halfRow.1.inner.1).run.run halfRow.2 = (.ok (nest, fused), ctx') ∧
      ∃ known s', ((domains nest false).run.run halfRow.1.roots).run ⟨ctx', {}⟩ =
          ((.ok (), known), s') ∧
        ∃ t' su', ((setsUp nest known).run.run
            { sets := Std.TreeMap.empty.insert fused (.between halfRow.1.lo halfRow.1.hi) }).run
              s' = ((.ok (), t'), su') ∧
          ∃ outerSet innerSet a b c d, t'.sets[halfRow.1.outer.1]? = some outerSet ∧
            t'.sets[halfRow.1.inner.1]? = some innerSet ∧ su'.ctx.LiteralSet outerSet a b ∧
              su'.ctx.LiteralSet innerSet c d ∧
                ((Finset.Icc a b ×ˢ Finset.Icc c d).card : Int) = 2 := by
  have hdomains : (∃ d ∈ halfRow.1.roots[halfRow.1.outer.1]?, halfRow.2.Literal d.min 1 ∧
      halfRow.2.Literal d.extent 3) ∧ ∃ e ∈ halfRow.1.roots[halfRow.1.inner.1]?,
        halfRow.2.Literal e.min (-2) ∧ halfRow.2.Literal e.extent 4 := by decide +kernel
  have hlo : halfRow.2.Literal halfRow.1.lo 8 := by decide +kernel
  have hhi : halfRow.2.Literal halfRow.1.hi 9 := by decide +kernel
  obtain ⟨nest, fused, ctx', hfuse, hctx, hwf', h⟩ :=
    setsUp_boxAround (i := halfRow.1.outer.1) (j := halfRow.1.inner.1) halfRow.2 "halves"
      (by decide +kernel) (by decide +kernel) (by decide +kernel) (by decide +kernel)
  have houter : halfRow.1.roots.Ranges halfRow.2 halfRow.1.outer.1 1 3 := ⟨by decide, hdomains.1⟩
  have hinner : halfRow.1.roots.Ranges halfRow.2 halfRow.1.inner.1 (-2) 4 :=
    ⟨by decide, hdomains.2⟩
  obtain ⟨known, s', hrun, hle, hs', h⟩ := h false (.start ctx' true hwf') le_rfl
    halfRow.1.mem_roots (houter.mono (fun _ _ => id) hctx) (hinner.mono (fun _ _ => id) hctx)
    ⟨by decide, by decide⟩
    ⟨by decide, by decide⟩ ⟨by decide, by decide⟩
  obtain ⟨t', su', hrun', outerSet, innerSet, a, b, c, d, houter, hinner, hrows, hcols, hbox⟩ :=
    h (t := ⟨Std.TreeMap.empty.insert fused (.between halfRow.1.lo halfRow.1.hi), []⟩) hs' le_rfl
      ((hlo.mono hctx).mono hle) ((hhi.mono hctx).mono hle) (by decide) (by decide) (by decide)
        Std.TreeMap.getElem?_insert_self
  exact ⟨nest, fused, ctx', hfuse, known, s', hrun, t', su', hrun', outerSet, innerSet, a, b, c, d,
    houter, hinner, hrows, hcols, hbox.tight (.inl ⟨by decide, by decide⟩)⟩

end Sweep

end LoopBounds
