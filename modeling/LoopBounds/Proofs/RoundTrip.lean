import LoopBounds.Proofs.Extents
import LoopBounds.Proofs.Indices
import LoopBounds.Proofs.Tiling

/-!
# Indices down and up again

Over domains that are literals and start at zero, a point of the roots inside their domains and a
point of the leaves belong to each other if one point of all axes goes through both.  The indices
that go down a nest and those that go up are read as that point has them, so each pass undoes the
other.
-/

namespace LoopBounds

/-! ## Tables of indices -/

namespace Facts

/-- The table has the loop variables of the axes, and no other entries. -/
structure Seeds (values : Facts .axis ExprId) (as : List AxisId) (ctx : Context) : Prop where
  mem : ∀ a, a ∈ values ↔ a ∈ as
  var : ∀ (a : AxisId) (e : ExprId), values[a]? = some e →
    ctx.Stored e ∧ ctx.node e = .var (ctx.axisVar a)

/-- The index of the axis evaluates to the word. -/
def Evaluates (values : Facts .axis ExprId) (ctx : Context) (env : Env Int64) (a : AxisId)
    (w : Int64) : Prop :=
  ∃ e, values[a]? = some e ∧ ctx.eval env e = some w

/-- The word lies in the domain of the axis, the ends of which are literals. -/
def Holds (known : Facts .axis Domain) (ctx : Context) (a : AxisId) (w : Int64) : Prop :=
  ∃ d m n, known[a]? = some d ∧ ctx.Literal d.min m ∧ ctx.Literal d.extent n ∧
    m ≤ w.toInt ∧ w.toInt < m + n

end Facts

/-- The loop variables of the axes have the words of a point. -/
def Context.Places (ctx : Context) (as : List AxisId) (p : AxisId → Int64) (env : Env Int64) :
    Prop :=
  ∀ a ∈ as, env (ctx.axisVar a) = some (p a)

theorem Context.Places.of_grows {ctx ctx' : Context} {as : List AxisId} {p : AxisId → Int64}
    {env : Env Int64} (hg : ctx.Grows ctx') (h : ctx'.Places as p env) : ctx.Places as p env :=
  fun a ha => hg.axisVar_eq a ▸ h a ha

/-- Axes have loop variables of their own, so their words may be chosen at will. -/
theorem Context.exists_places {ctx : Context} {as : List AxisId} (hwf : ctx.WellFormed)
    (hreg : ∀ a ∈ as, a.index < ctx.axes.size) (p : AxisId → Int64) :
    ∃ env, ctx.Places as p env := by
  refine ⟨fun v => (as.find? fun c => ctx.axisVar c = v).map p, fun a ha => ?_⟩
  obtain ⟨c, hfind⟩ : ∃ c, as.find? (fun c => ctx.axisVar c = ctx.axisVar a) = some c :=
    Option.isSome_iff_exists.1 (List.find?_isSome.2 ⟨a, ha, decide_eq_true rfl⟩)
  have hvar : ctx.axisVar c = ctx.axisVar a := by simpa using List.find?_some hfind
  have hc := List.mem_of_find?_eq_some hfind
  change (as.find? fun c => ctx.axisVar c = ctx.axisVar a).map p = some (p a)
  rw [hfind, Option.map_some, hwf.axisVar_inj c a (hreg c hc) (hreg a ha) hvar]

section

variable {values : Facts .axis ExprId} {known : Facts .axis Domain} {ctx : Context}
  {env : Env Int64} {a : AxisId} {as : List AxisId} {p : AxisId → Int64} {x : AxisId → Int}
  {e : ExprId} {z m n : Int}

theorem Facts.Seeds.reads_word (h : values.Seeds as ctx) (henv : ctx.Places as p env)
    (hp : ∀ a ∈ as, (p a).toInt = x a) : (Reading.word env).Reads .univ x values ctx := by
  intro a _ e he
  obtain ⟨hstored, hn⟩ := h.var a e he
  have ha := (h.mem a).1 (Std.TreeMap.mem_iff_isSome_getElem?.2 (he ▸ rfl))
  exact ⟨hstored, p a, (Context.eval_var hn).trans (henv a ha), hp a ha⟩

theorem Facts.Seeds.reads_exact (h : values.Seeds as ctx) (henv : ctx.Places as p env)
    (hp : ∀ a ∈ as, (p a).toInt = x a) :
    (Reading.exact True env.exact).Reads .univ x values ctx := by
  intro a _ e he
  obtain ⟨hstored, hn⟩ := h.var a e he
  have ha := (h.mem a).1 (Std.TreeMap.mem_iff_isSome_getElem?.2 (he ▸ rfl))
  refine ⟨⟨hstored, hn ▸ nofun, by simp [hn, Node.children]⟩, fun _ => ?_⟩
  rw [Valuation.value_var hn]
  change (env (ctx.axisVar a)).map Int64.toInt = _
  rw [henv a ha, Option.map_some, hp a ha]

theorem Context.Literal.reads_word (h : ctx.Literal e z) (env : Env Int64) :
    (Reading.word env).holds ctx e z := by
  obtain ⟨w, t, hn, hw⟩ := h.exists_node
  exact ⟨h.1, w, Context.eval_const hn, hw⟩

theorem Context.Literal.reads_exact (h : ctx.Literal e z) (env : Env Int) :
    (Reading.exact True env).holds ctx e z := by
  obtain ⟨w, t, hn, hw⟩ := h.exists_node
  exact ⟨h.over, fun _ => by rw [Valuation.value_const hn, hw]⟩

theorem Facts.Holds.mono {known' : Facts .axis Domain} {ctx' : Context} {w : Int64}
    (hsub : known.Subset known') (hctx : ctx ≤ ctx') (h : known.Holds ctx a w) :
    known'.Holds ctx' a w := by
  obtain ⟨d, m, n, hd, hm, hn, hw⟩ := h
  exact ⟨d, m, n, hsub a d hd, hm.mono hctx, hn.mono hctx, hw⟩

theorem Facts.Ranges.holds_iff (h : known.Ranges ctx a m n) (w : Int64) :
    known.Holds ctx a w ↔ m ≤ w.toInt ∧ w.toInt < m + n := by
  obtain ⟨-, d, hd, hmin, hextent⟩ := h
  constructor
  · rintro ⟨d', m', n', hd', hm, hn, hw⟩
    cases hd.symm.trans hd'
    cases hm.unique hmin
    cases hn.unique hextent
    exact hw
  · exact fun hw => ⟨d, m, n, hd, hmin, hextent, hw⟩

theorem Facts.Counts.holds_iff (h : known.Counts ctx a n) (w : Int64) :
    known.Holds ctx a w ↔ 0 ≤ w.toInt ∧ w.toInt < n := by
  rw [h.ranges.holds_iff, zero_add]

/-- A reading sees the literal ends of a domain. -/
theorem Facts.Ranges.spans {R : Reading} {b : Box}
    (h : known.Ranges ctx a (b.min a) (b.extent a))
    (hR : ∀ {e z}, ctx.Literal e z → R.holds ctx e z) : R.Spans b known ctx a := by
  obtain ⟨-, d, hd, hmin, hextent⟩ := h
  exact ⟨d, hd, hR hmin, hR hextent⟩

end

/-! ## Points of relations -/

namespace AxisRelation

variable {known : Facts .axis Domain} {ctx : Context} {b : Box} {x : AxisId → Int}
  {r : AxisRelation}

theorem Counted.covers (h : r.Counted known ctx) (hzero : ∀ a, b.min a = 0)
    (hb : ∀ a ∈ r.consumed ++ r.made, known.Counts ctx a (b.extent a)) : r.Covers b := by
  rcases r with (⟨parent, outer, inner, size⟩ | ⟨outer, inner, fused⟩) | ⟨parent, rebased⟩ | a
  · obtain ⟨x, m, n, hx, hm, hn, hle⟩ := h
    obtain rfl := hx.unique (hb parent (.head _))
    obtain rfl := hm.unique (hb outer (.tail _ (.head _)))
    obtain rfl := hn.unique (hb inner (.tail _ (.tail _ (.head _))))
    exact ⟨hzero outer, hzero inner, hn.1, hle⟩
  · obtain ⟨m, n, hm, hn, hmn⟩ := h
    obtain rfl := hm.unique (hb outer (.head _))
    obtain rfl := hn.unique (hb inner (.tail _ (.head _)))
    exact ⟨hzero fused, hn.1, (hb fused (.tail _ (.tail _ (.head _)))).unique hmn⟩
  · obtain ⟨n, hn, hn'⟩ := h
    obtain rfl := hn.unique (hb parent (.head _))
    exact ⟨hzero rebased, (hb rebased (.tail _ (.head _))).unique hn'⟩
  · trivial

/-- The axes that a relation is about are inside their domains. -/
def Inside (b : Box) (x : AxisId → Int) (r : AxisRelation) : Prop :=
  ∀ a, a ∈ r.consumed ++ r.made ∨ r = .singleton a → 0 ≤ x a ∧ x a < b.extent a

/-- Every row before the last one is whole. -/
theorem row_bounds {row column columns : Int} (hrow : 0 ≤ row) (hcolumn : 0 ≤ column)
    (hcolumns : 0 < columns) :
    0 ≤ row * columns ∧ row * columns ≤ row * columns + column :=
  ⟨mul_nonneg hrow hcolumns.le, by omega⟩

/-- What recombines inside domains that start at zero can be taken apart again. -/
theorem Recombines.takesApart (h : r.Recombines b x)
    (hzero : ∀ a ∈ r.consumed, b.min a = 0)
    (hx : r.Inside b x) (hpinned : ∀ a, r = .singleton a → b.extent a = 1) :
    r.TakesApart b x := by
  rcases r with (⟨parent, outer, inner, size⟩ | ⟨outer, inner, fused⟩) | ⟨parent, rebased⟩ | a
  · have heq : x parent = x outer * b.extent inner + x inner + b.min parent := h
    obtain ⟨hlo, hhi⟩ := hx inner (.inl (.tail _ (.tail _ (.head _))))
    have hpos : 0 < b.extent inner := hlo.trans_lt hhi
    rw [hzero parent (.head _), add_zero, add_comm] at heq
    refine ⟨?_, ?_⟩
    · rw [heq, Int.fdiv_eq_ediv_of_nonneg _ hpos.le, Int.add_mul_ediv_right _ _ hpos.ne',
        Int.ediv_eq_zero_of_lt hlo hhi, zero_add]
    · rw [heq, Int.fmod_eq_emod_of_nonneg _ hpos.le, Int.add_mul_emod_self_right,
        Int.emod_eq_of_lt hlo hhi]
  · obtain ⟨houter, hinner⟩ := h
    rw [hzero outer (.head _), add_zero] at houter
    rw [hzero inner (.tail _ (.head _)), add_zero] at hinner
    rw [TakesApart, houter, hinner, mul_comm, Int.mul_fdiv_add_fmod]
  · have heq : x parent = x rebased + b.min parent := h
    rw [hzero parent (.head _), add_zero] at heq
    exact heq.symm
  · obtain ⟨hlo, hhi⟩ := hx a (.inr rfl)
    rw [hpinned a rfl] at hhi
    change x a = 0
    omega

/-- Inside domains with extents that are words, the indices that go up are words. -/
theorem Recombines.fitsUp (h : r.Recombines b x) (hzero : ∀ a, b.min a = 0) (hx : r.Inside b x)
    (hfits : ∀ a ∈ r.consumed ++ r.made, Word.Fits (x a)) : r.FitsUp Word.Fits b x := by
  rcases r with (⟨parent, outer, inner, size⟩ | ⟨outer, inner, fused⟩) | ⟨parent, rebased⟩ | a
  · have heq : x parent = x outer * b.extent inner + x inner + b.min parent := h
    have hparent := hfits parent (.head _)
    obtain ⟨hinner, hinner'⟩ := hx inner (.inl (.tail _ (.tail _ (.head _))))
    obtain ⟨hprod, hsum⟩ := row_bounds (hx outer (.inl (.tail _ (.head _)))).1 hinner
      (hinner.trans_lt hinner')
    rw [hzero, add_zero] at heq
    rw [← heq] at hsum
    exact ⟨hparent.of_le hprod hsum, heq ▸ hparent, hparent⟩
  · obtain ⟨houter, hinner⟩ := h
    have hfused := hfits fused (.tail _ (.tail _ (.head _)))
    have hpos := (hx inner (.inl (.tail _ (.head _)))).1.trans_lt
      (hx inner (.inl (.tail _ (.head _)))).2
    have hmul := Arith.fdiv_mul_le (hx fused (.inl (.tail _ (.tail _ (.head _))))).1 hpos
    have hfitsO := hfits outer (.head _)
    have hfitsI := hfits inner (.tail _ (.head _))
    rw [hzero, add_zero] at houter hinner
    exact ⟨houter ▸ hfitsO, hfused.of_le hmul.1 hmul.2, hinner ▸ hfitsI, hfitsO, hfitsI⟩
  · exact hfits parent (.head _)
  · trivial

/-- So are those that go down. -/
theorem TakesApart.fitsDown (h : r.TakesApart b x) (hx : r.Inside b x)
    (hfits : ∀ a ∈ r.consumed ++ r.made, Word.Fits (x a)) : r.FitsDown Word.Fits b x := by
  rcases r with (⟨parent, outer, inner, size⟩ | ⟨outer, inner, fused⟩) | ⟨parent, rebased⟩ | a
  · obtain ⟨hinner, hinner'⟩ := hx inner (.inl (.tail _ (.tail _ (.head _))))
    have hmul := Arith.fdiv_mul_le (hx parent (.inl (.head _))).1 (hinner.trans_lt hinner')
    exact ⟨hfits outer (.tail _ (.head _)), hfits inner (.tail _ (.tail _ (.head _))),
      (hfits parent (.head _)).of_le hmul.1 hmul.2⟩
  · have heq : x fused = x outer * b.extent inner + x inner := h
    obtain ⟨hinner, hinner'⟩ := hx inner (.inl (.tail _ (.head _)))
    obtain ⟨hprod, hsum⟩ := row_bounds (hx outer (.inl (.head _))).1 hinner
      (hinner.trans_lt hinner')
    have hfused := hfits fused (.tail _ (.tail _ (.head _)))
    exact ⟨hfused.of_le hprod (heq ▸ hsum), hfused⟩
  · trivial
  · trivial

end AxisRelation

/-! ## Points of nests -/

namespace LoopNest

variable {nest : LoopNest} {known : Facts .axis Domain} {ctx ctx' : Context} {b : Box}
  {x : AxisId → Int} {R : Reading}

/-- The box has the literal extents of the domains, which count from zero. -/
structure Boxed (nest : LoopNest) (known : Facts .axis Domain) (ctx : Context)
    (b : Box) : Prop where
  zero : ∀ a, b.min a = 0
  counts : ∀ a ∈ nest.axes, known.Counts ctx a (b.extent a)
  covers : nest.Covers b
  pinned : ∀ a, .singleton a ∈ nest.relations → b.extent a = 1

theorem exists_boxed (hshaped : Shaped ctx' nest)
    (haxes : ∀ a ∈ nest.axes, ∃ n, known.Counts ctx a n)
    (hrelations : ∀ r ∈ nest.relations, r.Counted known ctx) : ∃ b, nest.Boxed known ctx b := by
  choose! extent hextent using haxes
  refine ⟨⟨fun _ => 0, extent⟩, fun _ => rfl, hextent, fun r hr => ?_, fun a ha => ?_⟩
  · exact (hrelations r hr).covers (fun _ => rfl)
      fun a ha => hextent a (hshaped.mem_axes_of_mem_relation hr ha)
  · exact (hextent a (hshaped.pinned a ha)).unique (hrelations _ ha)

theorem Boxed.mono (hctx : ctx ≤ ctx') (h : nest.Boxed known ctx b) : nest.Boxed known ctx' b :=
  ⟨h.zero, fun a ha => (h.counts a ha).mono (fun _ _ => id) hctx, h.covers, h.pinned⟩

theorem Boxed.contains_iff (h : nest.Boxed known ctx b) (a : AxisId) :
    b.Contains x a ↔ 0 ≤ x a ∧ x a < b.extent a := by
  rw [Box.Contains, h.zero, zero_add]

theorem Boxed.holds_iff (h : nest.Boxed known ctx b) {a : AxisId} (ha : a ∈ nest.axes) (w : Int64)
    (hw : w.toInt = x a) : known.Holds ctx a w ↔ b.Contains x a := by
  rw [(h.counts a ha).holds_iff, h.contains_iff, hw]

theorem Boxed.fits (h : nest.Boxed known ctx b) {a : AxisId} (ha : a ∈ nest.axes)
    (hx : b.Contains x a) : Word.Fits (x a) := by
  obtain ⟨hlo, hhi⟩ := (h.contains_iff a).1 hx
  obtain ⟨-, d, -, hextent⟩ := h.counts a ha
  exact hextent.fits.of_le hlo hhi.le

theorem Boxed.spans (h : nest.Boxed known ctx b)
    (hR : ∀ {e z}, ctx.Literal e z → R.holds ctx e z) {a : AxisId} (ha : a ∈ nest.axes) :
    R.Spans b known ctx a := by
  refine Facts.Ranges.spans ?_ hR
  rw [h.zero]
  exact (h.counts a ha).ranges

theorem Boxed.zeroBased (h : nest.Boxed known ctx b) {a : AxisId} (ha : a ∈ nest.axes) :
    Sweep.ZeroBased known ctx a := by
  obtain ⟨-, d, ⟨hd, hmin⟩, -⟩ := h.counts a ha
  intro d' hd'
  cases hd.symm.trans hd'
  obtain ⟨hstored, w, hw, hzero⟩ := hmin
  obtain rfl := Int64.toInt_inj.1 (hzero.trans Int64.toInt_zero.symm)
  exact ⟨hstored, decide_eq_true hw⟩

/-- A point of all axes, inside their domains and on the relations. -/
structure OnPoint (nest : LoopNest) (b : Box) (x : AxisId → Int) : Prop where
  contains : ∀ a ∈ nest.axes, b.Contains x a
  solves : nest.Solves b x

/-- The box counts the axes of the relations from zero, and loses none of their points. -/
structure Grounded (nest : LoopNest) (b : Box) : Prop where
  covers : nest.Covers b
  zero : ∀ r ∈ nest.relations, ∀ a ∈ r.consumed, b.min a = 0
  pinned : ∀ a, .singleton a ∈ nest.relations → b.min a = 0 ∧ b.extent a = 1

theorem Boxed.grounded (h : nest.Boxed known ctx b) : nest.Grounded b :=
  ⟨h.covers, fun _ _ a _ => h.zero a, fun a ha => ⟨h.zero a, h.pinned a ha⟩⟩

theorem OnPoint.inside (hx : nest.OnPoint b x) (h : nest.Grounded b) (hshaped : Shaped ctx nest)
    {r : AxisRelation} (hr : r ∈ nest.relations) : r.Inside b x := by
  have hzero : ∀ a ∈ r.consumed ++ r.made, b.min a = 0 :=
    List.forall_mem_append.2 ⟨h.zero r hr, (h.covers r hr).min_made⟩
  rintro a (ha | rfl)
  · simpa [Box.Contains, hzero a ha] using hx.contains a (hshaped.mem_axes_of_mem_relation hr ha)
  · simpa [Box.Contains, (h.pinned a hr).1] using hx.contains a (hshaped.pinned a hr)

theorem OnPoint.takesApart (hx : nest.OnPoint b x) (h : nest.Grounded b)
    (hshaped : Shaped ctx nest) {r : AxisRelation} (hr : r ∈ nest.relations) : r.TakesApart b x :=
  (hx.solves r hr).takesApart (h.zero r hr) (hx.inside h hshaped hr)
    fun a ha => (h.pinned a (ha ▸ hr)).2

end LoopNest

namespace Sweep

variable {nest : LoopNest} {roots known : Facts .axis Domain} {ctx : Context} {s : Session}
  {b : Box} {x : AxisId → Int} {start : Facts .axis ExprId} {allowMissing : Bool} {env : Env Int64}
  {p : AxisId → Int64}

theorem evaluates_of_reads {values : Facts .axis ExprId} {ctx : Context} {a : AxisId}
    (h : (Reading.word env).Reads .univ x values ctx) (ha : a ∈ values) :
    ∃ w, values.Evaluates ctx env a w ∧ w.toInt = x a := by
  have he := Std.TreeMap.getElem?_eq_some_getElem ha
  obtain ⟨-, w, hw, hx⟩ := h a trivial _ he
  exact ⟨w, ⟨_, he, hw⟩, hx⟩

/-- Where the roots are at a point of all axes that words reach, so are the indices that go down.
They do go down if what is fused or rebased starts at a literal zero. -/
theorem indicesDown_at {c : Prop} (hnest : LoopNest.Scheduled ctx nest) (hwf : s.ctx.WellFormed)
    (hground : nest.Grounded b)
    (hspans : ∀ r ∈ nest.relations, ∀ a ∈ r.fromZero, (Reading.word env).Spans b known s.ctx a)
    (hzero : c → ∀ r ∈ nest.relations, ∀ a ∈ r.fromZero, ZeroBased known s.ctx a)
    (hx : nest.OnPoint b x) (hfits : ∀ a ∈ nest.axes, Word.Fits (x a))
    (hstart : start.Seeds nest.roots s.ctx) (henv : s.ctx.Places nest.roots p env)
    (hp : ∀ a ∈ nest.roots, (p a).toInt = x a) :
    Yields c (indicesDown nest known allowMissing) start s fun _ down ctx' =>
      ∀ a ∈ nest.axes, ∃ w, down.Evaluates ctx' env a w ∧ w.toInt = x a := by
  have hshaped := hnest.shaped
  have hparts : ∀ r ∈ nest.relations, r.TakesApart b x := fun r hr =>
    hx.takesApart hground hshaped hr
  have hdown : ∀ r ∈ nest.relations, r.FitsDown Word.Fits b x := fun r hr =>
    (hparts r hr).fitsDown (hx.inside hground hshaped hr) fun a ha =>
      hfits a (hshaped.mem_axes_of_mem_relation hr ha)
  refine (indicesDown_yields (R := .word env) (fun _ => trivial) hnest hwf hspans hzero
    (fun r hr a ha => (hground.covers r hr).divisor_pos ha) hparts hdown
      (hstart.reads_word henv hp) hstart.mem).mono ?_
  rintro - down ctx' - ⟨⟨hreads, hall⟩, -⟩ a ha
  exact evaluates_of_reads hreads (hall a ha)

/-- Where the roots are at a point of all axes, so are the indices that go down. -/
theorem indicesDown_onPoint (hnest : LoopNest.Scheduled ctx nest) (hwf : s.ctx.WellFormed)
    (hbox : nest.Boxed known s.ctx b) (hx : nest.OnPoint b x)
    (hstart : start.Seeds nest.roots s.ctx) (henv : s.ctx.Places nest.roots p env)
    (hp : ∀ a ∈ nest.roots, (p a).toInt = x a) :
    Yields True (indicesDown nest known allowMissing) start s fun _ down ctx' =>
      ∀ a ∈ nest.axes, ∃ w, down.Evaluates ctx' env a w ∧ w.toInt = x a := by
  have haxis : ∀ r ∈ nest.relations, ∀ a ∈ r.fromZero, a ∈ nest.axes := fun r hr a ha =>
    hnest.shaped.mem_axes_of_mem_relation hr (AxisRelation.mem_of_mem_fromZero ha)
  exact indicesDown_at hnest hwf hbox.grounded
    (fun r hr a ha => hbox.spans (fun h => h.reads_word env) (haxis r hr a ha))
    (fun _ r hr a ha => hbox.zeroBased (haxis r hr a ha)) hx
    (fun a ha => hbox.fits ha (hx.contains a ha)) hstart henv hp

/-- Where the leaves are at a point of all axes, so are the indices that go up. -/
theorem indicesUp_onPoint (hnest : LoopNest.Scheduled ctx nest) (hwf : s.ctx.WellFormed)
    (hbox : nest.Boxed known s.ctx b) (hx : nest.OnPoint b x)
    (hstart : start.Seeds nest.leaves s.ctx) (henv : s.ctx.Places nest.leaves p env)
    (hp : ∀ a ∈ nest.leaves, (p a).toInt = x a) :
    Yields True (indicesUp nest known allowMissing) start s fun _ up ctx' =>
      ∀ a ∈ nest.axes, ∃ w, up.Evaluates ctx' env a w ∧ w.toInt = x a := by
  have hshaped := hnest.shaped
  refine (indicesUp_yields (R := .word env) (A := .univ) hnest hwf (fun r hr a ha => hbox.spans
    (fun h => h.reads_word env) (hshaped.mem_axes_of_mem_relation hr ha)) hbox.covers hx.solves
      (fun r hr => ?_) (hstart.reads_word henv hp) (fun _ _ _ _ => trivial) hstart.mem).mono ?_
  · refine (hx.solves r hr).fitsUp hbox.zero (hx.inside hbox.grounded hshaped hr) fun a ha => ?_
    have haxis := hshaped.mem_axes_of_mem_relation hr ha
    exact hbox.fits haxis (hx.contains a haxis)
  · rintro - up ctx' - ⟨hreads, hall⟩ a ha
    exact evaluates_of_reads hreads (hall a ha)

/-- Wherever the leaves are, the indices that go up have no other values than those of the one
solution of the relations there. -/
theorem indicesUp_solve (hnest : LoopNest.Scheduled ctx nest) (hwf : s.ctx.WellFormed)
    (hbox : nest.Boxed known s.ctx b) (hx : nest.Solves b x)
    (hstart : start.Seeds nest.leaves s.ctx) (henv : s.ctx.Places nest.leaves p env)
    (hp : ∀ a ∈ nest.leaves, (p a).toInt = x a) :
    Yields True (indicesUp nest known allowMissing) start s fun _ up ctx' =>
      ∀ a ∈ nest.axes, ∀ w, up.Evaluates ctx' env a w → w.toInt = x a := by
  have hshaped := hnest.shaped
  have hfits : ∀ r : AxisRelation, r.FitsUp (fun _ => True) b x := by
    rintro ((_ | _) | _ | _) <;> simp [AxisRelation.FitsUp]
  refine (indicesUp_yields (R := .exact True env.exact) (A := .univ) hnest hwf (fun r hr a ha =>
    hbox.spans (fun h => h.reads_exact _) (hshaped.mem_axes_of_mem_relation hr ha)) hbox.covers hx
      (fun r _ => hfits r) (hstart.reads_exact henv hp) (fun _ _ _ _ => trivial)
        hstart.mem).mono ?_
  rintro - up ctx' - ⟨hreads, -⟩ a ha w ⟨e, he, hw⟩
  have hexact : (ctx'.valuation env).value e = some w.toInt :=
    Valuation.value_of_eval (ν := ctx'.valuation env) rfl hw
  have hvalue := (hreads a trivial e he).2 trivial
  have hle : (⟨ctx', 0, env.exact⟩ : Valuation) ≤ ctx'.valuation env :=
    ⟨rfl, Nat.zero_le _, fun _ _ => id⟩
  exact Option.some_inj.1 (hexact.symm.trans (Valuation.value_mono hle hvalue))

/-- The words of a point of all axes. -/
def wordsOf (x : AxisId → Int) : AxisId → Int64 := fun a => Int64.ofInt (x a)

theorem toInt_wordsOf (hbox : nest.Boxed known ctx b) (hx : nest.OnPoint b x) {a : AxisId}
    (ha : a ∈ nest.axes) : (wordsOf x a).toInt = x a :=
  Word.toInt_ofInt (hbox.fits ha (hx.contains a ha))

/-- A point of all axes, and an assignment that places some of them there. -/
theorem exists_placed (hnest : LoopNest.Scheduled ctx nest) (hctx : ctx ≤ s.ctx)
    (hwf : s.ctx.WellFormed) (hbox : nest.Boxed known s.ctx b) {as : List AxisId}
    (has : ∀ a ∈ as, a ∈ nest.axes) :
    ∃ x env, nest.OnPoint b x ∧ s.ctx.Places as (wordsOf x) env ∧
      ∀ a ∈ as, (wordsOf x a).toInt = x a := by
  have horigin : ∀ a ∈ nest.roots, b.Contains (fun _ => 0) a := fun a ha =>
    (hbox.contains_iff a).2 ⟨le_rfl, (hbox.counts a (hnest.shaped.mem_axes_of_mem_roots ha)).1⟩
  obtain ⟨x, -, hcontains, hsolves⟩ := hnest.exists_point hbox.covers horigin
  have hx : nest.OnPoint b x := ⟨hcontains, hsolves⟩
  obtain ⟨env, henv⟩ := Context.exists_places hwf
    (fun a ha => (hnest.shaped.mono hctx hwf).registered a (has a ha)) (wordsOf x)
  exact ⟨x, env, hx, henv, fun a ha => toInt_wordsOf hbox hx (has a ha)⟩

/-- The pass down, and the indices that it finds at any point of all axes. -/
theorem exists_indicesDown (hnest : LoopNest.Scheduled ctx nest) (hctx : ctx ≤ s.ctx)
    (hwf : s.ctx.WellFormed) (hbox : nest.Boxed known s.ctx b)
    (hstart : start.Seeds nest.roots s.ctx) :
    ∃ down s', ((indicesDown nest known allowMissing).run.run start).run s = ((.ok (), down), s') ∧
      ∀ x, nest.OnPoint b x → ∀ p env, s'.ctx.Places nest.roots p env →
        (∀ a ∈ nest.roots, (p a).toInt = x a) →
          ∀ a ∈ nest.axes, ∃ w, down.Evaluates s'.ctx env a w ∧ w.toInt = x a := by
  obtain ⟨x, env, hx, henv, hwords⟩ := exists_placed hnest hctx hwf hbox fun a ha =>
    hnest.shaped.mem_axes_of_mem_roots ha
  have hfirst : Yields True (indicesDown nest known allowMissing) start s _ :=
    indicesDown_onPoint hnest hwf hbox hx hstart henv hwords
  obtain ⟨_, down, s', hrun⟩ := hfirst.ok trivial
  obtain ⟨-, hg, -⟩ := hfirst.post _ _ _ hrun
  refine ⟨down, s', hrun, fun x hx p env henv hp => ?_⟩
  exact ((indicesDown_onPoint hnest hwf hbox hx hstart (henv.of_grows hg) hp).post _ _ _ hrun).2.2

/-- The pass up, and the indices that it finds at any point of the leaves. -/
theorem exists_indicesUp (hnest : LoopNest.Scheduled ctx nest) (hctx : ctx ≤ s.ctx)
    (hwf : s.ctx.WellFormed) (hbox : nest.Boxed known s.ctx b)
    (hstart : start.Seeds nest.leaves s.ctx) :
    ∃ up s', ((indicesUp nest known allowMissing).run.run start).run s = ((.ok (), up), s') ∧
      (∀ x, nest.OnPoint b x → ∀ p env, s'.ctx.Places nest.leaves p env →
        (∀ a ∈ nest.leaves, (p a).toInt = x a) →
          ∀ a ∈ nest.axes, ∃ w, up.Evaluates s'.ctx env a w ∧ w.toInt = x a) ∧
      ∀ x, nest.Solves b x → ∀ p env, s'.ctx.Places nest.leaves p env →
        (∀ a ∈ nest.leaves, (p a).toInt = x a) →
          ∀ a ∈ nest.axes, ∀ w, up.Evaluates s'.ctx env a w → w.toInt = x a := by
  obtain ⟨x, env, hx, henv, hwords⟩ := exists_placed hnest hctx hwf hbox fun a ha =>
    hnest.shaped.mem_axes_of_mem_leaves ha
  have hfirst : Yields True (indicesUp nest known allowMissing) start s _ :=
    indicesUp_onPoint hnest hwf hbox hx hstart henv hwords
  obtain ⟨_, up, s', hrun⟩ := hfirst.ok trivial
  obtain ⟨-, hg, -⟩ := hfirst.post _ _ _ hrun
  refine ⟨up, s', hrun, fun x hx p env henv hp => ?_, fun x hx p env henv hp => ?_⟩
  · exact ((indicesUp_onPoint hnest hwf hbox hx hstart (henv.of_grows hg) hp).post _ _ _ hrun).2.2
  · exact ((indicesUp_solve hnest hwf hbox hx hstart (henv.of_grows hg) hp).post _ _ _ hrun).2.2

/-- Where all extents are literals, neither of the two passes fails, and they are inverse to each
other: a point of the roots inside their domains is found again from the point of the leaves that
it goes down to, and so is a point of the leaves from the one that it goes up to, if that lies
inside all domains. -/
theorem indices_inverse {nest : LoopNest} {roots known : Facts .axis Domain} {s s' sd su : Session}
    {rootVars leafVars : Facts .axis ExprId} {missing missingDown missingUp : Bool}
    (hnest : nest.OverLiterals roots s.ctx) (hs : s.Reachable)
    (hrun : ((domains nest missing).run.run roots).run s = ((.ok (), known), s'))
    (hliterals : known.Spelled s'.ctx) (hdown : s'.ctx ≤ sd.ctx) (hwfDown : sd.ctx.WellFormed)
    (hrootVars : rootVars.Seeds nest.roots sd.ctx) (hup : s'.ctx ≤ su.ctx)
    (hwfUp : su.ctx.WellFormed) (hleafVars : leafVars.Seeds nest.leaves su.ctx) :
    ∃ down sd' up su',
      ((indicesDown nest known missingDown).run.run rootVars).run sd = ((.ok (), down), sd') ∧
      ((indicesUp nest known missingUp).run.run leafVars).run su = ((.ok (), up), su') ∧
      (∀ p : AxisId → Int64, (∀ a ∈ nest.roots, roots.Holds s.ctx a (p a)) →
        ∃ q : AxisId → Int64,
          (∀ env, sd'.ctx.Places nest.roots p env →
            ∀ a ∈ nest.leaves, down.Evaluates sd'.ctx env a (q a)) ∧
          ∀ env, su'.ctx.Places nest.leaves q env →
            ∀ a ∈ nest.roots, up.Evaluates su'.ctx env a (p a)) ∧
      ∀ (q x : AxisId → Int64) (env : Env Int64), su'.ctx.Places nest.leaves q env →
        (∀ a ∈ nest.axes, up.Evaluates su'.ctx env a (x a) ∧ known.Holds s'.ctx a (x a)) →
          ∀ env', sd'.ctx.Places nest.roots x env' →
            ∀ a ∈ nest.leaves, down.Evaluates sd'.ctx env' a (q a) := by
  obtain ⟨hg, hsub, haxes, hrelations⟩ := domains_count hnest hs hrun hliterals
  have hscheduled := hnest.scheduled
  have hshaped := hscheduled.shaped
  obtain ⟨b, hbox⟩ := LoopNest.exists_boxed hshaped haxes hrelations
  obtain ⟨down, sd', hrunDown, hdownAt⟩ := exists_indicesDown hscheduled (hg.le.trans hdown)
    hwfDown (hbox.mono hdown) hrootVars
  obtain ⟨up, su', hrunUp, hupAt, hupSolves⟩ := exists_indicesUp hscheduled (hg.le.trans hup)
    hwfUp (hbox.mono hup) hleafVars
  have hroot : ∀ {a}, a ∈ nest.roots → a ∈ nest.axes := fun ha => hshaped.mem_axes_of_mem_roots ha
  have hleaf : ∀ {a}, a ∈ nest.leaves → a ∈ nest.axes := fun ha => hshaped.mem_axes_of_mem_leaves ha
  refine ⟨down, sd', up, su', hrunDown, hrunUp, fun p hp => ?_,
    fun q y env hq hy env' hy' a ha => ?_⟩
  · have hinside : ∀ a ∈ nest.roots, b.Contains (fun c => (p c).toInt) a := fun a ha =>
      (hbox.holds_iff (hroot ha) (p a) rfl).1 ((hp a ha).mono hsub hg.le)
    obtain ⟨x, hroots, hcontains, hsolves⟩ := hscheduled.exists_point hbox.covers hinside
    have hx : nest.OnPoint b x := ⟨hcontains, hsolves⟩
    have hwords : ∀ a ∈ nest.leaves, (wordsOf x a).toInt = x a := fun a ha =>
      toInt_wordsOf hbox hx (hleaf ha)
    refine ⟨wordsOf x, fun env henv a ha => ?_, fun env henv a ha => ?_⟩
    · obtain ⟨w, hw, hwx⟩ := hdownAt x hx p env henv (fun c hc => (hroots c hc).symm) a (hleaf ha)
      rwa [← Int64.toInt_inj.1 (hwx.trans (hwords a ha).symm)]
    · obtain ⟨w, hw, hwx⟩ := hupAt x hx (wordsOf x) env henv hwords a (hroot ha)
      rwa [← Int64.toInt_inj.1 (hwx.trans (hroots a ha))]
  · obtain ⟨x, hleaves, hsolves⟩ := hscheduled.exists_solves b fun c => (q c).toInt
    have hyx : ∀ c ∈ nest.axes, (y c).toInt = x c := fun c hc =>
      hupSolves x hsolves q env hq (fun e he => (hleaves e he).symm) c hc (y c) (hy c hc).1
    have hx : nest.OnPoint b x :=
      ⟨fun c hc => (hbox.holds_iff hc (y c) (hyx c hc)).1 (hy c hc).2, hsolves⟩
    obtain ⟨w, hw, hwx⟩ := hdownAt x hx y env' hy' (fun c hc => hyx c (hroot hc)) a (hleaf ha)
    rwa [← Int64.toInt_inj.1 (hwx.trans (hleaves a ha))]

/-- The loop variables of axes as a table of indices. -/
def loopVars (as : List AxisId) : Build (Facts .axis ExprId) :=
  as.foldlM (fun values a => do return values.insert a (← Build.axis a)) Std.TreeMap.empty

theorem loopVars_seeds (ctx : Context) (as : List AxisId) :
    Build.Ensures (loopVars as) ctx fun values ctx' => values.Seeds as ctx' := by
  suffices key : ∀ (rest done : List AxisId) (values : Facts .axis ExprId) (ctx : Context),
      values.Seeds done ctx → Build.Ensures (rest.foldlM (fun values a => do
        return values.insert a (← Build.axis a)) values) ctx
          fun values ctx' => values.Seeds (done ++ rest) ctx' from
    key as [] _ ctx ⟨fun a => by simp [Std.TreeMap.not_mem_emptyc], fun a e he => by simp at he⟩
  intro rest
  induction rest with
  | nil =>
      intro done values ctx h
      exact .pure (by simpa using h)
  | cons a rest ih =>
      intro done values ctx h
      rw [List.foldlM_cons, List.append_cons]
      refine Build.Ensures.bind (Q := fun values ctx => values.Seeds (done ++ [a]) ctx) ?_
        fun values ctx _ h => ih _ values ctx h
      have haxis : Build.Ensures (Build.axis a) ctx fun e ctx' =>
          ctx'.Over .all e ∧ ctx'.node e = .var (ctx.axisVar a) :=
        .get (Build.intern_ensures trivial nofun nofun)
      refine haxis.bind fun e ctx₁ hg he => .pure ⟨fun c => ?_, fun c r hr => ?_⟩
      · rw [Std.TreeMap.mem_insert, Std.compare_eq_iff_eq, h.mem, List.mem_append,
          List.mem_singleton, or_comm, eq_comm]
      · rcases Handle.getElem?_insert_eq_some.1 hr with ⟨rfl, rfl⟩ | ⟨-, hr⟩
        · exact ⟨he.1.stored, he.2.trans (by rw [hg.axisVar_eq])⟩
        · obtain ⟨hold, hnode⟩ := h.var c r hr
          refine ⟨hold.mono hg.le, ?_⟩
          rw [Context.node_eq hg.le hold, hnode, hg.axisVar_eq]

/-- The root over `[0, 10)`. -/
def tenRoot : (AxisId × Domain) × Context := rootOver fun _ _ => Build.int 10

def tenNest : LoopNest × Context := (raggedSchedule tenRoot.1.1).outcome tenRoot.2

def tenDomains : Facts .axis Domain × Session :=
  (domains tenNest.1 false).outcome (rootDomains tenRoot) ⟨tenNest.2, {}⟩

/-- The session of a pass that starts from the loop variables of some axes. -/
def tenStart (as : List AxisId) : Facts .axis ExprId × Session :=
  let (values, ctx) := (loopVars as).run tenDomains.2.ctx
  (values, ⟨ctx, {}⟩)

theorem tenNest_overLiterals : tenNest.1.OverLiterals (rootDomains tenRoot) tenNest.2 where
  scheduled :=
    (raggedSchedule_scheduled (by decide +kernel) (by decide +kernel)).outcome (by decide +kernel)
  threads := by decide +kernel
  mem_roots a := by
    have hroots : tenNest.1.roots = [tenRoot.1.1] := by decide +kernel
    rw [hroots, mem_rootDomains]
  roots a d hd := by
    have hliterals : ∀ p ∈ (rootDomains tenRoot).toList,
        tenNest.2.Literal p.2.min 0 ∧ tenNest.2.Literal p.2.extent 10 := by decide +kernel
    obtain ⟨hmin, hextent⟩ :=
      hliterals (a, d) (Std.TreeMap.mem_toList_iff_getElem?_eq_some.2 hd)
    exact ⟨hmin, 10, by decide, hextent⟩
  factors r hr e he := by
    have hfactors : ∀ r ∈ tenNest.1.relations, ∀ e ∈ r.exprs, ∃ w ∈ tenNest.2.literal? e,
        0 < w.toInt ∧ tenNest.2.Literal e w.toInt := by decide +kernel
    obtain ⟨w, -, hw⟩ := hfactors r hr e he
    exact ⟨w.toInt, hw⟩

theorem tenDomains_spelled : tenDomains.1.Spelled tenDomains.2.ctx := by
  have hliterals : ∀ p ∈ tenDomains.1.toList, ∃ w ∈ tenDomains.2.ctx.literal? p.2.extent,
      tenDomains.2.ctx.Literal p.2.extent w.toInt := by decide +kernel
  intro a d hd
  obtain ⟨w, -, hw⟩ := hliterals (a, d) (Std.TreeMap.mem_toList_iff_getElem?_eq_some.2 hd)
  exact ⟨w.toInt, hw⟩

theorem indices_inverse_ten :
    ∃ down sd' up su',
      ((indicesDown tenNest.1 tenDomains.1 false).run.run (tenStart tenNest.1.roots).1).run
        (tenStart tenNest.1.roots).2 = ((.ok (), down), sd') ∧
      ((indicesUp tenNest.1 tenDomains.1 false).run.run (tenStart tenNest.1.leaves).1).run
        (tenStart tenNest.1.leaves).2 = ((.ok (), up), su') ∧
      (∀ p : AxisId → Int64,
        (∀ a ∈ tenNest.1.roots, (rootDomains tenRoot).Holds tenNest.2 a (p a)) →
          ∃ q : AxisId → Int64,
            (∀ env, sd'.ctx.Places tenNest.1.roots p env →
              ∀ a ∈ tenNest.1.leaves, down.Evaluates sd'.ctx env a (q a)) ∧
            ∀ env, su'.ctx.Places tenNest.1.leaves q env →
              ∀ a ∈ tenNest.1.roots, up.Evaluates su'.ctx env a (p a)) ∧
      ∀ (q x : AxisId → Int64) (env : Env Int64), su'.ctx.Places tenNest.1.leaves q env →
        (∀ a ∈ tenNest.1.axes, up.Evaluates su'.ctx env a (x a) ∧
          tenDomains.1.Holds tenDomains.2.ctx a (x a)) →
          ∀ env', sd'.ctx.Places tenNest.1.roots x env' →
            ∀ a ∈ tenNest.1.leaves, down.Evaluates sd'.ctx env' a (q a) := by
  have hwf : tenNest.2.WellFormed := tenNest_overLiterals.scheduled.shaped.wellFormed
  have hrun : ((domains tenNest.1 false).run.run (rootDomains tenRoot)).run ⟨tenNest.2, {}⟩ =
      ((.ok (), tenDomains.1), tenDomains.2) := run_eq_of_succeeds (by decide +kernel)
  have hwf' : tenDomains.2.ctx.WellFormed := by decide +kernel
  have hseeds : ∀ as, tenDomains.2.ctx.Grows (tenStart as).2.ctx ∧
      (tenStart as).1.Seeds as (tenStart as).2.ctx := fun as => loopVars_seeds _ as
  obtain ⟨hdown, hroots⟩ := hseeds tenNest.1.roots
  obtain ⟨hup, hleaves⟩ := hseeds tenNest.1.leaves
  exact indices_inverse tenNest_overLiterals (.start _ true hwf) hrun tenDomains_spelled hdown.le
    (hdown.wellFormed hwf') hroots hup.le (hup.wellFormed hwf') hleaves

end Sweep

end LoopBounds
