import LoopBounds.IndexFun.Renaming
import LoopBounds.Proofs.Inlining

/-!
# Functions that are equal up to renaming

The renaming that turns one body into another relates parameters that stand for the same
dimension.  It is one-to-one, and as many parameters are left over on either side, so no
parameter that a body mentions is declared twice.  At arguments that agree, dimension by
dimension, the two bodies have the same values.
-/

namespace LoopBounds

namespace Context

/-- `b` is `a` with its variables renamed as `R` relates them. -/
inductive Renames (ctx : Context) (R : VarId → VarId → Prop) : ExprId → ExprId → Prop
  | var {a b v w} (ha : ctx.node a = .var v) (hb : ctx.node b = .var w) (h : R v w) :
    Renames ctx R a b
  | node {a b operands} (hvar : ∀ v, ctx.node a ≠ .var v)
    (hlen : operands.length = (ctx.node a).children.length)
    (hb : ctx.node b = (ctx.node a).withChildren operands)
    (h : ∀ p ∈ (ctx.node a).children.zip operands, Renames ctx R p.1 p.2) : Renames ctx R a b

theorem Renames.mono {ctx : Context} {R S : VarId → VarId → Prop} (hRS : ∀ v w, R v w → S v w)
    {a b : ExprId} (h : ctx.Renames R a b) : ctx.Renames S a b := by
  induction h with
  | var ha hb h => exact .var ha hb (hRS _ _ h)
  | node hvar hlen hb _ ih => exact .node hvar hlen hb ih

theorem Renames.grow {ctx ctx' : Context} {R : VarId → VarId → Prop} {a b : ExprId}
    (hctx : ctx ≤ ctx') (ha : ctx.Stored a) (hb : ctx.Stored b) (h : ctx.Renames R a b) :
    ctx'.Renames R a b := by
  induction h with
  | var hna hnb h =>
      exact .var ((node_eq hctx ha).trans hna) ((node_eq hctx hb).trans hnb) h
  | @node a b operands hvar hlen hnb _ ih =>
      have hna := node_eq hctx ha
      have hlen' : operands.length = (ctx'.node a).children.length := hna ▸ hlen
      refine .node (by rwa [hna]) hlen' (by rw [hna, node_eq hctx hb, hnb]) ?_
      rw [hna]
      intro p hp
      obtain ⟨hpa, hpb⟩ := List.of_mem_zip hp
      refine ih p hp (ha.child hpa) (hb.child ?_)
      rwa [hnb, Node.children_withChildren hlen]

end Context

namespace Valuation

variable {ν μ : Valuation} {a b : ExprId} {z : Int}

/-- A node over operands with the same values has the same value, also at another assignment. -/
theorem value_withChildren (hctx : μ.ctx = ν.ctx) (hdepth : μ.depth = ν.depth)
    {operands : List ExprId} (hvar : ∀ v, ν.ctx.node a ≠ .var v)
    (hb : ν.ctx.node b = (ν.ctx.node a).withChildren operands)
    (h : List.Forall₂ (fun c d => ∀ x, ν.value c = some x → μ.value d = some x)
      (ν.ctx.node a).children operands) (hz : ν.value a = some z) : μ.value b = some z := by
  have hb : μ.ctx.node b = (ν.ctx.node a).withChildren operands :=
    (congrArg (Context.node · b) hctx).trans hb
  cases hn : ν.ctx.node a with
  | const w t =>
      rw [hn] at hb
      rw [value_const hn] at hz
      exact (value_const hb).trans hz
  | var v => exact absurd hn (hvar v)
  | arith op c d =>
      rw [hn] at h hb
      obtain ⟨c', d', hc, hd, rfl⟩ := forall₂_pair h
      obtain ⟨x, y, hx, hy, hz⟩ := (value_arith_eq_some hn).1 hz
      exact (value_arith_eq_some hb).2 ⟨x, y, hc x hx, hd y hy, hz⟩
  | compare op c d =>
      rw [hn] at h hb
      obtain ⟨c', d', hc, hd, rfl⟩ := forall₂_pair h
      obtain ⟨x, y, hx, hy, hz⟩ := (value_compare_eq_some hn).1 hz
      exact (value_compare_eq_some hb).2 ⟨x, y, hc x hx, hd y hy, hz⟩
  | and c d =>
      rw [hn] at h hb
      obtain ⟨c', d', hc, hd, rfl⟩ := forall₂_pair h
      refine (value_and_eq_some hb).2 (((value_and_eq_some hn).1 hz).imp ?_ ?_)
      · exact And.imp_left (hc 0)
      · rintro ⟨x, y, hx, h0, hy, hz⟩
        exact ⟨x, y, hc x hx, h0, hd y hy, hz⟩
  | or c d =>
      rw [hn] at h hb
      obtain ⟨c', d', hc, hd, rfl⟩ := forall₂_pair h
      refine (value_or_eq_some hb).2 (((value_or_eq_some hn).1 hz).imp ?_ ?_)
      · rintro ⟨hx, y, hy, hz⟩
        exact ⟨hc 0 hx, y, hd y hy, hz⟩
      · rintro ⟨⟨x, hx, h0⟩, hz⟩
        exact ⟨⟨x, hc x hx, h0⟩, hz⟩
  | not c =>
      rw [hn] at h hb
      obtain ⟨c', rest, hc, hrest, rfl⟩ := List.forall₂_cons_left_iff.1 h
      obtain rfl := List.forall₂_nil_left_iff.1 hrest
      obtain ⟨x, hx, hz⟩ := (value_not_eq_some hn).1 hz
      exact (value_not_eq_some hb).2 ⟨x, hc x hx, hz⟩
  | call f args dims =>
      rw [hn] at h hb
      obtain ⟨body, inner, hbody, hinner, hz⟩ := (value_call_eq_some hn).1 hz
      have hcalls : μ.Calls μ.value f operands dims inner := by
        rw [Calls, hctx, hdepth]
        exact calls_congr h (enter_eq_some.1 hinner)
      exact (value_call_eq_some hb).2
        ⟨body, inner, hctx ▸ hbody, enter_eq_some.2 hcalls, hz⟩

end Valuation

/-- What is renamed keeps its value when variables have the values of those they rename. -/
theorem Context.Renames.value {ν μ : Valuation} {R : VarId → VarId → Prop} {a b : ExprId} {z : Int}
    (h : ν.ctx.Renames R a b) (hctx : μ.ctx = ν.ctx) (hdepth : μ.depth = ν.depth)
    (henv : ∀ v w, R v w → ∀ x, ν.env v = some x → μ.env w = some x) (hz : ν.value a = some z) :
    μ.value b = some z := by
  induction h generalizing z with
  | var ha hb h =>
      rw [Valuation.value_var ha] at hz
      rw [Valuation.value_var (hctx ▸ hb)]
      exact henv _ _ h z hz
  | node hvar hlen hb _ ih =>
      refine Valuation.value_withChildren hctx hdepth hvar hb ?_ hz
      exact List.forall₂_iff_zip.2 ⟨hlen.symm, fun hmem _ => ih _ hmem⟩

namespace Renaming

variable {ctx : Context} {f g : IndexFun} {r r' : Renaming} {a b : ExprId} {v w : VarId}

/-- The directions are inverse to each other, and the pairs are of parameters that stand for the
same dimension. -/
structure Good (f g : IndexFun) (r : Renaming) : Prop where
  inverse : ∀ v w : VarId, r.forth[v]? = some w ↔ r.back[w]? = some v
  sameDim : ∀ v w : VarId, r.forth[v]? = some w → sameDim f g v w = true

/-- The variables are a pair of the renaming, or one variable that is no parameter. -/
def Pairs (f g : IndexFun) (r : Renaming) (v w : VarId) : Prop :=
  r.forth[v]? = some w ∨ v = w ∧ v ∉ f.params ∧ w ∉ g.params

/-- What has been paired stays paired. -/
def Grows (r r' : Renaming) : Prop := ∀ v w : VarId, r.forth[v]? = some w → r'.forth[v]? = some w

theorem good_empty (f g : IndexFun) : Good f g {} := ⟨by simp, by simp⟩

theorem Pairs.mono (hgrows : r.Grows r') (h : Pairs f g r v w) : Pairs f g r' v w :=
  h.imp_left (hgrows v w)

/-! ## Walking two bodies together -/

theorem pair?_good (hr : r.Good f g) (hdim : sameDim f g v w = true)
    (h : r.pair? v w = some r') : r'.Good f g ∧ r.Grows r' ∧ r'.forth[v]? = some w := by
  rw [pair?, Option.ite_none_left_eq_some] at h
  obtain ⟨hfree, h⟩ := h
  cases h
  obtain ⟨hv, hw⟩ := not_or.1 hfree
  have hv : ∀ x : VarId, r.forth[v]? = some x → x = w := by
    intro x hx
    simpa [hx] using hv
  have hw : ∀ x : VarId, r.back[w]? = some x → x = v := by
    intro x hx
    simpa [hx] using hw
  refine ⟨⟨fun x y => ?_, fun x y hxy => ?_⟩, fun x y hxy => ?_, ?_⟩
  · change (r.forth.insert v w)[x]? = some y ↔ (r.back.insert w v)[y]? = some x
    rw [Handle.getElem?_insert_eq_some, Handle.getElem?_insert_eq_some, hr.inverse]
    constructor
    · rintro (⟨rfl, rfl⟩ | ⟨hx, hyx⟩)
      · exact .inl ⟨rfl, rfl⟩
      · exact .inr ⟨fun hy => hx (hw x (hy ▸ hyx)), hyx⟩
    · rintro (⟨rfl, rfl⟩ | ⟨hy, hyx⟩)
      · exact .inl ⟨rfl, rfl⟩
      · exact .inr ⟨fun hx => hy (hv y (hx ▸ (hr.inverse x y).2 hyx)), hyx⟩
  · rcases Handle.getElem?_insert_eq_some.1 hxy with ⟨rfl, rfl⟩ | ⟨-, hxy⟩
    exacts [hdim, hr.sameDim x y hxy]
  · refine Handle.getElem?_insert_eq_some.2 ?_
    by_cases hx : x = v
    · exact .inl ⟨hx, hv y (hx ▸ hxy)⟩
    · exact .inr ⟨hx, hxy⟩
  · exact Handle.getElem?_insert_eq_some.2 (.inl ⟨rfl, rfl⟩)

theorem ofVars?_good (hr : r.Good f g) (h : r.ofVars? f g v w = some r') :
    r'.Good f g ∧ r.Grows r' ∧ Pairs f g r' v w := by
  unfold ofVars? at h
  split at h
  · obtain ⟨hdim, h⟩ := Option.ite_none_right_eq_some.1 h
    obtain ⟨hgood, hgrows, hpair⟩ := pair?_good hr hdim h
    exact ⟨hgood, hgrows, .inl hpair⟩
  · next hv hw =>
    obtain ⟨hvw, h⟩ := Option.ite_none_right_eq_some.1 h
    cases h
    exact ⟨hr, fun _ _ => id,
      .inr ⟨hvw, List.idxOf?_eq_none_iff.1 hv, List.idxOf?_eq_none_iff.1 hw⟩⟩
  · cases h

theorem foldlM_pair {α β : Type} {step : β → α → Option β} {x y : α} {r r' : β}
    (h : (do step (← step r x) y) = some r') : [x, y].foldlM step r = some r' := by
  simpa using h

/-- Two nodes are walked together when they are variables, or when they differ in their operands
only; then so are the operands. -/
theorem cases_of_ofExprs? (h : ofExprs? ctx f g r a b = some r') :
    (∃ v w, ctx.node a = .var v ∧ ctx.node b = .var w ∧ r.ofVars? f g v w = some r') ∨
    ∃ operands, (∀ v, ctx.node a ≠ .var v) ∧
      operands.length = (ctx.node a).children.length ∧
      ctx.node b = (ctx.node a).withChildren operands ∧
      ((ctx.node a).children.zip operands).foldlM (fun r p => ofExprs? ctx f g r p.1 p.2) r =
        some r' := by
  rw [ofExprs?] at h
  split at h
  · next v w ha hb => exact .inl ⟨v, w, ha, hb, h⟩
  all_goals refine .inr ?_
  · next x s y t ha hb =>
    obtain ⟨⟨rfl, rfl⟩, hwalk⟩ := Option.ite_none_right_eq_some.1 h
    exact ⟨[], by simp [ha], by simp [ha, Node.children], by rw [ha, hb]; rfl, by rwa [ha]⟩
  · next o a₁ a₂ p b₁ b₂ ha hb =>
    obtain ⟨rfl, hwalk⟩ := Option.ite_none_right_eq_some.1 h
    exact ⟨[b₁, b₂], by simp [ha], by simp [ha, Node.children], by rw [ha, hb]; rfl,
      by rw [ha]; exact foldlM_pair hwalk⟩
  · next o a₁ a₂ p b₁ b₂ ha hb =>
    obtain ⟨rfl, hwalk⟩ := Option.ite_none_right_eq_some.1 h
    exact ⟨[b₁, b₂], by simp [ha], by simp [ha, Node.children], by rw [ha, hb]; rfl,
      by rw [ha]; exact foldlM_pair hwalk⟩
  · next a₁ a₂ b₁ b₂ ha hb =>
    exact ⟨[b₁, b₂], by simp [ha], by simp [ha, Node.children], by rw [ha, hb]; rfl,
      by rw [ha]; exact foldlM_pair h⟩
  · next a₁ a₂ b₁ b₂ ha hb =>
    exact ⟨[b₁, b₂], by simp [ha], by simp [ha, Node.children], by rw [ha, hb]; rfl,
      by rw [ha]; exact foldlM_pair h⟩
  · next a₁ b₁ ha hb =>
    exact ⟨[b₁], by simp [ha], by simp [ha, Node.children], by rw [ha, hb]; rfl,
      by rw [ha]; simpa [Node.children] using h⟩
  · next o as ds p bs es ha hb =>
    obtain ⟨⟨rfl, rfl, hlen⟩, hwalk⟩ := Option.ite_none_right_eq_some.1 h
    refine ⟨bs, by simp [ha], by simp [ha, Node.children, hlen], by rw [ha, hb]; rfl, ?_⟩
    have hzip : as.zip bs = (as.attach.zip bs).map (Prod.map Subtype.val id) := by
      rw [← List.zip_map, List.attach_map_subtype_val, List.map_id]
    rw [ha, Node.children, hzip, List.foldlM_map]
    exact hwalk
  · cases h

/-- A walk over operands, when each step of it is right. -/
theorem foldlM_turns {ps : List (ExprId × ExprId)}
    (hstep : ∀ p ∈ ps, ∀ r r' : Renaming, r.Good f g → ofExprs? ctx f g r p.1 p.2 = some r' →
      r'.Good f g ∧ r.Grows r' ∧ ctx.Renames (Pairs f g r') p.1 p.2) (hr : r.Good f g)
    (h : ps.foldlM (fun r p => ofExprs? ctx f g r p.1 p.2) r = some r') :
    r'.Good f g ∧ r.Grows r' ∧ ∀ p ∈ ps, ctx.Renames (Pairs f g r') p.1 p.2 := by
  induction ps generalizing r with
  | nil =>
      cases h
      exact ⟨hr, fun _ _ => id, nofun⟩
  | cons p ps ih =>
      rw [List.foldlM_cons] at h
      obtain ⟨r₁, hp, h⟩ := Option.bind_eq_some_iff.1 h
      obtain ⟨hr₁, hgrows₁, hrenames⟩ := hstep p List.mem_cons_self r r₁ hr hp
      obtain ⟨hr', hgrows, hrest⟩ := ih (fun q hq => hstep q (List.mem_cons_of_mem _ hq)) hr₁ h
      refine ⟨hr', fun v w hvw => hgrows v w (hgrows₁ v w hvw), List.forall_mem_cons.2 ⟨?_, hrest⟩⟩
      exact hrenames.mono fun _ _ => Pairs.mono hgrows

/-- The walk extends a renaming so that it turns one expression into the other. -/
theorem ofExprs?_turns {ctx : Context} {f g : IndexFun} (r r' : Renaming) (a b : ExprId)
    (hr : r.Good f g) (h : ofExprs? ctx f g r a b = some r') :
    r'.Good f g ∧ r.Grows r' ∧ ctx.Renames (Pairs f g r') a b := by
  rcases cases_of_ofExprs? h with ⟨v, w, ha, hb, h⟩ | ⟨operands, hvar, hlen, hb, h⟩
  · obtain ⟨hgood, hgrows, hpair⟩ := ofVars?_good hr h
    exact ⟨hgood, hgrows, .var ha hb hpair⟩
  · have hstep : ∀ p ∈ (ctx.node a).children.zip operands, ∀ r r' : Renaming, r.Good f g →
        ofExprs? ctx f g r p.1 p.2 = some r' →
        r'.Good f g ∧ r.Grows r' ∧ ctx.Renames (Pairs f g r') p.1 p.2 := fun p hp r r' hr h =>
      have hmem := (List.of_mem_zip hp).1
      ofExprs?_turns r r' p.1 p.2 hr h
    obtain ⟨hgood, hgrows, hoperands⟩ := foldlM_turns hstep hr h
    exact ⟨hgood, hgrows, .node hvar hlen hb hoperands⟩
termination_by a.index
decreasing_by exact ctx.child_lt hmem

/-! ## No parameter is declared twice -/

theorem getElem?_of_paramIndex? {i : Nat} (h : f.paramIndex? v = some i) :
    f.params[i]? = some v := by
  obtain ⟨hi, hv, -⟩ := List.idxOf?_eq_some_iff.1 h
  exact List.getElem?_eq_some_iff.2 ⟨hi, hv⟩

theorem sameDim_iff : sameDim f g v w = true ↔ ∃ i j, f.paramIndex? v = some i ∧
    g.paramIndex? w = some j ∧ f.dims[i]? = g.dims[j]? := by
  unfold sameDim
  split
  · next i j hi hj => simp [hi, hj]
  · next h =>
    refine iff_of_false Bool.false_ne_true ?_
    rintro ⟨i, j, hi, hj, -⟩
    exact h i j hi hj

theorem contains_iff {m : Std.TreeMap VarId VarId} : m.contains v = true ↔ ∃ w, m[v]? = some w := by
  rw [← Std.TreeMap.mem_iff_contains, Std.TreeMap.mem_iff_isSome_getElem?, Option.isSome_iff_exists]

/-- When as many parameters are left over on either side, those of `g` that have a partner are
declared once. -/
theorem Good.nodup (hr : r.Good f g) (hnodup : f.params.Nodup)
    (harity : f.params.length = g.params.length)
    (hunused : (f.params.filter (!r.forth.contains ·)).length =
      (g.params.filter (!r.back.contains ·)).length) :
    (g.params.filter (r.back.contains ·)).Nodup := by
  -- The partners are distinct, and there are as many as there are places for them.
  let partner : VarId → VarId := fun v => r.forth[v]?.getD v
  have hpartner : ∀ v ∈ f.params.filter (r.forth.contains ·), r.forth[v]? = some (partner v) := by
    intro v hv
    obtain ⟨w, hw⟩ := contains_iff.1 (List.mem_filter.1 hv).2
    simp [partner, hw]
  have hdistinct : ((f.params.filter (r.forth.contains ·)).map partner).Nodup := by
    refine List.Nodup.map_on (fun v hv v' hv' heq => ?_) (hnodup.filter _)
    have hback := (hr.inverse _ _).1 (hpartner v hv)
    have hback' := (hr.inverse _ _).1 (hpartner v' hv')
    rw [heq] at hback
    exact Option.some_inj.1 (hback.symm.trans hback')
  have hsub : (f.params.filter (r.forth.contains ·)).map partner ⊆
      g.params.filter (r.back.contains ·) := by
    intro w hw
    obtain ⟨v, hv, rfl⟩ := List.mem_map.1 hw
    have hvw := hpartner v hv
    obtain ⟨-, j, -, hj, -⟩ := sameDim_iff.1 (hr.sameDim _ _ hvw)
    exact List.mem_filter.2 ⟨List.mem_of_getElem? (getElem?_of_paramIndex? hj),
      contains_iff.2 ⟨v, (hr.inverse _ _).1 hvw⟩⟩
  have hf := List.length_eq_length_filter_add (l := f.params) (r.forth.contains ·)
  have hg := List.length_eq_length_filter_add (l := g.params) (r.back.contains ·)
  refine ((hdistinct.subperm hsub).perm_of_length_le ?_).nodup_iff.1 hdistinct
  rw [List.length_map]
  omega

theorem eq_of_getElem?_of_count {α : Type} [DecidableEq α] {xs : List α} {x : α}
    (h : xs.count x ≤ 1) {i j : Nat} (hi : xs[i]? = some x) (hj : xs[j]? = some x) : i = j := by
  obtain ⟨hi, hix⟩ := List.getElem?_eq_some_iff.1 hi
  obtain ⟨hj, hjx⟩ := List.getElem?_eq_some_iff.1 hj
  have hlt : ∀ m n : Fin xs.length, x = xs.get m → x = xs.get n → ¬ m < n := by
    intro m n hm hn hmn
    have hdup := List.duplicate_iff_two_le_count.1
      (List.duplicate_iff_exists_distinct_get.2 ⟨m, n, hmn, hm, hn⟩)
    omega
  have hij := hlt ⟨i, hi⟩ ⟨j, hj⟩ hix.symm hjx.symm
  have hji := hlt ⟨j, hj⟩ ⟨i, hi⟩ hjx.symm hix.symm
  simp only [Fin.mk_lt_mk] at hij hji
  omega

theorem dim_eq_of_mem_signature (hcount : f.params.count v ≤ 1) {i : Nat}
    (hi : f.paramIndex? v = some i) {d : DimId} (hd : (v, d) ∈ f.signature) :
    f.dims[i]? = some d := by
  obtain ⟨k, hk⟩ := List.mem_iff_getElem?.1 hd
  obtain ⟨hv, hd⟩ := List.getElem?_zip_eq_some.1 hk
  exact eq_of_getElem?_of_count hcount hv (getElem?_of_paramIndex? hi) ▸ hd

/-- Partners stand for one dimension wherever they are declared. -/
theorem Good.dim_eq (hr : r.Good f g) (hf : f.params.Nodup)
    (hg : (g.params.filter (r.back.contains ·)).Nodup) (hvw : r.forth[v]? = some w) {d e : DimId}
    (hd : (v, d) ∈ f.signature) (he : (w, e) ∈ g.signature) : d = e := by
  have hw : r.back.contains w = true := contains_iff.2 ⟨v, (hr.inverse v w).1 hvw⟩
  have hcount : g.params.count w ≤ 1 := by
    rw [← List.count_filter (p := (r.back.contains ·)) hw]
    exact List.nodup_iff_count_le_one.1 hg w
  obtain ⟨i, j, hi, hj, hdim⟩ := sameDim_iff.1 (hr.sameDim v w hvw)
  rw [dim_eq_of_mem_signature (List.nodup_iff_count_le_one.1 hf v) hi hd,
    dim_eq_of_mem_signature hcount hj he] at hdim
  exact Option.some_inj.1 hdim

/-- A partner has a dimension when the parameter has one. -/
theorem Good.exists_dim (hr : r.Good f g) (hf : f.params.Nodup) (hvw : r.forth[v]? = some w)
    {d : DimId} (hd : (v, d) ∈ f.signature) : (w, d) ∈ g.signature := by
  obtain ⟨i, j, hi, hj, hdim⟩ := sameDim_iff.1 (hr.sameDim v w hvw)
  rw [dim_eq_of_mem_signature (List.nodup_iff_count_le_one.1 hf v) hi hd] at hdim
  exact List.mem_of_getElem? (List.getElem?_zip_eq_some.2 ⟨getElem?_of_paramIndex? hj, hdim.symm⟩)

end Renaming

/-! ## Functions -/

theorem IndexFun.dim_unique {f : IndexFun} (hf : f.params.Nodup) {v : VarId} {d e : DimId}
    (hd : (v, d) ∈ f.signature) (he : (v, e) ∈ f.signature) : d = e := by
  obtain ⟨i, hi⟩ := List.mem_iff_getElem?.1 hd
  obtain ⟨j, hj⟩ := List.mem_iff_getElem?.1 he
  obtain ⟨hvi, hd⟩ := List.getElem?_zip_eq_some.1 hi
  obtain ⟨hvj, he⟩ := List.getElem?_zip_eq_some.1 hj
  have hij := Renaming.eq_of_getElem?_of_count (List.nodup_iff_count_le_one.1 hf v) hvi hvj
  exact Option.some_inj.1 (hd.symm.trans (hij ▸ he))

namespace Context

variable {ctx : Context} {f g : FunId}

/-- A function is equal to itself, and to those whose bodies the renaming turns its own into. -/
theorem eq_or_renamed (h : (ctx.correspondence f g).equal = true) :
    g = f ∨ ∃ a b, (ctx.fn f).body? = some a ∧ (ctx.fn g).body? = some b ∧
      ∃ r : Renaming, r.Good (ctx.fn f) (ctx.fn g) ∧
        ((ctx.fn f).params.Nodup →
          ((ctx.fn g).params.filter (r.back.contains ·)).Nodup) ∧
        ctx.Renames (Renaming.Pairs (ctx.fn f) (ctx.fn g) r) a b := by
  unfold correspondence at h
  dsimp only at h
  split at h
  · cases h
  next harity =>
  split at h
  · next a b ha hb =>
    split at h
    · next r hr =>
      obtain ⟨r, hwalk, hunused⟩ := Option.bind_eq_some_iff.1 hr
      obtain ⟨hgood, -, hrenames⟩ := Renaming.ofExprs?_turns _ _ a b (Renaming.good_empty _ _) hwalk
      refine .inr ⟨a, b, ha, hb, r, hgood, fun hf => ?_, hrenames⟩
      unfold Renaming.ofUnused? at hunused
      exact hgood.nodup hf (not_not.1 harity) (Option.ite_none_right_eq_some.1 hunused).1
    · cases h
  · exact .inl (of_decide_eq_true h).symm

end Context

/-- At arguments that agree, dimension by dimension, the bodies of equal functions have the same
values. -/
theorem Valuation.value_of_correspondence {ctx : Context} {ν μ : Valuation} {f g : FunId}
    {k l : DimId → Option Int} (hwf : ctx.WellFormed) (hf : (ctx.fn f).params.Nodup)
    (h : g = f ∨ (ctx.correspondence f g).equal = true) (hctx : ctx ≤ ν.ctx)
    (hμ : μ.ctx = ν.ctx) (hdepth : μ.depth = ν.depth)
    (henv : (ctx.fn f).bindParams k = some ν.env) (henv' : (ctx.fn g).bindParams l = some μ.env)
    (hkl : ∀ d ∈ (ctx.fn f).dims, ∀ x y, k d = some x → l d = some y → x = y) {a b : ExprId}
    (ha : (ctx.fn f).body? = some a) (hb : (ctx.fn g).body? = some b) {z : Int}
    (hz : ν.value a = some z) : μ.value b = some z := by
  rcases h.elim Or.inl ctx.eq_or_renamed with rfl | ⟨a', b', ha', hb', r, hgood, hg, hrenames⟩
  · cases ha.symm.trans hb
    have hle : ν.Extends μ := by
      refine ⟨hμ, hdepth.ge, fun v x hx => ?_⟩
      obtain ⟨d, hd, hk⟩ := IndexFun.mem_signature_of_bindParams henv hx
      obtain ⟨y, hy⟩ := IndexFun.bound_of_bindParams henv' hd
      obtain ⟨e, he, hl⟩ := IndexFun.mem_signature_of_bindParams henv' hy
      cases IndexFun.dim_unique hf hd he
      rw [hkl d (List.of_mem_zip hd).2 x y hk hl]
      exact hy
    exact value_mono hle hz
  · cases ha.symm.trans ha'
    cases hb.symm.trans hb'
    have hrenames := hrenames.grow hctx (hwf.body f a ha) (hwf.body g b hb)
    refine hrenames.value hμ hdepth (fun v w hvw x hx => ?_) hz
    obtain ⟨d, hd, hk⟩ := IndexFun.mem_signature_of_bindParams henv hx
    rcases hvw with hvw | ⟨-, hv, -⟩
    · have hw := hgood.exists_dim hf hvw hd
      obtain ⟨y, hy⟩ := IndexFun.bound_of_bindParams henv' hw
      obtain ⟨e, he, hl⟩ := IndexFun.mem_signature_of_bindParams henv' hy
      cases hgood.dim_eq hf (hg hf) hvw hd he
      rw [hkl d (List.of_mem_zip hd).2 x y hk hl]
      exact hy
    · exact absurd (List.of_mem_zip hd).1 hv

end LoopBounds
