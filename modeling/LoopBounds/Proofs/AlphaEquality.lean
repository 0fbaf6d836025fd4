import LoopBounds.Proofs.RenamedForms

/-!
# Comparing functions up to renaming

The comparison walks two bodies together and keeps the pairs of parameters that it has met.  It
finds the one renaming there can be.  A renaming that turns one body into the other agrees with
every pair on the way, and a renaming that the walk ends with turns one body into the other.
-/

namespace LoopBounds

/-- The parameters that an expression does not mention, in order. -/
def IndexFun.unmentioned (f : IndexFun) (ctx : Context) (e : ExprId) : List VarId :=
  f.params.filter fun v => !(ctx.freeVars e).contains v

/-! ## Renamings of parameters -/

namespace Renaming

/-- How a map of parameters renames: other variables stay, and are no parameters either way. -/
def Takes (f g : IndexFun) (σ : VarId → VarId) (v w : VarId) : Prop :=
  v ∈ f.params ∧ w = σ v ∨ v = w ∧ v ∉ f.params ∧ w ∉ g.params

/-- A one-to-one map of the parameters of `f` to those of `g` that keeps dimensions, goes in order
through the parameters that the bodies `a` and `b` do not mention, and turns `a` into `b`. -/
structure Alpha (ctx : Context) (f g : IndexFun) (a b : ExprId) (σ : VarId → VarId) : Prop where
  bijective : Set.BijOn σ {v | v ∈ f.params} {w | w ∈ g.params}
  dims : ∀ v ∈ f.params, g.dimOf? (σ v) = f.dimOf? v
  unused : (f.unmentioned ctx a).map σ = g.unmentioned ctx b
  body : ∀ e, ctx.Stored e → (ctx.Renames (Takes f g σ) a e ↔ e = b)

variable {ctx : Context} {f g : IndexFun} {σ : VarId → VarId} {r r' : Renaming} {a b : ExprId}
  {v w : VarId}

theorem sameDim_iff_dimOf? :
    sameDim f g v w = true ↔ v ∈ f.params ∧ w ∈ g.params ∧ f.dimOf? v = g.dimOf? w := by
  rw [sameDim_iff]
  constructor
  · rintro ⟨i, j, hi, hj, h⟩
    refine ⟨List.mem_of_getElem? (getElem?_of_paramIndex? hi),
      List.mem_of_getElem? (getElem?_of_paramIndex? hj), ?_⟩
    rw [IndexFun.dimOf?, IndexFun.dimOf?, hi, hj]
    exact h
  · rintro ⟨hv, hw, h⟩
    obtain ⟨i, hi⟩ := Option.isSome_iff_exists.1 (List.isSome_idxOf?.2 hv)
    obtain ⟨j, hj⟩ := Option.isSome_iff_exists.1 (List.isSome_idxOf?.2 hw)
    refine ⟨i, j, hi, hj, ?_⟩
    rw [IndexFun.dimOf?, IndexFun.dimOf?, IndexFun.paramIndex?, IndexFun.paramIndex?, hi, hj] at h
    exact h

theorem Takes.unique {w' : VarId} (h : Takes f g σ v w) (h' : Takes f g σ v w') : w = w' := by
  rcases h with ⟨hv, rfl⟩ | ⟨rfl, hv, -⟩ <;> rcases h' with ⟨hv', rfl⟩ | ⟨rfl, hv', -⟩
  · rfl
  · exact absurd hv hv'
  · exact absurd hv' hv
  · rfl

/-! ## The walk finds a renaming that there is -/

/-- The walk over two nodes that differ in their operands is the walk over the operands. -/
theorem ofExprs?_eq_foldlM {operands : List ExprId} (hvar : ∀ v, ctx.node a ≠ .var v)
    (hlen : operands.length = (ctx.node a).children.length)
    (hb : ctx.node b = (ctx.node a).withChildren operands) :
    ofExprs? ctx f g r a b =
      ((ctx.node a).children.zip operands).foldlM (fun r p => ofExprs? ctx f g r p.1 p.2) r := by
  rw [ofExprs?]
  split
  case h_1 v w ha _ => exact absurd ha (hvar v)
  case h_2 x s y t ha hb' =>
    rw [ha] at hb ⊢
    cases hb.symm.trans hb'
    simp [Node.children]
  case h_3 | h_4 =>
    next o a₁ a₂ p b₁ b₂ ha hb' =>
    rw [ha] at hlen hb ⊢
    obtain ⟨c, d, rfl⟩ := List.length_eq_two.1 hlen
    cases hb.symm.trans hb'
    simp [Node.children]
  case h_5 | h_6 =>
    next a₁ a₂ b₁ b₂ ha hb' =>
    rw [ha] at hlen hb ⊢
    obtain ⟨c, d, rfl⟩ := List.length_eq_two.1 hlen
    cases hb.symm.trans hb'
    simp [Node.children]
  case h_7 a₁ b₁ ha hb' =>
    rw [ha] at hlen hb ⊢
    obtain ⟨c, rfl⟩ := List.length_eq_one_iff.1 hlen
    cases hb.symm.trans hb'
    simp [Node.children]
  case h_8 o as ds p bs es ha hb' =>
    rw [ha] at hlen hb ⊢
    cases hb.symm.trans hb'
    have hzip : as.zip operands = (as.attach.zip operands).map (Prod.map Subtype.val id) := by
      rw [← List.zip_map, List.attach_map_subtype_val, List.map_id]
    rw [if_pos ⟨rfl, rfl, hlen.symm⟩, Node.children, hzip, List.foldlM_map]
    rfl
  case h_9 _ _ hconst harith hcompare hand hor hnot hcall =>
    -- Nodes that differ in their operands only are of one kind.
    exfalso
    cases hn : ctx.node a <;> rw [hn] at hb hlen
    case const w t => exact hconst w t w t hn hb
    case var v => exact hvar v hn
    case not c =>
      obtain ⟨c', rfl⟩ := List.length_eq_one_iff.1 hlen
      exact hnot c c' hn hb
    case call h args dims => exact hcall h args dims h operands dims hn hb
    all_goals obtain ⟨c', d', rfl⟩ := List.length_eq_two.1 hlen
    case arith op c d => exact harith op c d op c' d' hn hb
    case compare op c d => exact hcompare op c d op c' d' hn hb
    case and c d => exact hand c d c' d' hn hb
    case or c d => exact hor c d c' d' hn hb

/-- All pairs of the renaming are pairs of the map. -/
def Agrees (σ : VarId → VarId) (r : Renaming) : Prop :=
  ∀ v w : VarId, r.forth[v]? = some w → w = σ v

theorem ofVars?_of_takes (hbij : Set.BijOn σ {v | v ∈ f.params} {w | w ∈ g.params})
    (hdims : ∀ v ∈ f.params, g.dimOf? (σ v) = f.dimOf? v) (hr : r.Good f g) (hσ : r.Agrees σ)
    (h : Takes f g σ v w) : ∃ r', r.ofVars? f g v w = some r' ∧ r'.Agrees σ := by
  rcases h with ⟨hv, rfl⟩ | ⟨rfl, hv, hw⟩
  · have hdim : sameDim f g v (σ v) = true :=
      sameDim_iff_dimOf?.2 ⟨hv, hbij.mapsTo hv, (hdims v hv).symm⟩
    obtain ⟨i, j, hi, hj, -⟩ := sameDim_iff.1 hdim
    have hforth : ∀ x, r.forth[v]? = some x → x = σ v := fun x hx => hσ v x hx
    have hback : ∀ x, r.back[σ v]? = some x → x = v := by
      intro x hx
      have hxv := (hr.inverse x (σ v)).2 hx
      obtain ⟨hx, -, -⟩ := sameDim_iff_dimOf?.1 (hr.sameDim x (σ v) hxv)
      exact hbij.injOn hx hv (hσ x _ hxv).symm
    have hfree : ¬ ((r.forth[v]?).any (· ≠ σ v) ∨ (r.back[σ v]?).any (· ≠ v)) := by
      simp only [Option.any_eq_true, decide_eq_true_eq, not_or, not_exists, not_and, not_not]
      exact ⟨hforth, hback⟩
    refine ⟨r.insert v (σ v), ?_, fun x y hxy => ?_⟩
    · unfold ofVars?
      rw [hi, hj]
      exact (if_pos hdim).trans (if_neg hfree)
    · rcases Handle.getElem?_insert_eq_some.1 hxy with ⟨rfl, rfl⟩ | ⟨-, hxy⟩
      · rfl
      · exact hσ x y hxy
  · refine ⟨r, ?_, hσ⟩
    unfold ofVars?
    rw [IndexFun.paramIndex?, IndexFun.paramIndex?, List.idxOf?_eq_none_iff.2 hv,
      List.idxOf?_eq_none_iff.2 hw]
    exact if_pos rfl

theorem foldlM_of_agrees {ps : List (ExprId × ExprId)}
    (hstep : ∀ p ∈ ps, ∀ r : Renaming, r.Good f g → r.Agrees σ →
      ∃ r', ofExprs? ctx f g r p.1 p.2 = some r' ∧ r'.Agrees σ)
    (hr : r.Good f g) (hσ : r.Agrees σ) :
    ∃ r', ps.foldlM (fun r p => ofExprs? ctx f g r p.1 p.2) r = some r' ∧ r'.Agrees σ := by
  induction ps generalizing r with
  | nil => exact ⟨r, rfl, hσ⟩
  | cons p ps ih =>
      obtain ⟨r₁, hp, hσ₁⟩ := hstep p List.mem_cons_self r hr hσ
      have hr₁ := (ofExprs?_turns r r₁ p.1 p.2 hr hp).1
      rw [List.foldlM_cons, hp]
      exact ih (fun q hq => hstep q (List.mem_cons_of_mem _ hq)) hr₁ hσ₁

/-- Where a map of parameters turns one expression into the other, the walk does not fail. -/
theorem ofExprs?_of_renames (hbij : Set.BijOn σ {v | v ∈ f.params} {w | w ∈ g.params})
    (hdims : ∀ v ∈ f.params, g.dimOf? (σ v) = f.dimOf? v)
    (h : ctx.Renames (Takes f g σ) a b) (hr : r.Good f g) (hσ : r.Agrees σ) :
    ∃ r', ofExprs? ctx f g r a b = some r' ∧ r'.Agrees σ := by
  induction h generalizing r with
  | var ha hb h =>
      obtain ⟨r', hr', hσ'⟩ := ofVars?_of_takes hbij hdims hr hσ h
      refine ⟨r', ?_, hσ'⟩
      rw [ofExprs?]
      split <;> simp_all
  | node hvar hlen hb _ ih =>
      rw [ofExprs?_eq_foldlM hvar hlen hb]
      exact foldlM_of_agrees (fun p hp r hr hσ => ih p hp hr hσ) hr hσ

/-! ## The walk pairs what the bodies mention -/

theorem mentions_of_foldlM {ps : List (ExprId × ExprId)} {P : VarId → VarId → Prop}
    (hstep : ∀ p ∈ ps, ∀ r r' : Renaming, ofExprs? ctx f g r p.1 p.2 = some r' →
      ∀ v w : VarId, r'.forth[v]? = some w → r.forth[v]? = some w ∨ P v w)
    (h : ps.foldlM (fun r p => ofExprs? ctx f g r p.1 p.2) r = some r')
    (hvw : r'.forth[v]? = some w) : r.forth[v]? = some w ∨ P v w := by
  induction ps generalizing r with
  | nil =>
      cases h
      exact .inl hvw
  | cons p ps ih =>
      rw [List.foldlM_cons] at h
      obtain ⟨r₁, hp, h⟩ := Option.bind_eq_some_iff.1 h
      rcases ih (fun q hq => hstep q (List.mem_cons_of_mem _ hq)) h with hr₁ | hP
      · exact hstep p List.mem_cons_self r r₁ hp v w hr₁
      · exact .inr hP

/-- A pair that the walk adds is of variables that the two expressions mention. -/
theorem mentions_of_ofExprs? {ctx : Context} {f g : IndexFun} {v w : VarId} (r r' : Renaming)
    (a b : ExprId) (h : ofExprs? ctx f g r a b = some r') (hvw : r'.forth[v]? = some w) :
    r.forth[v]? = some w ∨ v ∈ ctx.freeVars a ∧ w ∈ ctx.freeVars b := by
  rcases cases_of_ofExprs? h with ⟨x, y, ha, hb, h⟩ | ⟨operands, -, hlen, hb, h⟩
  · have hmentions : ∀ {e z}, ctx.node e = .var z → z ∈ ctx.freeVars e :=
      fun hn => Context.mem_freeVars.2 ⟨_, .self, hn⟩
    unfold ofVars? at h
    split at h
    · obtain ⟨-, h⟩ := Option.ite_none_right_eq_some.1 h
      obtain ⟨-, h⟩ := Option.ite_none_left_eq_some.1 h
      cases h
      rcases Handle.getElem?_insert_eq_some.1 hvw with ⟨rfl, rfl⟩ | ⟨-, hvw⟩
      · exact .inr ⟨hmentions ha, hmentions hb⟩
      · exact .inl hvw
    · obtain ⟨-, h⟩ := Option.ite_none_right_eq_some.1 h
      cases h
      exact .inl hvw
    · cases h
  · have hsub : ∀ {e c}, c ∈ (ctx.node e).children → ctx.freeVars c ⊆ ctx.freeVars e := by
      intro e c hc z hz
      obtain ⟨d, hd, hn⟩ := Context.mem_freeVars.1 hz
      exact Context.mem_freeVars.2 ⟨d, hd.of_child hc, hn⟩
    refine mentions_of_foldlM (P := fun v w => v ∈ ctx.freeVars a ∧ w ∈ ctx.freeVars b)
      (fun p hp r r' hp' v w hvw => ?_) h hvw
    obtain ⟨hpa, hpb⟩ := List.of_mem_zip hp
    have hmem := hpa
    apply (mentions_of_ofExprs? r r' p.1 p.2 hp' hvw).imp_right
    rintro ⟨hv, hw⟩
    refine ⟨hsub hpa hv, hsub ?_ hw⟩
    rwa [hb, Node.children_withChildren hlen]
termination_by a.index
decreasing_by exact ctx.child_lt hmem

/-- The parameters with a partner after the walk are those that the bodies mention. -/
theorem contains_iff_mem_freeVars (h : ofExprs? ctx f g {} a b = some r) :
    (∀ v ∈ f.params, r.forth.contains v = true ↔ v ∈ ctx.freeVars a) ∧
      ∀ w ∈ g.params, r.back.contains w = true ↔ w ∈ ctx.freeVars b := by
  obtain ⟨hr, -, hrenames⟩ := ofExprs?_turns {} r a b (good_empty f g) h
  have hmentions : ∀ v w : VarId, r.forth[v]? = some w →
      v ∈ ctx.freeVars a ∧ w ∈ ctx.freeVars b := fun v w hvw =>
    (mentions_of_ofExprs? {} r a b h hvw).resolve_left (by simp)
  constructor
  · intro v hv
    rw [contains_iff]
    constructor
    · rintro ⟨w, hvw⟩
      exact (hmentions v w hvw).1
    · intro hmem
      obtain ⟨w, -, hvw | ⟨-, hnot, -⟩⟩ := hrenames.exists_mem_freeVars hmem
      · exact ⟨w, hvw⟩
      · exact absurd hv hnot
  · intro w hw
    rw [contains_iff]
    constructor
    · rintro ⟨v, hwv⟩
      exact (hmentions v w ((hr.inverse v w).2 hwv)).2
    · intro hmem
      obtain ⟨v, -, hvw | ⟨-, -, hnot⟩⟩ := hrenames.symm.exists_mem_freeVars hmem
      · exact ⟨v, (hr.inverse v w).1 hvw⟩
      · exact absurd hw hnot

/-! ## Parameters that are not mentioned -/

/-- The renaming with more pairs. -/
def insertAll (r : Renaming) (ps : List (VarId × VarId)) : Renaming :=
  ps.foldl (fun r p => r.insert p.1 p.2) r

def flip (r : Renaming) : Renaming := ⟨r.back, r.forth⟩

theorem flip_insertAll (r : Renaming) (ps : List (VarId × VarId)) :
    (r.insertAll ps).flip = r.flip.insertAll (ps.map Prod.swap) := by
  induction ps generalizing r with
  | nil => rfl
  | cons p ps ih => exact ih (r.insert p.1 p.2)

/-- Pairs of new variables are added to those that are there. -/
theorem forth_insertAll {ps : List (VarId × VarId)} (hnodup : (ps.map Prod.fst).Nodup)
    (hnew : ∀ p ∈ ps, r.forth[p.1]? = none) :
    (r.insertAll ps).forth[v]? = some w ↔ r.forth[v]? = some w ∨ (v, w) ∈ ps := by
  induction ps generalizing r with
  | nil => simp [insertAll]
  | cons p ps ih =>
      obtain ⟨hp, hnodup⟩ := List.nodup_cons.1 hnodup
      have hrest : ∀ q ∈ ps, (r.insert p.1 p.2).forth[q.1]? = none := by
        intro q hq
        by_contra hne
        obtain ⟨x, hx⟩ := Option.ne_none_iff_exists'.1 hne
        rcases Handle.getElem?_insert_eq_some.1 hx with ⟨hqp, -⟩ | ⟨-, hx⟩
        · exact hp (List.mem_map.2 ⟨q, hq, hqp⟩)
        · rw [hnew q (List.mem_cons_of_mem _ hq)] at hx
          cases hx
      change ((r.insert p.1 p.2).insertAll ps).forth[v]? = some w ↔ _
      rw [ih hnodup hrest, List.mem_cons]
      change (r.forth.insert p.1 p.2)[v]? = some w ∨ _ ↔ _
      rw [Handle.getElem?_insert_eq_some, Prod.ext_iff]
      have hfirst := hnew p List.mem_cons_self
      by_cases hv : v = p.1
      · simp [hv, hfirst]
      · simp [hv]

theorem back_insertAll {ps : List (VarId × VarId)} (hnodup : (ps.map Prod.snd).Nodup)
    (hnew : ∀ p ∈ ps, r.back[p.2]? = none) :
    (r.insertAll ps).back[w]? = some v ↔ r.back[w]? = some v ∨ (v, w) ∈ ps := by
  have hmem : (w, v) ∈ ps.map Prod.swap ↔ (v, w) ∈ ps := by
    simp
  change (r.insertAll ps).flip.forth[w]? = some v ↔ _
  rw [flip_insertAll, ← hmem]
  apply forth_insertAll
  · simpa [List.map_map, Function.comp_def] using hnodup
  · intro p hp
    obtain ⟨q, hq, rfl⟩ := List.mem_map.1 hp
    exact hnew q hq

/-- Pairing what is left over adds the pairs of the two lists. -/
theorem ofUnused?_eq_some {vs ws : List VarId}
    (hvs : f.params.filter (!r.forth.contains ·) = vs)
    (hws : g.params.filter (!r.back.contains ·) = ws) :
    r.ofUnused? f g = some r' ↔ vs.length = ws.length ∧
      (∀ p ∈ vs.zip ws, sameDim f g p.1 p.2 = true) ∧ r.insertAll (vs.zip ws) = r' := by
  have hfold : ∀ (ps : List (VarId × VarId)) (r : Renaming),
      ps.foldlM (fun r p => if sameDim f g p.1 p.2 then some (r.insert p.1 p.2) else none) r =
        some r' ↔ (∀ p ∈ ps, sameDim f g p.1 p.2 = true) ∧ r.insertAll ps = r' := by
    intro ps
    induction ps with
    | nil => simp [insertAll]
    | cons p ps ih =>
        intro r
        rw [List.foldlM_cons, List.forall_mem_cons]
        by_cases hp : sameDim f g p.1 p.2 = true
        · simp only [hp, if_true, true_and]
          exact ih (r.insert p.1 p.2)
        · simp [hp]
  unfold ofUnused?
  rw [hvs, hws, Option.ite_none_right_eq_some]
  exact and_congr_right fun _ => hfold _ r

/-! ## What the comparison decides -/

theorem left_over_eq (h : ofExprs? ctx f g {} a b = some r) :
    f.params.filter (!r.forth.contains ·) = f.unmentioned ctx a ∧
      g.params.filter (!r.back.contains ·) = g.unmentioned ctx b := by
  obtain ⟨hforth, hback⟩ := contains_iff_mem_freeVars h
  constructor
  · apply List.filter_congr
    intro v hv
    rw [Bool.eq_iff_iff.2 ((hforth v hv).trans List.contains_iff_mem.symm)]
  · apply List.filter_congr
    intro w hw
    rw [Bool.eq_iff_iff.2 ((hback w hw).trans List.contains_iff_mem.symm)]

/-- The pairs after what is left over has been paired. -/
theorem pairs_insertAll (hf : f.params.Nodup) (hg : g.params.Nodup) {vs ws : List VarId}
    (hvs : f.params.filter (!r.forth.contains ·) = vs)
    (hws : g.params.filter (!r.back.contains ·) = ws) (hlen : vs.length = ws.length) (v w : VarId) :
    ((r.insertAll (vs.zip ws)).forth[v]? = some w ↔
      r.forth[v]? = some w ∨ (v, w) ∈ vs.zip ws) ∧
    ((r.insertAll (vs.zip ws)).back[w]? = some v ↔
      r.back[w]? = some v ∨ (v, w) ∈ vs.zip ws) := by
  have hnone : ∀ {m : Std.TreeMap VarId VarId} {x : VarId}, (!m.contains x) = true →
      m[x]? = none := by
    intro m x hx
    by_contra hne
    rw [Bool.not_eq_true', ← Bool.not_eq_true, contains_iff] at hx
    exact hx (Option.ne_none_iff_exists'.1 hne)
  constructor
  · apply forth_insertAll
    · rw [List.map_fst_zip hlen.le, ← hvs]
      exact hf.filter _
    · intro p hp
      have hmem := (List.of_mem_zip hp).1
      rw [← hvs] at hmem
      exact hnone (List.mem_filter.1 hmem).2
  · apply back_insertAll
    · rw [List.map_snd_zip hlen.ge, ← hws]
      exact hg.filter _
    · intro p hp
      have hmem := (List.of_mem_zip hp).2
      rw [← hws] at hmem
      exact hnone (List.mem_filter.1 hmem).2

/-- Once what is left over has been paired, every parameter has a partner. -/
theorem Good.insertAll (hr : r.Good f g) (hf : f.params.Nodup) (hg : g.params.Nodup)
    {vs ws : List VarId} (hvs : f.params.filter (!r.forth.contains ·) = vs)
    (hws : g.params.filter (!r.back.contains ·) = ws) (hlen : vs.length = ws.length)
    (hdims : ∀ p ∈ vs.zip ws, Renaming.sameDim f g p.1 p.2 = true) :
    (r.insertAll (vs.zip ws)).Good f g ∧
      (∀ v ∈ f.params, ∃ w : VarId, (r.insertAll (vs.zip ws)).forth[v]? = some w) ∧
      ∀ w ∈ g.params, ∃ v : VarId, (r.insertAll (vs.zip ws)).forth[v]? = some w := by
  have hpairs := pairs_insertAll hf hg hvs hws hlen
  refine ⟨⟨fun v w => ?_, fun v w hvw => ?_⟩, fun v hv => ?_, fun w hw => ?_⟩
  · rw [(hpairs v w).1, (hpairs v w).2, hr.inverse]
  · rcases (hpairs v w).1.1 hvw with hvw | hvw
    · exact hr.sameDim v w hvw
    · exact hdims _ hvw
  · by_cases hmet : r.forth.contains v = true
    · obtain ⟨w, hw⟩ := contains_iff.1 hmet
      exact ⟨w, (hpairs v w).1.2 (.inl hw)⟩
    · have hmem : v ∈ vs := by
        rw [← hvs, List.mem_filter, Bool.not_eq_true', Bool.eq_false_iff]
        exact ⟨hv, hmet⟩
      obtain ⟨i, hi, rfl⟩ := List.mem_iff_getElem.1 hmem
      exact ⟨ws[i], (hpairs _ _).1.2 (.inr (getElem_mem_zip hi (hlen ▸ hi)))⟩
  · by_cases hmet : r.back.contains w = true
    · obtain ⟨v, hv⟩ := contains_iff.1 hmet
      exact ⟨v, (hpairs v w).1.2 (.inl ((hr.inverse v w).2 hv))⟩
    · have hmem : w ∈ ws := by
        rw [← hws, List.mem_filter, Bool.not_eq_true', Bool.eq_false_iff]
        exact ⟨hw, hmet⟩
      obtain ⟨i, hi, rfl⟩ := List.mem_iff_getElem.1 hmem
      exact ⟨vs[i], (hpairs _ _).1.2 (.inr (getElem_mem_zip (hlen ▸ hi) hi))⟩

/-- The partner of a variable; a variable without one stands for itself. -/
def image (r : Renaming) (v : VarId) : VarId := (r.forth[v]?).getD v

theorem image_eq (h : r.forth[v]? = some w) : r.image v = w := by
  rw [image, h, Option.getD_some]

theorem Good.bijOn (hr : r.Good f g) (hforth : ∀ v ∈ f.params, ∃ w : VarId, r.forth[v]? = some w)
    (hback : ∀ w ∈ g.params, ∃ v : VarId, r.forth[v]? = some w) :
    Set.BijOn r.image {v | v ∈ f.params} {w | w ∈ g.params} := by
  refine ⟨fun v hv => ?_, fun v hv v' hv' heq => ?_, fun w hw => ?_⟩
  · obtain ⟨w, hvw⟩ := hforth v hv
    rw [image_eq hvw]
    exact (sameDim_iff_dimOf?.1 (hr.sameDim v w hvw)).2.1
  · obtain ⟨w, hvw⟩ := hforth v hv
    obtain ⟨w', hvw'⟩ := hforth v' hv'
    rw [image_eq hvw, image_eq hvw'] at heq
    subst heq
    exact Option.some_inj.1 (((hr.inverse v w).1 hvw).symm.trans ((hr.inverse v' w).1 hvw'))
  · obtain ⟨v, hvw⟩ := hback w hw
    exact ⟨v, (sameDim_iff_dimOf?.1 (hr.sameDim v w hvw)).1, image_eq hvw⟩

/-- What the walk and the pairing of the rest end with is a renaming of one body into the other. -/
theorem exists_alpha (hf : f.params.Nodup) (hg : g.params.Nodup) (hb : ctx.Stored b)
    (h : (ofExprs? ctx f g {} a b).bind (·.ofUnused? f g) = some r') :
    ∃ σ, Alpha ctx f g a b σ := by
  obtain ⟨r, hwalk, hrest⟩ := Option.bind_eq_some_iff.1 h
  obtain ⟨hr, -, hrenames⟩ := ofExprs?_turns {} r a b (good_empty f g) hwalk
  obtain ⟨hvs, hws⟩ := left_over_eq hwalk
  obtain ⟨hlen, hdims, rfl⟩ := (ofUnused?_eq_some hvs hws).1 hrest
  have hpairs := pairs_insertAll hf hg hvs hws hlen
  obtain ⟨hr', hforth, hback⟩ := hr.insertAll hf hg hvs hws hlen hdims
  refine ⟨_, hr'.bijOn hforth hback, ?dims, ?unused, ?body⟩
  case dims =>
    intro v hv
    obtain ⟨w, hvw⟩ := hforth v hv
    rw [image_eq hvw]
    exact (sameDim_iff_dimOf?.1 (hr'.sameDim v w hvw)).2.2.symm
  case unused =>
    apply List.ext_getElem (by rwa [List.length_map])
    intro i hi hi'
    rw [List.getElem_map]
    rw [List.length_map] at hi
    exact image_eq ((hpairs _ _).1.2 (.inr (getElem_mem_zip hi hi')))
  case body =>
    have hbody := hrenames.mono (S := Takes f g (r.insertAll _).image) (by
      rintro v w (hvw | hvw)
      · have hvw' := (hpairs v w).1.2 (.inl hvw)
        exact .inl ⟨(sameDim_iff_dimOf?.1 (hr'.sameDim v w hvw')).1, (image_eq hvw').symm⟩
      · exact .inr hvw)
    intro e he
    constructor
    · intro h
      exact h.unique (fun _ _ _ hw hw' => hw.unique hw') he hb hbody
    · rintro rfl
      exact hbody

/-- A renaming that there is is what the comparison ends with. -/
theorem Alpha.found (h : Alpha ctx f g a b σ) (hf : f.params.Nodup) (hg : g.params.Nodup)
    (hb : ctx.Stored b) :
    ∃ r', (ofExprs? ctx f g {} a b).bind (·.ofUnused? f g) = some r' ∧
      ∀ v w : VarId, r'.forth[v]? = some w ↔ v ∈ f.params ∧ w = σ v := by
  obtain ⟨r, hwalk, hσ⟩ := ofExprs?_of_renames h.bijective h.dims ((h.body b hb).2 rfl)
    (good_empty f g) (r := {}) (by simp [Agrees])
  have hr := (ofExprs?_turns {} r a b (good_empty f g) hwalk).1
  obtain ⟨hvs, hws⟩ := left_over_eq hwalk
  have hlen : (f.unmentioned ctx a).length = (g.unmentioned ctx b).length := by
    rw [← h.unused, List.length_map]
  have hzip : ∀ p ∈ (f.unmentioned ctx a).zip (g.unmentioned ctx b),
      p.1 ∈ f.params ∧ p.2 = σ p.1 := by
    intro p hp
    obtain ⟨i, hi, rfl⟩ := List.mem_iff_getElem.1 hp
    rw [List.getElem_zip]
    refine ⟨(List.mem_filter.1 (List.getElem_mem _)).1, ?_⟩
    rw [← List.getElem_map σ (h := by simp at hi ⊢; omega)]
    exact List.getElem_of_eq h.unused.symm _
  have hdims : ∀ p ∈ (f.unmentioned ctx a).zip (g.unmentioned ctx b),
      sameDim f g p.1 p.2 = true := by
    intro p hp
    obtain ⟨hv, hw⟩ := hzip p hp
    rw [sameDim_iff_dimOf?, hw]
    exact ⟨hv, h.bijective.mapsTo hv, (h.dims p.1 hv).symm⟩
  have hpair : ∀ v w : VarId,
      (r.insertAll ((f.unmentioned ctx a).zip (g.unmentioned ctx b))).forth[v]? = some w →
        v ∈ f.params ∧ w = σ v := by
    intro v w hvw
    rcases ((pairs_insertAll hf hg hvs hws hlen v w).1).1 hvw with hvw | hvw
    · exact ⟨(sameDim_iff_dimOf?.1 (hr.sameDim v w hvw)).1, hσ v w hvw⟩
    · exact hzip _ hvw
  obtain ⟨-, hforth, -⟩ := hr.insertAll hf hg hvs hws hlen hdims
  have hrest := (ofUnused?_eq_some hvs hws).2 ⟨hlen, hdims, rfl⟩
  refine ⟨_, Option.bind_eq_some_iff.2 ⟨r, hwalk, hrest⟩, fun v w => ⟨hpair v w, ?_⟩⟩
  rintro ⟨hv, rfl⟩
  obtain ⟨w, hvw⟩ := hforth v hv
  rwa [← (hpair v w hvw).2]

theorem Takes.inverse {τ : VarId → VarId} (hbij : Set.BijOn σ {v | v ∈ f.params} {w | w ∈ g.params})
    (hτ : ∀ v ∈ f.params, τ (σ v) = v) (h : Takes f g σ v w) : Takes g f τ w v := by
  rcases h with ⟨hv, rfl⟩ | ⟨rfl, hv, hw⟩
  · exact .inl ⟨hbij.mapsTo hv, (hτ v hv).symm⟩
  · exact .inr ⟨rfl, hw, hv⟩

/-- The other way round, the inverse turns the bodies into one another. -/
theorem Alpha.inverse (h : Alpha ctx f g a b σ) (ha : ctx.Stored a) (hb : ctx.Stored b) :
    ∃ τ, Alpha ctx g f b a τ ∧ ∀ v ∈ f.params, τ (σ v) = v := by
  let τ := Function.invFunOn σ {v | v ∈ f.params}
  have hinv : Set.InvOn τ σ {v | v ∈ f.params} {w | w ∈ g.params} := h.bijective.invOn_invFunOn
  have hbij : Set.BijOn τ {w | w ∈ g.params} {v | v ∈ f.params} :=
    Set.BijOn.symm hinv.symm h.bijective
  refine ⟨τ, ⟨hbij, ?dims, ?unused, ?body⟩, fun v hv => hinv.1 hv⟩
  case dims =>
    intro w hw
    rw [← h.dims (τ w) (hbij.mapsTo hw)]
    exact congrArg g.dimOf? (hinv.2 hw)
  case unused =>
    have hmap : ∀ v ∈ f.unmentioned ctx a, (τ ∘ σ) v = id v := fun v hv =>
      hinv.1 (List.mem_filter.1 hv).1
    rw [← h.unused, List.map_map, List.map_congr_left hmap, List.map_id]
  case body =>
    have hback : ctx.Renames (Takes g f τ) b a :=
      (((h.body b hb).2 rfl).symm).mono fun _ _ hvw => hvw.inverse h.bijective fun v hv => hinv.1 hv
    intro e he
    constructor
    · intro hrenames
      exact hrenames.unique (fun _ _ _ hw hw' => hw.unique hw') he ha hback
    · rintro rfl
      exact hback

end Renaming

/-! ## Calls of equal functions -/

namespace IndexFun

variable {α : Type} {f g : IndexFun} {k : DimId → Option α} {env : Env α} {v : VarId}

/-- A renaming of parameters carries arguments over. -/
theorem bindParams_of_bijOn {σ : VarId → VarId} (hf : f.params.Nodup) (hg : g.params.Nodup)
    (hbij : Set.BijOn σ {v | v ∈ f.params} {w | w ∈ g.params})
    (hdims : ∀ v ∈ f.params, g.dimOf? (σ v) = f.dimOf? v) (h : f.bindParams k = some env) :
    ∃ env', g.bindParams k = some env' ∧ ∀ v w, Renaming.Takes f g σ v w → env' w = env v := by
  have hall : ∀ pd ∈ g.signature, ∃ x, k pd.2 = some x := by
    rintro ⟨w, d⟩ hwd
    obtain ⟨v, hv, rfl⟩ := hbij.surjOn (List.of_mem_zip hwd).1
    have hvd : (v, d) ∈ f.signature := by
      rw [← dimOf?_eq_some hf, ← hdims v hv, dimOf?_eq_some hg]
      exact hwd
    obtain ⟨x, hx⟩ := exists_of_bindParams h hvd
    exact ⟨x, hx⟩
  obtain ⟨env', henv'⟩ := exists_bindParams hall
  refine ⟨env', henv', fun v w hvw => ?_⟩
  rw [bindParams_apply hf h, bindParams_apply hg henv']
  rcases hvw with ⟨hv, rfl⟩ | ⟨rfl, hv, hw⟩
  · rw [hdims v hv]
  · have hnone : ∀ {h : IndexFun}, v ∉ h.params → h.dimOf? v = none := fun hv => by
      rw [dimOf?, paramIndex?, List.idxOf?_eq_none_iff.2 hv, Option.bind_none]
    rw [hnone hv, hnone hw]

end IndexFun

theorem Attempt.Yields.of_run {α : Type} {c : Prop} {m : Attempt α} {ctx ctx' : Context}
    {Q : α → Context → Prop} {x : α} (h : Yields c m ctx Q) (hrun : m.run.run ctx = (.ok x, ctx')) :
    ctx.Grows ctx' ∧ Q x ctx' := by
  obtain ⟨hgrows, -, hQ⟩ := h
  rw [hrun] at hgrows hQ
  exact ⟨hgrows, hQ x rfl⟩

namespace Context

variable {ctx : Context} {f g : FunId} {a b x y : ExprId} {σ : VarId → VarId}

variable {ctx' : Context} {args : List ExprId} {dims : List DimId} {n : Nat} {env : Env Int64}

/-- Where a call has a value, so has the call of a function whose body is a renamed form. -/
theorem evalWithin_call_le (hwf : ctx.WellFormed) (hgrows : ctx.Grows ctx')
    (hf : (ctx.fn f).params.Nodup) (hg : (ctx.fn g).params.Nodup)
    (ha : (ctx.fn f).body? = some a) (hb : (ctx.fn g).body? = some b)
    (h : Renaming.Alpha ctx (ctx.fn f) (ctx.fn g) a b σ)
    (hx : ctx'.node x = .call f args dims) (hy : ctx'.node y = .call g args dims) {w : Int64}
    (hw : ctx'.evalWithin n env x = some w) : ctx'.evalWithin n env y = some w := by
  have hstored := hwf.body g b hb
  have hrenames := ((h.body b hstored).2 rfl).grow hgrows.le (hwf.body f a ha) hstored
  rw [eval_call hx, hgrows.fn_eq, ha, Option.bind_some] at hw
  obtain ⟨inner, hinner, hw⟩ := Option.bind_eq_some_iff.1 hw
  obtain ⟨inner', hinner', hagree⟩ :=
    IndexFun.bindParams_of_bijOn hf hg h.bijective h.dims hinner
  rw [eval_call hy, hgrows.fn_eq, hb, Option.bind_some, hinner', Option.bind_some]
  cases n with
  | zero => cases hw
  | succ n => exact (hrenames.evalWithin_eq hagree).trans hw

theorem evalWithin_call_eq (hwf : ctx.WellFormed) (hgrows : ctx.Grows ctx')
    (hf : (ctx.fn f).params.Nodup) (hg : (ctx.fn g).params.Nodup)
    (ha : (ctx.fn f).body? = some a) (hb : (ctx.fn g).body? = some b)
    (h : Renaming.Alpha ctx (ctx.fn f) (ctx.fn g) a b σ)
    (hx : ctx'.node x = .call f args dims) (hy : ctx'.node y = .call g args dims) :
    ctx'.evalWithin n env x = ctx'.evalWithin n env y := by
  obtain ⟨τ, hτ, -⟩ := h.inverse (hwf.body f a ha) (hwf.body g b hb)
  apply Option.ext
  intro w
  constructor
  · exact evalWithin_call_le hwf hgrows hf hg ha hb h hx hy
  · exact evalWithin_call_le hwf hgrows hg hf hb ha hτ hy hx

/-- What a call of a function with a body is built as. -/
theorem call_ensures (hwf : ctx.WellFormed) (ha : (ctx.fn f).body? = some a)
    (hargs : ∀ e ∈ args, ctx.Stored e) :
    Attempt.Yields False (Attempt.call f args dims) ctx fun x ctx' => ctx'.Stored x ∧
      ((ctx.fn f).params = [] ∧ x = a ∨
        (ctx.fn f).params ≠ [] ∧ ctx'.node x = .call f args dims) := by
  have hf : f.index < ctx.funs.size := by
    by_contra hge
    rw [fn, Array.getElem?_eq_none (Nat.le_of_not_lt hge)] at ha
    cases ha
  refine .get ?_
  dsimp only
  split
  · exact .throw not_false
  split
  · exact .get (.throw not_false)
  split
  · next body hparams hbody =>
    cases ha.symm.trans hbody
    exact .pure ⟨hwf.body f a ha, .inl ⟨hparams, rfl⟩⟩
  · next hnot =>
    have hparams : (ctx.fn f).params ≠ [] := fun hnil => hnot a hnil ha
    apply Attempt.Yields.mono (.build (Build.intern_ensures (K := .all) trivial ?_ ?_))
    · intro x ctx' _ hx
      exact ⟨hx.1.stored, .inr ⟨hparams, hx.2⟩⟩
    · exact fun c hc => over_all (hargs c hc)
    · rintro _ _ _ ⟨⟩
      exact hf

/-- Whatever the arguments, calls of the two functions evaluate alike: call nodes, and what the
constructor of calls gives, which is the body itself where there are no parameters. -/
structure CallsAlike (ctx : Context) (f g : FunId) : Prop where
  nodes : ∀ x y args dims, ctx.node x = .call f args dims → ctx.node y = .call g args dims →
    ∀ env, ctx.eval env x = ctx.eval env y
  built : ∀ args dims x y ctx₁ ctx₂, (∀ e ∈ args, ctx.Stored e) →
    (Attempt.call f args dims).run.run ctx = (.ok x, ctx₁) →
    (Attempt.call g args dims).run.run ctx₁ = (.ok y, ctx₂) →
    ∀ env, ctx₂.eval env x = ctx₂.eval env y

theorem callsAlike_of_alpha (hwf : ctx.WellFormed) (hf : (ctx.fn f).params.Nodup)
    (hg : (ctx.fn g).params.Nodup) (ha : (ctx.fn f).body? = some a)
    (hb : (ctx.fn g).body? = some b)
    (h : Renaming.Alpha ctx (ctx.fn f) (ctx.fn g) a b σ) : ctx.CallsAlike f g := by
  constructor
  case nodes =>
    intro x y args dims hx hy env
    exact evalWithin_call_eq hwf (.refl ctx) hf hg ha hb h hx hy
  case built =>
    intro args dims x y ctx₁ ctx₂ hargs hfirst hsecond env
    obtain ⟨hg₁, hxs, hx⟩ := (call_ensures hwf ha hargs).of_run hfirst
    have hb₁ : (ctx₁.fn g).body? = some b := hg₁.fn_eq g ▸ hb
    obtain ⟨hg₂, -, hy⟩ := (call_ensures (hg₁.wellFormed hwf) hb₁
      fun e he => (hargs e he).mono hg₁.le).of_run hsecond
    rw [hg₁.fn_eq] at hy
    have hgrows := hg₁.trans hg₂
    rcases hx with ⟨hfnil, rfl⟩ | ⟨hfne, hx⟩ <;> rcases hy with ⟨hgnil, rfl⟩ | ⟨hgne, hy⟩
    · have hrenames := ((h.body y (hwf.body g y hb)).2 rfl).grow hgrows.le (hwf.body f x ha)
        (hwf.body g y hb)
      refine (hrenames.evalWithin_eq fun v w hvw => ?_).symm
      rcases hvw with ⟨hv, -⟩ | ⟨rfl, -, -⟩
      · rw [hfnil] at hv
        cases hv
      · rfl
    · obtain ⟨w, hw⟩ := List.exists_mem_of_ne_nil _ hgne
      obtain ⟨v, hv, -⟩ := h.bijective.surjOn hw
      exact absurd hv (by simp [hfnil])
    · obtain ⟨v, hv⟩ := List.exists_mem_of_ne_nil _ hfne
      exact absurd (h.bijective.mapsTo hv) (by simp [hgnil])
    · have hx₂ := (node_eq hg₂.le hxs).trans hx
      exact evalWithin_call_eq hwf hgrows hf hg ha hb h hx₂ hy

/-- Functions with bodies are compared by the walk. -/
theorem correspondence_eq (harity : (ctx.fn f).arity = (ctx.fn g).arity)
    (ha : (ctx.fn f).body? = some a) (hb : (ctx.fn g).body? = some b) :
    ctx.correspondence f g =
      match (Renaming.ofExprs? ctx (ctx.fn f) (ctx.fn g) {} a b).bind
        (·.ofUnused? (ctx.fn f) (ctx.fn g)) with
      | some r => ⟨true, r.forth⟩
      | none => ⟨false, {}⟩ := by
  unfold correspondence
  dsimp only
  rw [if_neg (not_not.2 harity), ha]
  generalize (ctx.fn g).body? = body? at hb ⊢
  subst hb
  rfl

theorem arity_eq_of_bijOn (hf : (ctx.fn f).params.Nodup) (hg : (ctx.fn g).params.Nodup)
    (h : Set.BijOn σ {v | v ∈ (ctx.fn f).params} {w | w ∈ (ctx.fn g).params}) :
    (ctx.fn f).arity = (ctx.fn g).arity := by
  have hmap : ((ctx.fn f).params.map σ).Nodup :=
    List.Nodup.map_on (fun v hv v' hv' heq => h.injOn hv hv' heq) hf
  have hperm : ((ctx.fn f).params.map σ).Perm (ctx.fn g).params := by
    apply (List.perm_ext_iff_of_nodup hmap hg).2
    intro w
    rw [List.mem_map]
    constructor
    · rintro ⟨v, hv, rfl⟩
      exact h.mapsTo hv
    · exact fun hw => h.surjOn hw
  simpa [IndexFun.arity] using hperm.length_eq

theorem exists_alpha_of_equal (hwf : ctx.WellFormed) (hf : (ctx.fn f).params.Nodup)
    (hg : (ctx.fn g).params.Nodup) (ha : (ctx.fn f).body? = some a)
    (hb : (ctx.fn g).body? = some b) (h : (ctx.correspondence f g).equal = true) :
    ∃ σ, Renaming.Alpha ctx (ctx.fn f) (ctx.fn g) a b σ := by
  by_cases harity : (ctx.fn f).arity = (ctx.fn g).arity
  · rw [correspondence_eq harity ha hb] at h
    split at h
    · next r hr => exact Renaming.exists_alpha hf hg (hwf.body g b hb) hr
    · cases h
  · unfold correspondence at h
    dsimp only at h
    rw [if_pos harity] at h
    cases h

/-- The comparison finds the renaming that there is. -/
theorem correspondence_of_alpha (hwf : ctx.WellFormed) (hf : (ctx.fn f).params.Nodup)
    (hg : (ctx.fn g).params.Nodup) (ha : (ctx.fn f).body? = some a)
    (hb : (ctx.fn g).body? = some b)
    (h : Renaming.Alpha ctx (ctx.fn f) (ctx.fn g) a b σ) :
    (ctx.correspondence f g).equal = true ∧ ∀ v w : VarId,
      (ctx.correspondence f g).params[v]? = some w ↔ v ∈ (ctx.fn f).params ∧ w = σ v := by
  obtain ⟨r, hr, hpairs⟩ := h.found hf hg (hwf.body g b hb)
  rw [correspondence_eq (arity_eq_of_bijOn hf hg h.bijective) ha hb, hr]
  exact ⟨rfl, hpairs⟩

theorem params_of_not_equal (ha : (ctx.fn f).body? = some a) (hb : (ctx.fn g).body? = some b)
    (h : (ctx.correspondence f g).equal = false) : (ctx.correspondence f g).params = {} := by
  by_cases harity : (ctx.fn f).arity = (ctx.fn g).arity
  · rw [correspondence_eq harity ha hb] at h ⊢
    split at h
    · cases h
    · rfl
  · unfold correspondence
    dsimp only
    rw [if_pos harity]

/-- The comparison decides whether a renaming of parameters turns one body into the other, and
gives the one that does. -/
theorem correspondence_decides (hwf : ctx.WellFormed) (hf : (ctx.fn f).params.Nodup)
    (hg : (ctx.fn g).params.Nodup) (ha : (ctx.fn f).body? = some a)
    (hb : (ctx.fn g).body? = some b) :
    ((ctx.correspondence f g).equal = true ↔
      ∃ σ, Renaming.Alpha ctx (ctx.fn f) (ctx.fn g) a b σ) ∧
    (∀ σ, Renaming.Alpha ctx (ctx.fn f) (ctx.fn g) a b σ → ∀ v w : VarId,
      ((ctx.correspondence f g).params[v]? = some w ↔ v ∈ (ctx.fn f).params ∧ w = σ v) ∧
      ((ctx.correspondence g f).params[w]? = some v ↔ v ∈ (ctx.fn f).params ∧ w = σ v)) ∧
    ((ctx.correspondence f g).equal = false → (ctx.correspondence f g).params = {}) ∧
    ((ctx.correspondence f g).equal = true → ctx.CallsAlike f g) := by
  refine ⟨⟨exists_alpha_of_equal hwf hf hg ha hb, ?_⟩, fun σ hσ v w => ?_,
    params_of_not_equal ha hb, fun h => ?_⟩
  · rintro ⟨σ, hσ⟩
    exact (correspondence_of_alpha hwf hf hg ha hb hσ).1
  · obtain ⟨τ, hτ, hinv⟩ := hσ.inverse (hwf.body f a ha) (hwf.body g b hb)
    have hback := (correspondence_of_alpha hwf hg hf hb ha hτ).2 w v
    refine ⟨(correspondence_of_alpha hwf hf hg ha hb hσ).2 v w, hback.trans ?_⟩
    constructor
    · rintro ⟨hw, rfl⟩
      obtain ⟨v, hv, rfl⟩ := hσ.bijective.surjOn hw
      rw [hinv v hv]
      exact ⟨hv, rfl⟩
    · rintro ⟨hv, rfl⟩
      exact ⟨hσ.bijective.mapsTo hv, (hinv v hv).symm⟩
  · obtain ⟨σ, hσ⟩ := exists_alpha_of_equal hwf hf hg ha hb h
    exact callsAlike_of_alpha hwf hf hg ha hb hσ

/-- Two functions with a context. -/
structure FunPair where
  ctx : Context
  first : FunId
  second : FunId

/-- Two ways to number the points of a plane: eight times one parameter and another, which change
places, while a third is not used. -/
def numberings : FunPair :=
  let declare : Build (FunId × FunId) := do
    let a ← declareVar "a" .int32
    let b ← declareVar "b" .int32
    let c ← declareVar "c" .int32
    let d ← declareVar "d" .int32
    let row ← declareDim "row" .uniform
    let column ← declareDim "column" .uniform
    let plane ← declareDim "plane" .uniform
    let first ← Build.add (← Build.mulConst (← Build.var a) 8) (← Build.var b)
    let second ← Build.add (← Build.mulConst (← Build.var b) 8) (← Build.var a)
    let f ← addFun ⟨"f", [a, b, c], [row, column, plane], some first, none⟩
    let g ← addFun ⟨"g", [d, a, b], [plane, column, row], some second, none⟩
    return (f, g)
  let made := declare.run default
  ⟨made.2, made.1.1, made.1.2⟩

theorem correspondence_decides_numberings :
    (∃ σ, Renaming.Alpha numberings.ctx (numberings.ctx.fn numberings.first)
      (numberings.ctx.fn numberings.second) ⟨4⟩ ⟨6⟩ σ) ∧
    numberings.ctx.CallsAlike numberings.first numberings.second := by
  have hwf : numberings.ctx.WellFormed := by decide +kernel
  have h := correspondence_decides hwf (f := numberings.first) (g := numberings.second)
    (a := ⟨4⟩) (b := ⟨6⟩) (by decide +kernel) (by decide +kernel) (by decide +kernel)
    (by decide +kernel)
  have hequal : (numberings.ctx.correspondence numberings.first numberings.second).equal = true :=
    by decide +kernel
  exact ⟨h.1.1 hequal, h.2.2.2 hequal⟩

example : (numberings.ctx.correspondence numberings.first numberings.second).params.toList =
    [(⟨0⟩, ⟨1⟩), (⟨1⟩, ⟨0⟩), (⟨2⟩, ⟨3⟩)] := by decide +kernel

end Context

end LoopBounds
