import LoopBounds.Proofs.HandleSafety

/-!
# Safety of value sets and inversion

Working out value sets and inverting functions is safe, whatever analyzers are asked, as long as
the handles in these are known.
-/

namespace LoopBounds

open Tracks

variable {E : Set ExprId} {a b c e : ExprId}

/-! ## Value sets -/

namespace ValueSet

open Query (build_safe context_safe)

variable {s t : ValueSet} {x? y? : Option ExprId}

theorem mentioned_subset_iff : mentioned s ⊆ E ↔ mentioned s.lo? ⊆ E ∧ mentioned s.hi? ⊆ E :=
  Set.union_subset_iff

theorem mentioned_some_iff : mentioned (some a) ⊆ E ↔ a ∈ E :=
  ⟨fun h => h ⟨a, rfl, rfl⟩, fun ha c ⟨_, hx, hc⟩ => by
    cases hx
    exact hc ▸ ha⟩

theorem mentioned_point (ha : a ∈ E) : mentioned (point a) ⊆ E :=
  mentioned_subset_iff.2 ⟨mentioned_some_iff.2 ha, mentioned_some_iff.2 ha⟩

theorem mentioned_between (ha : a ∈ E) (hb : b ∈ E) : mentioned (between a b) ⊆ E :=
  mentioned_subset_iff.2 ⟨mentioned_some_iff.2 ha, mentioned_some_iff.2 hb⟩

theorem mentioned_everything : mentioned everything ⊆ E :=
  mentioned_subset_iff.2 ⟨mentioned_none, mentioned_none⟩

theorem point?_mem (h : s.point? = some a) (hs : mentioned s ⊆ E) : a ∈ E := by
  unfold point? at h
  split at h
  · exact (mentioned_subset_iff.1 hs).1 ⟨a, h, rfl⟩
  · cases h

theorem ofDomain_safe {d : Domain} (hd : mentioned d ⊆ E) : Safe E (ofDomain d) := by
  have hmin := (Domain.mentioned_subset_iff.1 hd).1
  refine Build.get_safe.bind fun ctx => ?_
  split
  · exact safe_pure (mentioned_point (.inl hmin))
  · exact (Domain.last_safe fun c hc => .inl (hd hc)).bind fun last =>
      safe_pure (mentioned_between (.inl (.inl hmin)) (.inr rfl))

theorem both_safe (op : Arith) (hx : mentioned x? ⊆ E) (hy : mentioned y? ⊆ E) :
    Safe E (both op x? y?) := by
  unfold both
  split
  · exact (Build.arith_safe op (mentioned_some_iff.1 hx) (mentioned_some_iff.1 hy)).some
  · exact safe_pure mentioned_none

theorem either_safe (op : Arith) (hx : mentioned x? ⊆ E) (hy : mentioned y? ⊆ E) :
    Safe E (either op x? y?) := by
  unfold either
  split
  · exact (Build.arith_safe op (mentioned_some_iff.1 hx) (mentioned_some_iff.1 hy)).some
  · exact safe_pure hx
  · exact safe_pure hy
  · exact safe_pure mentioned_none

theorem simplifyEnd_safe (hx : mentioned x? ⊆ E) : Safe E (simplifyEnd x?) := by
  unfold simplifyEnd
  split
  · exact (Query.simplify_safe (mentioned_some_iff.1 hx)).some
  · exact safe_pure mentioned_none

theorem simplified_safe (hx : mentioned x? ⊆ E) (hy : mentioned y? ⊆ E) :
    Safe E (simplified x? y?) :=
  (simplifyEnd_safe hx).bind fun _ => (simplifyEnd_safe (hy.trans Set.subset_union_left)).bind
    fun _ => safe_pure (Set.union_subset (fun _ hc => .inl (.inr hc)) Set.subset_union_right)

theorem coversExactly_safe {d : Domain} (hs : mentioned s ⊆ E) (hd : mentioned d ⊆ E) :
    Safe E (s.coversExactly d) := by
  obtain ⟨hlo, hhi⟩ := mentioned_subset_iff.1 hs
  unfold coversExactly
  split
  · next lo hi hlo' hhi' =>
    have hlo := hlo ⟨lo, hlo', rfl⟩
    have hhi := hhi ⟨hi, hhi', rfl⟩
    have hmin := (Domain.mentioned_subset_iff.1 hd).1
    refine (build_safe (Domain.last_safe hd)).bind fun last => ?_
    refine (Query.provesEqual_safe (.inl hlo) (.inl hmin)).bind fun first => ?_
    split
    · exact Query.provesEqual_safe (.inl (.inl hhi)) (.inl (.inr rfl))
    · exact safe_pure (Set.empty_subset _)
  · exact safe_pure (Set.empty_subset _)

theorem toDomain?_safe (hs : mentioned s ⊆ E) : Safe E s.toDomain? := by
  obtain ⟨hlo, hhi⟩ := mentioned_subset_iff.1 hs
  unfold toDomain?
  split
  · next lo hi hlo' hhi' =>
    have hlo := hlo ⟨lo, hlo', rfl⟩
    have hhi := hhi ⟨hi, hhi', rfl⟩
    refine (build_safe (Build.arith_safe .sub hhi hlo)).bind fun width => ?_
    refine (build_safe (Build.addConst_safe 1 (.inr rfl))).bind fun extent => ?_
    refine (Query.simplify_safe (.inr rfl)).bind fun extent' => safe_pure ?_
    rintro c ⟨_, ⟨⟩, rfl | rfl⟩
    exacts [.inl (.inl (.inl hlo)), .inr rfl]
  · exact safe_pure mentioned_none

theorem union_safe (hs : mentioned s ⊆ E) (ht : mentioned t ⊆ E) : Safe E (s.union t) := by
  obtain ⟨hslo, hshi⟩ := mentioned_subset_iff.1 hs
  obtain ⟨htlo, hthi⟩ := mentioned_subset_iff.1 ht
  refine (build_safe (both_safe .min hslo htlo)).bind fun lo? => ?_
  refine (simplifyEnd_safe Set.subset_union_right).bind fun lo? => ?_
  refine (build_safe (both_safe .max (fun c hc => .inl (.inl (hshi hc)))
    fun c hc => .inl (.inl (hthi hc)))).bind fun hi? => ?_
  refine (simplifyEnd_safe Set.subset_union_right).bind fun hi? => safe_pure ?_
  exact mentioned_subset_iff.2 ⟨fun c hc => .inl (.inl (.inr hc)), fun c hc => .inr hc⟩

theorem scale_safe (hs : mentioned s ⊆ E) (ha : a ∈ E) : Safe E (s.scale a) := by
  obtain ⟨hlo, hhi⟩ := mentioned_subset_iff.1 hs
  refine (build_safe (Build.constantLike_safe 0 a)).bind fun zero => ?_
  refine (build_safe (Build.compare_safe .ge (.inl ha) (.inr rfl))).bind fun cond => ?_
  refine (Query.proves_safe (.inr rfl)).bind fun nonNegative => ?_
  have hknown : E ⊆ E ∪ mentioned zero ∪ mentioned cond ∪ mentioned nonNegative :=
    fun c hc => .inl (.inl (.inl hc))
  split
  · refine (build_safe (both_safe .mul (hlo.trans hknown)
      (mentioned_some_iff.2 (hknown ha)))).bind fun lo? => ?_
    refine (simplifyEnd_safe Set.subset_union_right).bind fun lo? => ?_
    refine (build_safe (both_safe .mul (fun c hc => .inl (.inl (hknown (hhi hc))))
      (mentioned_some_iff.2 (.inl (.inl (hknown ha)))))).bind fun hi? => ?_
    refine (simplifyEnd_safe Set.subset_union_right).bind fun hi? => safe_pure ?_
    exact mentioned_subset_iff.2 ⟨fun c hc => .inl (.inl (.inr hc)), fun c hc => .inr hc⟩
  · refine (build_safe (Build.compare_safe .le (hknown ha) (.inl (.inl (.inr rfl))))).bind
      fun cond' => ?_
    refine (Query.proves_safe (.inr rfl)).bind fun nonPositive => ?_
    split
    · refine (build_safe (both_safe .mul (fun c hc => .inl (.inl (hknown (hhi hc))))
        (mentioned_some_iff.2 (.inl (.inl (hknown ha)))))).bind fun lo? => ?_
      refine (build_safe (both_safe .mul (fun c hc => .inl (.inl (.inl (hknown (hlo hc)))))
        (mentioned_some_iff.2 (.inl (.inl (.inl (hknown ha))))))).bind fun hi? => ?_
      exact simplified_safe (fun c hc => .inl (.inr hc)) Set.subset_union_right
    · exact safe_pure mentioned_everything

theorem provesPositive_safe (ha : a ∈ E) : Safe E (provesPositive a) :=
  (build_safe (Build.constantLike_safe 0 a)).bind fun _ =>
    (build_safe (Build.compare_safe .gt (.inl ha) (.inr rfl))).bind fun _ =>
      Query.proves_safe (.inr rfl)

theorem quotient_safe (hs : mentioned s ⊆ E) (ha : a ∈ E) : Safe E (s.quotient a) := by
  obtain ⟨hlo, hhi⟩ := mentioned_subset_iff.1 hs
  refine (provesPositive_safe ha).bind fun positive => ?_
  split
  · refine (build_safe (both_safe .floorDiv (fun c hc => .inl (hlo hc))
      (mentioned_some_iff.2 (.inl ha)))).bind fun lo? => ?_
    refine (simplifyEnd_safe Set.subset_union_right).bind fun lo? => ?_
    refine (build_safe (both_safe .floorDiv (fun c hc => .inl (.inl (.inl (hhi hc))))
      (mentioned_some_iff.2 (.inl (.inl (.inl ha)))))).bind fun hi? => ?_
    refine (simplifyEnd_safe Set.subset_union_right).bind fun hi? => safe_pure ?_
    exact mentioned_subset_iff.2 ⟨fun c hc => .inl (.inl (.inr hc)), fun c hc => .inr hc⟩
  · exact safe_pure mentioned_everything

theorem remainderInBlock?_safe (hs : mentioned s ⊆ E) (ha : a ∈ E) :
    Safe E (s.remainderInBlock? a) := by
  obtain ⟨hlo, hhi⟩ := mentioned_subset_iff.1 hs
  unfold remainderInBlock?
  split
  · next lo hi hlo' hhi' =>
    have hlo := hlo ⟨lo, hlo', rfl⟩
    have hhi := hhi ⟨hi, hhi', rfl⟩
    refine (build_safe (Build.arith_safe .floorDiv hlo ha)).bind fun qlo => ?_
    refine (build_safe (Build.arith_safe .floorDiv (.inl hhi) (.inl ha))).bind fun qhi => ?_
    refine (Query.provesEqual_safe (.inl (.inr rfl)) (.inr rfl)).bind fun same => ?_
    split
    · refine (build_safe (Build.arith_safe .floorMod (.inl (.inl (.inl hlo)))
        (.inl (.inl (.inl ha))))).bind fun mlo => ?_
      refine (build_safe (Build.arith_safe .floorMod (.inl (.inl (.inl (.inl hhi))))
        (.inl (.inl (.inl (.inl ha)))))).bind fun mhi => ?_
      exact (simplified_safe (mentioned_some_iff.2 (.inl (.inr rfl)))
        (mentioned_some_iff.2 (.inr rfl))).some
    · exact safe_pure mentioned_none
  · exact safe_pure mentioned_none

theorem remainder_safe (hs : mentioned s ⊆ E) (ha : a ∈ E) : Safe E (s.remainder a) := by
  refine (provesPositive_safe ha).bind fun positive => ?_
  split
  · refine (remainderInBlock?_safe (fun c hc => .inl (hs hc)) (.inl ha)).bind fun block? => ?_
    split
    · next block => exact safe_pure fun c hc => .inr ⟨block, rfl, hc⟩
    · refine (build_safe (Build.constantLike_safe 0 a)).bind fun zero => ?_
      refine (build_safe (Build.addConst_safe (-1) (.inl (.inl (.inl ha))))).bind fun last => ?_
      exact simplified_safe (mentioned_some_iff.2 (.inl (.inr rfl)))
        (mentioned_some_iff.2 (.inr rfl))
  · exact safe_pure mentioned_everything

theorem arith_safe (op : Arith) (hs : mentioned s ⊆ E) (ht : mentioned t ⊆ E) :
    Safe E (arith op s t) := by
  obtain ⟨hslo, hshi⟩ := mentioned_subset_iff.1 hs
  obtain ⟨htlo, hthi⟩ := mentioned_subset_iff.1 ht
  have hends : ∀ {lo hi : Build (Option ExprId)}, Safe E lo → Safe E hi → Safe E (do
      let lo? ← lo
      let hi? ← hi
      simplified lo? hi? : Query ValueSet) := fun hlo hhi =>
    (build_safe hlo).bind fun _ => (build_safe (hhi.weaken Set.subset_union_left)).bind fun _ =>
      simplified_safe (fun _ hc => .inl (.inr hc)) Set.subset_union_right
  cases op with
  | add => exact hends (both_safe .add hslo htlo) (both_safe .add hshi hthi)
  | sub => exact hends (both_safe .sub hslo hthi) (both_safe .sub hshi htlo)
  | min => exact hends (both_safe .min hslo htlo) (either_safe .min hshi hthi)
  | max => exact hends (either_safe .max hslo htlo) (both_safe .max hshi hthi)
  | mul =>
      unfold arith
      dsimp only
      split
      · next factor hfactor => exact scale_safe hs (point?_mem hfactor ht)
      · next factor hfactor _ => exact scale_safe ht (point?_mem hfactor hs)
      · exact safe_pure mentioned_everything
  | floorDiv =>
      unfold arith
      dsimp only
      split
      · next divisor hdivisor => exact quotient_safe hs (point?_mem hdivisor ht)
      · exact safe_pure mentioned_everything
  | floorMod =>
      unfold arith
      dsimp only
      split
      · next divisor hdivisor => exact remainder_safe hs (point?_mem hdivisor ht)
      · exact safe_pure mentioned_everything

theorem arithPoints_safe (op : Arith) (ha : a ∈ E) (hb : b ∈ E) : Safe E (arithPoints op a b) := by
  refine context_safe.bind fun ctx => ?_
  split
  · exact safe_pure mentioned_everything
  · exact (build_safe (Build.arith_safe op (.inl ha) (.inl hb))).bind fun _ =>
      (Query.simplify_safe (.inr rfl)).bind fun _ => safe_pure (mentioned_point (.inr rfl))

end ValueSet

namespace Query

theorem valuesOf_safe {sets : Env ValueSet} {e : ExprId} {K : Set ExprId}
    (hsets : mentioned sets ⊆ K) (he : e ∈ K) : Safe K (valuesOf sets e) := by
  rw [valuesOf]
  refine context_safe.bind fun ctx => ?_
  have hchild : ∀ {c}, c ∈ (ctx.node e).children → c ∈ K ∪ mentioned ctx :=
    fun hc => .inr (Build.mem_mentioned_of_child hc)
  have hsets' : mentioned sets ⊆ K ∪ mentioned ctx := hsets.trans Set.subset_union_left
  have hpoint : ∀ {c}, c ∈ (ctx.node e).children → Safe (K ∪ mentioned ctx)
      (OptionT.mk (do return (← valuesOf sets c).point?) : OptionT Query ExprId) := by
    intro c hc
    refine Safe.bind (m := Query) (valuesOf_safe hsets' (hchild hc)) fun s => safe_pure ?_
    rintro d ⟨x, hx, rfl⟩
    exact ValueSet.point?_mem hx Set.subset_union_right
  split
  · exact safe_pure (ValueSet.mentioned_point (.inl he))
  · next v hn =>
    refine safe_pure ?_
    cases hv : sets v with
    | none => exact ValueSet.mentioned_point (.inl he)
    | some s => exact fun c hc => hsets' ⟨v, s, hv, hc⟩
  · next op a b hn =>
    have hma : a ∈ (ctx.node e).children := by simp [hn, Node.children]
    have hmb : b ∈ (ctx.node e).children := by simp [hn, Node.children]
    refine (valuesOf_safe hsets' (hchild hma)).bind fun s => ?_
    refine (valuesOf_safe (hsets'.trans Set.subset_union_left) (.inl (hchild hmb))).bind fun t => ?_
    split
    · next x y hx hy =>
      exact ValueSet.arithPoints_safe op
        (ValueSet.point?_mem hx fun c hc => .inl (.inr hc))
        (ValueSet.point?_mem hy fun c hc => .inr hc)
    · exact ValueSet.arith_safe op (fun c hc => .inl (.inr hc)) fun c hc => .inr hc
  · next f args dims hn =>
    have hargs : ∀ a ∈ args, a ∈ (ctx.node e).children := fun a ha => by
      rwa [hn]
    have hpoints : Safe (K ∪ mentioned ctx) (OptionT.run <| args.attach.mapM fun a =>
        OptionT.mk (do return (← valuesOf sets a.1).point?) : Query (Option (List ExprId))) :=
      safe_mapM (m := OptionT Query) fun a _ => hpoint (hargs a.1 a.2)
    refine hpoints.bind fun points? => ?_
    split
    · next points =>
      exact (build_safe (Build.intern_safe fun a ha => .inr ⟨points, rfl, a, ha, rfl⟩)).bind
        fun _ => safe_pure (ValueSet.mentioned_point (.inr rfl))
    · refine context_safe.bind fun ctx' => ?_
      split
      · next d hd =>
        exact build_safe (ValueSet.ofDomain_safe fun c hc => .inr (codomain_mem hd hc))
      · exact safe_pure ValueSet.mentioned_everything
  · have hpoints : Safe (K ∪ mentioned ctx) (OptionT.run <|
        (ctx.node e).children.attach.mapM fun a =>
          OptionT.mk (do return (← valuesOf sets a.1).point?) : Query (Option (List ExprId))) :=
      safe_mapM (m := OptionT Query) fun a _ => hpoint a.2
    refine hpoints.bind fun points? => ?_
    split
    · next points =>
      refine (build_safe (Build.rebuild_safe (fun a ha => .inl (hchild ha))
        fun a ha => .inr ⟨points, rfl, a, ha, rfl⟩)).bind fun r => ?_
      exact (simplify_safe (.inr rfl)).bind fun _ =>
        safe_pure (ValueSet.mentioned_point (.inr rfl))
    · exact (build_safe (Build.boolean_safe _)).bind fun _ =>
        (build_safe (Build.boolean_safe _)).bind fun _ =>
          safe_pure (ValueSet.mentioned_between (.inl (.inr rfl)) (.inr rfl))
termination_by e.index
decreasing_by all_goals exact ctx.child_lt (by assumption)

end Query

/-- An analyzer may be dropped after it was asked. -/
theorem Query.runOn_safe {α : Type} [Mentions α] {q : Query α} {an : Analyzer}
    (han : mentioned an ⊆ E) (hq : Safe E q) : Safe E (q.runOn an) :=
  (hq an).weaken (Set.union_subset subset_rfl han)

theorem runWith_safe {α : Type} [Mentions α] {an : Analyzer} {q : Query α}
    (han : mentioned an ⊆ E) (hq : Safe E q) : Safe E (Query.runWith an q) :=
  Interning.bind (Query.runOn_safe han hq) fun p => .pure (x := p.1) fun _ he => .inr (.inl he)

theorem mentioned_new : mentioned ({} : Analyzer) ⊆ E :=
  Set.union_subset (fun _ hc => by simp at hc) fun _ hc => by simp at hc

theorem mentioned_forgetful : mentioned Analyzer.forgetful ⊆ E := mentioned_new

theorem mentioned_analyzer (config : Config) : mentioned config.analyzer ⊆ E := by
  rw [Config.analyzer]
  split
  exacts [mentioned_new, mentioned_forgetful]

/-! ## Inverting functions -/

namespace Attempt

theorem ask_safe {α : Type} [Mentions α] {q : Query α} (hq : Safe E q) : Safe E (ask q) :=
  except_lift_safe (runWith_safe mentioned_new hq)

theorem argumentsOf?_safe (f : FunId) (e : ExprId) : Safe E (argumentsOf? f e) := by
  refine context_safe.bind fun ctx => ?_
  dsimp only
  split
  · next g args dims hn =>
    have hargs : ∀ a ∈ args, a ∈ E ∪ mentioned ctx := fun a ha =>
      .inr (Build.mem_mentioned_of_child (e := e) (by rwa [hn]))
    split
    · refine Safe.some (safe_mapM fun d _ => ?_)
      refine (argument_safe _ dims d hargs).bind fun a => safe_pure ?_
      rintro c (hc | hc)
      exacts [hc.elim, .inr hc]
    · exact safe_pure mentioned_none
  · exact safe_pure mentioned_none

theorem solveMultiple_safe (callee : IndexFun) (type : Scalar) (w : Int64) (he : e ∈ E) :
    Safe E (solveMultiple callee type e w) := by
  unfold solveMultiple
  split
  · exact safe_pure (Set.singleton_subset_iff.2 he)
  split
  · exact (build_safe (Build.constant_safe 0 type)).bind fun _ =>
      build_safe (Build.arith_safe .sub (.inr rfl) (.inl he))
  · refine (build_safe (Build.constant_safe w type)).bind fun divisor => ?_
    refine (divide_safe .floorMod (.inl he) (.inr rfl)).bind fun rest => ?_
    refine (build_safe (Build.constant_safe 0 type)).bind fun zero => ?_
    refine (build_safe (Build.compare_safe .eq (.inl (.inr rfl)) (.inr rfl))).bind ?_
    intro multiple
    refine (ask_safe (Query.proves_safe (.inr rfl))).bind fun divides => ?_
    split
    · exact divide_safe .floorDiv (.inl (.inl (.inl (.inl (.inl he)))))
        (.inl (.inl (.inl (.inl (.inr rfl)))))
    · exact throw_safe

theorem solveAffine_safe (callee : IndexFun) (param : VarId) (ha : a ∈ E) (he : e ∈ E) :
    Safe E (solveAffine callee a param e) := by
  rw [solveAffine]
  refine context_safe.bind fun ctx => ?_
  split
  · exact throw_bind_safe
  refine (ask_safe (Query.simplify_safe (.inl ha))).bind fun body => ?_
  refine context_safe.bind fun ctx₁ => ?_
  refine (build_safe (Build.var_safe param)).bind fun paramExpr => ?_
  dsimp only
  split
  · exact throw_bind_safe
  split
  · exact throw_bind_safe
  refine context_safe.bind fun ctx₂ => ?_
  refine (build_safe (Build.constant_safe _ _)).bind fun shift => ?_
  have he' : e ∈ E ∪ mentioned ctx ∪ mentioned body ∪ mentioned ctx₁ ∪ mentioned paramExpr ∪
    mentioned ctx₂ ∪ mentioned shift := .inl (.inl (.inl (.inl (.inl (.inl he)))))
  refine (build_safe (Build.arith_safe .sub he' (.inr rfl))).bind fun shifted => ?_
  refine (solveMultiple_safe callee _ _ (.inr rfl)).bind fun solved => ?_
  exact ask_safe (Query.simplify_safe (.inr rfl))

theorem invert_safe (f : FunId) (he : e ∈ E) : Safe E (invert e f) := by
  refine (argumentsOf?_safe f e).bind fun solved? => ?_
  split
  · next solved => exact safe_pure fun c hc => .inr ⟨solved, rfl, hc⟩
  refine context_safe.bind fun ctx => ?_
  dsimp only
  split
  · exact throw_safe
  · split
    · exact throw_safe
    · next body hbody =>
      refine (solveAffine_safe _ _ (.inr (body_mem hbody)) (.inl (.inl he))).bind fun r => ?_
      refine safe_pure ?_
      rintro c ⟨p, hp, hc⟩
      rw [List.mem_singleton.1 hp] at hc
      exact .inr (hc.resolve_left id)
  · exact throw_safe

end Attempt

end LoopBounds
