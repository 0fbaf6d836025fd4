import LoopBounds.Proofs.Handles

/-!
# Safety of the library

Every operation on expressions, functions, nests and tables is safe: it appends expressions only,
and the handles in its result are stored when those in its arguments are.
-/

namespace LoopBounds

open Tracks

variable {E : Set ExprId} {a b c e : ExprId}

/-! ## Rewriting -/

section Rewriting

variable {m : Type → Type} [Monad m] [LawfulMonad m] [MonadLiftT Build m] [Tracks m]
  {visit : ExprId → m (Option ExprId)}

theorem rewriteStep_safe
    (hlift : ∀ {α : Type} [Mentions α] {E : Set ExprId} {b : Build α}, Safe E b →
      Safe E (liftM b : m α))
    (hvisit : ∀ e, Safe (insert e E) (visit e)) {e : ExprId} {K : Set ExprId} (hK : E ⊆ K)
    (he : e ∈ K) : Safe K (rewriteStep visit e) := by
  rw [rewriteStep]
  refine state_get_safe.bind fun memo => ?_
  split
  · next done hdone =>
    refine safe_pure (Set.singleton_subset_iff.2 (.inr ?_))
    exact Facts.mentioned_of_getElem? (x := done) hdone rfl
  · refine (state_lift_safe (hlift Build.get_safe)).bind fun ctx => ?_
    have hchildren : ∀ c ∈ (ctx.node e).children, c ∈ K ∪ mentioned memo ∪ mentioned ctx :=
      fun c hc => .inr (Build.mem_mentioned_of_child hc)
    have hsub : E ⊆ K ∪ mentioned memo ∪ mentioned ctx := fun c hc => .inl (.inl (hK hc))
    refine (safe_mapM fun c _ => rewriteStep_safe hlift hvisit hsub (hchildren c.1 c.2)).bind
      fun operands => ?_
    have hvisited : ∀ rebuilt, Safe ((K ∪ mentioned memo ∪ mentioned ctx ∪ mentioned operands) ∪
        mentioned rebuilt) (do
          let result := (← liftM (visit rebuilt)).getD rebuilt
          modify (·.insert e result)
          return result : StateT Rewritten m ExprId) := by
      intro rebuilt
      have hknown : insert rebuilt E ⊆ (K ∪ mentioned memo ∪ mentioned ctx ∪ mentioned operands) ∪
          mentioned rebuilt := by
        rintro c (rfl | hc)
        exacts [.inr rfl, .inl (.inl (hsub hc))]
      refine (state_lift_safe ((hvisit rebuilt).weaken hknown)).bind fun r? => ?_
      have hresult : r?.getD rebuilt ∈ K ∪ mentioned memo ∪ mentioned ctx ∪ mentioned operands ∪
          mentioned rebuilt ∪ mentioned r? := by
        cases r? with
        | none => exact .inl (.inr rfl)
        | some r => exact .inr ⟨r, rfl, rfl⟩
      refine Safe.bind (state_modify_safe fun memo' c hc => ?_) fun _ =>
        safe_pure (Set.singleton_subset_iff.2 (.inl hresult))
      rcases Facts.mentioned_insert _ _ _ hc with hc | rfl
      exacts [.inr hc, .inl hresult]
    dsimp only
    split
    · refine Safe.bind (safe_pure (Set.singleton_subset_iff.2 ?_)) hvisited
      exact .inl (.inl (.inl he))
    · refine Safe.bind (state_lift_safe (hlift (Build.rebuild_safe ?_ ?_))) hvisited
      · exact fun c hc => .inl (hchildren c hc)
      · exact fun c hc => .inr ⟨c, hc, rfl⟩
termination_by e.index
decreasing_by exact ctx.child_lt c.2

theorem rewrite_safe
    (hlift : ∀ {α : Type} [Mentions α] {E : Set ExprId} {b : Build α}, Safe E b →
      Safe E (liftM b : m α))
    (hvisit : ∀ e, Safe (insert e E) (visit e)) (he : e ∈ E) : Safe E (rewrite visit e) := by
  rw [rewrite, StateT.run'_eq]
  refine Safe.map ((rewriteStep_safe hlift hvisit subset_rfl he {}).weaken ?_) fun p c hc =>
    .inr (.inl hc)
  refine Set.union_subset subset_rfl ?_
  rintro c ⟨k, r, hr, -⟩
  simp at hr

end Rewriting

theorem substitute_safe {images : Env ExprId} (himages : mentioned images ⊆ E) (he : e ∈ E) :
    Safe E (substitute images e) := by
  refine rewrite_safe (fun h => h) (fun e => ?_) he
  refine Build.get_safe.bind fun ctx => ?_
  split
  · next v hn =>
    refine safe_pure ?_
    rintro c ⟨r, hr, rfl⟩
    exact .inl (.inr (himages ⟨v, c, hr, rfl⟩))
  · exact safe_pure mentioned_none

theorem bindParams_safe {m : Type → Type} [Monad m] [Tracks m] {α : Type} [Mentions α]
    (f : IndexFun) {meaning : DimId → m α} (h : ∀ d, Safe E (meaning d)) :
    Safe E (f.bindParams meaning) := by
  refine safe_foldlM (by simp) fun env p _ => ?_
  refine ((h p.2).weaken Set.subset_union_left).bind fun x => safe_pure fun c hc => ?_
  exact (mentioned_set hc).imp .inr id

/-! ## Declaring and calling functions -/

namespace Attempt

theorem build_safe {α : Type} [Mentions α] {b : Build α} (h : Safe E b) :
    Safe E (liftM b : Attempt α) := except_lift_safe h

theorem context_safe : Safe E (liftM (get : Build Context) : Attempt Context) :=
  build_safe Build.get_safe

theorem divide_safe (op : Arith) (ha : a ∈ E) (hb : b ∈ E) : Safe E (divide op a b) := by
  refine context_safe.bind fun ctx => ?_
  split
  · exact throw_bind_safe
  · exact build_safe (Build.arith_safe op (.inl ha) (.inl hb))

theorem checkBody_safe (name : String) (params : List VarId) (body : ExprId) :
    Safe E (checkBody name params body) := by
  refine context_safe.bind fun ctx => ?_
  split
  · exact throw_safe
  · exact safe_pure (Set.empty_subset _)

theorem declareFun_safe (name : String) {codomain? : Option Domain} (dims : List DimId)
    (params : List VarId) {body? : Option ExprId} (hcodomain : mentioned codomain? ⊆ E)
    (hbody : mentioned body? ⊆ E) : Safe E (declareFun name codomain? dims params body?) := by
  have hadd : Safe E (liftM (addFun { name, params, dims, body?, codomain? }) : Attempt FunId) :=
    build_safe (Build.addFun_safe (Set.union_subset hbody hcodomain))
  rw [declareFun]
  split
  · exact throw_bind_safe
  · dsimp only
    split
    · exact (checkBody_safe _ _ _).bind fun _ => hadd.weaken Set.subset_union_left
    · exact hadd

theorem setBody_safe (f : FunId) (he : e ∈ E) : Safe E (setBody f e) := by
  refine context_safe.bind fun ctx => (checkBody_safe _ _ _).bind fun _ => ?_
  refine build_safe (Build.modifyFun_safe f fun g => ?_)
  rintro c (⟨_, ⟨⟩, rfl⟩ | hc)
  exacts [.inl (.inl (.inl he)), .inr (.inr hc)]

theorem argument_safe (callee : IndexFun) {args : List ExprId} (dims : List DimId) (d : DimId)
    (hargs : ∀ a ∈ args, a ∈ E) : Safe E (argument callee args dims d) := by
  unfold argument
  split
  · next a ha => exact safe_pure (Set.singleton_subset_iff.2 (hargs a (mem_of_argument? ha)))
  · exact context_safe.bind fun _ => throw_safe

theorem instantiate_safe (f : FunId) {args : List ExprId} (dims : List DimId)
    (hargs : ∀ a ∈ args, a ∈ E) : Safe E (instantiate f args dims) := by
  refine context_safe.bind fun ctx => ?_
  dsimp only
  split
  · exact throw_bind_safe
  split
  · exact throw_safe
  · next body hbody =>
    refine (bindParams_safe _ fun d => argument_safe _ dims d fun a ha => .inl (hargs a ha)).bind
      fun images => ?_
    exact build_safe (substitute_safe (fun _ he => .inr he) (.inl (.inr (body_mem hbody))))

theorem call_safe (f : FunId) {args : List ExprId} (dims : List DimId)
    (hargs : ∀ a ∈ args, a ∈ E) : Safe E (call f args dims) := by
  refine context_safe.bind fun ctx => ?_
  dsimp only
  split
  · exact throw_bind_safe
  split
  · exact context_safe.bind fun _ => throw_safe
  split
  · next body hparams hbody =>
    exact safe_pure (Set.singleton_subset_iff.2 (.inr (body_mem hbody)))
  · exact build_safe (Build.intern_safe fun a ha => .inl (hargs a ha))

/-- What a call is replaced by is safe if what its body is made into is. -/
theorem unfold_safe {go : ExprId → Attempt ExprId}
    (hgo : ∀ {K : Set ExprId} {b : ExprId}, b ∈ K → Safe K (go b)) {ctx : Context} {f : FunId}
    {args : List ExprId} {dims : List DimId} (hn : ctx.node e = .call f args dims)
    (hctx : mentioned ctx ⊆ E) :
    Safe E (do some <$> go (← instantiate f args dims)) := by
  have hargs : ∀ a ∈ args, a ∈ E := fun a ha =>
    hctx (Build.mem_mentioned_of_child (e := e) (by rwa [hn]))
  exact (instantiate_safe f dims hargs).bind fun body => (hgo (.inr rfl)).some

theorem inlineWithin_safe (onlySimple : Bool) (depth : Nat) (he : e ∈ E) :
    Safe E (inlineWithin onlySimple depth e) := by
  induction depth generalizing e E with
  | zero => exact safe_pure (Set.singleton_subset_iff.2 he)
  | succ depth ih =>
      refine rewrite_safe build_safe (fun e => ?_) he
      refine context_safe.bind fun ctx => ?_
      split
      · next f args dims hn =>
        split
        · exact safe_pure mentioned_none
        · exact unfold_safe ih hn Set.subset_union_right
      · exact safe_pure mentioned_none

theorem inline_safe (onlySimple : Bool) (he : e ∈ E) : Safe E (inline onlySimple e) :=
  context_safe.bind fun _ => inlineWithin_safe onlySimple _ (.inl he)

theorem inlineDomain_safe (onlySimple : Bool) {d : Domain} (hd : mentioned d ⊆ E) :
    Safe E (inlineDomain onlySimple d) := by
  obtain ⟨hmin, hextent⟩ := Domain.mentioned_subset_iff.1 hd
  exact (inline_safe onlySimple hmin).bind fun _ => (inline_safe onlySimple (.inl hextent)).bind
    fun _ => safe_pure (Domain.mentioned_subset_iff.2 ⟨.inl (.inr rfl), .inr rfl⟩)

theorem relaxWithin_safe (depth : Nat) (he : e ∈ E) : Safe E (relaxWithin depth e) := by
  induction depth generalizing e E with
  | zero => exact safe_pure (Set.singleton_subset_iff.2 he)
  | succ depth ih =>
      refine rewrite_safe build_safe (fun e => ?_) he
      refine context_safe.bind fun ctx => ?_
      split
      · next f args dims hn =>
        split
        · split
          · next d hd =>
            exact (build_safe (Domain.last_safe fun c hc => .inr (codomain_mem hd hc))).some
          · exact safe_pure mentioned_none
        · exact unfold_safe ih hn Set.subset_union_right
      · exact safe_pure mentioned_none

theorem relax_safe (he : e ∈ E) : Safe E (relax e) :=
  context_safe.bind fun _ => relaxWithin_safe _ (.inl he)

end Attempt

/-! ## Asking analyzers -/

namespace Query

theorem build_safe {α : Type} [Mentions α] {b : Build α} (h : Safe E b) :
    Safe E (liftM b : Query α) := fun an =>
  Interning.bind (h.weaken Set.subset_union_left) fun x => .pure (x := (x, an))
    (Set.union_subset (fun _ he => .inr he) fun _ he => .inl (.inr he))

theorem context_safe : Safe E context := build_safe Build.get_safe

theorem analyzer_safe : Safe E analyzer := fun an =>
  .pure (x := (an, an)) (Set.union_subset Set.subset_union_right Set.subset_union_right)

theorem changeAnalyzer_safe {change : Analyzer → Analyzer}
    (h : ∀ an, mentioned (change an) ⊆ E ∪ mentioned an) : Safe E (changeAnalyzer change) :=
  fun an => .pure (x := ((), change an)) (Set.union_subset (Set.empty_subset _) (h an))

theorem learn_safe (v : VarId) {d : Domain} (hd : mentioned d ⊆ E) : Safe E (learn v d) := by
  refine changeAnalyzer_safe fun an e he => ?_
  rcases he with he | ⟨k, r, hr, -⟩
  · rcases Facts.mentioned_insert (an.bindings : Facts .var Domain) v d he with he | he
    exacts [.inr (.inl he), .inl (hd he)]
  · simp [Analyzer.learn] at hr

theorem recordSimplified_safe (e : ExprId) {r : ExprId} (hr : r ∈ E) :
    Safe E (recordSimplified e r) := by
  refine changeAnalyzer_safe fun an c hc => ?_
  split at hc
  · rcases hc with hc | hc
    · exact .inr (.inl hc)
    · rcases Facts.mentioned_insert (an.simplified : Facts .expr ExprId) e r hc with hc | rfl
      exacts [.inr (.inr hc), .inl hr]
  · exact .inr hc

theorem recordProved_safe (e : ExprId) (answer : Bool) : Safe E (recordProved e answer) := by
  refine changeAnalyzer_safe fun an c hc => .inr ?_
  split at hc <;> exact hc

theorem recordBound_safe (e : ExprId) (i : Interval) : Safe E (recordBound e i) := by
  refine changeAnalyzer_safe fun an c hc => .inr ?_
  split at hc <;> exact hc

theorem bound_safe (e : ExprId) : Safe E (bound e) := by
  refine analyzer_safe.bind fun an => ?_
  split
  · exact safe_pure (Set.empty_subset _)
  · exact context_safe.bind fun ctx => (recordBound_safe _ _).bind
      fun _ => safe_pure (Set.empty_subset _)

end Query

/-! ## Affine forms -/

namespace Affine

variable {f g h : Affine}

theorem mentioned_atom : mentioned (atom e) ⊆ {e} := by
  rintro c ⟨t, ht, rfl⟩
  rw [List.mem_singleton.1 ht]
  rfl

theorem mentioned_ofConst (w : Int64) : mentioned (ofConst w) ⊆ E := by
  rintro c ⟨t, ht, -⟩
  cases ht

theorem mentioned_add (hh : f.add g = some h) : mentioned h ⊆ mentioned f ∪ mentioned g := by
  obtain ⟨ts, hts, hh⟩ := Option.bind_eq_some_iff.1 hh
  obtain ⟨w, -, hh⟩ := Option.bind_eq_some_iff.1 hh
  cases hh
  rintro c ⟨t, ht, rfl⟩
  obtain ⟨u, hu, hut⟩ := mem_addTerms hts ht
  exact hu.imp (fun hu => ⟨u, hu, hut.symm⟩) fun hu => ⟨u, hu, hut.symm⟩

theorem mentioned_scale {w : Int64} (hg : f.scale w = some g) : mentioned g ⊆ mentioned f := by
  unfold scale at hg
  split at hg
  · cases hg
    exact mentioned_ofConst 0
  · obtain ⟨ts, hts, hg⟩ := Option.bind_eq_some_iff.1 hg
    obtain ⟨v, -, hg⟩ := Option.bind_eq_some_iff.1 hg
    cases hg
    rintro c ⟨t, ht, rfl⟩
    obtain ⟨u, hu, hut⟩ := mem_scale hts ht
    exact ⟨u, hu, hut.symm⟩

theorem mentioned_sub (hh : f.sub g = some h) : mentioned h ⊆ mentioned f ∪ mentioned g := by
  obtain ⟨k, hk, hh⟩ := Option.bind_eq_some_iff.1 hh
  exact (mentioned_add hh).trans (Set.union_subset_union_right _ (mentioned_scale hk))

theorem mentioned_splitBy (f : Affine) (d : Int64) :
    mentioned (f.splitBy d).1 ⊆ mentioned f ∧ mentioned (f.splitBy d).2 ⊆ mentioned f := by
  simp only [splitBy, List.partition_eq_filter_filter]
  constructor
  · rintro c ⟨t, ht, rfl⟩
    obtain ⟨u, hu, rfl⟩ := List.mem_map.1 ht
    exact ⟨u, (List.mem_filter.1 hu).1, rfl⟩
  · rintro c ⟨t, ht, rfl⟩
    exact ⟨t, (List.mem_filter.1 ht).1, rfl⟩

theorem mentioned_ofExpr {ctx : Context} (hctx : mentioned ctx ⊆ E) (he : e ∈ E) :
    mentioned (ofExpr ctx e) ⊆ E := by
  have hchild : ∀ {e c n}, ctx.node e = n → c ∈ n.children → c ∈ E := fun hn hc =>
    hctx (Build.mem_mentioned_of_child (hn ▸ hc))
  refine ofExpr_induction ctx (M := fun e f => e ∈ E → mentioned f ⊆ E) ?_ ?_ ?_ ?_ ?_ ?_ e he
  · exact fun e he => mentioned_atom.trans (Set.singleton_subset_iff.2 he)
  · exact fun e w t _ _ => mentioned_ofConst w
  · intro e a b f g h hn hf hg hh _
    exact (mentioned_add hh).trans (Set.union_subset (hf (hchild hn (by simp [Node.children])))
      (hg (hchild hn (by simp [Node.children]))))
  · intro e a b f g h hn hf hg hh _
    exact (mentioned_sub hh).trans (Set.union_subset (hf (hchild hn (by simp [Node.children])))
      (hg (hchild hn (by simp [Node.children]))))
  · intro e a b f w h hn _ hf hh _
    exact (mentioned_scale hh).trans (hf (hchild hn (by simp [Node.children])))
  · intro e a b f w h hn _ hf hh _
    exact (mentioned_scale hh).trans (hf (hchild hn (by simp [Node.children])))

theorem some_safe {b : Build ExprId} (hb : Safe E b) : Safe E (return some (← b)) :=
  hb.bind fun _ => safe_pure fun _ ⟨_, hx, hc⟩ => by
    cases hx
    exact .inr hc

theorem addTerm_safe {acc? : Option ExprId} {t : ExprId × Int64} (hacc : mentioned acc? ⊆ E)
    (ht : t.1 ∈ E) : Safe E (addTerm acc? t) := by
  have hterm : Safe E (pure t.1 : Build ExprId) := safe_pure (Set.singleton_subset_iff.2 ht)
  rw [addTerm]
  cases acc? with
  | none =>
      have hfirst : ∀ p : ExprId, Safe (E ∪ mentioned p) (return some p : Build (Option ExprId)) :=
        fun p => some_safe (safe_pure Set.subset_union_right)
      split
      · exact hterm.bind hfirst
      · exact (Build.mulConst_safe t.2 ht).bind hfirst
  | some acc =>
      have hsum : ∀ p : ExprId, Safe (E ∪ mentioned p) (return some (← Build.add acc p)) :=
        fun p => some_safe (Build.arith_safe .add (.inl (hacc ⟨acc, rfl, rfl⟩)) (.inr rfl))
      split
      · exact hterm.bind hsum
      · exact (Build.mulConst_safe t.2 ht).bind hsum

theorem subTerm_safe {acc? : Option ExprId} {t : ExprId × Int64} (hacc : mentioned acc? ⊆ E)
    (ht : t.1 ∈ E) : Safe E (subTerm acc? t) := by
  unfold subTerm
  dsimp only
  split
  · next acc m _ =>
    have ha : acc ∈ E := hacc ⟨acc, rfl, rfl⟩
    split
    · exact some_safe (Build.arith_safe .sub ha ht)
    · exact (Build.mulConst_safe m ht).bind fun p =>
        some_safe (Build.arith_safe .sub (.inl ha) (.inr rfl))
  · next acc _ =>
    have ha : acc ∈ E := hacc ⟨acc, rfl, rfl⟩
    exact (Build.mulConst_safe t.2 ht).bind fun p =>
      some_safe (Build.arith_safe .add (.inl ha) (.inr rfl))
  · exact some_safe (Build.mulConst_safe t.2 ht)

theorem toExpr_safe {f : Affine} (type : Scalar) (hf : mentioned f ⊆ E) :
    Safe E (f.toExpr type) := by
  have hterms : ∀ (p : ExprId × Int64 → Bool), ∀ t ∈ f.terms.filter p, t.1 ∈ E := fun p t ht =>
    hf ⟨t, (List.mem_filter.1 ht).1, rfl⟩
  have hnone : mentioned (none : Option ExprId) ⊆ E := by
    rintro c ⟨_, ⟨⟩, _⟩
  refine (safe_foldlM (m := Build) hnone fun acc? t ht => addTerm_safe Set.subset_union_right
    (.inl (hterms _ t ht))).bind fun acc? => ?_
  refine (safe_foldlM (m := Build) Set.subset_union_right fun acc? t ht =>
    subTerm_safe Set.subset_union_right (.inl (.inl (hterms _ t ht)))).bind fun acc? => ?_
  split
  · exact Build.constant_safe _ _
  · next acc =>
    have ha : acc ∈ E ∪ mentioned acc? ∪ mentioned (some acc) := .inr ⟨acc, rfl, rfl⟩
    split
    · exact Build.addConst_safe _ ha
    · split
      · split
        · next w _ =>
          exact (Build.constantLike_safe w acc).bind fun _ =>
            Build.arith_safe .sub (.inl ha) (.inr rfl)
        · exact Build.addConst_safe _ ha
      · exact safe_pure (Set.singleton_subset_iff.2 ha)

end Affine

/-! ## Simplifying and proving -/

namespace Query

theorem operator_safe (op : Arith) (ha : a ∈ E) (hb : b ∈ E) : Safe E (operator op a b) := by
  unfold operator
  split
  · exact build_safe (Build.arith_safe op hb ha)
  · exact build_safe (Build.arith_safe op ha hb)

theorem affineOr_safe {form? : Option Affine} (type : Scalar) (op : Arith)
    (hform : ∀ f, form? = some f → mentioned f ⊆ E) (ha : a ∈ E) (hb : b ∈ E) :
    Safe E (affineOr form? type op a b) := by
  unfold affineOr
  split
  · next f => exact build_safe (Affine.toExpr_safe type (hform f rfl))
  · exact build_safe (Build.arith_safe op ha hb)

theorem difference?_safe (ha : a ∈ E) (hb : b ∈ E) : Safe E (difference? a b) := by
  refine context_safe.bind fun ctx => ?_
  dsimp only
  split
  · next f hf =>
    refine (build_safe (Affine.toExpr_safe _ ?_)).bind fun r => safe_pure ?_
    · exact (Affine.mentioned_sub hf).trans (Set.union_subset
        (Affine.mentioned_ofExpr Set.subset_union_right (.inl ha))
        (Affine.mentioned_ofExpr Set.subset_union_right (.inl hb)))
    · rintro c ⟨_, ⟨⟩, hc⟩
      exact .inr hc
  · exact safe_pure mentioned_none

theorem simplifyProduct_safe (type : Scalar) (ha : a ∈ E) (hb : b ∈ E) :
    Safe E (simplifyProduct type a b) := by
  refine context_safe.bind fun ctx => ?_
  have hf := Affine.mentioned_ofExpr (E := E ∪ mentioned ctx) Set.subset_union_right (.inl ha)
  have hg := Affine.mentioned_ofExpr (E := E ∪ mentioned ctx) Set.subset_union_right (.inl hb)
  dsimp only
  split
  · exact affineOr_safe type .mul (fun f h => (Affine.mentioned_scale h).trans hf)
      (.inl ha) (.inl hb)
  · exact affineOr_safe type .mul (fun f h => (Affine.mentioned_scale h).trans hg)
      (.inl ha) (.inl hb)
  · exact operator_safe .mul (.inl ha) (.inl hb)

theorem simplifyDivision_safe (op : Arith) (type : Scalar) (w : Int64) (ha : a ∈ E) :
    Safe E (simplifyDivision op type a w) := by
  refine context_safe.bind fun ctx => ?_
  have hform := Affine.mentioned_ofExpr (E := E ∪ mentioned ctx) Set.subset_union_right (.inl ha)
  obtain ⟨hquotient, hremainder⟩ := Affine.mentioned_splitBy (Affine.ofExpr ctx a) w
  dsimp only
  refine (build_safe (Affine.toExpr_safe type (hremainder.trans hform))).bind fun rest => ?_
  refine (bound_safe rest).bind fun i => (build_safe (Build.constant_safe w type)).bind
    fun divisor => ?_
  have hknown : E ∪ mentioned ctx ⊆
      E ∪ mentioned ctx ∪ mentioned rest ∪ mentioned i ∪ mentioned divisor :=
    fun c hc => .inl (.inl (.inl hc))
  have ha' := hknown (.inl ha)
  have hquotient' := (hquotient.trans hform).trans hknown
  have hremainder' := (hremainder.trans hform).trans hknown
  have hrest : rest ∈ E ∪ mentioned ctx ∪ mentioned rest ∪ mentioned i ∪ mentioned divisor :=
    .inl (.inl (.inr rfl))
  have hdivisor : divisor ∈ E ∪ mentioned ctx ∪ mentioned rest ∪ mentioned i ∪
    mentioned divisor := .inr rfl
  have hkept : ∀ op, Safe (E ∪ mentioned ctx ∪ mentioned rest ∪ mentioned i ∪ mentioned divisor)
      (liftM (Build.arith op rest divisor) : Query ExprId) :=
    fun op => build_safe (Build.arith_safe op hrest hdivisor)
  cases i.block? w with
  | some k =>
      cases op with
      | floorDiv =>
          refine affineOr_safe type _ (fun f hf => ?_) ha' hdivisor
          exact (Affine.mentioned_add hf).trans
            (Set.union_subset hquotient' (Affine.mentioned_ofConst _))
      | floorMod =>
          refine affineOr_safe type _ (fun f hf => ?_) ha' hdivisor
          obtain ⟨v, -, hf⟩ := Option.bind_eq_some_iff.1 hf
          exact (Affine.mentioned_sub hf).trans
            (Set.union_subset hremainder' (Affine.mentioned_ofConst _))
      | add | sub | mul | min | max => exact hkept _
  | none =>
      cases op with
      | floorDiv =>
          refine (hkept .floorDiv).bind fun inner => ?_
          split
          · exact safe_pure (Set.singleton_subset_iff.2 (.inr rfl))
          · refine affineOr_safe type _ (fun f hf => ?_) (.inl ha') (.inl hdivisor)
            refine (Affine.mentioned_add hf).trans (Set.union_subset ?_ ?_)
            · exact hquotient'.trans Set.subset_union_left
            · exact Affine.mentioned_atom.trans (Set.singleton_subset_iff.2 (.inr rfl))
      | add | sub | mul | floorMod | min | max => exact hkept _

theorem simplifyDivisionBy_safe (op : Arith) (type : Scalar) (ha : a ∈ E) (hb : b ∈ E) :
    Safe E (simplifyDivisionBy op type a b) := by
  refine context_safe.bind fun ctx => ?_
  split
  · next w _ =>
    split
    · exact simplifyDivision_safe op type w (.inl ha)
    · split
      · apply build_safe (Build.intern_safe _)
        simp [Node.children, ha, hb]
      · exact build_safe (Build.arith_safe op (.inl ha) (.inl hb))
  · exact build_safe (Build.arith_safe op (.inl ha) (.inl hb))

theorem simplifyChoice_safe (op : Arith) (ha : a ∈ E) (hb : b ∈ E) :
    Safe E (simplifyChoice op a b) := by
  have hchoose : ∀ (i : Interval) {lesser greater : ExprId}, lesser ∈ E → greater ∈ E → Safe E (do
      if i.hi ≤ 0 then return lesser
      if 0 ≤ i.lo then return greater
      operator op a b) := by
    intro i lesser greater hlesser hgreater
    split
    · exact safe_pure (Set.singleton_subset_iff.2 hlesser)
    · split
      · exact safe_pure (Set.singleton_subset_iff.2 hgreater)
      · exact operator_safe op ha hb
  refine (difference?_safe ha hb).bind fun diff? => ?_
  cases diff? with
  | none => exact operator_safe op (.inl ha) (.inl hb)
  | some diff =>
      refine (bound_safe diff).some.bind fun sign? => ?_
      cases sign? with
      | none => exact operator_safe op (.inl (.inl ha)) (.inl (.inl hb))
      | some i =>
          refine Safe.weaken (E := E) ?_ fun c hc => .inl (.inl hc)
          by_cases hop : op = .min
          · simp only [hop, if_true]
            exact hop ▸ hchoose i ha hb
          · simp only [hop, if_false]
            exact hchoose i hb ha

theorem simplifyArith_safe (op : Arith) (type : Scalar) (ha : a ∈ E) (hb : b ∈ E) :
    Safe E (simplifyArith op type a b) := by
  cases op with
  | add =>
      refine context_safe.bind fun ctx =>
        affineOr_safe type .add (fun f hf => ?_) (.inl ha) (.inl hb)
      exact (Affine.mentioned_add hf).trans (Set.union_subset
        (Affine.mentioned_ofExpr Set.subset_union_right (.inl ha))
        (Affine.mentioned_ofExpr Set.subset_union_right (.inl hb)))
  | sub =>
      refine context_safe.bind fun ctx =>
        affineOr_safe type .sub (fun f hf => ?_) (.inl ha) (.inl hb)
      exact (Affine.mentioned_sub hf).trans (Set.union_subset
        (Affine.mentioned_ofExpr Set.subset_union_right (.inl ha))
        (Affine.mentioned_ofExpr Set.subset_union_right (.inl hb)))
  | mul => exact simplifyProduct_safe type ha hb
  | floorDiv | floorMod => exact simplifyDivisionBy_safe _ type ha hb
  | min | max => exact simplifyChoice_safe _ ha hb

theorem simplifyCompare_safe (op : Comparison) (ha : a ∈ E) (hb : b ∈ E) :
    Safe E (simplifyCompare op a b) := by
  refine (difference?_safe ha hb).bind fun diff? => ?_
  cases diff? with
  | none => exact build_safe (Build.compare_safe op (.inl ha) (.inl hb))
  | some diff =>
      refine (bound_safe diff).bind fun i => ?_
      dsimp only [pure_bind]
      cases op.decideWithin i with
      | none => exact build_safe (Build.compare_safe op (.inl (.inl ha)) (.inl (.inl hb)))
      | some answer => exact build_safe (Build.boolean_safe answer)

theorem simplifyNegation_safe (ha : a ∈ E) : Safe E (simplifyNegation a) := by
  refine context_safe.bind fun ctx => ?_
  split
  · next op x y hn =>
    exact build_safe (Build.compare_safe op.negate
      (.inr (Build.mem_mentioned_of_child (e := a) (by simp [hn, Node.children])))
      (.inr (Build.mem_mentioned_of_child (e := a) (by simp [hn, Node.children]))))
  · exact build_safe (Build.negation_safe (.inl ha))

theorem remember_safe (e : ExprId) {q : Query ExprId} (hq : Safe E q) :
    Safe E (do
      let r ← q
      recordSimplified e r
      return r) :=
  hq.bind fun _ => (recordSimplified_safe e (.inr rfl)).bind fun _ =>
    safe_pure fun _ hc => .inl (.inr hc)

theorem simplify_safe {e : ExprId} {K : Set ExprId} (he : e ∈ K) : Safe K (simplify e) := by
  rw [simplify]
  refine analyzer_safe.bind fun an => ?_
  split
  · next done hdone =>
    obtain ⟨-, hdone⟩ := Option.ite_none_right_eq_some.1 hdone
    refine safe_pure (Set.singleton_subset_iff.2 (.inr (.inr ?_)))
    exact ⟨e, done, hdone, rfl⟩
  refine context_safe.bind fun ctx => ?_
  have hchild : ∀ {c}, c ∈ (ctx.node e).children → c ∈ K ∪ mentioned an ∪ mentioned ctx :=
    fun hc => .inr (Build.mem_mentioned_of_child hc)
  dsimp only
  split
  case h_1 | h_2 => exact remember_safe e (safe_pure (Set.singleton_subset_iff.2 (.inl (.inl he))))
  case h_3 op a b hn =>
    have hma : a ∈ (ctx.node e).children := by simp [hn, Node.children]
    have hmb : b ∈ (ctx.node e).children := by simp [hn, Node.children]
    exact (simplify_safe (hchild hma)).bind fun _ => (simplify_safe (.inl (hchild hmb))).bind
      fun _ => remember_safe e (simplifyArith_safe op _ (.inl (.inr rfl)) (.inr rfl))
  case h_4 op a b hn =>
    have hma : a ∈ (ctx.node e).children := by simp [hn, Node.children]
    have hmb : b ∈ (ctx.node e).children := by simp [hn, Node.children]
    exact (simplify_safe (hchild hma)).bind fun _ => (simplify_safe (.inl (hchild hmb))).bind
      fun _ => remember_safe e (simplifyCompare_safe op (.inl (.inr rfl)) (.inr rfl))
  case h_5 a b hn =>
    have hma : a ∈ (ctx.node e).children := by simp [hn, Node.children]
    have hmb : b ∈ (ctx.node e).children := by simp [hn, Node.children]
    exact (simplify_safe (hchild hma)).bind fun _ => (simplify_safe (.inl (hchild hmb))).bind
      fun _ => remember_safe e (build_safe (Build.conj_safe (.inl (.inr rfl)) (.inr rfl)))
  case h_6 a b hn =>
    have hma : a ∈ (ctx.node e).children := by simp [hn, Node.children]
    have hmb : b ∈ (ctx.node e).children := by simp [hn, Node.children]
    exact (simplify_safe (hchild hma)).bind fun _ => (simplify_safe (.inl (hchild hmb))).bind
      fun _ => remember_safe e (build_safe (Build.disj_safe (.inl (.inr rfl)) (.inr rfl)))
  case h_7 a hn =>
    have hma : a ∈ (ctx.node e).children := by simp [hn, Node.children]
    exact (simplify_safe (hchild hma)).bind
      fun _ => remember_safe e (simplifyNegation_safe (.inr rfl))
  case h_8 f args dims hn =>
    have hargs : ∀ a ∈ args, a ∈ (ctx.node e).children := fun a ha => by
      rwa [hn]
    refine (safe_mapM fun a _ => simplify_safe (hchild (hargs a.1 a.2))).bind fun args' => ?_
    exact remember_safe e (build_safe (Build.intern_safe fun a ha => .inr ⟨a, ha, rfl⟩))
termination_by e.index
decreasing_by all_goals (apply ctx.child_lt; first | assumption | exact hargs a.1 a.2)

theorem provesWithin_safe (rounds : Nat) (he : e ∈ E) : Safe E (provesWithin rounds e) := by
  induction rounds generalizing e E with
  | zero => exact safe_pure (Set.empty_subset _)
  | succ rounds ih =>
      rw [provesWithin]
      refine analyzer_safe.bind fun an => ?_
      split
      · exact safe_pure (Set.empty_subset _)
      refine (simplify_safe (.inl he)).bind fun r => context_safe.bind fun ctx => ?_
      have hanswer : ∀ {K : Set ExprId} (answer : Bool), Safe K (do
          recordProved e answer
          return answer) :=
        fun answer => (recordProved_safe e answer).bind fun _ => safe_pure (Set.empty_subset _)
      have hchild : ∀ {c}, c ∈ (ctx.node r).children →
          c ∈ E ∪ mentioned an ∪ mentioned r ∪ mentioned ctx :=
        fun hc => .inr (Build.mem_mentioned_of_child hc)
      split
      · exact hanswer _
      · next a b hn =>
        have hma : a ∈ (ctx.node r).children := by simp [hn, Node.children]
        have hmb : b ∈ (ctx.node r).children := by simp [hn, Node.children]
        refine (ih (hchild hma)).bind fun first => ?_
        split
        · exact (ih (.inl (hchild hmb))).bind fun answer => hanswer answer
        · exact hanswer false
      · exact hanswer false

theorem proves_safe (he : e ∈ E) : Safe E (proves e) := provesWithin_safe _ he

theorem provesEqual_safe (ha : a ∈ E) (hb : b ∈ E) : Safe E (provesEqual a b) := by
  unfold provesEqual
  split
  · exact safe_pure (Set.empty_subset _)
  · exact (build_safe (Build.arith_safe .sub ha hb)).bind fun _ => (simplify_safe (.inr rfl)).bind
      fun _ => context_safe.bind fun _ => safe_pure (Set.empty_subset _)

end Query

end LoopBounds
