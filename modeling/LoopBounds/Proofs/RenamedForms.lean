import LoopBounds.Proofs.Evaluation
import LoopBounds.Proofs.Renaming

/-!
# Renamed expressions

A renamed expression has the parts of the expression, renamed, and it evaluates to the same word
where the variables that it mentions have the values of those they stand for.  Parameters are such
variables in a body.  Each has the value that is given for its dimension.
-/

namespace LoopBounds

theorem getElem_mem_zip {α β : Type} {xs : List α} {ys : List β} {i : Nat} (hi : i < xs.length)
    (hi' : i < ys.length) : (xs[i], ys[i]) ∈ xs.zip ys := by
  rw [← List.getElem_zip (h := by simp [hi, hi'])]
  exact List.getElem_mem _

/-! ## Renamed expressions -/

namespace Context

variable {ctx : Context} {R S : VarId → VarId → Prop} {a b c : ExprId} {v : VarId}

theorem Renames.symm (h : ctx.Renames R a b) : ctx.Renames (Function.swap R) b a := by
  induction h with
  | var ha hb h => exact .var hb ha h
  | @node a b operands hvar hlen hb _ ih =>
      have hchildren := Node.children_withChildren hlen
      have hback := hb ▸ (Node.withChildren_withChildren hlen).symm
      refine .node (fun v hv => ?_) ?_ hback fun p hp => ?_
      · rw [hb, Node.withChildren_eq_var] at hv
        exact hvar v hv
      · rw [hb, hchildren, hlen]
      · rw [hb, hchildren, ← List.zip_swap] at hp
        obtain ⟨q, hq, rfl⟩ := List.mem_map.1 hp
        exact ih q hq

/-- An expression has at most one renamed form. -/
theorem Renames.unique (hR : ∀ v w w', R v w → R v w' → w = w') (h : ctx.Renames R a b)
    (hb : ctx.Stored b) (hc : ctx.Stored c) (h' : ctx.Renames R a c) : b = c := by
  induction h generalizing c with
  | var ha hnb h =>
      cases h' with
      | var ha' hnc h' =>
          cases ha.symm.trans ha'
          obtain rfl := hR _ _ _ h h'
          exact eq_of_node_eq hb hc (hnb.trans hnc.symm)
      | node hvar => exact absurd ha (hvar _)
  | @node a b operands hvar hlen hnb _ ih =>
      cases h' with
      | var ha => exact absurd ha (hvar _)
      | @node _ _ operands' _ hlen' hnc h' =>
          apply eq_of_node_eq hb hc
          rw [hnb, hnc]
          congr 1
          apply List.ext_getElem (hlen.trans hlen'.symm)
          intro i hi hi'
          have hia : i < (ctx.node a).children.length := hlen ▸ hi
          have hstored : ∀ {e : ExprId} {es : List ExprId}, ctx.Stored e →
              ctx.node e = (ctx.node a).withChildren es →
              es.length = (ctx.node a).children.length → ∀ x ∈ es, ctx.Stored x := by
            intro e es he hn hlen x hx
            apply he.child
            rwa [hn, Node.children_withChildren hlen]
          exact ih _ (getElem_mem_zip hia hi) (hstored hb hnb hlen _ (List.getElem_mem hi))
            (hstored hc hnc hlen' _ (List.getElem_mem hi')) (h' _ (getElem_mem_zip hia hi'))

/-- What an expression is made of, renamed, is what the renamed expression is made of. -/
theorem Renames.within (h : ctx.Renames R a b) (hc : ctx.Within a c) :
    ∃ d, ctx.Within b d ∧ ctx.Renames R c d := by
  induction hc with
  | self => exact ⟨b, .self, h⟩
  | @child c d _ hd ih =>
      obtain ⟨e, he, hce⟩ := ih
      cases hce with
      | var hn => rw [hn] at hd; cases hd
      | @node _ _ operands _ hlen hn hoperands =>
          obtain ⟨i, hi, rfl⟩ := List.mem_iff_getElem.1 hd
          have hi' : i < operands.length := hlen ▸ hi
          refine ⟨operands[i], .child he ?_, hoperands _ (getElem_mem_zip hi hi')⟩
          rw [hn, Node.children_withChildren hlen]
          exact List.getElem_mem hi'

theorem Renames.exists_mem_freeVars (h : ctx.Renames R a b) (hv : v ∈ ctx.freeVars a) :
    ∃ w ∈ ctx.freeVars b, R v w := by
  obtain ⟨c, hc, hn⟩ := mem_freeVars.1 hv
  obtain ⟨d, hd, hcd⟩ := h.within hc
  cases hcd with
  | @var _ _ v' w hn' hnd hR =>
      cases hn.symm.trans hn'
      exact ⟨w, mem_freeVars.2 ⟨d, hd, hnd⟩, hR⟩
  | node hvar => exact absurd hn (hvar v)

/-- A renamed expression evaluates as before where variables have the values of those that they
stand for. -/
theorem Renames.evalWithin_eq {n : Nat} {env env' : Env Int64}
    (henv : ∀ v w, R v w → env' w = env v) (h : ctx.Renames R a b) :
    ctx.evalWithin n env' b = ctx.evalWithin n env a := by
  induction h with
  | var ha hb h => rw [eval_var ha, eval_var hb, henv _ _ h]
  | @node a b operands hvar hlen hb _ ih =>
      have h : List.Forall₂ (fun c d => ctx.evalWithin n env' d = ctx.evalWithin n env c)
          (ctx.node a).children operands :=
        List.forall₂_iff_zip.2 ⟨hlen.symm, fun hmem => ih _ hmem⟩
      cases hn : ctx.node a <;> rw [hn] at h hb
      case const w t => rw [eval_const hn, eval_const hb]
      case var v => exact absurd hn (hvar v)
      case arith op c d =>
        obtain ⟨c', d', hc, hd, rfl⟩ := forall₂_pair h
        rw [eval_arith hn, eval_arith hb, hc, hd]
      case compare op c d =>
        obtain ⟨c', d', hc, hd, rfl⟩ := forall₂_pair h
        rw [eval_compare hn, eval_compare hb, hc, hd]
      case and c d =>
        obtain ⟨c', d', hc, hd, rfl⟩ := forall₂_pair h
        rw [eval_and hn, eval_and hb, hc, hd]
      case or c d =>
        obtain ⟨c', d', hc, hd, rfl⟩ := forall₂_pair h
        rw [eval_or hn, eval_or hb, hc, hd]
      case not c =>
        obtain ⟨c', rest, hc, hrest, rfl⟩ := List.forall₂_cons_left_iff.1 h
        obtain rfl := List.forall₂_nil_left_iff.1 hrest
        rw [eval_not hn, eval_not hb, hc]
      case call f args dims =>
        have hargs : (fun d => (argument? operands dims d).bind (ctx.evalWithin n env')) =
            fun d => (argument? args dims d).bind (ctx.evalWithin n env) := by
          funext d
          rw [argument?, argument?]
          cases dims.idxOf? d with
          | none => rfl
          | some i =>
              by_cases hlt : i < args.length
              · have hlt' : i < operands.length := h.length_eq ▸ hlt
                simpa [hlt, hlt', Node.children] using h.get hlt hlt'
              · have hlt' : ¬ i < operands.length := h.length_eq ▸ hlt
                simp [hlt, hlt']
        rw [eval_call hn, eval_call hb, hargs]

end Context

/-! ## Parameters -/

/-- The dimension that a parameter stands for. -/
def IndexFun.dimOf? (f : IndexFun) (v : VarId) : Option DimId :=
  (f.paramIndex? v).bind (f.dims[·]?)

namespace IndexFun

variable {α : Type} {f g : IndexFun} {k : DimId → Option α} {env : Env α} {v : VarId}

theorem dimOf?_eq_some (hf : f.params.Nodup) {d : DimId} :
    f.dimOf? v = some d ↔ (v, d) ∈ f.signature := by
  rw [dimOf?, Option.bind_eq_some_iff]
  constructor
  · rintro ⟨i, hi, hd⟩
    have hv := Renaming.getElem?_of_paramIndex? hi
    exact List.mem_of_getElem? (List.getElem?_zip_eq_some.2 ⟨hv, hd⟩)
  · intro hmem
    obtain ⟨i, hi⟩ := Option.isSome_iff_exists.1 (List.isSome_idxOf?.2 (List.of_mem_zip hmem).1)
    have hcount := List.nodup_iff_count_le_one.1 hf v
    exact ⟨i, hi, Renaming.dim_eq_of_mem_signature hcount hi hmem⟩

/-- A parameter has the meaning of its dimension, and no other variable has one. -/
theorem bindParams_apply (hf : f.params.Nodup) (h : f.bindParams k = some env) (v : VarId) :
    env v = (f.dimOf? v).bind k := by
  cases hx : env v with
  | some x =>
      obtain ⟨d, hd, hk⟩ := mem_signature_of_bindParams h hx
      rw [(dimOf?_eq_some hf).2 hd, Option.bind_some, hk]
  | none =>
      cases hd : f.dimOf? v with
      | none => rfl
      | some d =>
          obtain ⟨x, hx'⟩ := bound_of_bindParams h ((dimOf?_eq_some hf).1 hd)
          exact absurd (hx.symm.trans hx') nofun

theorem bindParams_eq_none (h : f.bindParams k = some env) (hv : v ∉ f.params) : env v = none := by
  by_contra hne
  obtain ⟨x, hx⟩ := Option.ne_none_iff_exists'.1 hne
  obtain ⟨d, hd, -⟩ := mem_signature_of_bindParams h hx
  exact hv (List.of_mem_zip hd).1

theorem exists_bindParams (h : ∀ pd ∈ f.signature, ∃ x, k pd.2 = some x) :
    ∃ env, f.bindParams k = some env := by
  suffices key : ∀ (sig : List (VarId × DimId)) (env₀ : Env α),
      (∀ pd ∈ sig, ∃ x, k pd.2 = some x) →
      ∃ env, sig.foldlM (fun env pd => do return env.set pd.1 (← k pd.2)) env₀ = some env from
    key f.signature Env.empty h
  intro sig
  induction sig with
  | nil => exact fun env₀ _ => ⟨env₀, rfl⟩
  | cons pd sig ih =>
      intro env₀ h
      obtain ⟨x, hx⟩ := h pd List.mem_cons_self
      rw [List.foldlM_cons, hx]
      exact ih (env₀.set pd.1 x) fun q hq => h q (List.mem_cons_of_mem _ hq)

end IndexFun

end LoopBounds
