import LoopBounds.Inference.Guards
import LoopBounds.Proofs.Domains

/-!
# Soundness of guards

A guard has the truth value of the check that it stands for.  A check that gets no guard holds at
every point of the loops: either the parts of the axis stay within their domains and tile it, or
the values of its index over the loops stay below the extent.
-/

namespace LoopBounds

/-- The guards have truth values.  All are true if `P` holds, and if all are true then `Q` does. -/
structure Valuation.Enforces (ν : Valuation) (gs : List ExprId) (P Q : Prop) : Prop where
  bits : ∀ g ∈ gs, ∃ q : Bool, ν.value g = some q.toInt
  complete : P → ∀ g ∈ gs, ν.value g = some 1
  sound : (∀ g ∈ gs, ν.value g = some 1) → Q

namespace Context

variable {ctx ctx' : Context} {ν : Valuation} {gs hs : List ExprId} {P P' Q Q' : Prop}

/-- The guards call nothing, and later they enforce the check. -/
structure Enforces (ctx : Context) (ν : Valuation) (gs : List ExprId) (P Q : Prop) : Prop where
  nodes : ∀ g ∈ gs, ctx.Over .callFree g
  holds : ctx ≤ ν.ctx → ν.Enforces gs P Q

theorem Enforces.mono (hctx : ctx ≤ ctx') (h : ctx.Enforces ν gs P Q) :
    ctx'.Enforces ν gs P Q :=
  ⟨fun g hg => (h.nodes g hg).mono hctx, fun hν => h.holds (hctx.trans hν)⟩

theorem Enforces.of_imp (h : ctx.Enforces ν gs P Q) (hP : P' → P) (hQ : Q → Q') :
    ctx.Enforces ν gs P' Q' :=
  ⟨h.nodes, fun hν => ⟨(h.holds hν).bits, fun hP' => (h.holds hν).complete (hP hP'),
    fun hall => hQ ((h.holds hν).sound hall)⟩⟩

theorem enforces_nil (h : ctx ≤ ν.ctx → Q) : ctx.Enforces ν [] P Q :=
  ⟨nofun, fun hν => ⟨nofun, fun _ => nofun, fun _ => h hν⟩⟩

theorem Enforces.append (hgs : ctx.Enforces ν gs P Q) (hhs : ctx.Enforces ν hs P' Q') :
    ctx.Enforces ν (gs ++ hs) (P ∧ P') (Q ∧ Q') := by
  refine ⟨List.forall_mem_append.2 ⟨hgs.nodes, hhs.nodes⟩, fun hν => ?_⟩
  have hleft := hgs.holds hν
  have hright := hhs.holds hν
  refine ⟨List.forall_mem_append.2 ⟨hleft.bits, hright.bits⟩, fun hP =>
    List.forall_mem_append.2 ⟨hleft.complete hP.1, hright.complete hP.2⟩, fun hall => ?_⟩
  obtain ⟨hl, hr⟩ := List.forall_mem_append.1 hall
  exact ⟨hleft.sound hl, hright.sound hr⟩

theorem enforces_flatten {P Q : AxisId → Prop} {xs : List AxisId} {gss : List (List ExprId)}
    (h : List.Forall₂ (fun a gs => ctx.Enforces ν gs (P a) (Q a)) xs gss) :
    ctx.Enforces ν gss.flatten (∀ a ∈ xs, P a) (∀ a ∈ xs, Q a) := by
  induction h with
  | nil => exact enforces_nil fun _ => nofun
  | cons hgs _ ih =>
      rw [List.flatten_cons]
      refine (hgs.append ih).of_imp List.forall_mem_cons.1 List.forall_mem_cons.2

/-- The guard of a comparison. -/
theorem enforces_compare {op : Comparison} {g x y : ExprId} {m k : Int}
    (hg : ctx.Denotes .callFree g fun κ w =>
      ∃ u v, κ.value x = some u ∧ κ.value y = some v ∧ (op.exact u v).toInt = w)
    (hx : ctx ≤ ν.ctx → ν.value x = some m) (hy : ctx ≤ ν.ctx → ν.value y = some k)
    (hP : P → op.exact m k = true) (hQ : op.exact m k = true → Q) : ctx.Enforces ν [g] P Q := by
  refine ⟨by simpa using hg.nodes, fun hν => ?_⟩
  have hvalue := hg.value ν hν _ ⟨m, k, hx hν, hy hν, rfl⟩
  refine ⟨List.forall_mem_singleton.2 ⟨_, hvalue⟩, fun hp => ?_, fun hall => hQ ?_⟩
  · rw [hP hp] at hvalue
    simpa using hvalue
  · rw [List.forall_mem_singleton, hvalue] at hall
    cases hop : op.exact m k with
    | true => rfl
    | false => simp [hop] at hall

end Context

namespace Sweep

variable {ctx : Context} {s : Session} {ν μ : Valuation} {b : Box} {known : Facts .axis Domain}
  {t : Checks}

/-! ## Marks -/

/-- Unmarked axes stay within their domains if the leaves do. -/
def UnmarkedStay (ν : Valuation) (nest : LoopNest) (b : Box) (t : Checks) (ctx : Context) : Prop :=
  ctx ≤ ν.ctx → ∀ x, nest.Solves b x → (∀ a ∈ nest.leaves, b.Contains x a) →
    ∀ a : AxisId, t[a]? = some false → b.Contains x a

theorem UnmarkedStay.mono {nest : LoopNest} {ctx ctx' : Context} (hctx : ctx ≤ ctx')
    (h : UnmarkedStay ν nest b t ctx) : UnmarkedStay ν nest b t ctx' :=
  fun hν => h (hctx.trans hν)

theorem UnmarkedStay.insert {nest : LoopNest} {ctx : Context} {a : AxisId} {check : Bool}
    (h : UnmarkedStay ν nest b t ctx)
    (ha : ctx ≤ ν.ctx → check = false → ∀ x, nest.Solves b x →
      (∀ a ∈ nest.leaves, b.Contains x a) → b.Contains x a) :
    UnmarkedStay ν nest b (t.insert a check) ctx := by
  intro hν x hsolves hleaves c hc
  rcases Handle.getElem?_insert_eq_some.1 hc with ⟨rfl, hcheck⟩ | ⟨-, hc⟩
  exacts [ha hν hcheck.symm x hsolves hleaves, h hν x hsolves hleaves c hc]

/-- The mark of a split axis. -/
theorem splitCheck_ensures {nest : LoopNest} {parent outer inner : AxisId} {size : SplitBy}
    (hs : s.Valid) (hadmits : ν.Admits s.domains) (hb : b.Measures ν known s.ctx)
    (h : UnmarkedStay ν nest b t s.ctx)
    (hcontains : ∀ x, nest.Solves b x → b.extent parent = b.extent outer * b.extent inner →
      b.Contains x outer → b.Contains x inner → b.Contains x parent) :
    Ensures ∅ (relationChecks known (.reshape (.split parent outer inner size))) t s
      fun _ t' s' => UnmarkedStay ν nest b t' s'.ctx ∧ ∀ a, a ∈ t' ↔ a = parent ∨ a ∈ t := by
  refine .table (.fetch hs fun outerCheck houter => ?_)
  refine .table (.fetch hs fun innerCheck hinner => ?_)
  have hmark : ∀ check s', s'.Valid → s.ctx.Grows s'.ctx →
      (s'.ctx ≤ ν.ctx → check = false → outerCheck = false ∧ innerCheck = false ∧
        b.extent parent = b.extent inner * b.extent outer) →
      Ensures ∅ (changeTable (·.insert parent check)) t s' fun _ t' s' =>
        UnmarkedStay ν nest b t' s'.ctx ∧ ∀ a, a ∈ t' ↔ a = parent ∨ a ∈ t := by
    intro check s' hs' hg hcheck
    refine .changeTable hs' ⟨(h.mono hg.le).insert fun hν hfalse x hsolves hleaves => ?_,
      fun a => ?_⟩
    · obtain ⟨rfl, rfl, hexact⟩ := hcheck hν hfalse
      have hν₀ := hg.le.trans hν
      exact hcontains x hsolves (hexact.trans (Int.mul_comm ..))
        (h hν₀ x hsolves hleaves outer houter) (h hν₀ x hsolves hleaves inner hinner)
    · rw [Std.TreeMap.mem_insert, Std.compare_eq_iff_eq, eq_comm]
  dsimp only
  split
  · exact hmark true s hs (.refl _) fun _ => nofun
  next hparts =>
  rw [Bool.or_eq_true, not_or, Bool.not_eq_true, Bool.not_eq_true] at hparts
  split
  · next parentDomain outerDomain innerDomain hp ho hi =>
    have hpe := hb.extent parent _ hp
    have hoe := hb.extent outer _ ho
    have hie := hb.extent inner _ hi
    refine .build hs (Build.mul_denotes hie.nodes hoe.nodes) fun tiled s₁ hs₁ hg₁ hd₁ ht => ?_
    refine .build hs₁ (Build.compare_denotes .eq (hpe.nodes.mono hg₁.le) ht.nodes)
      fun exact s₂ hs₂ hg₂ hd₂ he => ?_
    refine .query (Query.proves_ensures hs₂ he.stored) fun answer s₃ hs₃ hg₃ hd₃ ha => ?_
    refine hmark (!answer) s₃ hs₃ (hg₁.trans (hg₂.trans hg₃)) fun hν hcheck =>
      ⟨hparts.1, hparts.2, ?_⟩
    rw [Bool.not_eq_false'] at hcheck
    have hν₂ := hg₃.le.trans hν
    have hν₁ := hg₂.le.trans hν₂
    have hν₀ := hg₁.le.trans hν₁
    have hprod := ht.value ν hν₁ _
      ⟨_, _, hie.value ν hν₀ _ ⟨rfl, rfl⟩, hoe.value ν hν₀ _ ⟨rfl, rfl⟩, rfl⟩
    have hcond := he.value ν hν₂ _ ⟨_, _, hpe.value ν hν₀ _ ⟨rfl, rfl⟩, hprod, rfl⟩
    have hne := ha hcheck ν hν (hd₂ ▸ hd₁ ▸ hadmits) _ hcond
    by_contra hdiff
    exact hne (by simp [Comparison.exact, hdiff])
  · exact hmark true s hs (.refl _) fun _ => nofun

theorem relationChecks_ensures {nest : LoopNest} {r : AxisRelation} (hs : s.Valid)
    (hadmits : ν.Admits s.domains) (hb : b.Measures ν known s.ctx) (hr : r ∈ nest.relations)
    (hcovers : r.Covers b) (h : UnmarkedStay ν nest b t s.ctx) :
    Ensures ∅ (relationChecks known r) t s fun _ t' s' => UnmarkedStay ν nest b t' s'.ctx ∧
      ∀ a, a ∈ t' ↔ a ∈ r.consumed ∨ a ∈ t := by
  have hcontains : ∀ x, nest.Solves b x → r.Exact b → (∀ a ∈ r.made, b.Contains x a) →
      ∀ a ∈ r.consumed, b.Contains x a :=
    fun x hsolves hexact => (hsolves r hr).contains hcovers hexact
  rcases r with (⟨parent, outer, inner, size⟩ | ⟨outer, inner, fused⟩) | ⟨parent, rebased⟩ | a
  · simp only [AxisRelation.consumed, AxisRelation.made, List.mem_cons, List.not_mem_nil, or_false,
      forall_eq_or_imp, forall_eq] at hcontains ⊢
    exact splitCheck_ensures hs hadmits hb h
      fun x hsolves hexact ho hi => hcontains x hsolves hexact ⟨ho, hi⟩
  · refine .table (.fetch hs fun check hfused => ?_)
    have hpart : s.ctx ≤ ν.ctx → check = false → ∀ x, nest.Solves b x →
        (∀ a ∈ nest.leaves, b.Contains x a) → ∀ a ∈ [outer, inner], b.Contains x a := by
      rintro hν rfl x hsolves hleaves
      refine hcontains x hsolves trivial fun a ha => ?_
      rw [AxisRelation.made, List.mem_singleton] at ha
      exact ha ▸ h hν x hsolves hleaves fused hfused
    refine .changeTable hs ⟨(h.insert fun hν hcheck x hsolves hleaves => ?_).insert
      fun hν hcheck x hsolves hleaves => ?_, fun a => ?_⟩
    · exact hpart hν hcheck x hsolves hleaves outer (by simp)
    · exact hpart hν hcheck x hsolves hleaves inner (by simp)
    · simp only [Std.TreeMap.mem_insert, Std.compare_eq_iff_eq, AxisRelation.consumed,
        List.mem_cons, List.not_mem_nil, or_false, eq_comm (b := a)]
      tauto
  · refine .table (.fetch hs fun check hrebased => ?_)
    refine .changeTable hs ⟨h.insert fun hν hcheck x hsolves hleaves => ?_, fun a => ?_⟩
    · refine hcontains x hsolves trivial (fun a ha => ?_) parent (by simp [AxisRelation.consumed])
      rw [AxisRelation.made, List.mem_singleton] at ha
      exact ha ▸ h hν x hsolves hleaves rebased (hcheck ▸ hrebased)
    · rw [Std.TreeMap.mem_insert, Std.compare_eq_iff_eq, AxisRelation.consumed,
        List.mem_singleton, eq_comm]
  · exact .pure hs ⟨h, fun a => by simp [AxisRelation.consumed]⟩

/-- Every axis is marked or not, and those that are not stay within their domains if the leaves
do. -/
theorem checksUp_ensures {nest : LoopNest} (hs : s.Valid) (hnest : LoopNest.Shaped ctx nest)
    (hadmits : ν.Admits s.domains) (hb : b.Measures ν known s.ctx) (hcovers : nest.Covers b)
    (hleaves : ∀ a, a ∈ t ↔ a ∈ nest.leaves) (h : UnmarkedStay ν nest b t s.ctx) :
    Ensures ∅ (checksUp nest known) t s fun _ t' s' => UnmarkedStay ν nest b t' s'.ctx ∧
      ∀ a ∈ nest.axes, a ∈ t' := by
  refine (forM_ensures (fun done t' s' => s'.domains = s.domains ∧ s.ctx.Grows s'.ctx ∧
    UnmarkedStay ν nest b t' s'.ctx ∧
      ∀ a, a ∈ t' ↔ a ∈ nest.leaves ∨ a ∈ done.flatMap AxisRelation.consumed) hs
    ⟨rfl, .refl _, h, fun a => by simp [hleaves]⟩ ?_).mono ?_
  · rintro done r rest t₁ s₁ hsplit hs₁ ⟨hd₁, hg₁, h₁, hmem₁⟩
    have hr : r ∈ nest.relations :=
      List.mem_reverse.1 (hsplit ▸ List.mem_append_right _ List.mem_cons_self)
    have hb₁ := hb.mono hg₁.le
    refine (relationChecks_ensures hs₁ (hd₁ ▸ hadmits) hb₁ hr (hcovers r hr) h₁).mono ?_
    rintro - t₂ s₂ - hg₂ hd₂ ⟨h₂, hmem₂⟩
    refine ⟨(domains_eq_of_frame hd₂).trans hd₁, hg₁.trans hg₂, h₂, fun a => ?_⟩
    rw [hmem₂, hmem₁, List.flatMap_append, List.mem_append, List.flatMap_singleton]
    tauto
  · rintro - t' s' - - - ⟨-, -, h', hmem'⟩
    refine ⟨h', fun a ha => (hmem' a).2 ?_⟩
    rw [← hnest.perm.mem_iff, List.mem_append, List.mem_flatMap] at ha
    refine ha.imp_right fun ⟨r, hr, ha⟩ => List.mem_flatMap.2 ⟨r, List.mem_reverse.2 hr, ha⟩

theorem mem_leafChecks {leaves : List AxisId} {a : AxisId} {checks : Checks} :
    a ∈ leaves.foldl (fun checks a => checks.insert a false) checks ↔ a ∈ leaves ∨ a ∈ checks := by
  induction leaves generalizing checks with
  | nil => simp
  | cons leaf leaves ih =>
      rw [List.foldl_cons, ih, Std.TreeMap.mem_insert, Std.compare_eq_iff_eq, List.mem_cons,
        eq_comm (a := leaf)]
      tauto

/-! ## Ranges of the loop variables -/

/-- The analyzer and the sets know of domains in the table only. -/
structure Ranges (known : Facts .axis Domain) (sets : Env ValueSet) (s : Session) : Prop where
  sets : ∀ v set, sets v = some set → ∃ (a : AxisId) (d : Domain), known[a]? = some d ∧
    v = s.ctx.axisVar a ∧ s.ctx.Encloses set fun ν z => ν.InDomain d z
  domains : ∀ v d, s.domains v = some d → ∃ a : AxisId, known[a]? = some d ∧ v = s.ctx.axisVar a

theorem Ranges.mono {sets : Env ValueSet} {s' : Session} (hg : s.ctx.Grows s'.ctx)
    (hd : s'.domains = s.domains) (h : Ranges known sets s) : Ranges known sets s' := by
  refine ⟨fun v set hset => ?_, fun v d hvd => ?_⟩
  · obtain ⟨a, d, hknown, hv, hencloses⟩ := h.sets v set hset
    exact ⟨a, d, hknown, hv.trans (hg.axisVar_eq a).symm, hencloses.mono hg.le⟩
  · obtain ⟨a, hknown, hv⟩ := h.domains v d (hd ▸ hvd)
    exact ⟨a, hknown, hv.trans (hg.axisVar_eq a).symm⟩

theorem enterDomain_ensures {sets : Env ValueSet} {a : AxisId} {d : Domain} (hs : s.Valid)
    (hstored : s.ctx.StoredDomain d) (hknown : known[a]? = some d) (h : Ranges known sets s) :
    Ensures .univ (enterDomain sets (a, d)) t s fun sets' t' s' =>
      t' = t ∧ Ranges known sets' s' := by
  refine .context ?_
  refine .build hs (ValueSet.ofDomain_encloses hstored) fun set s₁ hs₁ hg₁ hd₁ hset => ?_
  refine (Ensures.learn hs₁ (hstored.mono hg₁.le) (Set.mem_univ _)).bind ?_
  rintro _ t₂ s₂ hs₂ - - ⟨rfl, hctx, hdomains⟩
  have h₁ := h.mono hg₁ hd₁
  refine .pure hs₂ ⟨rfl, fun v set' hset' => ?_, fun v d' hd' => ?_⟩
  · rw [hctx]
    by_cases hv : v = s.ctx.axisVar a
    · subst hv
      rw [Env.set_self, Option.some_inj] at hset'
      exact ⟨a, d, hknown, (hg₁.axisVar_eq a).symm, hset' ▸ hset⟩
    · rw [Env.set_of_ne _ _ hv] at hset'
      exact h₁.sets v set' hset'
  · rw [hctx]
    rw [hdomains] at hd'
    split at hd'
    · next hv =>
      cases hd'
      exact ⟨a, hknown, hv.trans (hg₁.axisVar_eq a).symm⟩
    · exact h₁.domains v d' hd'

theorem enterDomains_ensures (hs : s.Valid) (hstored : s.ctx.StoredDomains known)
    (hempty : s.domains = Env.empty) :
    Ensures .univ (known.toList.foldlM enterDomain Env.empty) t s fun sets t' s' =>
      t' = t ∧ Ranges known sets s' := by
  suffices key : ∀ (entries : List (AxisId × Domain)) sets t' s',
      (∀ p ∈ entries, p ∈ known.toList) → s'.Valid →
      s.ctx.Grows s'.ctx → t' = t → Ranges known sets s' →
        Ensures .univ (entries.foldlM enterDomain sets) t' s' fun sets t' s' =>
          t' = t ∧ Ranges known sets s' from
    key _ _ t s (fun _ => id) hs (.refl _) rfl
      ⟨by simp [Env.empty], by simp [hempty, Env.empty]⟩
  intro entries
  induction entries with
  | nil => exact fun sets t' s' _ hs' _ ht h => .pure hs' ⟨ht, h⟩
  | cons entry entries ih =>
      obtain ⟨a, d⟩ := entry
      intro sets t' s' hmem hs' hg ht h
      have hknown : known[a]? = some d :=
        Std.TreeMap.mem_toList_iff_getElem?_eq_some.1 (hmem _ List.mem_cons_self)
      rw [List.foldlM_cons]
      refine (enterDomain_ensures hs' ((hstored a d hknown).mono hg.le) hknown h).bind ?_
      rintro sets₁ t₁ s₁ hs₁ hg₁ - ⟨rfl, h₁⟩
      exact ih sets₁ _ s₁ (fun p hp => hmem p (List.mem_cons_of_mem _ hp)) hs₁ (hg.trans hg₁) ht h₁

/-! ## Single guards -/

section Single

variable {offset extent : ExprId} {hi? lo? : Option ExprId} {z n : Int} {G : Prop}

theorem provesBelow_ensures (hs : s.Valid) (hadmits : s.ctx ≤ μ.ctx → μ.Admits s.domains)
    (hextent : s.ctx.Denotes .callFree extent (μ.Only n))
    (hhi : s.ctx.Delimits (· ≥ ·) hi? fun κ w => G ∧ κ = μ ∧ w = z) :
    Ensures ∅ (provesBelow hi? extent) t s fun answer t' s' => t' = t ∧
      s'.domains = s.domains ∧ (answer = true → s'.ctx ≤ μ.ctx → G → z < n) := by
  cases hi? with
  | none => exact .pure hs ⟨rfl, rfl, nofun⟩
  | some hi =>
      obtain ⟨hstored, hvalue⟩ := hhi hi rfl
      refine (Ensures.ofQuery (Query.provesCompare_ensures .lt hs hstored hextent.stored)).mono ?_
      rintro answer t' s' - hg - ⟨ht, hd, hanswer⟩
      refine ⟨ht, hd, fun hyes hμ hG => ?_⟩
      have hμ₀ := hg.le.trans hμ
      obtain ⟨h, hh, hle⟩ := hvalue μ hμ₀ z ⟨hG, rfl, rfl⟩
      have hlt : h < n := by
        simpa [Comparison.exact] using
          hanswer hyes μ hμ (hadmits hμ₀) h n hh (hextent.value μ hμ₀ n ⟨rfl, rfl⟩)
      exact lt_of_le_of_lt hle hlt

theorem provesNonNegative_ensures (hs : s.Valid) (hadmits : s.ctx ≤ μ.ctx → μ.Admits s.domains)
    (hlo : s.ctx.Delimits (· ≤ ·) lo? fun κ w => G ∧ κ = μ ∧ w = z) :
    Ensures ∅ (provesNonNegative lo?) t s fun answer t' s' => t' = t ∧
      s'.domains = s.domains ∧ (answer = true → s'.ctx ≤ μ.ctx → G → 0 ≤ z) := by
  cases lo? with
  | none => exact .pure hs ⟨rfl, rfl, nofun⟩
  | some lo =>
      obtain ⟨hstored, hvalue⟩ := hlo lo rfl
      refine .build hs (Build.constantLike_denotes s.ctx .all 0 lo)
        fun zero s₁ hs₁ hg₁ hd₁ hzero => ?_
      refine (Ensures.ofQuery (Query.provesCompare_ensures .ge hs₁ (hstored.mono hg₁.le)
        hzero.stored)).mono ?_
      rintro answer t' s' - hg - ⟨ht, hd, hanswer⟩
      refine ⟨ht, hd.trans hd₁, fun hyes hμ hG => ?_⟩
      have hμ₁ := hg.le.trans hμ
      have hμ₀ := hg₁.le.trans hμ₁
      obtain ⟨l, hl, hle⟩ := hvalue μ hμ₀ z ⟨hG, rfl, rfl⟩
      have hnonneg : 0 ≤ l := by
        simpa [Comparison.exact] using
          hanswer hyes μ hμ (hd₁ ▸ hadmits hμ₀) l 0 hl (hzero.value μ hμ₁ 0 rfl)
      exact hnonneg.trans hle

theorem upperGuard_ensures (hs : s.Valid) (hle : μ ≤ ν)
    (hadmits : s.ctx ≤ μ.ctx → μ.Admits s.domains)
    (hoffset : s.ctx.Denotes .callFree offset (ν.Only z))
    (hextent : s.ctx.Denotes .callFree extent (μ.Only n))
    (hhi : s.ctx.Delimits (· ≥ ·) hi? fun κ w => G ∧ κ = μ ∧ w = z) :
    Ensures ∅ (upperGuard offset hi? extent) t s fun gs t' s' =>
      t' = t ∧ s'.domains = s.domains ∧ s'.ctx.Enforces ν gs (z < n) (G → z < n) := by
  refine (provesBelow_ensures hs hadmits hextent hhi).bind ?_
  rintro answer _ s₁ hs₁ hg₁ - ⟨rfl, hd₁, hanswer⟩
  split
  · next hyes =>
    exact .pure hs₁ ⟨rfl, hd₁, Context.enforces_nil fun hν hG => hanswer hyes (hle.ctx ▸ hν) hG⟩
  · have hoffset₁ := hoffset.mono hg₁.le
    have hextent₁ := hextent.mono hg₁.le
    refine .build hs₁ (Build.compare_denotes .lt hoffset₁.nodes hextent₁.nodes)
      fun guard s₂ hs₂ hg₂ hd₂ hguard => ?_
    refine .attempt hs₂ (Attempt.inline_ensures true hguard.nodes) ?_
    rintro guard s₃ hs₃ hg₃ hd₃ ⟨rfl, -⟩
    refine .pure hs₃ ⟨rfl, by rw [hd₃, hd₂, hd₁], Context.enforces_compare (hguard.mono hg₃.le)
      (fun hν => hoffset₁.value ν ((hg₂.trans hg₃).le.trans hν) z ⟨rfl, rfl⟩)
      (fun hν => Valuation.value_mono hle (hextent₁.value μ
        ((hg₂.trans hg₃).le.trans (hle.ctx ▸ hν)) n ⟨rfl, rfl⟩)) (fun h => ?_) fun h _ => ?_⟩
    · simpa [Comparison.exact] using h
    · simpa [Comparison.exact] using h

theorem lowerGuard_ensures (hs : s.Valid) (hle : μ ≤ ν)
    (hadmits : s.ctx ≤ μ.ctx → μ.Admits s.domains)
    (hoffset : s.ctx.Denotes .callFree offset (ν.Only z))
    (hlo : s.ctx.Delimits (· ≤ ·) lo? fun κ w => G ∧ κ = μ ∧ w = z) :
    Ensures ∅ (lowerGuard offset lo?) t s fun gs t' s' =>
      t' = t ∧ s'.domains = s.domains ∧ s'.ctx.Enforces ν gs (0 ≤ z) (G → 0 ≤ z) := by
  refine (provesNonNegative_ensures hs hadmits hlo).bind ?_
  rintro answer _ s₁ hs₁ hg₁ - ⟨rfl, hd₁, hanswer⟩
  split
  · next hyes =>
    exact .pure hs₁ ⟨rfl, hd₁, Context.enforces_nil fun hν hG => hanswer hyes (hle.ctx ▸ hν) hG⟩
  · refine .build hs₁ (Build.constantLike_denotes s₁.ctx .callFree 0 offset)
      fun zero s₂ hs₂ hg₂ hd₂ hzero => ?_
    have hoffset₂ := hoffset.mono (hg₁.trans hg₂).le
    refine .build hs₂ (Build.compare_denotes .ge hoffset₂.nodes hzero.nodes)
      fun guard s₃ hs₃ hg₃ hd₃ hguard => ?_
    refine .pure hs₃ ⟨rfl, by rw [hd₃, hd₂, hd₁], Context.enforces_compare hguard
      (fun hν => hoffset₂.value ν (hg₃.le.trans hν) z ⟨rfl, rfl⟩)
      (fun hν => hzero.value ν (hg₃.le.trans hν) 0 rfl) (fun h => ?_) fun h _ => ?_⟩
    · simpa [Comparison.exact] using h
    · simpa [Comparison.exact] using h

end Single

/-! ## Guards of axes and roots -/

/-- The points at which guards are judged and argued about: `ν` has the values of all loop
variables, `μ` only those that lie in the domains that the analyzer is told. -/
structure View (nest : LoopNest) (b : Box) (x : AxisId → Int) (A : Set AxisId)
    (known : Facts .axis Domain) (values : Facts .axis ExprId) (ν μ : Valuation) (ctx : Context) :
    Prop where
  le : μ ≤ ν
  keeps : μ.Keeps
  depth : μ.depth = 0
  measures : b.Measures μ known ctx
  inDomain : ∀ (a : AxisId) (y : Int), a ∈ known → μ.env (ctx.axisVar a) = some y →
    b.min a ≤ y ∧ y < b.min a + b.extent a
  value : ∀ a ∈ nest.axes, ∀ e : ExprId, values[a]? = some e →
    ctx.Denotes .callFree e (ν.Only (x a)) ∧ (a ∈ A → ctx.Denotes .callFree e (μ.Only (x a)))

section View

variable {nest : LoopNest} {x : AxisId → Int} {A : Set AxisId} {values : Facts .axis ExprId}
  {sets : Env ValueSet}

theorem View.mono {ctx' : Context} (hg : ctx.Grows ctx')
    (h : View nest b x A known values ν μ ctx) :
    View nest b x A known values ν μ ctx' where
  le := h.le
  keeps := h.keeps
  depth := h.depth
  measures := h.measures.mono hg.le
  inDomain a y ha hy := h.inDomain a y ha (hg.axisVar_eq a ▸ hy)
  value a ha e he := by
    obtain ⟨hvalue, hvalue'⟩ := h.value a ha e he
    exact ⟨hvalue.mono hg.le, fun hA => (hvalue' hA).mono hg.le⟩

theorem View.holdsDomain (h : View nest b x A known values ν μ ctx) (hμ : ctx ≤ μ.ctx) {a : AxisId}
    {d : Domain} {y : Int} (hd : known[a]? = some d) (hy : μ.env (ctx.axisVar a) = some y) :
    μ.InDomain d y :=
  ⟨_, _, (h.measures.min a d hd).value μ hμ _ ⟨rfl, rfl⟩,
    (h.measures.extent a d hd).value μ hμ _ ⟨rfl, rfl⟩, h.inDomain a y (mem_of_get hd) hy⟩

theorem View.admits (h : View nest b x A known values ν μ s.ctx) (hr : Ranges known sets s)
    (hμ : s.ctx ≤ μ.ctx) : μ.Admits s.domains := by
  refine h.keeps.admits h.depth fun v d y hd hy => ?_
  obtain ⟨a, hknown, rfl⟩ := hr.domains v d hd
  exact h.holdsDomain hμ hknown hy

/-- The distance of an index from an end. -/
theorem View.offset_ensures {value min : ExprId} {y m : Int} (hle : μ ≤ ν)
    (hy : ctx.Denotes .callFree value (ν.Only y)) (hm : ctx.Denotes .callFree min (μ.Only m)) :
    Build.Ensures (Build.sub value min) ctx fun offset ctx' =>
      ctx'.Denotes .callFree offset (ν.Only (y - m)) ∧
        (ctx.Denotes .callFree value (μ.Only y) →
          ctx'.Denotes .callFree offset (μ.Only (y - m))) := by
  refine (Build.sub_denotes hy.nodes hm.nodes).mono fun offset ctx' hg hoffset =>
    ⟨hoffset.of_imp ?_, fun hy' => hoffset.of_imp ?_⟩
  · rintro _ hν _ ⟨rfl, rfl⟩
    have hν₀ := hg.le.trans hν
    exact ⟨y, m, hy.value _ hν₀ y ⟨rfl, rfl⟩,
      Valuation.value_mono hle (hm.value _ (hle.ctx ▸ hν₀) m ⟨rfl, rfl⟩), rfl⟩
  · rintro _ hμ _ ⟨rfl, rfl⟩
    have hμ₀ := hg.le.trans hμ
    exact ⟨y, m, hy'.value _ hμ₀ y ⟨rfl, rfl⟩, hm.value _ hμ₀ m ⟨rfl, rfl⟩, rfl⟩

/-- The values of an index over the loops, where it has one. -/
theorem reached_ensures {G : Prop} {offset : ExprId} {z : Int} (hs : s.Valid)
    (hview : View nest b x A known values ν μ s.ctx) (hr : Ranges known sets s)
    (hoffset : s.ctx.Stored offset) (hz : G → s.ctx.Denotes .callFree offset (μ.Only z)) :
    Query.Ensures (Query.valuesOf sets offset) s fun r ctx =>
      ctx.Encloses r fun κ w => G ∧ κ = μ ∧ w = z := by
  refine (Query.valued sets offset s hs hoffset fun v set hset => ?_).mono
    fun r ctx hg hencloses => hencloses.of_imp ?_
  · obtain ⟨a, d, -, -, hset'⟩ := hr.sets v set hset
    exact hset'.storedSet
  · rintro _ hν _ ⟨hG, rfl, rfl⟩
    have hν₀ := hg.le.trans hν
    refine ⟨hview.admits hr hν₀, fun v set y hset hy => ?_, (hz hG).value _ hν₀ _ ⟨rfl, rfl⟩⟩
    obtain ⟨a, d, hknown, rfl, hset'⟩ := hr.sets v set hset
    exact hset'.holds hν₀ (hview.holdsDomain hν₀ hknown hy)

theorem axisGuards_ensures {a : AxisId} (hs : s.Valid) (ha : a ∈ nest.axes)
    (hview : View nest b x A known values ν μ s.ctx) (hr : Ranges known sets s)
    (hkind : (s.ctx.axis a).kind ≠ .blackBox) (hmem : a ∈ t)
    (hmark : s.ctx ≤ ν.ctx → t[a]? = some false → x a - b.min a < b.extent a) :
    Ensures ∅ (axisGuards {} known values sets a) t s fun gs t' s' => t' = t ∧
      s'.domains = s.domains ∧ s'.ctx.Enforces ν gs (x a - b.min a < b.extent a)
        (a ∈ A → x a - b.min a < b.extent a) := by
  refine .context (.table ?_)
  split
  · next hno =>
    refine .pure hs ⟨rfl, rfl, Context.enforces_nil fun hν _ => hmark hν ?_⟩
    have hget := Std.TreeMap.getElem?_eq_some_getElem hmem
    rw [hget] at hno ⊢
    simpa [isUnguarded, hkind] using hno
  · refine .require hs fun d hd => ?_
    refine .require hs fun value hvalue => ?_
    obtain ⟨hy, hy'⟩ := hview.value a ha value hvalue
    refine .build hs (View.offset_ensures hview.le hy (hview.measures.min a d hd))
      fun offset s₁ hs₁ hg₁ hd₁ ⟨hoffset, hoffset'⟩ => ?_
    have hview₁ := hview.mono hg₁
    have hr₁ := hr.mono hg₁ hd₁
    refine .query (reached_ensures (G := a ∈ A) hs₁ hview₁ hr₁ hoffset.stored
      fun hA => hoffset' (hy' hA)) fun reached s₂ hs₂ hg₂ hd₂ hreached => ?_
    have hr₂ := hr₁.mono hg₂ hd₂
    refine (upperGuard_ensures hs₂ hview.le ((hview₁.mono hg₂).admits hr₂) (hoffset.mono hg₂.le)
      ((hview.measures.extent a d hd).mono (hg₁.trans hg₂).le) hreached.hi).mono ?_
    rintro gs t' s' - - - ⟨ht, hd', hgs⟩
    exact ⟨ht, by rw [hd', hd₂, hd₁], hgs⟩

theorem rootGuards_ensures {declared : Box} {a : AxisId} (hs : s.Valid) (ha : a ∈ nest.axes)
    (hview : View nest b x A known values ν μ s.ctx) (hr : Ranges known sets s)
    (hkind : (s.ctx.axis a).kind ≠ .blackBox)
    (hdeclared : ∀ d, (s.ctx.axis a).domain? = some d →
      s.ctx.Denotes .callFree d.min (μ.Only (declared.min a)) ∧
        s.ctx.Denotes .callFree d.extent (μ.Only (declared.extent a))) :
    Ensures ∅ (rootGuards {} known values sets a) t s fun gs t' s' => t' = t ∧
      s'.domains = s.domains ∧ s'.ctx.Enforces ν gs (declared.Contains x a)
        (a ∈ A ∧ known[a]? ≠ (s.ctx.axis a).domain? → declared.Contains x a) := by
  refine .context ?_
  rw [if_neg (by simp [isUnguarded, hkind])]
  refine .require hs fun d hd => ?_
  refine .context ?_
  split
  · next working hworking =>
    obtain ⟨hmin, hextent⟩ := hdeclared working hworking
    split
    · next heq =>
      refine .pure hs ⟨rfl, rfl, Context.enforces_nil fun _ hG => absurd ?_ hG.2⟩
      rw [hd, hworking, heq]
    · refine .require hs fun value hvalue => ?_
      obtain ⟨hy, hy'⟩ := hview.value a ha value hvalue
      refine .build hs (View.offset_ensures hview.le hy hmin)
        fun offset s₁ hs₁ hg₁ hd₁ ⟨hoffset, hoffset'⟩ => ?_
      have hview₁ := hview.mono hg₁
      have hr₁ := hr.mono hg₁ hd₁
      refine .query (reached_ensures
        (G := a ∈ A ∧ known[a]? ≠ (s.ctx.axis a).domain?) hs₁ hview₁ hr₁
        hoffset.stored fun hG => hoffset' (hy' hG.1)) fun reached s₂ hs₂ hg₂ hd₂ hreached => ?_
      have hr₂ := hr₁.mono hg₂ hd₂
      refine (lowerGuard_ensures hs₂ hview.le ((hview₁.mono hg₂).admits hr₂)
        (hoffset.mono hg₂.le) hreached.lo).bind ?_
      rintro lower _ s₃ hs₃ hg₃ - ⟨rfl, hd₃, hlower⟩
      have hr₃ := hr₂.mono hg₃ hd₃
      have hg := hg₁.trans (hg₂.trans hg₃)
      refine (upperGuard_ensures hs₃ hview.le ((hview.mono hg).admits hr₃)
        (hoffset.mono (hg₂.trans hg₃).le) (hextent.mono hg.le) (hreached.hi.mono hg₃.le)).bind ?_
      rintro upper _ s₄ hs₄ hg₄ - ⟨rfl, hd₄, hupper⟩
      refine .pure hs₄ ⟨rfl, by rw [hd₄, hd₃, hd₂, hd₁], ?_⟩
      refine ((hlower.mono hg₄.le).append hupper).of_imp (fun h => ?_) fun h hG => ?_
      · obtain ⟨hlo, hhi⟩ := h
        omega
      · have hlo := h.1 hG
        have hhi := h.2 hG
        rw [Box.Contains]
        omega
  · exact .throw

/-- The guards of a nest are true where all axes are in their domains.  Where they are true, the
axes of the set are. -/
theorem guardsOver_ensures {declared : Box} (hs : s.Valid) (hempty : s.domains = Env.empty)
    (hshaped : LoopNest.Shaped ctx nest)
    (hkind : ∀ a ∈ nest.axes, (s.ctx.axis a).kind ≠ .blackBox)
    (hcovers : nest.Covers b) (hsolves : nest.Solves b x)
    (hleaves : ∀ a ∈ nest.leaves, b.Contains x a)
    (hview : View nest b x A known values ν μ s.ctx)
    (hdeclared : ∀ a ∈ nest.roots, ∀ d, (s.ctx.axis a).domain? = some d →
      s.ctx.Denotes .callFree d.min (μ.Only (declared.min a)) ∧
        s.ctx.Denotes .callFree d.extent (μ.Only (declared.extent a))) :
    Ensures .univ (guardsOver {} nest known values)
      (nest.leaves.foldl (fun checks a => checks.insert a false) {}) s fun gs _ s' =>
        s'.ctx.Enforces ν gs
          ((∀ a ∈ nest.axes, x a - b.min a < b.extent a) ∧
            ∀ a ∈ nest.roots, declared.Contains x a)
          ((∀ a ∈ nest.axes, a ∈ A → x a - b.min a < b.extent a) ∧
            ∀ a ∈ nest.roots, a ∈ A ∧ known[a]? ≠ (s.ctx.axis a).domain? →
              declared.Contains x a) := by
  have hstored : s.ctx.StoredDomains known := fun a d hd =>
    ⟨(hview.measures.min a d hd).stored, (hview.measures.extent a d hd).stored⟩
  have hadmits : μ.Admits s.domains :=
    hview.keeps.admits hview.depth fun v d y hd => by simp [hempty, Env.empty] at hd
  have hstart : UnmarkedStay μ nest b
      (nest.leaves.foldl (fun checks a => checks.insert a false) {}) s.ctx := by
    intro hμ y _ hin a ha
    refine hin a ?_
    have hmem : a ∈ nest.leaves.foldl (fun checks a => checks.insert a false) ({} : Checks) :=
      Std.TreeMap.mem_iff_isSome_getElem?.2 (by rw [ha]; rfl)
    exact (mem_leafChecks.1 hmem).resolve_right Std.TreeMap.not_mem_emptyc
  refine Ensures.bind (Q := fun _ t' s' => s'.domains = s.domains ∧
    UnmarkedStay μ nest b t' s'.ctx ∧ ∀ a ∈ nest.axes, a ∈ t') ?_ ?_
  · have hmem : ∀ a, a ∈ nest.leaves.foldl (fun checks a => checks.insert a false)
        ({} : Checks) ↔ a ∈ nest.leaves := fun a => by simp [mem_leafChecks]
    refine fun r t' s' hrun => ?_
    obtain ⟨hs', hg, hd, h⟩ :=
      checksUp_ensures hs hshaped hadmits hview.measures hcovers hmem hstart r t' s' hrun
    exact ⟨hs', hg, fun v _ => hd v (Set.notMem_empty v), domains_eq_of_frame hd, h⟩
  rintro - t₁ s₁ hs₁ hg₁ - ⟨hd₁, hstay, hmem⟩
  refine (enterDomains_ensures hs₁ (hstored.mono hg₁.le) (hd₁.trans hempty)).bind ?_
  rintro sets _ s₂ hs₂ hg₂ - ⟨rfl, hr₂⟩
  have hg := hg₁.trans hg₂
  have hview₂ := hview.mono hg
  refine (mapM_ensures (C := fun ctx a gs => ctx.Enforces ν gs (x a - b.min a < b.extent a)
    (a ∈ A → x a - b.min a < b.extent a)) (fun hctx h => h.mono hctx) hs₂ ?_).bind ?_
  · intro a ha s' hs' hg' hd'
    refine (axisGuards_ensures hs' ha (hview₂.mono hg') (hr₂.mono hg' hd') ?_ (hmem a ha)
      fun hν hunmarked => ?_).widen (Set.empty_subset _)
    · rw [(hg.trans hg').axis_eq]
      exact hkind a ha
    · have hin := hstay ((hg₂.trans hg').le.trans (hview.le.ctx ▸ hν)) x hsolves hleaves a hunmarked
      have hhi := hin.2
      omega
  rintro axisPart _ s₃ hs₃ hg₃ - ⟨rfl, hd₃, haxes⟩
  refine (mapM_ensures (C := fun ctx a gs => ctx.Enforces ν gs (declared.Contains x a)
    (a ∈ A ∧ known[a]? ≠ (s.ctx.axis a).domain? → declared.Contains x a))
    (fun hctx h => h.mono hctx) hs₃ ?_).bind ?_
  · intro a ha s' hs' hg' hd'
    have hgs := hg.trans (hg₃.trans hg')
    have haxis := hgs.axis_eq a
    rw [← haxis]
    refine (rootGuards_ensures hs' (hshaped.mem_axes_of_mem_roots ha)
      (hview₂.mono (hg₃.trans hg')) (hr₂.mono (hg₃.trans hg') (hd'.trans hd₃)) ?_ ?_).widen
      (Set.empty_subset _)
    · rw [haxis]
      exact hkind a (hshaped.mem_axes_of_mem_roots ha)
    · intro d hd
      obtain ⟨hmin, hextent⟩ := hdeclared a ha d (haxis ▸ hd)
      exact ⟨hmin.mono hgs.le, hextent.mono hgs.le⟩
  rintro rootPart _ s₄ hs₄ hg₄ - ⟨rfl, -, hroots⟩
  exact .pure hs₄ (((Context.enforces_flatten haxes).mono hg₄.le).append
    (Context.enforces_flatten hroots))

end View

end Sweep

end LoopBounds
