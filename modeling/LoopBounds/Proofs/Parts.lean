import LoopBounds.Expr.Shape
import LoopBounds.Proofs.Context

/-!
# Parts of expressions

An expression, its operands, theirs, and so on.  The traversal that collects sub-expressions
finds all of them, so the variables it gives are those that occur.
-/

namespace LoopBounds

/-- The nodes that are no variable outside of `p`. -/
def NodeClass.mentions (p : VarId → Prop) : NodeClass where
  mem n := ∀ v, n = .var v → p v
  const _ _ := nofun
  arith _ _ _ := nofun
  compare _ _ _ := nofun
  and _ _ := nofun
  or _ _ := nofun
  not _ := nofun
  call _ _ _ _ _ := nofun

namespace Context

/-- The expression is part of `e`. -/
inductive Within (ctx : Context) (e : ExprId) : ExprId → Prop
  | self : Within ctx e e
  | child {c d} (h : Within ctx e c) (hd : d ∈ (ctx.node c).children) : Within ctx e d

variable {ctx ctx' : Context} {e c d : ExprId} {p q : Node → Prop}

theorem Within.of_child (h : ctx.Within c d) (hc : c ∈ (ctx.node e).children) :
    ctx.Within e d := by
  induction h with
  | self => exact .child .self hc
  | child _ hd ih => exact .child ih hd

theorem within_iff : ctx.Within e d ↔ d = e ∨ ∃ c ∈ (ctx.node e).children, ctx.Within c d := by
  constructor
  · intro h
    induction h with
    | self => exact .inl rfl
    | child _ hd ih =>
        right
        rcases ih with rfl | ⟨c, hc, h⟩
        · exact ⟨_, hd, .self⟩
        · exact ⟨c, hc, .child h hd⟩
  · rintro (rfl | ⟨c, hc, h⟩)
    exacts [.self, h.of_child hc]

theorem Within.stored (h : ctx.Within e c) (he : ctx.Stored e) : ctx.Stored c := by
  induction h with
  | self => exact he
  | child _ hd ih => exact ih.child hd

theorem Within.restrict (hctx : ctx ≤ ctx') (he : ctx.Stored e) (h : ctx'.Within e c) :
    ctx.Within e c := by
  induction h with
  | self => exact .self
  | child _ hd ih => exact .child ih (node_eq hctx (ih.stored he) ▸ hd)

theorem Within.mono (hctx : ctx ≤ ctx') (he : ctx.Stored e) (h : ctx.Within e c) :
    ctx'.Within e c := by
  induction h with
  | self => exact .self
  | child h hd ih => exact .child ih ((node_eq hctx (h.stored he)).symm ▸ hd)

/-! ## What holds of each part -/

/-- The nodes of all parts satisfy `p`. -/
def Each (ctx : Context) (p : Node → Prop) (e : ExprId) : Prop :=
  ∀ c, ctx.Within e c → p (ctx.node c)

theorem each_iff : ctx.Each p e ↔ p (ctx.node e) ∧ ∀ c ∈ (ctx.node e).children, ctx.Each p c := by
  constructor
  · exact fun h => ⟨h e .self, fun c hc d hd => h d (hd.of_child hc)⟩
  · rintro ⟨he, hchildren⟩ d hd
    rcases within_iff.1 hd with rfl | ⟨c, hc, hd⟩
    exacts [he, hchildren c hc d hd]

theorem Each.child (h : ctx.Each p e) (hc : c ∈ (ctx.node e).children) : ctx.Each p c :=
  (each_iff.1 h).2 c hc

theorem Each.mono (hctx : ctx ≤ ctx') (he : ctx.Stored e) (h : ctx.Each p e) :
    ctx'.Each p e := by
  intro c hc
  have hc := hc.restrict hctx he
  rw [node_eq hctx (hc.stored he)]
  exact h c hc

theorem Each.imp (h : ctx.Each p e) (hpq : ∀ n, p n → q n) : ctx.Each q e :=
  fun c hc => hpq _ (h c hc)

theorem Each.and (hp : ctx.Each p e) (hq : ctx.Each q e) : ctx.Each (fun n => p n ∧ q n) e :=
  fun c hc => ⟨hp c hc, hq c hc⟩

theorem over_iff_each {K : NodeClass} : ctx.Over K e ↔ ctx.Stored e ∧ ctx.Each K.mem e := by
  constructor
  · intro h
    have hparts : ∀ c, ctx.Within e c → ctx.Over K c := by
      intro c hc
      induction hc with
      | self => exact h
      | child _ hd ih => exact ih.child hd
    exact ⟨h.stored, fun c hc => (hparts c hc).mem⟩
  · rintro ⟨he, h⟩
    have hparts : ∀ c, ctx.Within e c → ctx.Over K c := by
      intro c hc
      induction hi : c.index using Nat.strong_induction_on generalizing c with
      | _ i ih =>
          subst hi
          exact ⟨hc.stored he, h c hc, fun d hd => ih d.index (ctx.child_lt hd) d (hc.child hd) rfl⟩
    exact hparts e .self

/-! ## Collected parts -/

/-- A set that holds the parts of its members. -/
def Closed (ctx : Context) (seen : Std.TreeSet ExprId) : Prop :=
  ∀ e ∈ seen, ∀ c ∈ (ctx.node e).children, c ∈ seen

theorem Closed.within {seen : Std.TreeSet ExprId} (h : ctx.Closed seen) (he : e ∈ seen)
    (hc : ctx.Within e c) : c ∈ seen := by
  induction hc with
  | self => exact he
  | child _ hd ih => exact h _ ih _ hd

theorem addSubexprs_spec {seen : Std.TreeSet ExprId} (e : ExprId) (h : ctx.Closed seen) :
    ctx.Closed (ctx.addSubexprs seen e) ∧
      ∀ c, c ∈ ctx.addSubexprs seen e ↔ c ∈ seen ∨ ctx.Within e c := by
  rw [addSubexprs]
  split
  · next he =>
    refine ⟨h, fun c => ⟨.inl, ?_⟩⟩
    rintro (hc | hc)
    exacts [hc, h.within (Std.TreeSet.mem_iff_contains.2 he) hc]
  · have key : ∀ (cs : List {c // c ∈ (ctx.node e).children}) (seen : Std.TreeSet ExprId),
        ctx.Closed seen →
        ctx.Closed (cs.foldl (fun seen c => ctx.addSubexprs seen c.1) seen) ∧
          ∀ d, d ∈ cs.foldl (fun seen c => ctx.addSubexprs seen c.1) seen ↔
            d ∈ seen ∨ ∃ c ∈ cs, ctx.Within c.1 d := by
      intro cs
      induction cs with
      | nil => exact fun seen h => ⟨h, by simp⟩
      | cons c cs ih =>
          intro seen h
          obtain ⟨hclosed, hmem⟩ := addSubexprs_spec c.1 h
          obtain ⟨hclosed', hmem'⟩ := ih _ hclosed
          refine ⟨hclosed', fun d => ?_⟩
          rw [List.foldl_cons, hmem' d, hmem d, or_assoc, List.exists_mem_cons_iff]
    obtain ⟨hclosed, hmem⟩ := key (ctx.node e).children.attach seen h
    have hmem' : ∀ d, d ∈ ((ctx.node e).children.attach.foldl
        (fun seen c => ctx.addSubexprs seen c.1) seen).insert e ↔ d ∈ seen ∨ ctx.Within e d := by
      intro d
      rw [Std.TreeSet.mem_insert, Std.compare_eq_iff_eq, hmem d, within_iff]
      simp only [List.mem_attach, true_and, Subtype.exists, exists_prop]
      tauto
    refine ⟨fun d hd c hc => ?_, hmem'⟩
    rw [hmem'] at hd ⊢
    rcases hd with hd | hd
    exacts [.inl (h d hd c hc), .inr (.child hd hc)]
termination_by e.index
decreasing_by exact ctx.child_lt c.2

theorem mem_subexprs : c ∈ ctx.subexprs e ↔ ctx.Within e c := by
  have hempty : ctx.Closed {} := fun e he => absurd he Std.TreeSet.not_mem_emptyc
  rw [subexprs, (addSubexprs_spec e hempty).2 c]
  exact or_iff_right Std.TreeSet.not_mem_emptyc

/-- The variables of an expression are those that occur in it. -/
theorem mem_freeVars {v : VarId} :
    v ∈ ctx.freeVars e ↔ ∃ c, ctx.Within e c ∧ ctx.node c = .var v := by
  have hvar : ∀ c, ctx.var? c = some v ↔ ctx.node c = .var v := by
    intro c
    unfold var?
    split <;> simp_all
  rw [freeVars, Std.TreeSet.mem_toList, Std.TreeSet.mem_ofList, List.contains_iff_mem,
    List.mem_filterMap]
  simp only [Std.TreeSet.mem_toList, mem_subexprs, hvar]

theorem over_mentions {p : VarId → Prop} :
    ctx.Over (.mentions p) e ↔ ctx.Stored e ∧ ∀ v ∈ ctx.freeVars e, p v := by
  simp only [over_iff_each, mem_freeVars]
  apply and_congr_right
  intro _
  constructor
  · exact fun h v ⟨c, hc, hn⟩ => h c hc v hn
  · exact fun h c hc v hn => h v ⟨c, hc, hn⟩

theorem freeVars_subset (hctx : ctx ≤ ctx') (he : ctx.Stored e) :
    ctx.freeVars e ⊆ ctx'.freeVars e := by
  intro v hv
  obtain ⟨c, hc, hn⟩ := mem_freeVars.1 hv
  exact mem_freeVars.2 ⟨c, hc.mono hctx he, (node_eq hctx (hc.stored he)).trans hn⟩

end Context

end LoopBounds
