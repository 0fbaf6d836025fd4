import LoopBounds.Proofs.Overflow
import LoopBounds.Proofs.Replay

/-!
# Normal forms

The terms of a form are normal when they stand in the order of their atoms and no coefficient is
zero; arithmetic keeps them so.  A form with normal terms, written as an expression and read back,
is the same form.  Nothing folds while it is written: a sum that was written before reads as its
terms, so it is no literal and no product of another atom.
-/

namespace LoopBounds

namespace Affine

/-- The terms stand in the order of their atoms, which satisfy `P`, and no coefficient is zero. -/
structure Normal (P : ExprId → Prop) (ts : List (ExprId × Int64)) : Prop where
  sorted : ts.Pairwise fun t u => t.1.index < u.1.index
  nonzero : ∀ t ∈ ts, t.2 ≠ 0
  atoms : ∀ t ∈ ts, P t.1

variable {P Q : ExprId → Prop} {t : ExprId × Int64} {ts us xs ys zs : List (ExprId × Int64)}
  {f g h : Affine} {c m w : Int64} {e : ExprId}

/-! ## Arithmetic -/

theorem normal_nil (P : ExprId → Prop) : Normal P [] := ⟨.nil, nofun, nofun⟩

theorem normal_cons_iff : Normal P (t :: ts) ↔
    (∀ u ∈ ts, t.1.index < u.1.index) ∧ t.2 ≠ 0 ∧ P t.1 ∧ Normal P ts := by
  constructor
  · rintro ⟨hsorted, hnonzero, hatoms⟩
    rw [List.pairwise_cons] at hsorted
    rw [List.forall_mem_cons] at hnonzero hatoms
    exact ⟨hsorted.1, hnonzero.1, hatoms.1, hsorted.2, hnonzero.2, hatoms.2⟩
  · rintro ⟨hlt, hne, hp, h⟩
    exact ⟨List.pairwise_cons.2 ⟨hlt, h.sorted⟩, List.forall_mem_cons.2 ⟨hne, h.nonzero⟩,
      List.forall_mem_cons.2 ⟨hp, h.atoms⟩⟩

theorem normal_singleton (hc : c ≠ 0) (he : P e) : Normal P [(e, c)] :=
  normal_cons_iff.2 ⟨nofun, hc, he, normal_nil P⟩

theorem Normal.imp (h : Normal P ts) (hPQ : ∀ e, P e → Q e) : Normal Q ts :=
  ⟨h.sorted, h.nonzero, fun t ht => hPQ t.1 (h.atoms t ht)⟩

/-- No atom has two terms. -/
theorem Normal.distinct (h : Normal P ts) : ts.Pairwise fun t u => t.1 ≠ u.1 :=
  h.sorted.imp fun hlt heq => hlt.ne (congrArg Handle.index heq)

/-- Terms in order that are the same up to order are the same. -/
theorem Normal.eq_of_perm (hx : Normal P xs) (hy : Normal Q ys) (h : xs.Perm ys) : xs = ys :=
  h.eq_of_pairwise (fun _ _ _ _ hlt hgt => absurd hlt (Nat.lt_asymm hgt)) hx.sorted hy.sorted

theorem Normal.addTerms (hx : Normal P xs) (hy : Normal P ys)
    (hz : Affine.addTerms xs ys = some zs) : Normal P zs := by
  fun_induction Affine.addTerms xs ys generalizing zs with
  | case1 ys =>
      cases hz
      exact hy
  | case2 xs _ =>
      cases hz
      exact hx
  | case3 e a xs f b ys hlt ih =>
      obtain ⟨rest, hrest, hz⟩ := Option.bind_eq_some_iff.1 hz
      cases hz
      obtain ⟨hxlt, hne, he, hxs⟩ := normal_cons_iff.1 hx
      refine normal_cons_iff.2 ⟨fun u hu => ?_, hne, he, ih hxs hy hrest⟩
      obtain ⟨v, hv | hv, hvu⟩ := mem_addTerms hrest hu
      · exact hvu ▸ hxlt v hv
      · rcases List.mem_cons.1 hv with rfl | hv
        · exact hvu ▸ hlt
        · exact hvu ▸ hlt.trans ((normal_cons_iff.1 hy).1 v hv)
  | case4 e a xs f b ys hlt hgt ih =>
      obtain ⟨rest, hrest, hz⟩ := Option.bind_eq_some_iff.1 hz
      cases hz
      obtain ⟨hylt, hne, hf, hys⟩ := normal_cons_iff.1 hy
      refine normal_cons_iff.2 ⟨fun u hu => ?_, hne, hf, ih hx hys hrest⟩
      obtain ⟨v, hv | hv, hvu⟩ := mem_addTerms hrest hu
      · rcases List.mem_cons.1 hv with rfl | hv
        · exact hvu ▸ hgt
        · exact hvu ▸ hgt.trans ((normal_cons_iff.1 hx).1 v hv)
      · exact hvu ▸ hylt v hv
  | case5 e a xs f b ys hlt hgt ih =>
      obtain ⟨c, hc, hz⟩ := Option.bind_eq_some_iff.1 hz
      obtain ⟨rest, hrest, hz⟩ := Option.bind_eq_some_iff.1 hz
      obtain ⟨hxlt, -, he, hxs⟩ := normal_cons_iff.1 hx
      obtain ⟨hylt, -, -, hys⟩ := normal_cons_iff.1 hy
      split at hz
      · cases hz
        exact ih hxs hys hrest
      · next hne =>
        cases hz
        refine normal_cons_iff.2 ⟨fun u hu => ?_, hne, he, ih hxs hys hrest⟩
        obtain ⟨v, hv | hv, hvu⟩ := mem_addTerms hrest hu
        · exact hvu ▸ hxlt v hv
        · have hef : e.index = f.index := by omega
          exact hvu ▸ hef ▸ hylt v hv

/-- Where no atom is shared, adding only merges. -/
theorem exists_addTerms (h : ∀ t ∈ xs, ∀ u ∈ ys, t.1 ≠ u.1) :
    ∃ zs, Affine.addTerms xs ys = some zs ∧ zs.Perm (xs ++ ys) := by
  fun_induction Affine.addTerms xs ys with
  | case1 ys => exact ⟨ys, rfl, .refl _⟩
  | case2 xs _ => exact ⟨xs, rfl, by rw [List.append_nil]⟩
  | case3 e a xs f b ys hlt ih =>
      obtain ⟨zs, hzs, hperm⟩ := ih fun t ht => h t (List.mem_cons_of_mem _ ht)
      exact ⟨(e, a) :: zs, by rw [hzs]; rfl, hperm.cons _⟩
  | case4 e a xs f b ys hlt hgt ih =>
      obtain ⟨zs, hzs, hperm⟩ := ih fun t ht u hu => h t ht u (List.mem_cons_of_mem _ hu)
      exact ⟨(f, b) :: zs, by rw [hzs]; rfl, (hperm.cons _).trans List.perm_middle.symm⟩
  | case5 e a xs f b ys hlt hgt ih =>
      have hef : e = f := Handle.ext_index (by omega)
      exact absurd hef (h _ List.mem_cons_self _ List.mem_cons_self)

theorem normal_add (hf : Normal P f.terms) (hg : Normal P g.terms) (hh : f.add g = some h) :
    Normal P h.terms := by
  obtain ⟨ts, hts, hh⟩ := Option.bind_eq_some_iff.1 hh
  obtain ⟨c, -, hh⟩ := Option.bind_eq_some_iff.1 hh
  cases hh
  exact hf.addTerms hg hts

theorem mul_ne_zero {a b : Int64} (ha : a ≠ 0) (hb : b ≠ 0) (h : Word.mul a b = some c) :
    c ≠ 0 := by
  rw [Ne, ← Word.toInt_eq_zero_iff] at ha hb ⊢
  rw [Word.toInt_of_checked h]
  exact Int.mul_ne_zero ha hb

theorem Normal.scaleTerms (hts : Normal P ts) (hc : c ≠ 0)
    (hus : (ts.mapM fun (e, a) => return (e, ← Word.mul a c)) = some us) : Normal P us := by
  induction ts generalizing us with
  | nil =>
      cases hus
      exact normal_nil P
  | cons t ts ih =>
      rw [List.mapM_cons] at hus
      obtain ⟨u, hu, hus⟩ := Option.bind_eq_some_iff.1 hus
      obtain ⟨vs, hvs, hus⟩ := Option.bind_eq_some_iff.1 hus
      obtain ⟨b, hb, hu⟩ := Option.bind_eq_some_iff.1 hu
      cases hu
      cases hus
      obtain ⟨hlt, hne, ht, hts⟩ := normal_cons_iff.1 hts
      refine normal_cons_iff.2 ⟨fun u hu => ?_, mul_ne_zero hne hc hb, ht, ih hts hvs⟩
      obtain ⟨v, hv, hvu⟩ := mem_scale hvs hu
      exact hvu ▸ hlt v hv

theorem normal_scale (hf : Normal P f.terms) (hh : f.scale c = some h) : Normal P h.terms := by
  unfold scale at hh
  split at hh
  · cases hh
    exact normal_nil P
  · next hc =>
    obtain ⟨ts, hts, hh⟩ := Option.bind_eq_some_iff.1 hh
    obtain ⟨d, -, hh⟩ := Option.bind_eq_some_iff.1 hh
    cases hh
    exact hf.scaleTerms hc hts

theorem normal_sub (hf : Normal P f.terms) (hg : Normal P g.terms) (hh : f.sub g = some h) :
    Normal P h.terms := by
  obtain ⟨k, hk, hh⟩ := Option.bind_eq_some_iff.1 hh
  exact normal_add hf (normal_scale hg hk) hh

/-! ## Reading nodes -/

/-- The expression is stored and is read as an atom. -/
def Atomic (ctx : Context) (e : ExprId) : Prop := ctx.Stored e ∧ ofExpr ctx e = atom e

variable {ctx ctx' : Context} {a b l r p acc : ExprId} {acc? : Option ExprId} {type : Scalar}

theorem Atomic.mono (h : ctx.Appends ctx') (he : Atomic ctx e) : Atomic ctx' e :=
  ⟨h.stored he.1, (ofExpr_eq h he.1).trans he.2⟩

/-- A literal is read as a form without terms. -/
theorem literal?_eq_none (h : (ofExpr ctx e).terms ≠ []) : ctx.literal? e = none := by
  by_contra hne
  obtain ⟨w, hw⟩ := Option.ne_none_iff_exists'.1 hne
  rw [ofExpr_of_literal? hw] at h
  exact h rfl

theorem ofExpr_of_add (hn : ctx.node r = .arith .add a b)
    (hh : (ofExpr ctx a).add (ofExpr ctx b) = some h) : ofExpr ctx r = h := by
  rw [ofExpr]
  split <;> simp_all

theorem ofExpr_of_sub (hn : ctx.node r = .arith .sub a b)
    (hh : (ofExpr ctx a).sub (ofExpr ctx b) = some h) : ofExpr ctx r = h := by
  rw [ofExpr]
  split <;> simp_all

theorem ofExpr_of_mul (hn : ctx.node r = .arith .mul a b) (hb : ctx.literal? b = some c)
    (hh : (ofExpr ctx a).scale c = some h) : ofExpr ctx r = h := by
  rw [ofExpr]
  split <;> simp_all

theorem atom_scale (e : ExprId) (hc : c ≠ 0) : (atom e).scale c = some ⟨[(e, c)], 0⟩ := by
  have hmul : ∀ z, Word.mul 1 c = some z ↔ z = c := fun z => by
    rw [Word.mul, Word.checked_eq_some_iff, Int64.toInt_one, one_mul, Int64.toInt_inj]
  have hone := (hmul c).2 rfl
  have hzero : Word.mul 0 c = some 0 := by
    rw [Word.mul, Word.checked_eq_some_iff, Int64.toInt_zero, zero_mul]
  simp [scale, hc, atom, hone, hzero]

theorem const?_eq_some_iff : f.const? = some c ↔ f = ofConst c := by
  obtain ⟨ts, d⟩ := f
  simp [const?, ofConst]

theorem ofConst_scale_comm (c d : Int64) : (ofConst c).scale d = (ofConst d).scale c := by
  have hscale : ∀ c d : Int64, (ofConst c).scale d = (Word.mul c d).map ofConst := by
    intro c d
    by_cases hd : d = 0
    · have hmul : Word.mul c 0 = some 0 := by
        rw [Word.mul, Word.checked_eq_some_iff, Int64.toInt_zero, mul_zero]
      rw [hd, hmul]
      rfl
    · rw [scale, if_neg hd]
      cases h : Word.mul c d <;> simp [ofConst, h]
  rw [hscale, hscale, Word.mul, Word.mul, mul_comm]

/-- Scaling by `-1` negates. -/
theorem mul_neg_one (h : Word.neg c = some m) : Word.mul m (-1) = some c := by
  have hm := Word.toInt_of_checked h
  have hneg : (-1 : Int64).toInt = -1 := by decide
  rw [Word.mul, Word.checked_eq_some_iff, hneg]
  omega

theorem neg_ne_zero (hc : c ≠ 0) (h : Word.neg c = some m) : m ≠ 0 := by
  rintro rfl
  have hneg := Word.toInt_of_checked h
  rw [Int64.toInt_zero, zero_eq_neg, Word.toInt_eq_zero_iff] at hneg
  exact hc hneg

theorem terms_add_const (ts : List (ExprId × Int64)) (c : Int64) :
    (⟨ts, 0⟩ : Affine).add (ofConst c) = some ⟨ts, c⟩ := by
  have hterms : Affine.addTerms ts [] = some ts := by cases ts <;> simp [Affine.addTerms]
  have hconst : Word.add 0 c = some c := by
    rw [Word.add, Word.checked_eq_some_iff, Int64.toInt_zero, zero_add]
  simp [add, ofConst, hterms, hconst]

theorem terms_sub_const (ts : List (ExprId × Int64)) (h : Word.neg c = some m) :
    (⟨ts, 0⟩ : Affine).sub (ofConst m) = some ⟨ts, c⟩ := by
  have hscale : (ofConst m).scale (-1) = some (ofConst c) := by
    simp [scale, ofConst, mul_neg_one h]
  rw [sub, hscale]
  exact terms_add_const ts c

/-! ## Writing a sum -/

/-- What was written of the terms `ts` so far: nothing if there are none, or a sum that reads as
them. -/
def Spells (ctx : Context) (acc? : Option ExprId) (ts : List (ExprId × Int64)) : Prop :=
  match acc? with
  | none => ts = []
  | some acc => ctx.Stored acc ∧ ts ≠ [] ∧
      ∃ us, ofExpr ctx acc = ⟨us, 0⟩ ∧ Normal (Atomic ctx) us ∧ us.Perm ts

theorem Spells.literal? (h : Spells ctx (some acc) ts) : ctx.literal? acc = none := by
  obtain ⟨-, hne, us, hus, -, hperm⟩ := h
  refine literal?_eq_none fun hnil => hne ?_
  rw [hus] at hnil
  change us = [] at hnil
  subst hnil
  exact hperm.symm.eq_nil

theorem Spells.mono (h : Spells ctx acc? ts) (hctx : ctx.Appends ctx') : Spells ctx' acc? ts := by
  cases acc? with
  | none => exact h
  | some acc =>
      obtain ⟨hs, hne, us, hus, hnormal, hperm⟩ := h
      exact ⟨hctx.stored hs, hne, us, (ofExpr_eq hctx hs).trans hus,
        hnormal.imp fun _ => Atomic.mono hctx, hperm⟩

/-- The expression stands for one term. -/
def SpellsTerm (ctx : Context) (p : ExprId) (t : ExprId × Int64) : Prop :=
  ctx.Stored p ∧ ofExpr ctx p = ⟨[t], 0⟩

theorem SpellsTerm.literal? (h : SpellsTerm ctx p t) : ctx.literal? p = none :=
  literal?_eq_none (by rw [h.2]; exact List.cons_ne_nil _ _)

theorem SpellsTerm.spells (h : SpellsTerm ctx p (e, c)) (hc : c ≠ 0) (he : Atomic ctx e) :
    Spells ctx (some p) [(e, c)] :=
  ⟨h.1, List.cons_ne_nil _ _, _, h.2, normal_singleton hc he, .refl _⟩

theorem constant_reads (ctx : Context) (w : Int64) (type : Scalar) :
    Build.Ensures (Build.constant w type) ctx fun l ctx' =>
      ctx'.Stored l ∧ ctx'.literal? l = some w := by
  refine (Build.constant_literal ctx w type).mono fun l ctx' _ h => ?_
  obtain ⟨hs, v, hv, hvw⟩ := h
  exact ⟨hs, Int64.toInt_inj.1 hvw ▸ hv⟩

/-- An atom times a coefficient that is not written as the atom. -/
theorem mulConst_spells (he : Atomic ctx e) (hzero : c ≠ 0) (hone : c ≠ 1) :
    Build.Ensures (Build.mulConst e c) ctx fun p ctx' => SpellsTerm ctx' p (e, c) := by
  refine Build.Ensures.bind (Build.Ensures.get (constant_reads ctx c _)) ?_
  intro l ctx₁ hg ⟨hl, hlit⟩
  have he₁ := he.mono hg.appends
  have hnone : ctx₁.literal? e = none :=
    literal?_eq_none (by rw [he₁.2]; exact List.cons_ne_nil _ _)
  refine (Build.arith_node he₁.1 hl ?_).mono fun p ctx₂ hg₂ ⟨hp, hn⟩ => ⟨hp, ?_⟩
  · rw [hnone, hlit]
    simp [Arith.fold, Arith.foldUnit, hzero, hone]
  · refine ofExpr_of_mul hn ((hg₂.appends.literal?_eq hl).trans hlit) ?_
    rw [(he₁.mono hg₂.appends).2, atom_scale e hzero]

/-- A sum goes on with a term of another atom. -/
theorem Spells.append (hacc : Spells ctx (some acc) ts) (hctx : ctx.Appends ctx')
    (hr : ctx'.Stored r) (hc : c ≠ 0) (he : Atomic ctx e) (hnew : ∀ u ∈ ts, u.1 ≠ e)
    (hread : ∀ us zs, ofExpr ctx' acc = ⟨us, 0⟩ → Affine.addTerms us [(e, c)] = some zs →
      ofExpr ctx' r = ⟨zs, 0⟩) : Spells ctx' (some r) (ts ++ [(e, c)]) := by
  obtain ⟨hs, -, us, hus, hnormal, hperm⟩ := hacc
  have hdisjoint : ∀ t ∈ us, ∀ u ∈ [(e, c)], t.1 ≠ u.1 := fun t ht u hu => by
    rw [List.mem_singleton.1 hu]
    exact hnew t (hperm.mem_iff.1 ht)
  obtain ⟨zs, hzs, hmerge⟩ := exists_addTerms hdisjoint
  exact ⟨hr, List.append_ne_nil_of_right_ne_nil _ (List.cons_ne_nil _ _), zs,
    hread us zs ((ofExpr_eq hctx hs).trans hus) hzs,
    (hnormal.addTerms (normal_singleton hc he) hzs).imp fun _ => Atomic.mono hctx,
    hmerge.trans (hperm.append_right _)⟩

theorem add_spells (hacc : Spells ctx (some acc) ts) (hp : SpellsTerm ctx p (e, c)) (hc : c ≠ 0)
    (he : Atomic ctx e) (hnew : ∀ u ∈ ts, u.1 ≠ e) :
    Build.Ensures (Build.add acc p) ctx fun r ctx' => Spells ctx' (some r) (ts ++ [(e, c)]) := by
  have hnode : Arith.add.fold (ctx.literal? acc) (ctx.literal? p) (acc == p) = .node := by
    rw [hacc.literal?, hp.literal?]
    simp [Arith.fold, Arith.foldUnit]
  refine (Build.arith_node hacc.1 hp.1 hnode).mono ?_
  rintro r ctx' hg ⟨hr, hn⟩
  refine hacc.append hg.appends hr hc he hnew fun us zs hus hzs => ofExpr_of_add hn ?_
  have hzero : Word.add 0 0 = some 0 := by decide
  rw [hus, ofExpr_eq hg.appends hp.1, hp.2]
  simp [add, hzs, hzero]

/-- A term with a negative coefficient is subtracted. -/
theorem sub_spells (hacc : Spells ctx (some acc) ts) (hp : SpellsTerm ctx p (e, m))
    (hm : Word.neg c = some m) (hc : c ≠ 0) (he : Atomic ctx e) (hnew : ∀ u ∈ ts, u.1 ≠ e) :
    Build.Ensures (Build.sub acc p) ctx fun r ctx' => Spells ctx' (some r) (ts ++ [(e, c)]) := by
  -- equal operands would read alike, but the sum has no term of this atom
  have hne : acc ≠ p := by
    rintro rfl
    obtain ⟨-, -, us, hus, -, hperm⟩ := hacc
    have hsame : us = [(e, m)] := congrArg Affine.terms (hus.symm.trans hp.2)
    exact hnew (e, m) (hperm.mem_iff.1 (hsame ▸ List.mem_singleton_self _)) rfl
  have hnode : Arith.sub.fold (ctx.literal? acc) (ctx.literal? p) (acc == p) = .node := by
    rw [hacc.literal?, hp.literal?]
    simp [Arith.fold, Arith.foldUnit, hne]
  refine (Build.arith_node hacc.1 hp.1 hnode).mono ?_
  rintro r ctx' hg ⟨hr, hn⟩
  refine hacc.append hg.appends hr hc he hnew fun us zs hus hzs => ofExpr_of_sub hn ?_
  have hmul : Word.mul 0 (-1) = some 0 := by decide
  have hzero : Word.add 0 0 = some 0 := by decide
  rw [hus, ofExpr_eq hg.appends hp.1, hp.2]
  simp [sub, scale, add, mul_neg_one hm, hmul, hzero, hzs]

theorem addTerm_spells (hacc : Spells ctx acc? ts) (he : Atomic ctx e) (hc : c ≠ 0)
    (hnew : ∀ u ∈ ts, u.1 ≠ e) :
    Build.Ensures (addTerm acc? (e, c)) ctx fun acc?' ctx' =>
      Spells ctx' acc?' (ts ++ [(e, c)]) := by
  unfold addTerm
  cases acc? with
  | none =>
      cases hacc
      dsimp only
      split
      · next h1 => exact .pure (SpellsTerm.spells ⟨he.1, h1 ▸ he.2⟩ hc he)
      · next h1 =>
        exact (mulConst_spells he hc h1).bind
          fun _ _ hg hp => .pure (hp.spells hc (he.mono hg.appends))
  | some acc =>
      have hadd : ∀ {ctx₁ : Context} {p : ExprId}, ctx.Appends ctx₁ → SpellsTerm ctx₁ p (e, c) →
          Build.Ensures (do return some (← Build.add acc p)) ctx₁ fun acc?' ctx' =>
            Spells ctx' acc?' (ts ++ [(e, c)]) := fun h₁ hp =>
        (add_spells (hacc.mono h₁) hp hc (he.mono h₁) hnew).bind fun _ _ _ h => .pure h
      dsimp only
      split
      · next h1 => exact hadd (.refl ctx) ⟨he.1, h1 ▸ he.2⟩
      · next h1 => exact (mulConst_spells he hc h1).bind fun _ _ hg => hadd hg.appends

theorem subTerm_spells (hacc : Spells ctx acc? ts) (he : Atomic ctx e) (hc : c < 0)
    (hnew : ∀ u ∈ ts, u.1 ≠ e) :
    Build.Ensures (subTerm acc? (e, c)) ctx fun acc?' ctx' =>
      Spells ctx' acc?' (ts ++ [(e, c)]) := by
  have hzero : c ≠ 0 := fun h => Int64.lt_irrefl (h ▸ hc)
  have hone : c ≠ 1 := fun h => absurd (h ▸ hc) (by decide)
  unfold subTerm
  dsimp only
  split
  · next acc m hm =>
    have hm0 := neg_ne_zero hzero hm
    have hsub : ∀ {ctx₁ : Context} {p : ExprId}, ctx.Appends ctx₁ → SpellsTerm ctx₁ p (e, m) →
        Build.Ensures (do return some (← Build.sub acc p)) ctx₁ fun acc?' ctx' =>
          Spells ctx' acc?' (ts ++ [(e, c)]) := fun h₁ hp =>
      (sub_spells (hacc.mono h₁) hp hm hzero (he.mono h₁) hnew).bind fun _ _ _ h => .pure h
    split
    · next h1 => exact hsub (.refl ctx) ⟨he.1, h1 ▸ he.2⟩
    · next h1 => exact (mulConst_spells he hm0 h1).bind fun _ _ hg => hsub hg.appends
  · next acc _ =>
    refine (mulConst_spells he hzero hone).bind fun p ctx₁ hg hp => ?_
    exact (add_spells (hacc.mono hg.appends) hp hzero (he.mono hg.appends) hnew).bind
      fun _ _ _ h => .pure h
  · cases hacc
    refine (mulConst_spells he hzero hone).bind fun p ctx₁ hg hp => ?_
    exact .pure (hp.spells hzero (he.mono hg.appends))

/-- Steps that write one term each write all of them. -/
theorem foldlM_spells {step : Option ExprId → ExprId × Int64 → Build (Option ExprId)}
    {C : Int64 → Prop} (hstep : ∀ {ctx acc? ts e c}, Spells ctx acc? ts → Atomic ctx e → C c →
      (∀ u ∈ ts, u.1 ≠ e) → Build.Ensures (step acc? (e, c)) ctx fun acc?' ctx' =>
        Spells ctx' acc?' (ts ++ [(e, c)]))
    (hacc : Spells ctx acc? ts) (hatoms : ∀ u ∈ us, Atomic ctx u.1) (hus : ∀ u ∈ us, C u.2)
    (hdistinct : (ts ++ us).Pairwise fun t u => t.1 ≠ u.1) :
    Build.Ensures (us.foldlM step acc?) ctx fun acc?' ctx' => Spells ctx' acc?' (ts ++ us) := by
  induction us generalizing ctx acc? ts with
  | nil => exact .pure (by rwa [List.append_nil])
  | cons u us ih =>
      rw [List.forall_mem_cons] at hatoms hus
      rw [List.foldlM_cons]
      have hnew : ∀ t ∈ ts, t.1 ≠ u.1 := fun t ht =>
        (List.pairwise_append.1 hdistinct).2.2 t ht u List.mem_cons_self
      rw [List.append_cons] at hdistinct ⊢
      exact (hstep hacc hatoms.1 hus.1 hnew).bind fun acc?' ctx₁ hg hacc' =>
        ih hacc' (fun v hv => (hatoms.2 v hv).mono hg.appends) hus.2 hdistinct

/-! ## Writing a form -/

/-- The terms of a form, those with positive coefficients first. -/
def writeTerms (f : Affine) : Build (Option ExprId) := do
  let acc? ← (f.terms.filter (0 < ·.2)).foldlM addTerm none
  (f.terms.filter (·.2 < 0)).foldlM subTerm acc?

/-- The constant of a form after its terms. -/
def writeConst (c : Int64) (type : Scalar) (acc? : Option ExprId) : Build ExprId :=
  match acc? with
  | none => Build.constant c type
  | some acc =>
    if 0 < c then Build.addConst acc c
    else if c < 0 then
      match Word.neg c with
      | some m => do Build.sub acc (← Build.constantLike m acc)
      | none => Build.addConst acc c
    else return acc

theorem toExpr_eq (f : Affine) (type : Scalar) :
    f.toExpr type = f.writeTerms >>= writeConst f.const type := by
  rw [writeTerms, bind_assoc]
  rfl

/-- No term is left out. -/
theorem signs_perm (h : Normal P ts) : (ts.filter (0 < ·.2) ++ ts.filter (·.2 < 0)).Perm ts := by
  have hneg : ts.filter (·.2 < 0) = ts.filter fun t => !decide (0 < t.2) := by
    refine List.filter_congr fun t ht => ?_
    have hne := h.nonzero t ht
    rw [Ne, ← Word.toInt_eq_zero_iff] at hne
    simp only [Int64.lt_iff_toInt_lt, Int64.toInt_zero, ← decide_not, decide_eq_decide]
    omega
  rw [hneg]
  exact List.filter_append_perm _ _

theorem writeTerms_spells (hf : Normal (Atomic ctx) f.terms) :
    Build.Ensures f.writeTerms ctx fun acc? ctx' => Spells ctx' acc? f.terms := by
  have hperm := signs_perm hf
  have hdistinct := (hperm.pairwise_iff fun h => h.symm).2 hf.distinct
  have hatoms : ∀ q : ExprId × Int64 → Bool, ∀ t ∈ f.terms.filter q, Atomic ctx t.1 :=
    fun q t ht => hf.atoms t (List.mem_filter.1 ht).1
  have hpos : ∀ t ∈ f.terms.filter (0 < ·.2), t.2 ≠ 0 :=
    fun t ht => hf.nonzero t (List.mem_filter.1 ht).1
  have hneg : ∀ t ∈ f.terms.filter (·.2 < 0), t.2 < 0 :=
    fun t ht => by simpa using (List.mem_filter.1 ht).2
  have hnone : Spells ctx none [] := rfl
  refine (foldlM_spells (C := (· ≠ 0)) addTerm_spells hnone (hatoms _) hpos
    (List.pairwise_append.1 hdistinct).1).bind fun acc?₁ ctx₁ hg hacc₁ => ?_
  rw [List.nil_append] at hacc₁
  refine (foldlM_spells (C := (· < 0)) subTerm_spells hacc₁
    (fun t ht => (hatoms _ t ht).mono hg.appends) hneg hdistinct).mono fun acc? ctx₂ _ hacc => ?_
  cases acc? with
  | none =>
      have hnil : ([] : List (ExprId × Int64)).Perm f.terms := hacc ▸ hperm
      exact hnil.symm.eq_nil
  | some acc =>
      obtain ⟨hs, hne, us, hus, hnormal, hsame⟩ := hacc
      exact ⟨hs, fun hnil => hne (hperm.trans (.of_eq hnil)).eq_nil, us, hus, hnormal,
        hsame.trans hperm⟩

/-- A literal after the terms stays an operand of its own. -/
theorem arith_literal_reads {op : Arith} (hs : ctx.Stored acc) (hread : ofExpr ctx acc = ⟨ts, 0⟩)
    (hts : ts ≠ []) (hfold : op.fold none (some w) false = .node)
    (hop : ∀ {ctx' : Context} {r l}, ctx'.node r = .arith op acc l →
      ofExpr ctx' acc = ⟨ts, 0⟩ → ofExpr ctx' l = ofConst w → ofExpr ctx' r = ⟨ts, c⟩) :
    Build.Ensures (do Build.arith op acc (← Build.constantLike w acc)) ctx fun r ctx' =>
      ctx'.Stored r ∧ ofExpr ctx' r = ⟨ts, c⟩ := by
  refine Build.Ensures.bind (Build.Ensures.get (constant_reads ctx w _)) ?_
  intro l ctx₁ hg ⟨hl, hlit⟩
  rw [← ofExpr_eq hg.appends hs] at hread
  have hnone : ctx₁.literal? acc = none := literal?_eq_none (by rwa [hread])
  have hne : (acc == l) = false := beq_false_of_ne fun h => by
    subst h
    cases hnone.symm.trans hlit
  refine (Build.arith_node (hg.appends.stored hs) hl ?_).mono fun r ctx₂ hg₂ ⟨hr, hn⟩ => ⟨hr, ?_⟩
  · rw [hnone, hlit, hne, hfold]
  · exact hop hn ((ofExpr_eq hg₂.appends (hg.appends.stored hs)).trans hread)
      (ofExpr_of_literal? ((hg₂.appends.literal?_eq hl).trans hlit))

theorem addConst_reads (hs : ctx.Stored acc) (hread : ofExpr ctx acc = ⟨ts, 0⟩) (hts : ts ≠ [])
    (hc : c ≠ 0) : Build.Ensures (Build.addConst acc c) ctx fun r ctx' =>
      ctx'.Stored r ∧ ofExpr ctx' r = ⟨ts, c⟩ := by
  refine arith_literal_reads hs hread hts ?_ fun hn hacc hl => ofExpr_of_add hn ?_
  · simp [Arith.fold, Arith.foldUnit, hc]
  · rw [hacc, hl, terms_add_const]

theorem subConst_reads (hs : ctx.Stored acc) (hread : ofExpr ctx acc = ⟨ts, 0⟩) (hts : ts ≠ [])
    (hc : c ≠ 0) (hm : Word.neg c = some m) :
    Build.Ensures (do Build.sub acc (← Build.constantLike m acc)) ctx fun r ctx' =>
      ctx'.Stored r ∧ ofExpr ctx' r = ⟨ts, c⟩ := by
  refine arith_literal_reads hs hread hts ?_ fun hn hacc hl => ofExpr_of_sub hn ?_
  · simp [Arith.fold, Arith.foldUnit, neg_ne_zero hc hm]
  · rw [hacc, hl, terms_sub_const _ hm]

/-- Written and read back, a form is the same. -/
theorem toExpr_reads (hf : Normal (Atomic ctx) f.terms) (type : Scalar) :
    Build.Ensures (f.toExpr type) ctx fun r ctx' => ctx'.Stored r ∧ ofExpr ctx' r = f := by
  rw [toExpr_eq]
  refine (writeTerms_spells hf).bind fun acc? ctx₁ hg hacc => ?_
  obtain ⟨ts, c⟩ := f
  cases acc? with
  | none =>
      cases hacc
      exact (constant_reads ctx₁ c type).mono fun r ctx₂ _ ⟨hr, hlit⟩ =>
        ⟨hr, ofExpr_of_literal? hlit⟩
  | some acc =>
      obtain ⟨hs, hne, us, hus, hnormal, hperm⟩ := hacc
      obtain rfl := hnormal.eq_of_perm hf hperm
      unfold writeConst
      dsimp only
      split
      · next hpos =>
        exact addConst_reads hs hus hne fun h => Int64.lt_irrefl (h ▸ hpos)
      split
      · next hneg =>
        have hc : c ≠ 0 := fun h => Int64.lt_irrefl (h ▸ hneg)
        split
        · next m hm => exact subConst_reads hs hus hne hc hm
        · exact addConst_reads hs hus hne hc
      · next hpos hneg =>
        have hc : c = 0 := Int64.le_antisymm (Int64.not_lt.1 hpos) (Int64.not_lt.1 hneg)
        exact .pure ⟨hs, hc ▸ hus⟩

/-! ## What a form is written as -/

/-- The form is written as `r`, all of which is stored. -/
def Writes (ctx : Context) (f : Affine) (type : Scalar) (r : ExprId) : Prop :=
  (f.toExpr type).run ctx = (r, ctx)

theorem replays_of_normal (hf : Normal (Atomic ctx) f.terms) (type : Scalar) :
    Build.Replays (f.toExpr type) ctx fun _ _ => True :=
  (toExpr_replays ⟨fun t ht => (hf.atoms t ht).1, fun _ => le_rfl⟩ type).mono
    fun _ _ _ _ => trivial

/-- What a form is written as stays the same. -/
theorem Writes.mono (h : Writes ctx f type r) (hf : Normal (Atomic ctx) f.terms)
    (hctx : ctx.Appends ctx') : Writes ctx' f type r := by
  have hagain := (replays_of_normal hf type).again ctx' (by rwa [h])
  rwa [h] at hagain

theorem toExpr_writes (hf : Normal (Atomic ctx) f.terms) (type : Scalar) :
    Build.Ensures (f.toExpr type) ctx fun r ctx' => Writes ctx' f type r :=
  ⟨(replays_of_normal hf type).grows, (replays_of_normal hf type).again _ (.refl _)⟩

theorem Writes.reads (h : Writes ctx f type r) (hf : Normal (Atomic ctx) f.terms) :
    ctx.Stored r ∧ ofExpr ctx r = f := by
  have hreads := (toExpr_reads hf type).2
  rwa [h] at hreads

/-- Under one type, different forms are written differently. -/
theorem Writes.eq_iff {r' : ExprId} (h : Writes ctx f type r) (h' : Writes ctx g type r')
    (hf : Normal (Atomic ctx) f.terms) (hg : Normal (Atomic ctx) g.terms) : r = r' ↔ f = g := by
  constructor
  · rintro rfl
    exact (h.reads hf).2.symm.trans (h'.reads hg).2
  · rintro rfl
    exact congrArg Prod.fst (h.symm.trans h')

/-- The type only matters to a form without terms. -/
theorem Writes.retype (h : Writes ctx f type r) (hf : Normal (Atomic ctx) f.terms)
    (hterms : f.terms ≠ []) (type' : Scalar) : Writes ctx f type' r := by
  have hspells := (writeTerms_spells hf).2
  rw [Writes, toExpr_eq, StateT.run_bind] at h ⊢
  cases hacc : (f.writeTerms.run ctx).1 with
  | none =>
      rw [hacc] at hspells
      exact absurd hspells hterms
  | some acc =>
      change (writeConst f.const type (f.writeTerms.run ctx).1).run _ = _ at h
      change (writeConst f.const type' (f.writeTerms.run ctx).1).run _ = _
      rw [hacc] at h ⊢
      exact h

/-- Exactly the forms without terms are written as literals. -/
theorem Writes.literal? (h : Writes ctx f type r) (hf : Normal (Atomic ctx) f.terms) :
    ctx.literal? r = f.const? := by
  obtain ⟨ts, c⟩ := f
  cases ts with
  | nil =>
      have hreads := (constant_reads ctx c type).2
      change (Build.constant c type).run ctx = _ at h
      rw [h] at hreads
      exact hreads.2
  | cons t ts =>
      refine literal?_eq_none ?_
      rw [(h.reads hf).2]
      exact List.cons_ne_nil t ts

/-- A literal is what its value is written as. -/
theorem writes_literal (he : ctx.Stored e) (hn : ctx.node e = .const w type) :
    Writes ctx (ofConst w) type e :=
  Context.intern_of_node he hn

theorem writes_atom (ctx : Context) (e : ExprId) (type : Scalar) : Writes ctx (atom e) type e := rfl

end Affine

end LoopBounds
