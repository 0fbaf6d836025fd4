import LoopBounds.Proofs.Fold

/-!
# Evaluation with truth values

Evaluation as a relation that only holds where the connectives it meets see truth values.  Its
operators are either the exact ones or those of words, so what follows from the rules of the
relation holds of exact values and of values over words alike.
-/

namespace LoopBounds

/-- A choice among the exact results of operators. -/
structure Arithmetic where
  gives : Arith → Int → Int → Int → Prop
  exact : ∀ {op x y z}, gives op x y z → op.exact x y = some z

namespace Arithmetic

def unbounded : Arithmetic where
  gives op x y z := op.exact x y = some z
  exact := id

/-- The results that words have. -/
def words : Arithmetic where
  gives op x y z := ∃ u v w : Int64, u.toInt = x ∧ v.toInt = y ∧ w.toInt = z ∧
    op.apply u v = some w
  exact := by
    rintro op _ _ _ ⟨u, v, w, rfl, rfl, rfl, h⟩
    exact Arith.exact_of_apply h

end Arithmetic

namespace Valuation

/-- `μ` is where the body of `f` is evaluated when the arguments of a call have the values that
`vals` gives them. -/
def Calls (ν : Valuation) (vals : ExprId → Option Int) (f : FunId) (args : List ExprId)
    (dims : List DimId) (μ : Valuation) : Prop :=
  ∃ depth inner, ν.depth = depth + 1 ∧
    (ν.ctx.fn f).bindParams (fun dim => (argument? args dims dim).bind vals) = some inner ∧
    ⟨ν.ctx, depth, inner⟩ = μ

inductive Evaluates (A : Arithmetic) : Valuation → ExprId → Int → Prop
  | const {ν e w t} (hn : ν.ctx.node e = .const w t) : Evaluates A ν e w.toInt
  | var {ν e v x} (hn : ν.ctx.node e = .var v) (hx : ν.env v = some x) : Evaluates A ν e x
  | arith {ν e op a b x y z} (hn : ν.ctx.node e = .arith op a b) (ha : Evaluates A ν a x)
    (hb : Evaluates A ν b y) (hz : A.gives op x y z) : Evaluates A ν e z
  | compare {ν e op a b x y} (hn : ν.ctx.node e = .compare op a b) (ha : Evaluates A ν a x)
    (hb : Evaluates A ν b y) : Evaluates A ν e (op.exact x y).toInt
  | andFalse {ν e a b} (hn : ν.ctx.node e = .and a b) (ha : Evaluates A ν a 0) : Evaluates A ν e 0
  | andTrue {ν e a b z} (hn : ν.ctx.node e = .and a b) (ha : Evaluates A ν a 1)
    (hb : Evaluates A ν b z) (hz : IsBit z) : Evaluates A ν e z
  | orTrue {ν e a b} (hn : ν.ctx.node e = .or a b) (ha : Evaluates A ν a 1) : Evaluates A ν e 1
  | orFalse {ν e a b z} (hn : ν.ctx.node e = .or a b) (ha : Evaluates A ν a 0)
    (hb : Evaluates A ν b z) (hz : IsBit z) : Evaluates A ν e z
  | not {ν e a x} (hn : ν.ctx.node e = .not a) (ha : Evaluates A ν a x) (hx : IsBit x) :
    Evaluates A ν e (decide (x = 0)).toInt
  | call {ν μ e f args dims body z g} (hn : ν.ctx.node e = .call f args dims)
    (hbody : (ν.ctx.fn f).body? = some body) (hg : ∀ a x, g a = some x → Evaluates A ν a x)
    (hμ : ν.Calls g f args dims μ) (hz : Evaluates A μ body z) : Evaluates A ν e z

variable {A : Arithmetic} {ν ν' μ : Valuation} {e a b : ExprId} {x y z : Int}

theorem calls_congr {vals vals' : ExprId → Option Int} {f : FunId} {args args' : List ExprId}
    {dims : List DimId}
    (h : List.Forall₂ (fun a c => ∀ x, vals a = some x → vals' c = some x) args args')
    (hμ : ν.Calls vals f args dims μ) : ν.Calls vals' f args' dims μ := by
  obtain ⟨depth, inner, hdepth, hbind, rfl⟩ := hμ
  refine ⟨depth, inner, hdepth, ?_, rfl⟩
  refine IndexFun.bindParams_same (fun pd _ a ha x hx => ?_) hbind
  obtain ⟨c, hc, hac⟩ := IndexFun.argument?_forall₂ h ha
  exact ⟨c, hc, hac x hx⟩

/-! ## The value that a relation gives -/

theorem Evaluates.value (h : ν.Evaluates A e z) : ν.value e = some z := by
  induction h with
  | const hn => exact value_const hn
  | var hn hx => exact (value_var hn).trans hx
  | arith hn _ _ hz iha ihb =>
      rw [value_arith hn, iha, ihb]
      exact A.exact hz
  | compare hn _ _ iha ihb =>
      rw [value_compare hn, iha, ihb]
      rfl
  | andFalse hn _ iha =>
      rw [value_and hn, iha]
      rfl
  | andTrue hn _ _ hz iha ihb =>
      rw [value_and hn]
      exact Conjoins.value (.inr ⟨iha, ihb, hz⟩)
  | orTrue hn _ iha =>
      rw [value_or hn, iha]
      rfl
  | orFalse hn _ _ hz iha ihb =>
      rw [value_or hn]
      exact Disjoins.value (.inr ⟨iha, ihb, hz⟩)
  | not hn _ _ iha =>
      rw [value_not hn, iha]
      rfl
  | @call ν μ e f args dims body z vals hn hbody _ hμ _ ihvals ihz =>
      have hself : ∀ (as : List ExprId),
          List.Forall₂ (fun a c => ∀ x, vals a = some x → ν.value c = some x) as as := fun as =>
        List.forall₂_same.2 fun a _ => ihvals a
      obtain ⟨depth, inner, hdepth, hbind, rfl⟩ := calls_congr (hself args) hμ
      have henter := enter_eq_some.2 ⟨depth, inner, hdepth, hbind, rfl⟩
      rw [value_call hn, hbody, Option.bind_some, henter, Option.bind_some, ihz]

theorem Evaluates.unique (hx : ν.Evaluates A e x) (hy : ν.Evaluates A e y) : x = y :=
  Option.some_inj.1 (hx.value.symm.trans hy.value)

theorem Evaluates.eval {env : Env Int64} (henv : ν.env = env.exact)
    (h : ν.Evaluates .words e z) :
    ∃ w, ν.ctx.evalWithin ν.depth env e = some w ∧ w.toInt = z := by
  induction h generalizing env with
  | const hn => exact ⟨_, Context.eval_const hn, rfl⟩
  | var hn hx =>
      rw [henv, Env.exact] at hx
      obtain ⟨w, hw, rfl⟩ := Option.map_eq_some_iff.1 hx
      exact ⟨w, (Context.eval_var hn).trans hw, rfl⟩
  | arith hn _ _ hz iha ihb =>
      obtain ⟨u, v, w, hu, hv, rfl, hw⟩ := hz
      obtain ⟨u', hu', rfl⟩ := iha henv
      obtain ⟨v', hv', rfl⟩ := ihb henv
      rw [Int64.toInt_inj] at hu hv
      subst hu hv
      refine ⟨w, ?_, rfl⟩
      rw [Context.eval_arith hn, hu', hv', Option.bind_some, Option.bind_some, hw]
  | compare hn _ _ iha ihb =>
      obtain ⟨u, hu, rfl⟩ := iha henv
      obtain ⟨v, hv, rfl⟩ := ihb henv
      refine ⟨_, by rw [Context.eval_compare hn, hu, hv, Option.bind_some, Option.map_some], ?_⟩
      rw [toInt_truth, Comparison.holds_eq_exact]
  | andFalse hn _ iha =>
      obtain ⟨u, hu, h0⟩ := iha henv
      rw [Word.toInt_eq_zero_iff] at h0
      exact ⟨0, by rw [Context.eval_and hn, hu, Option.bind_some, if_pos h0], rfl⟩
  | andTrue hn _ _ hz iha ihb =>
      obtain ⟨u, hu, h1⟩ := iha henv
      obtain ⟨v, hv, rfl⟩ := ihb henv
      have h0 : u ≠ 0 := fun h0 => by simp [h0] at h1
      refine ⟨truth (v ≠ 0), ?_, ?_⟩
      · rw [Context.eval_and hn, hu, Option.bind_some, if_neg h0, hv, Option.map_some]
      · rw [toInt_truth]
        simpa only [ne_eq, Word.toInt_eq_zero_iff] using hz.toInt_ne_zero
  | orTrue hn _ iha =>
      obtain ⟨u, hu, h1⟩ := iha henv
      have h0 : u ≠ 0 := fun h0 => by simp [h0] at h1
      exact ⟨1, by rw [Context.eval_or hn, hu, Option.bind_some, if_neg h0], rfl⟩
  | orFalse hn _ _ hz iha ihb =>
      obtain ⟨u, hu, h0⟩ := iha henv
      obtain ⟨v, hv, rfl⟩ := ihb henv
      rw [Word.toInt_eq_zero_iff] at h0
      refine ⟨truth (v ≠ 0), ?_, ?_⟩
      · rw [Context.eval_or hn, hu, Option.bind_some, if_pos h0, hv, Option.map_some]
      · rw [toInt_truth]
        simpa only [ne_eq, Word.toInt_eq_zero_iff] using hz.toInt_ne_zero
  | not hn _ _ iha =>
      obtain ⟨u, hu, rfl⟩ := iha henv
      refine ⟨truth (u = 0), by rw [Context.eval_not hn, hu, Option.map_some], ?_⟩
      rw [toInt_truth]
      simp only [Word.toInt_eq_zero_iff]
  | @call ν μ e f args dims body z vals hn hbody _ hμ _ ihvals ihz =>
      obtain ⟨depth, inner, hdepth, hbind, rfl⟩ := hμ
      obtain ⟨inner', hinner', hexact⟩ :=
        exists_bindParams (fun pd _ a _ x hx => ihvals a x hx henv) hbind
      obtain ⟨w, hw, hwz⟩ := ihz hexact
      refine ⟨w, ?_, hwz⟩
      rw [Context.eval_call hn, hbody, Option.bind_some, hinner', Option.bind_some, hdepth]
      exact hw

/-! ## Where the relation holds -/

/-- The connectives that evaluation meets see truth values. -/
def Truthful (ν : Valuation) (e : ExprId) : Prop :=
  ∀ μ c μ' a x, ν.Demands e μ c → μ.Needs c μ' a → a ∈ (μ.ctx.node c).conditions →
    μ'.value a = some x → IsBit x

theorem Truthful.of_needs {c : ExprId} (h : ν.Truthful e) (hc : ν.Needs e μ c) : μ.Truthful c :=
  fun μ₁ c₁ μ₂ a x hd => h μ₁ c₁ μ₂ a x (hd.of_needs hc)

theorem Truthful.isBit {c : ExprId} (h : ν.Truthful e) (hc : ν.Needs e μ c)
    (hmem : c ∈ (ν.ctx.node e).conditions) (hx : μ.value c = some x) : IsBit x :=
  h ν e μ c x .self hc hmem hx

theorem Needs.mem_args {f : FunId} {args : List ExprId} {dims : List DimId}
    (hn : ν.ctx.node e = .call f args dims) (h : ν.Needs e ν a) : a ∈ args := by
  cases h with
  | operand h => exact absurd h (by simp [hn, Node.required])
  | andRight h => cases hn.symm.trans h
  | orRight h => cases hn.symm.trans h
  | argument h _ ha =>
      cases hn.symm.trans h
      exact mem_of_argument? ha
  | body h hb hμ => exact absurd (enter_depth hμ) (lt_irrefl _)

open Classical in
/-- Only the arguments that stand for a parameter are looked at. -/
theorem Calls.needed {vals : ExprId → Option Int} {f : FunId} {args : List ExprId}
    {dims : List DimId} (hn : ν.ctx.node e = .call f args dims) (h : ν.Calls vals f args dims μ) :
    ν.Calls (fun a => if ν.Needs e ν a then vals a else none) f args dims μ := by
  obtain ⟨depth, inner, hdepth, hbind, rfl⟩ := h
  refine ⟨depth, inner, hdepth, ?_, rfl⟩
  exact IndexFun.bindParams_same (fun pd hpd a ha x hx =>
    ⟨a, ha, (if_pos (Needs.argument hn hpd ha)).trans hx⟩) hbind

theorem Plain.truthful (h : ν.Plain) (e : ExprId) : ν.Truthful e := by
  intro μ c μ' a x hd hneeds hmem hx
  have hreach := (Reaches.top e).demands hd
  obtain rfl := h.eq_of_reaches hreach
  obtain rfl := h.eq_of_reaches (hreach.needs hneeds)
  have hadmits : μ'.Admits Env.empty := h.admits nofun
  exact hadmits.isBit c a hmem x hx

/-- A context without connectives. -/
theorem truthful_of_conditionless (h : ∀ i < ν.ctx.size, (ν.ctx.node ⟨i⟩).conditions = [])
    (e : ExprId) : ν.Truthful e := by
  intro μ c μ' a x hd _ hmem _
  rw [((Reaches.top e).demands hd).ctx_eq] at hmem
  by_cases hc : ν.ctx.Stored c
  · rw [h c.index hc] at hmem
    cases hmem
  · rw [Context.node_of_not_stored hc] at hmem
    cases hmem

/-- More is stored at `ν'`, its calls go at least as deep, and it has the variables that
evaluation of `e` at `ν` looks at. -/
structure Carries (ν ν' : Valuation) (e : ExprId) : Prop where
  ctx : ν.ctx.Grows ν'.ctx
  wellFormed : ν.ctx.WellFormed
  stored : ν.ctx.Stored e
  depth : ν.depth ≤ ν'.depth
  env : ∀ c v x, ν.Demands e ν c → ν.ctx.node c = .var v → ν.env v = some x → ν'.env v = some x

theorem Carries.node (h : ν.Carries ν' e) : ν'.ctx.node e = ν.ctx.node e :=
  Context.node_eq h.ctx.le h.stored

theorem Carries.needs {c : ExprId} (h : ν.Carries ν' e) (hc : c ∈ (ν.ctx.node e).children)
    (hneeds : ν.Needs e ν c) : ν.Carries ν' c :=
  ⟨h.ctx, h.wellFormed, h.stored.child hc, h.depth,
   fun c' v x hd => h.env c' v x (hd.of_needs hneeds)⟩

theorem Carries.required {c : ExprId} (h : ν.Carries ν' e) (hc : c ∈ (ν.ctx.node e).required) :
    ν.Carries ν' c :=
  h.needs (Node.required_subset _ hc) (.operand hc)

theorem Evaluates.mono (h : ν.Evaluates A e z) (hcarries : ν.Carries ν' e) :
    ν'.Evaluates A e z := by
  induction h generalizing ν' with
  | const hn => exact .const (hcarries.node.trans hn)
  | var hn hx => exact .var (hcarries.node.trans hn) (hcarries.env _ _ _ .self hn hx)
  | arith hn _ _ hz iha ihb =>
      have ha := iha (hcarries.required (by simp [hn, Node.required]))
      have hb := ihb (hcarries.required (by simp [hn, Node.required]))
      exact .arith (hcarries.node.trans hn) ha hb hz
  | compare hn _ _ iha ihb =>
      have ha := iha (hcarries.required (by simp [hn, Node.required]))
      have hb := ihb (hcarries.required (by simp [hn, Node.required]))
      exact .compare (hcarries.node.trans hn) ha hb
  | andFalse hn _ iha =>
      have ha := iha (hcarries.required (by simp [hn, Node.required]))
      exact .andFalse (hcarries.node.trans hn) ha
  | andTrue hn hx _ hz iha ihb =>
      have ha := iha (hcarries.required (by simp [hn, Node.required]))
      have hb := ihb (hcarries.needs (by simp [hn, Node.children])
        (.andRight hn hx.value one_ne_zero))
      exact .andTrue (hcarries.node.trans hn) ha hb hz
  | orTrue hn _ iha =>
      have ha := iha (hcarries.required (by simp [hn, Node.required]))
      exact .orTrue (hcarries.node.trans hn) ha
  | orFalse hn hx _ hz iha ihb =>
      have ha := iha (hcarries.required (by simp [hn, Node.required]))
      have hb := ihb (hcarries.needs (by simp [hn, Node.children]) (.orRight hn hx.value))
      exact .orFalse (hcarries.node.trans hn) ha hb hz
  | not hn _ hx iha =>
      have ha := iha (hcarries.required (by simp [hn, Node.required]))
      exact .not (hcarries.node.trans hn) ha hx
  | @call ν μ e f args dims body z vals hn hbody _ hμ _ ihvals ihz =>
      obtain ⟨depth, inner, hdepth, hbind, rfl⟩ := hμ.needed hn
      have hle := hcarries.depth
      obtain ⟨depth', hdepth'⟩ : ∃ depth', ν'.depth = depth' + 1 :=
        Nat.exists_eq_succ_of_ne_zero (by omega)
      have hfn := hcarries.ctx.fn_eq f
      have hinner : Evaluates A ⟨ν'.ctx, depth', inner⟩ body z := by
        apply @ihz ⟨ν'.ctx, depth', inner⟩
        refine ⟨hcarries.ctx, hcarries.wellFormed, hcarries.wellFormed.body f body hbody, ?_,
          fun _ _ _ _ _ => id⟩
        change depth ≤ depth'
        omega
      refine .call (hcarries.node.trans hn) (hfn.symm ▸ hbody) (fun a x hx => ?_)
        ⟨depth', inner, hdepth', hfn.symm ▸ hbind, rfl⟩ hinner
      obtain ⟨hneeds, hx⟩ := Option.ite_none_right_eq_some.1 hx
      have hmem : a ∈ (ν.ctx.node e).children := hn ▸ hneeds.mem_args hn
      exact ihvals a x hx (hcarries.needs hmem hneeds)

/-- An exact value is given by the relation when its operators have all results met on the
way. -/
theorem evaluates_of_value (hz : ν.value e = some z) (htruth : ν.Truthful e)
    (hA : ∀ μ c op a b x y z, ν.Demands e μ c → μ.ctx.node c = .arith op a b →
      μ.value a = some x → μ.value b = some y → op.exact x y = some z → A.gives op x y z) :
    ν.Evaluates A e z := by
  induction ν, e using induction generalizing z with
  | step ν e ihc ihb =>
    have operand : ∀ c ∈ (ν.ctx.node e).children, ∀ x, ν.value c = some x → ν.Needs e ν c →
        ν.Evaluates A c x := fun c hc x hx hneeds =>
      ihc c hc hx (htruth.of_needs hneeds) fun μ c' op a b x y z hd =>
        hA μ c' op a b x y z (hd.of_needs hneeds)
    have required : ∀ c ∈ (ν.ctx.node e).required, ∀ x, ν.value c = some x →
        ν.Evaluates A c x := fun c hc x hx =>
      operand c (Node.required_subset _ hc) x hx (.operand hc)
    cases hn : ν.ctx.node e with
    | const w t =>
        rw [value_const hn] at hz
        cases hz
        exact .const hn
    | var v => exact .var hn ((value_var hn).symm.trans hz)
    | arith op a b =>
        obtain ⟨x, y, hx, hy, hz⟩ := (value_arith_eq_some hn).1 hz
        have ha := required a (by simp [hn, Node.required]) x hx
        have hb := required b (by simp [hn, Node.required]) y hy
        exact .arith hn ha hb (hA ν e op a b x y z .self hn hx hy hz)
    | compare op a b =>
        obtain ⟨x, y, hx, hy, rfl⟩ := (value_compare_eq_some hn).1 hz
        have ha := required a (by simp [hn, Node.required]) x hx
        have hb := required b (by simp [hn, Node.required]) y hy
        exact .compare hn ha hb
    | and a b =>
        have hmem : a ∈ (ν.ctx.node e).required := by simp [hn, Node.required]
        obtain ⟨hx, rfl⟩ | ⟨x, y, hx, h0, hy, rfl⟩ := (value_and_eq_some hn).1 hz
        · exact .andFalse hn (required a hmem 0 hx)
        · obtain rfl := (htruth.isBit (.operand hmem) (by simp [hn, Node.conditions])
            hx).resolve_left h0
          have hneeds : ν.Needs e ν b := .andRight hn hx one_ne_zero
          have hbit := htruth.isBit hneeds (by simp [hn, Node.conditions]) hy
          have hb := operand b (by simp [hn, Node.children]) y hy hneeds
          rw [hbit.toInt_ne_zero]
          exact .andTrue hn (required a hmem 1 hx) hb hbit
    | or a b =>
        have hmem : a ∈ (ν.ctx.node e).required := by simp [hn, Node.required]
        obtain ⟨hx, y, hy, rfl⟩ | ⟨⟨x, hx, h0⟩, rfl⟩ := (value_or_eq_some hn).1 hz
        · have hneeds : ν.Needs e ν b := .orRight hn hx
          have hbit := htruth.isBit hneeds (by simp [hn, Node.conditions]) hy
          have hb := operand b (by simp [hn, Node.children]) y hy hneeds
          rw [hbit.toInt_ne_zero]
          exact .orFalse hn (required a hmem 0 hx) hb hbit
        · obtain rfl := (htruth.isBit (.operand hmem) (by simp [hn, Node.conditions])
            hx).resolve_left h0
          exact .orTrue hn (required a hmem 1 hx)
    | not a =>
        obtain ⟨x, hx, rfl⟩ := (value_not_eq_some hn).1 hz
        have hmem : a ∈ (ν.ctx.node e).required := by simp [hn, Node.required]
        exact .not hn (required a hmem x hx)
          (htruth.isBit (.operand hmem) (by simp [hn, Node.conditions]) hx)
    | call f args dims =>
        obtain ⟨body, μ, hbody, hμ, hz⟩ := (value_call_eq_some hn).1 hz
        have hneeds := Needs.body hn hbody hμ
        have hinner := ihb μ body (enter_depth hμ) hz (htruth.of_needs hneeds)
          fun μ' c op a b x y z hd => hA μ' c op a b x y z (hd.of_needs hneeds)
        have hcalls : ν.Calls ν.value f args dims μ := enter_eq_some.1 hμ
        refine .call hn hbody (fun a x hx => ?_) (hcalls.needed hn) hinner
        obtain ⟨hneeds', hx⟩ := Option.ite_none_right_eq_some.1 hx
        have hmem : a ∈ (ν.ctx.node e).children := hn ▸ hneeds'.mem_args hn
        exact operand a hmem x hx hneeds'

theorem evaluates_unbounded (hz : ν.value e = some z) (htruth : ν.Truthful e) :
    ν.Evaluates .unbounded e z :=
  evaluates_of_value hz htruth fun _ _ _ _ _ _ _ _ _ _ _ _ h => h

theorem evaluates_words {env : Env Int64} (henv : ν.env = env.exact) {w : Int64}
    (hw : ν.ctx.evalWithin ν.depth env e = some w) (htruth : ν.Truthful e) :
    ν.Evaluates .words e w.toInt := by
  apply evaluates_of_value (value_of_eval henv hw) htruth
  intro μ c op a b x y z hd hn hx hy hz
  obtain ⟨env', w', henv', hw'⟩ := exists_eval_of_demands henv hw hd
  obtain ⟨u, v, hu, hv, hw'⟩ := (Context.eval_arith_eq_some hn).1 hw'
  cases hx.symm.trans (value_of_eval henv' hu)
  cases hy.symm.trans (value_of_eval henv' hv)
  cases hz.symm.trans (Arith.exact_of_apply hw')
  exact ⟨u, v, w', rfl, rfl, rfl, hw'⟩

/-! ## What folds see -/

open Classical in
/-- The value that the relation gives, if it gives one. -/
noncomputable def reading (A : Arithmetic) (ν : Valuation) (e : ExprId) : Option Int :=
  if h : ∃ z, ν.Evaluates A e z then some h.choose else none

theorem reading_eq_some : ν.reading A e = some z ↔ ν.Evaluates A e z := by
  unfold reading
  split
  · next h => exact ⟨fun hz => Option.some_inj.1 hz ▸ h.choose_spec,
    fun hz => congrArg some (h.choose_spec.unique hz)⟩
  · next h => exact ⟨nofun, fun hz => absurd ⟨z, hz⟩ h⟩

theorem Evaluates.var_inv {v : VarId} (h : ν.Evaluates A e z) (hn : ν.ctx.node e = .var v) :
    ν.env v = some z :=
  (value_var hn).symm.trans h.value

theorem Evaluates.arith_inv {op : Arith} (hn : ν.ctx.node e = .arith op a b)
    (h : ν.Evaluates A e z) : ∃ x y, ν.Evaluates A a x ∧ ν.Evaluates A b y ∧ A.gives op x y z := by
  cases h with
  | arith hn' ha hb hz =>
      cases hn.symm.trans hn'
      exact ⟨_, _, ha, hb, hz⟩
  | _ => simp_all

theorem Evaluates.compare_inv {op : Comparison} (hn : ν.ctx.node e = .compare op a b)
    (h : ν.Evaluates A e z) :
    ∃ x y, ν.Evaluates A a x ∧ ν.Evaluates A b y ∧ (op.exact x y).toInt = z := by
  cases h with
  | compare hn' ha hb =>
      cases hn.symm.trans hn'
      exact ⟨_, _, ha, hb, rfl⟩
  | _ => simp_all

theorem evaluates_and (hn : ν.ctx.node e = .and a b) :
    ν.Evaluates A e z ↔ Conjoins (ν.reading A a) (ν.reading A b) z := by
  simp only [Conjoins, reading_eq_some]
  constructor
  · intro h
    cases h with
    | andFalse hn' ha =>
        cases hn.symm.trans hn'
        exact .inl ⟨ha, rfl⟩
    | andTrue hn' ha hb hz =>
        cases hn.symm.trans hn'
        exact .inr ⟨ha, hb, hz⟩
    | _ => simp_all
  · rintro (⟨ha, rfl⟩ | ⟨ha, hb, hz⟩)
    exacts [.andFalse hn ha, .andTrue hn ha hb hz]

theorem evaluates_or (hn : ν.ctx.node e = .or a b) :
    ν.Evaluates A e z ↔ Disjoins (ν.reading A a) (ν.reading A b) z := by
  simp only [Disjoins, reading_eq_some]
  constructor
  · intro h
    cases h with
    | orTrue hn' ha =>
        cases hn.symm.trans hn'
        exact .inl ⟨ha, rfl⟩
    | orFalse hn' ha hb hz =>
        cases hn.symm.trans hn'
        exact .inr ⟨ha, hb, hz⟩
    | _ => simp_all
  · rintro (⟨ha, rfl⟩ | ⟨ha, hb, hz⟩)
    exacts [.orTrue hn ha, .orFalse hn ha hb hz]

theorem Evaluates.not_inv (hn : ν.ctx.node e = .not a) (h : ν.Evaluates A e z) :
    ∃ x, ν.Evaluates A a x ∧ IsBit x ∧ (decide (x = 0)).toInt = z := by
  cases h with
  | not hn' ha hx =>
      cases hn.symm.trans hn'
      exact ⟨_, ha, hx, rfl⟩
  | _ => simp_all

theorem Evaluates.call_inv {f : FunId} {args : List ExprId} {dims : List DimId}
    (hn : ν.ctx.node e = .call f args dims) (h : ν.Evaluates A e z) :
    ∃ body μ, (ν.ctx.fn f).body? = some body ∧ ν.Calls (ν.reading A) f args dims μ ∧
      μ.Evaluates A body z := by
  cases h with
  | @call _ μ _ _ _ _ body _ vals hn' hbody hvals hμ hz =>
      cases hn.symm.trans hn'
      refine ⟨body, μ, hbody, calls_congr (List.forall₂_same.2 fun a _ x hx => ?_) hμ, hz⟩
      exact reading_eq_some.2 (hvals a x hx)
  | _ => simp_all

theorem Evaluates.of_call {f : FunId} {args : List ExprId} {dims : List DimId} {body : ExprId}
    (hn : ν.ctx.node e = .call f args dims) (hbody : (ν.ctx.fn f).body? = some body)
    (hμ : ν.Calls (ν.reading A) f args dims μ) (hz : μ.Evaluates A body z) :
    ν.Evaluates A e z :=
  .call hn hbody (fun _ _ => reading_eq_some.1) hμ hz

end Valuation

end LoopBounds
