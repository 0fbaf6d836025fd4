import LoopBounds.Inference.Indices
import LoopBounds.Proofs.Containment
import LoopBounds.Proofs.Inversion

/-!
# Values of dimensions

The values that go down the relations of an operation solve all of them at once.  A dimension may
be given a value by several relations, or have one from the start: then the values were shown to
be equal.  An entry is never changed, so what a relation was seen to leave in the table stays.
-/

namespace LoopBounds

/-- The entries of one table are in the other. -/
def Facts.Keeps {t : Table} {α : Type} (values values' : Facts t α) : Prop :=
  ∀ (key : Handle t) (x : α), values[key]? = some x → values'[key]? = some x

namespace Facts.Keeps

variable {t : Table} {α : Type} {values values' values'' : Facts t α} {key : Handle t} {x : α}

theorem refl (values : Facts t α) : values.Keeps values := fun _ _ => id

theorem trans (h : values.Keeps values') (h' : values'.Keeps values'') : values.Keeps values'' :=
  fun key x hx => h' key x (h key x hx)

theorem mem (h : values.Keeps values') (hkey : key ∈ values) : key ∈ values' := by
  have hx := h key _ (Std.TreeMap.getElem?_eq_some_getElem hkey)
  exact Std.TreeMap.mem_iff_isSome_getElem?.2 (hx ▸ rfl)

end Facts.Keeps

/-- The function that defines dimension `d` has the value of `d` at the values of the dimensions
of its parameters, all of which are in the table. -/
def Operation.Defines (op : Operation) (ν : Valuation) (values : Facts .dim ExprId) (d : DimId) :
    Prop :=
  ∃ e definition, values[d]? = some e ∧
    op.definitions.find? (·.dim == d) = some definition ∧
    (∀ pd ∈ (ν.ctx.fn definition.value).signature, pd.2 ∈ values) ∧
    ∀ inner, (ν.ctx.fn definition.value).bindParams (fun c => values[c]?.bind ν.value) =
        some inner →
      ∀ body, (ν.ctx.fn definition.value).body? = some body →
        ∀ x y, ν.value e = some x → Valuation.value ⟨ν.ctx, ν.depth, inner⟩ body = some y → y = x

/-- The dimensions of the relation are in the table, and their values are as the relation says,
wherever they have values. -/
def DimRelation.Solved (op : Operation) (ν : Valuation) (known : Facts .dim Domain)
    (values : Facts .dim ExprId) : DimRelation → Prop
  | .reshape (.split parent outer inner _) => ∃ p o i d, values[parent]? = some p ∧
      values[outer]? = some o ∧ values[inner]? = some i ∧ known[inner]? = some d ∧
      ∀ x n, ν.value p = some x → ν.value d.extent = some n → n ≠ 0 →
        (∀ y, ν.value o = some y → y = x.fdiv n) ∧ ∀ y, ν.value i = some y → y = x.fmod n
  | .reshape (.fuse outer inner fused) => ∃ o i f d, values[outer]? = some o ∧
      values[inner]? = some i ∧ values[fused]? = some f ∧ known[inner]? = some d ∧
      ∀ x y n z, ν.value o = some x → ν.value i = some y → ν.value d.extent = some n →
        ν.value f = some z → z = x * n + y
  | .change old new => ∀ d ∈ old, d ∉ new → op.Defines ν values d

theorem IndexFun.bindParams_congr_dims {f : IndexFun} {k l : DimId → Option Int} {env : Env Int}
    (hkl : ∀ pd ∈ f.signature, k pd.2 = l pd.2) (h : f.bindParams k = some env) :
    f.bindParams l = some env := by
  obtain ⟨env', henv', hrel⟩ := bindParams_related (R := Eq) (k := l)
    (fun pd hpd x hx => ⟨x, (hkl pd hpd).symm.trans hx, rfl⟩) h
  exact hrel.eq ▸ henv'

theorem Operation.Defines.mono {op : Operation} {ν : Valuation} {values values' : Facts .dim ExprId}
    {d : DimId} (hkeeps : values.Keeps values') (h : op.Defines ν values d) :
    op.Defines ν values' d := by
  obtain ⟨e, definition, he, hdef, hdims, hvalue⟩ := h
  refine ⟨e, definition, hkeeps d e he, hdef, fun pd hpd => hkeeps.mem (hdims pd hpd), ?_⟩
  intro inner hinner
  refine hvalue inner (IndexFun.bindParams_congr_dims (fun pd hpd => ?_) hinner)
  have hc := Std.TreeMap.getElem?_eq_some_getElem (hdims pd hpd)
  rw [hc, hkeeps _ _ hc]

/-- Values that are found later change nothing. -/
theorem DimRelation.Solved.mono {op : Operation} {ν : Valuation} {known : Facts .dim Domain}
    {values values' : Facts .dim ExprId} {r : DimRelation} (hkeeps : values.Keeps values')
    (h : r.Solved op ν known values) : r.Solved op ν known values' := by
  rcases r with (⟨parent, outer, inner, size⟩ | ⟨outer, inner, fused⟩) | ⟨old, new⟩
  · obtain ⟨p, o, i, d, hp, ho, hi, h⟩ := h
    exact ⟨p, o, i, d, hkeeps _ _ hp, hkeeps _ _ ho, hkeeps _ _ hi, h⟩
  · obtain ⟨o, i, f, d, ho, hi, hf, h⟩ := h
    exact ⟨o, i, f, d, hkeeps _ _ ho, hkeeps _ _ hi, hkeeps _ _ hf, h⟩
  · exact fun d hd hnew => (h d hd hnew).mono hkeeps

namespace Sweep

variable {s s' : Session} {start values values' : Facts .dim ExprId} {key : DimId} {e : ExprId}

/-- A table on the way from `start`. -/
structure Held (start values : Facts .dim ExprId) (s : Session) : Prop where
  stored : ∀ (d : DimId) (e : ExprId), values[d]? = some e → s.ctx.Stored e
  start : start.Keeps values

theorem Held.mono (hg : s.ctx.Grows s'.ctx) (h : Held start values s) : Held start values s' :=
  ⟨fun d e hd => (h.stored d e hd).mono hg.le, h.start⟩

/-- The entry of the key has the value of `e`, wherever both have one. -/
def Shows (s : Session) (values : Facts .dim ExprId) (key : DimId) (e : ExprId) : Prop :=
  ∃ m, values[key]? = some m ∧ s.ctx.Equates s.domains m e

theorem Shows.mono (hg : s.ctx.Grows s'.ctx) (hd : s'.domains = s.domains)
    (hkeeps : values.Keeps values') (h : Shows s values key e) : Shows s' values' key e := by
  obtain ⟨m, hm, heq⟩ := h
  exact ⟨m, hkeeps key m hm, fun ν hν hadmits => heq ν (hg.le.trans hν) (hd ▸ hadmits)⟩

/-- A step that only adds to a table of values. -/
structure Fills (start values : Facts .dim ExprId) (s : Session) (values' : Facts .dim ExprId)
    (s' : Session) : Prop where
  held : Held start values' s'
  keeps : values.Keeps values'
  domains : s'.domains = s.domains

theorem Fills.refl (h : Held start values s) : Fills start values s values s :=
  ⟨h, .refl values, rfl⟩

theorem Fills.trans {values'' : Facts .dim ExprId} {s'' : Session}
    (h : Fills start values s values' s') (h' : Fills start values' s' values'' s'') :
    Fills start values s values'' s'' :=
  ⟨h'.held, h.keeps.trans h'.keeps, h'.domains.trans h.domains⟩

/-- What was stored in between changes nothing. -/
theorem Fills.of_grows {s₁ : Session} (hd : s₁.domains = s.domains)
    (h : Fills start values s₁ values' s') : Fills start values s values' s' :=
  ⟨h.held, h.keeps, h.domains.trans hd⟩

/-- A value is entered, or shown to be equal to the one that is there. -/
theorem setValue_fills (hs : s.Valid) (h : Held start values s) (he : s.ctx.Stored e) :
    Ensures ∅ (setValue key e) values s fun _ values' s' =>
      Fills start values s values' s' ∧ Shows s' values' key e := by
  unfold setValue
  refine .table ?_
  split
  · next hnone =>
    have hnew : key ∉ values := by
      rw [Std.TreeMap.mem_iff_isSome_getElem?, hnone]
      exact Bool.false_ne_true
    have hkeeps : values.Keeps (values.insert key e) := fun c x hx =>
      Handle.getElem?_insert_of_notMem hnew hx
    refine .changeTable hs ⟨⟨⟨fun d c hc => ?_, h.start.trans hkeeps⟩, hkeeps, rfl⟩, e, ?_, ?_⟩
    · rcases Handle.getElem?_insert_eq_some.1 hc with ⟨-, rfl⟩ | ⟨-, hc⟩
      exacts [he, h.stored d c hc]
    · exact Std.TreeMap.getElem?_insert_self
    · exact fun ν _ _ x y hx hy => Option.some_inj.1 (hx.symm.trans hy)
  · next existing hexisting =>
    refine .query (Query.provesEqual_ensures hs (h.stored key existing hexisting) he)
      fun answer s₁ hs₁ hg₁ hd₁ hequates => ?_
    split
    · exact .context .throw
    · next hyes =>
      have hyes : answer = true := by simpa using hyes
      exact .pure hs₁ ⟨⟨h.mono hg₁, .refl values, hd₁⟩, existing, hexisting, hd₁ ▸ hequates hyes⟩

theorem requireZeroMin_ensures {σ β : Type} {V : Set VarId} {t : Table} [Keyed t] {pass : Pass}
    {key : Handle t} {d : Domain} {table : σ} {f : Unit → Sweep σ β} {Q : β → σ → Session → Prop}
    (hs : s.Valid) (h : Ensures V (f ()) table s Q) :
    Ensures V (requireZeroMin pass key d >>= f) table s Q := by
  refine Ensures.bind (Q := fun _ table' s' => table' = table ∧ s' = s) ?_ ?_
  · refine .context ?_
    split
    · exact .throw
    · exact .pure hs ⟨rfl, rfl⟩
  · rintro _ _ _ - - - ⟨rfl, rfl⟩
    exact h

variable {op : Operation} {known : Facts .dim Domain}

/-- The relation is solved now and at all later assignments. -/
abbrev SolvedFrom (op : Operation) (known : Facts .dim Domain) (s : Session)
    (values : Facts .dim ExprId) (r : DimRelation) : Prop :=
  ∀ ν : Valuation, s.ctx.Grows ν.ctx → ν.Admits s.domains → r.Solved op ν known values

theorem takeApartSplit_solved {parent outer inner : DimId} {size : SplitBy} (hs : s.Valid)
    (hknown : ∀ (d : DimId) (D : Domain), known[d]? = some D → s.ctx.StoredDomain D)
    (h : Held start values s) :
    Ensures ∅ (takeApartSplit .dimValues false known parent outer inner) values s
      fun _ values' s' => Fills start values s values' s' ∧
        SolvedFrom op known s' values' (.reshape (.split parent outer inner size)) := by
  unfold takeApartSplit
  refine .table (.require hs fun p hp => .require hs fun D hD => ?_)
  refine requireZeroMin_ensures hs ?_
  have hps := Context.over_all (h.stored parent p hp)
  have hDs := Context.over_all (hknown inner D hD).2
  refine .attempt hs (Attempt.divide_denotes .floorDiv hps hDs) fun q s₁ hs₁ hg₁ hd₁ hq => ?_
  refine .attempt hs₁ (Attempt.divide_denotes .floorMod (hps.mono hg₁.le) (hDs.mono hg₁.le))
    fun r s₂ hs₂ hg₂ hd₂ hr => ?_
  refine (setValue_fills hs₂ (h.mono (hg₁.trans hg₂)) (hq.mono hg₂.le).stored).bind ?_
  rintro - values₁ s₃ hs₃ hg₃ - ⟨hfills₁, hshow₁⟩
  refine (setValue_fills hs₃ hfills₁.held (hr.mono hg₃.le).stored).mono ?_
  rintro - values₂ s₄ hs₄ hg₄ - ⟨hfills₂, hshow₂⟩
  have hfills := hfills₁.trans hfills₂
  refine ⟨hfills.of_grows (hd₂.trans hd₁), fun ν hν hadmits => ?_⟩
  obtain ⟨o, ho, hoq⟩ := hshow₁.mono hg₄ hfills₂.domains hfills₂.keeps
  obtain ⟨i, hi, hir⟩ := hshow₂
  have hν₂ := (hg₃.trans (hg₄.trans hν)).le
  refine ⟨p, o, i, D, hfills.keeps _ _ hp, ho, hi, hD,
      fun x n hx hn hn0 => ⟨fun y hy => ?_, fun y hy => ?_⟩⟩
  · exact hoq ν hν.le hadmits y _ hy
      (hq.value ν (hg₂.le.trans hν₂) _ ⟨x, n, hx, hn, if_neg hn0⟩)
  · exact hir ν hν.le hadmits y _ hy (hr.value ν hν₂ _ ⟨x, n, hx, hn, if_neg hn0⟩)

theorem fuse_solved {outer inner fused : DimId} (hs : s.Valid)
    (hknown : ∀ (d : DimId) (D : Domain), known[d]? = some D → s.ctx.StoredDomain D)
    (h : Held start values s) :
    Ensures ∅ (relationDimValues op false known (.reshape (.fuse outer inner fused))) values s
      fun _ values' s' => Fills start values s values' s' ∧
        SolvedFrom op known s' values' (.reshape (.fuse outer inner fused)) := by
  refine .table (.require hs fun o ho => ?_)
  refine .table (.require hs fun i hi => .require hs fun D hD => ?_)
  have hos := Context.over_all (h.stored outer o ho)
  have his := Context.over_all (h.stored inner i hi)
  have hDs := Context.over_all (hknown inner D hD).2
  refine .build hs (Build.mul_denotes hos hDs) fun product s₁ hs₁ hg₁ hd₁ hproduct => ?_
  refine .build hs₁ (Build.add_denotes hproduct.nodes (his.mono hg₁.le))
    fun sum s₂ hs₂ hg₂ hd₂ hsum => ?_
  refine (setValue_fills hs₂ (h.mono (hg₁.trans hg₂)) hsum.stored).mono ?_
  rintro - values' s₃ hs₃ hg₃ - ⟨hfills, f, hf, hequates⟩
  refine ⟨hfills.of_grows (hd₂.trans hd₁), fun ν hν hadmits => ?_⟩
  refine ⟨o, i, f, D, hfills.keeps _ _ ho, hfills.keeps _ _ hi, hf, hD, ?_⟩
  intro x y n z hx hy hn hz
  have hν₂ := (hg₃.trans hν).le
  have hp := hproduct.value ν (hg₂.le.trans hν₂) _ ⟨x, n, hx, hn, rfl⟩
  exact hequates ν hν.le hadmits z _ hz (hsum.value ν hν₂ _ ⟨_, y, hp, hy, rfl⟩)

theorem Ensures.ofExcept {σ α β : Type} {V : Set VarId} {t : σ} {r : Except InferError α}
    {f : α → Sweep σ β} {Q : β → σ → Session → Prop}
    (h : ∀ x, r = .ok x → Ensures V (f x) t s Q) :
    Ensures V ((liftM r : Sweep σ α) >>= f) t s Q := by
  cases r with
  | ok x => exact h x rfl
  | error e => exact fun _ _ _ hrun => nomatch hrun

/-- The values of the arguments are entered, each in turn. -/
theorem forM_setValue_fills {solved : List (DimId × ExprId)} (hs : s.Valid)
    (h : Held start values s) (hstored : ∀ p ∈ solved, s.ctx.Stored p.2) :
    Ensures ∅ (solved.forM fun (d, value) => setValue d value) values s fun _ values' s' =>
      Fills start values s values' s' ∧ ∀ p ∈ solved, Shows s' values' p.1 p.2 := by
  refine (forM_ensures (fun done values₁ s₁ => s.ctx.Grows s₁.ctx ∧
    Fills start values s values₁ s₁ ∧ ∀ p ∈ done, Shows s₁ values₁ p.1 p.2) hs
    ⟨.refl _, .refl h, nofun⟩ ?_).mono fun _ _ _ _ _ _ h => h.2
  rintro done p rest values₁ s₁ hsplit hs₁ ⟨hg₁, hfills₁, hdone⟩
  have hp : s₁.ctx.Stored p.2 := (hstored p (by rw [hsplit]; simp)).mono hg₁.le
  refine (setValue_fills hs₁ hfills₁.held hp).mono ?_
  rintro - values₂ s₂ - hg₂ - ⟨hfills₂, hshow⟩
  refine ⟨hg₁.trans hg₂, hfills₁.trans hfills₂, fun q hq => ?_⟩
  rcases List.mem_append.1 hq with hq | hq
  · exact (hdone q hq).mono hg₂ hfills₂.domains hfills₂.keeps
  · exact List.mem_singleton.1 hq ▸ hshow

/-- A function is solved for the values of its parameters, and these are in the table. -/
theorem defines_of_inverts {definition : DimDefinition} {d : DimId}
    {solved : List (DimId × ExprId)} {ctx : Context} {ν : Valuation}
    (hfind : op.definitions.find? (·.dim == d) = some definition) (he : values[d]? = some e)
    (hinverts : ctx.Inverts definition.value e solved)
    (hshows : ∀ p ∈ solved, Shows s values p.1 p.2) (hg : ctx.Grows ν.ctx)
    (hν : s.ctx.Grows ν.ctx) (hadmits : ν.Admits s.domains) : op.Defines ν values d := by
  refine ⟨e, definition, he, hfind, fun pd hpd => ?_, fun inner hinner body hbody x y hx hy => ?_⟩
  · rw [hg.fn_eq] at hpd
    obtain ⟨r, hr⟩ := hinverts.dims pd hpd
    obtain ⟨m, hm, -⟩ := hshows _ hr
    exact Std.TreeMap.mem_iff_isSome_getElem?.2 (hm ▸ rfl)
  · rw [hg.fn_eq] at hinner hbody
    refine hinverts.value ν s.domains hg hadmits _ inner hinner ?_ body hbody x hx y hy
    intro p hp u w hu hw
    obtain ⟨m, hm, hequates⟩ := hshows p hp
    rw [hm, Option.bind_some] at hu
    exact hequates ν hν.le hadmits u w hu hw

theorem changeValues_solved {new : List DimId} {old : DimId} (hs : s.Valid)
    (hparams : ∀ definition ∈ op.definitions, (s.ctx.fn definition.value).params.Nodup)
    (h : Held start values s) :
    Ensures ∅ (changeValues op false new old) values s fun _ values' s' =>
      Fills start values s values' s' ∧ (old ∉ new → ∀ ν : Valuation, s'.ctx.Grows ν.ctx →
        ν.Admits s'.domains → op.Defines ν values' old) := by
  unfold changeValues
  split
  · next hmem =>
    exact .pure hs ⟨.refl h, fun hnew => absurd (List.contains_iff_mem.1 hmem) hnew⟩
  refine .table (.require hs fun e he => .context (.ofExcept fun definition hdefinition => ?_))
  have hfind : op.definitions.find? (·.dim == old) = some definition := by
    unfold Operation.definition at hdefinition
    split at hdefinition
    · next found hfound => rwa [← Except.ok.inj hdefinition]
    · cases hdefinition
  have hnodup := hparams definition (List.mem_of_find?_eq_some hfind)
  refine .attempt hs (Attempt.invert_yields hs.wellFormed hnodup (h.stored old e he)).attempt
    fun solved s₁ hs₁ hg₁ hd₁ hinverts => ?_
  refine (forM_setValue_fills hs₁ (h.mono hg₁) hinverts.stored).mono ?_
  rintro - values' s' hs' hg' - ⟨hfills, hshows⟩
  refine ⟨hfills.of_grows hd₁, fun _ ν hν hadmits => ?_⟩
  exact defines_of_inverts hfind (hfills.keeps old e he) hinverts hshows (hg'.trans hν) hν hadmits

theorem change_solved {old new : List DimId} (hs : s.Valid)
    (hparams : ∀ definition ∈ op.definitions, (s.ctx.fn definition.value).params.Nodup)
    (h : Held start values s) :
    Ensures ∅ (relationDimValues op false known (.change old new)) values s
      fun _ values' s' => Fills start values s values' s' ∧
        SolvedFrom op known s' values' (.change old new) := by
  refine (forM_ensures (fun done values₁ s₁ => s.ctx.Grows s₁.ctx ∧
    Fills start values s values₁ s₁ ∧ ∀ d ∈ done, d ∉ new → ∀ ν : Valuation,
      s₁.ctx.Grows ν.ctx → ν.Admits s₁.domains → op.Defines ν values₁ d) hs
    ⟨.refl _, .refl h, nofun⟩ ?_).mono ?_
  · rintro done d rest values₁ s₁ - hs₁ ⟨hg₁, hfills₁, hdone⟩
    have hparams₁ : ∀ definition ∈ op.definitions,
        (s₁.ctx.fn definition.value).params.Nodup := by simpa only [hg₁.fn_eq] using hparams
    refine (changeValues_solved hs₁ hparams₁ hfills₁.held).mono ?_
    rintro - values₂ s₂ - hg₂ - ⟨hfills₂, hd⟩
    refine ⟨hg₁.trans hg₂, hfills₁.trans hfills₂, fun c hc hnew ν hν hadmits => ?_⟩
    rcases List.mem_append.1 hc with hc | hc
    · have hadmits₁ : ν.Admits s₁.domains := hfills₂.domains ▸ hadmits
      exact (hdone c hc hnew ν (hg₂.trans hν) hadmits₁).mono hfills₂.keeps
    · cases List.mem_singleton.1 hc
      exact hd hnew ν hν hadmits
  · rintro - values' s' - - - ⟨-, hfills, hall⟩
    exact ⟨hfills, fun ν hν hadmits d hd hnew => hall d hd hnew ν hν hadmits⟩

theorem relationDimValues_solved {r : DimRelation} (hs : s.Valid)
    (hparams : ∀ definition ∈ op.definitions, (s.ctx.fn definition.value).params.Nodup)
    (hknown : ∀ (d : DimId) (D : Domain), known[d]? = some D → s.ctx.StoredDomain D)
    (h : Held start values s) :
    Ensures ∅ (relationDimValues op false known r) values s fun _ values' s' =>
      Fills start values s values' s' ∧ SolvedFrom op known s' values' r := by
  rcases r with (⟨parent, outer, inner, size⟩ | ⟨outer, inner, fused⟩) | ⟨old, new⟩
  · exact takeApartSplit_solved hs hknown h
  · exact fuse_solved hs hknown h
  · exact change_solved hs hparams h

/-- The values that go down the relations of an operation keep the values that were given, and
solve all of the relations together. -/
theorem dimValues_solve {env : Env Int64} (hs : s.Reachable)
    (hparams : ∀ definition ∈ op.definitions, (s.ctx.fn definition.value).params.Nodup)
    (hknown : ∀ (d : DimId) (D : Domain), known[d]? = some D → s.ctx.StoredDomain D)
    (hstart : ∀ (d : DimId) (e : ExprId), start[d]? = some e → s.ctx.Stored e)
    (hrun : ((dimValues op known false).run.run start).run s = ((.ok (), values), s'))
    (hadmits : (s'.ctx.valuation env).Admits s.domains) :
    start.Keeps values ∧
      ∀ r ∈ op.relations, r.Solved op (s'.ctx.valuation env) known values := by
  have hsweep : Ensures ∅ (op.relations.forM (relationDimValues op false known)) start s
      fun _ values₁ s₁ => s.ctx.Grows s₁.ctx ∧ Fills start start s values₁ s₁ ∧
        ∀ r ∈ op.relations, SolvedFrom op known s₁ values₁ r := by
    refine forM_ensures (fun done values₁ s₁ => s.ctx.Grows s₁.ctx ∧
      Fills start start s values₁ s₁ ∧ ∀ r ∈ done, SolvedFrom op known s₁ values₁ r) hs.valid
      ⟨.refl _, .refl ⟨hstart, .refl start⟩, nofun⟩ ?_
    rintro done r rest values₁ s₁ - hs₁ ⟨hg₁, hfills₁, hdone⟩
    have hparams₁ : ∀ definition ∈ op.definitions,
        (s₁.ctx.fn definition.value).params.Nodup := by simpa only [hg₁.fn_eq] using hparams
    refine (relationDimValues_solved hs₁ hparams₁ (fun d D hD => (hknown d D hD).mono hg₁.le)
      hfills₁.held).mono ?_
    rintro - values₂ s₂ - hg₂ - ⟨hfills₂, hr⟩
    refine ⟨hg₁.trans hg₂, hfills₁.trans hfills₂, fun q hq ν hν hadmits => ?_⟩
    rcases List.mem_append.1 hq with hq | hq
    · have hadmits₁ : ν.Admits s₁.domains := hfills₂.domains ▸ hadmits
      exact (hdone q hq ν (hg₂.trans hν) hadmits₁).mono hfills₂.keeps
    · cases List.mem_singleton.1 hq
      exact hr ν hν hadmits
  obtain ⟨-, -, -, -, hfills, hsolved⟩ := hsweep _ _ _ hrun
  refine ⟨hfills.held.start, fun r hr => hsolved r hr _ (.refl _) ?_⟩
  rwa [hfills.domains]

/-- An operation and the tables and the context that it starts from. -/
structure DimSample where
  op : Operation
  known : Facts .dim Domain
  start : Facts .dim ExprId
  ctx : Context

namespace DimSample

/-- What the values of the dimensions come to. -/
def outcome (sample : DimSample) : Facts .dim ExprId × Session :=
  (dimValues sample.op sample.known false).outcome sample.start ⟨sample.ctx, {}⟩

/-- A whole is split into rows of four, which are fused again.  Of two dimensions that are
functions of others one is `2 * index + 1`, and the other the square of a side, found by a call of
a function that squares as well. -/
def rows : DimSample :=
  let declare : Build (Operation × Facts .dim Domain × Facts .dim ExprId) := do
    let n ← Build.var (← declareVar "n" .int64)
    let p ← declareVar "p" .int64
    let q ← declareVar "q" .int64
    let r ← declareVar "r" .int64
    let whole ← declareDim "whole" .uniform
    let outer ← declareDim "rows" .uniform
    let inner ← declareDim "columns" .uniform
    let fused ← declareDim "fused" .uniform
    let odd ← declareDim "odd" .ragged
    let area ← declareDim "area" .ragged
    let index ← declareDim "index" .uniform
    let side ← declareDim "side" .uniform
    let doubled ← Build.mulConst (← Build.var p) 2
    let f ← addFun ⟨"odd", [p], [index], some (← Build.addConst doubled 1), none⟩
    let g ← addFun ⟨"square", [q], [side], some (← Build.mul (← Build.var q) (← Build.var q)), none⟩
    let h ← addFun ⟨"area", [r], [side], some (← Build.mul (← Build.var r) (← Build.var r)), none⟩
    let columns : Domain := ⟨← Build.int 0, ← Build.int 4⟩
    let value ← Build.addConst (← Build.mulConst n 2) 1
    let square ← intern (.call g [n] [side])
    let op : Operation := {
      name := "rows"
      roots := [whole, odd, area]
      definitions := [⟨odd, ⟨0⟩, f⟩, ⟨area, ⟨0⟩, h⟩]
      relations := [.reshape (.split whole outer inner (.factor columns.extent)),
        .reshape (.fuse outer inner fused), .change [odd, area] [index, side]] }
    return (op, Std.TreeMap.empty.insert inner columns,
      ((Std.TreeMap.empty.insert whole n).insert odd value).insert area square)
  let declared := declare.run default
  ⟨declared.1.1, declared.1.2.1, declared.1.2.2, declared.2⟩

/-- Ten points. -/
def ten : Env Int64 := .ofList [(⟨0⟩, 10)]

/-- An operation whose dimension is fused from two but has a value from the start: the outer part
has the value `k`, the inner one, of extent one, the value zero, and the fusion the value
`n % 2 >= 0 and k`. -/
def number : DimSample :=
  let declare : Build (Operation × Facts .dim Domain × Facts .dim ExprId) := do
    let n ← Build.var (← declareVar "n" .int64)
    let k ← Build.var (← declareVar "k" .int64)
    let outer ← declareDim "outer" .uniform
    let inner ← declareDim "inner" .uniform
    let fused ← declareDim "fused" .uniform
    let zero ← Build.int 0
    let rest ← Build.division .floorMod n (← Build.int 2)
    let condition ← Build.conj (← Build.compare .ge rest zero) k
    let op : Operation := {
      name := "number"
      roots := [outer, inner]
      definitions := []
      relations := [.reshape (.fuse outer inner fused)] }
    return (op, Std.TreeMap.empty.insert inner ⟨zero, ← Build.int 1⟩,
      ((Std.TreeMap.empty.insert outer k).insert inner zero).insert fused condition)
  let declared := declare.run default
  ⟨declared.1.1, declared.1.2.1, declared.1.2.2, declared.2⟩

/-- The connective is given the number five. -/
def five : Env Int64 := .ofList [(⟨0⟩, 0), (⟨1⟩, 5)]

end DimSample

theorem dimValues_solve_rows :
    DimSample.rows.start.Keeps DimSample.rows.outcome.1 ∧
      ∀ r ∈ DimSample.rows.op.relations, r.Solved DimSample.rows.op
        (DimSample.rows.outcome.2.ctx.valuation DimSample.ten) DimSample.rows.known
        DimSample.rows.outcome.1 := by
  have hflat : (DimSample.rows.outcome.2.ctx.valuation DimSample.ten).Flat := by decide +kernel
  have hknown : ∀ p ∈ DimSample.rows.known.toList, DimSample.rows.ctx.StoredDomain p.2 := by
    decide +kernel
  have hstart : ∀ p ∈ DimSample.rows.start.toList, DimSample.rows.ctx.Stored p.2 := by
    decide +kernel
  exact dimValues_solve (s := ⟨DimSample.rows.ctx, {}⟩) (.start _ true (by decide +kernel))
    (by decide +kernel)
    (fun d D hD => hknown (d, D) (Std.TreeMap.mem_toList_iff_getElem?_eq_some.2 hD))
    (fun d e he => hstart (d, e) (Std.TreeMap.mem_toList_iff_getElem?_eq_some.2 he))
    (run_eq_of_succeeds (by decide +kernel))
    (hflat.admits (Session.inDomain_of_bindings (s := ⟨DimSample.rows.ctx, {}⟩) (by decide +kernel))
      (by decide +kernel))

example : DimSample.rows.outcome.1.toList.map (fun p =>
    (DimSample.rows.outcome.2.ctx.valuation DimSample.ten).value p.2) =
      [some 10, some 2, some 2, some 10, some 21, some 100, some 10, some 10] := by decide +kernel

/-- A conjunct that is true is left out whatever the other one is, so values may be taken for
equal that are not, where a connective is given a number: five times one and zero make one. -/
theorem dimValues_number_unsolved :
    (⟨DimSample.number.ctx, {}⟩ : Session).Reachable ∧
      (∀ definition ∈ DimSample.number.op.definitions,
        (DimSample.number.ctx.fn definition.value).params.Nodup) ∧
      (∀ p ∈ DimSample.number.known.toList, DimSample.number.ctx.StoredDomain p.2) ∧
      (∀ p ∈ DimSample.number.start.toList, DimSample.number.ctx.Stored p.2) ∧
      ((dimValues DimSample.number.op DimSample.number.known false).run.run
          DimSample.number.start).run ⟨DimSample.number.ctx, {}⟩ =
        ((.ok (), DimSample.number.outcome.1), DimSample.number.outcome.2) ∧
      DimSample.number.outcome.2.KeepsDomains DimSample.five ∧
      (DimSample.number.outcome.2.ctx.valuation DimSample.five).InsideWord ∧
      .reshape (.fuse ⟨0⟩ ⟨1⟩ ⟨2⟩) ∈ DimSample.number.op.relations ∧
      ∃ o ∈ DimSample.number.outcome.1[(⟨0⟩ : DimId)]?,
        ∃ i ∈ DimSample.number.outcome.1[(⟨1⟩ : DimId)]?,
          ∃ f ∈ DimSample.number.outcome.1[(⟨2⟩ : DimId)]?,
            ∃ d ∈ DimSample.number.known[(⟨1⟩ : DimId)]?,
              DimSample.number.outcome.2.ctx.eval DimSample.five o = some 5 ∧
              DimSample.number.outcome.2.ctx.eval DimSample.five i = some 0 ∧
              DimSample.number.outcome.2.ctx.eval DimSample.five d.extent = some 1 ∧
              DimSample.number.outcome.2.ctx.eval DimSample.five f = some 1 :=
  ⟨.start _ true (by decide +kernel), by decide +kernel, by decide +kernel, by decide +kernel,
    run_eq_of_succeeds (by decide +kernel),
    Session.keepsDomains_of_bindings (by decide +kernel), by decide +kernel, by decide +kernel,
    by decide +kernel⟩

end Sweep

end LoopBounds
