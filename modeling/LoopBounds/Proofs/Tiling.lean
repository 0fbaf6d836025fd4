import LoopBounds.Proofs.Inlining
import LoopBounds.Proofs.Literals

/-!
# Tiling

The domains that go down the relations of a nest tile exactly, whatever expressions the extents
are.  What is said of a relation only compares the extents of what it makes with those of what it
consumes, and a domain that was found stays, so it lasts while the sweep goes on.
-/

namespace LoopBounds

theorem Attempt.Yields.attempt {α : Type} {c : Prop} {b : Attempt α} {ctx : Context}
    {Q : α → Context → Prop} (h : Yields c b ctx Q) : Attempt.Ensures b ctx Q :=
  Build.Ensures.mono h fun _ _ _ h => h.2

namespace SplitBy

variable {κ : Type}

/-- The part whose extent is given, of an outer and an inner one. -/
def given (outer inner : κ) : SplitBy → κ
  | .factor _ => inner
  | .parts _ => outer

def other (outer inner : κ) : SplitBy → κ
  | .factor _ => outer
  | .parts _ => inner

end SplitBy

/-- The connectives that evaluation meets see truth values, also in bodies, and the functions that
are called were declared. -/
structure Valuation.Proper (ν : Valuation) : Prop where
  truthful : ∀ e, ν.Truthful e
  declared : ∀ c f args dims, ν.ctx.node c = .call f args dims → ν.ctx.Declared f

/-- The expression mentions no parameter of a function. -/
def Context.ParamFree (ctx : Context) (e : ExprId) : Prop :=
  ∀ v ∈ ctx.freeVars e, ¬ ctx.IsParam v

/-- Where `d` is the domain already there, `e` has been shown to have its extent, at the
assignments of `P`.  It is not asked where `e` starts. -/
structure Context.Confirms (ctx : Context) (P : Valuation → Prop) (d e : Domain) : Prop where
  anchored : d = e ∨ ctx.Literal d.min 0
  extent : ∀ ν : Valuation, ctx ≤ ν.ctx → ν.ctx.WellFormed → ν.Proper → P ν →
    ν.ctx.ParamFree d.extent → ν.ctx.ParamFree e.extent →
      ∀ x y, ν.value d.extent = some x → ν.value e.extent = some y → x = y

theorem Context.Confirms.refl (ctx : Context) (P : Valuation → Prop) (d : Domain) :
    ctx.Confirms P d d :=
  ⟨.inl rfl, fun _ _ _ _ _ _ _ _ _ hx hy => Option.some_inj.1 (hx.symm.trans hy)⟩

theorem Context.Confirms.mono {ctx ctx' : Context} {P P' : Valuation → Prop} {d e : Domain}
    (hctx : ctx ≤ ctx') (hP : ∀ ν : Valuation, ctx' ≤ ν.ctx → P' ν → P ν)
    (h : ctx.Confirms P d e) : ctx'.Confirms P' d e :=
  ⟨h.anchored.imp_right (·.mono hctx), fun ν hν hwf hproper hν' =>
    h.extent ν (hctx.trans hν) hwf hproper (hP ν hν hν')⟩

/-- The domain of the axis is `d`, which starts at a literal zero. -/
def Facts.FromZero (known : Facts .axis Domain) (ctx : Context) (a : AxisId) (d : Domain) : Prop :=
  known[a]? = some d ∧ ctx.Literal d.min 0

/-- What a relation makes of the extents of what it consumes, where these have values. -/
def AxisRelation.Tiles (ν : Valuation) (known : Facts .axis Domain) : AxisRelation → Prop
  | .reshape (.split parent outer inner size) => ∃ whole given other, known[parent]? = some whole ∧
      known.FromZero ν.ctx (size.given outer inner) given ∧
      known.FromZero ν.ctx (size.other outer inner) other ∧ given.extent = size.extent ∧
      ∀ x n, ν.value whole.extent = some x → ν.value size.extent = some n → 0 < n →
        ν.value other.extent = some ⌈(x / n : ℚ)⌉
  | .reshape (.fuse outer inner fused) => ∃ first second product, known[outer]? = some first ∧
      known[inner]? = some second ∧ known.FromZero ν.ctx fused product ∧
      ∀ x y, ν.value first.extent = some x → ν.value second.extent = some y →
        ν.value product.extent = some (x * y)
  | .rebase parent rebased => ∃ whole copy, known[parent]? = some whole ∧
      known.FromZero ν.ctx rebased copy ∧ copy.extent = whole.extent
  | .singleton a => ∃ d, known[a]? = some d ∧
      (ν.ctx.ParamFree d.extent → ∀ x, ν.value d.extent = some x → x = 1)

theorem Facts.FromZero.mono {known known' : Facts .axis Domain} {ctx : Context} {a : AxisId}
    {d : Domain} (hsub : known.Subset known') (h : known.FromZero ctx a d) :
    known'.FromZero ctx a d :=
  ⟨hsub a d h.1, h.2⟩

/-- Domains that are found later change nothing. -/
theorem AxisRelation.Tiles.mono {ν : Valuation} {known known' : Facts .axis Domain}
    {r : AxisRelation} (hsub : known.Subset known') (h : r.Tiles ν known) : r.Tiles ν known' := by
  rcases r with (⟨parent, outer, inner, size⟩ | ⟨outer, inner, fused⟩) | ⟨parent, rebased⟩ | a
  · obtain ⟨whole, given, other, hwhole, hgiven, hother, h⟩ := h
    exact ⟨whole, given, other, hsub _ _ hwhole, hgiven.mono hsub, hother.mono hsub, h⟩
  · obtain ⟨first, second, product, hfirst, hsecond, hproduct, h⟩ := h
    exact ⟨first, second, product, hsub _ _ hfirst, hsub _ _ hsecond, hproduct.mono hsub, h⟩
  · obtain ⟨whole, copy, hwhole, hcopy, h⟩ := h
    exact ⟨whole, copy, hsub _ _ hwhole, hcopy.mono hsub, h⟩
  · obtain ⟨d, hd, h⟩ := h
    exact ⟨d, hsub _ _ hd, h⟩

theorem ceil_eq_fdiv (x : Int) {n : Int} (hn : 0 < n) :
    ⌈(x / n : ℚ)⌉ = (x + n - 1).fdiv n := by
  rw [Int.fdiv_eq_ediv_of_nonneg _ hn.le, Int.ceil_eq_iff]
  have hn' : (0 : ℚ) < n := by exact_mod_cast hn
  have hlt := Int.lt_ediv_add_one_mul_self (x + n - 1) hn
  have hle := Int.ediv_mul_le (x + n - 1) hn.ne'
  rw [add_mul, one_mul] at hlt
  rw [lt_div_iff₀ hn', div_le_iff₀ hn']
  generalize (x + n - 1) / n = q at hlt hle
  constructor
  · have h : (q - 1) * n < x := by rw [sub_mul, one_mul]; omega
    exact_mod_cast h
  · have h : x ≤ q * n := by omega
    exact_mod_cast h

/-! ## What the analyzer knows -/

/-- The domains that were found since the start have been learnt, and of other variables is known
what was known before. -/
structure Learnt (ctx : Context) (given : Env Domain) (start known : Facts .axis Domain)
    (domains : Env Domain) : Prop where
  learnt : ∀ (a : AxisId) (d : Domain), a ∉ start → known[a]? = some d →
    domains (ctx.axisVar a) = some d
  only : ∀ v d, domains v = some d → given v = some d ∨
    ∃ a : AxisId, a ∉ start ∧ known[a]? = some d ∧ ctx.axisVar a = v

/-- What is admitted in the end was admitted before. -/
theorem Learnt.admits {ctx ctx' : Context} {given domains domains' : Env Domain}
    {start known known' : Facts .axis Domain} {ν : Valuation} (hg : ctx.Grows ctx')
    (hsub : known.Subset known') (h : Learnt ctx given start known domains)
    (h' : Learnt ctx' given start known' domains') (hgiven : ν.Admits given)
    (hadmits : ν.Admits domains') : ν.Admits domains := by
  refine ⟨fun v d x hd hx => ?_, hgiven.inCodomain, hgiven.isBit, hgiven.inside⟩
  rcases h.only v d hd with hv | ⟨a, ha, hk, rfl⟩
  · exact hgiven.inDomain v d x hv hx
  · exact hadmits.inDomain _ d x (hg.axisVar_eq a ▸ h'.learnt a d ha (hsub a d hk)) hx

/-- A table of domains on the way, found by a session that started from some domains and the
domains of the roots. -/
structure Tabled (given : Env Domain) (start known : Facts .axis Domain) (s : Session) : Prop where
  learnt : Learnt s.ctx given start known s.domains
  stored : ∀ (a : AxisId) (d : Domain), known[a]? = some d → s.ctx.StoredDomain d
  registered : ∀ a ∈ known, a.index < s.ctx.axes.size
  old : start.Subset known

theorem Tabled.mono {given : Env Domain} {start known : Facts .axis Domain} {s s' : Session}
    (h : Tabled given start known s) (hg : s.ctx.Grows s'.ctx) (hd : s'.domains = s.domains) :
    Tabled given start known s' := by
  refine ⟨⟨fun a d ha hk => ?_, fun v d hv => ?_⟩, fun a d hk => (h.stored a d hk).mono hg.le,
    fun a ha => ?_, h.old⟩
  · rw [hd, hg.axisVar_eq]
    exact h.learnt.learnt a d ha hk
  · rw [hd] at hv
    simp only [hg.axisVar_eq]
    exact h.learnt.only v d hv
  · rw [hg.axes]
    exact h.registered a ha

namespace Sweep

variable {s : Session} {given : Env Domain} {start known : Facts .axis Domain} {key : AxisId}
  {d e : Domain} {allowMissing : Bool}

/-- The table gets entries for more axes, and stays a table of the session. -/
structure Finds (given : Env Domain) (start known : Facts .axis Domain) (new : List AxisId)
    (known' : Facts .axis Domain) (s' : Session) : Prop where
  enters : Enters known new known'
  tabled : Tabled given start known' s'

theorem enter_ensures (hs : s.Valid) (hkey : key.index < s.ctx.axes.size) (hnew : key ∉ known)
    (h : Tabled given start known s) (hd : s.ctx.StoredDomain d) :
    Ensures .univ (setDomain key d) known s fun _ known' s' =>
      Finds given start known [key] known' s' ∧ known'[key]? = some d ∧ s'.ctx = s.ctx := by
  unfold setDomain
  refine .table ?_
  rw [Std.TreeMap.getElem?_eq_none hnew]
  refine (Ensures.changeTable (Q := fun _ t' s' => t' = known.insert key d ∧ s' = s) hs
    ⟨rfl, rfl⟩).bind ?_
  rintro _ _ s₁ - - - ⟨rfl, rfl⟩
  refine .context ?_
  refine (Ensures.learn hs hd (Set.mem_univ _)).mono ?_
  rintro _ _ s₂ - - - ⟨rfl, hctx, hdomains⟩
  have hstart : key ∉ start := fun hmem => hnew (h.old.mem hmem)
  have hself : (known.insert key d)[key]? = some d := Std.TreeMap.getElem?_insert_self
  have henters := enters_insert hnew d
  have hvar : ∀ {a : AxisId}, a ∈ known → s₁.ctx.axisVar a ≠ s₁.ctx.axisVar key := by
    intro a ha heq
    exact hnew (hs.wellFormed.axisVar_inj a key (h.registered a ha) hkey heq ▸ ha)
  refine ⟨⟨henters, ⟨⟨fun a c ha hc => ?_, fun v c hv => ?_⟩, fun a c hc => ?_, fun a ha => ?_,
    fun a c hc => henters.old a c (h.old a c hc)⟩⟩, hself, hctx⟩
  · rw [hctx, hdomains]
    rcases Handle.getElem?_insert_eq_some.1 hc with ⟨rfl, rfl⟩ | ⟨-, hc⟩
    · rw [if_pos rfl]
    · rw [if_neg (hvar (mem_of_get hc))]
      exact h.learnt.learnt a c ha hc
  · rw [hdomains] at hv
    rw [hctx]
    split at hv
    · next hkeyVar =>
      cases hv
      exact .inr ⟨key, hstart, hself, hkeyVar.symm⟩
    · refine (h.learnt.only v c hv).imp_right fun ⟨a, ha, hk, hav⟩ => ?_
      exact ⟨a, ha, henters.old a c hk, hav⟩
  · rw [hctx]
    rcases Handle.getElem?_insert_eq_some.1 hc with ⟨rfl, rfl⟩ | ⟨-, hc⟩
    exacts [hd, h.stored a c hc]
  · rw [hctx]
    rcases (henters.mem a).1 ha with ha | ha
    exacts [List.mem_singleton.1 ha ▸ hkey, h.registered a ha]

/-- What a relation is said to make at the assignments that are admitted from the start. -/
abbrev TilesFrom (given : Env Domain) (r : AxisRelation) (known : Facts .axis Domain)
    (s : Session) : Prop :=
  ∀ ν : Valuation, s.ctx ≤ ν.ctx → ν.ctx.WellFormed → ν.Proper → ν.Admits given →
    ν.Admits s.domains → r.Tiles ν known

theorem enterExtent_tabled {extent : ExprId} (hs : s.Valid) (hkey : key.index < s.ctx.axes.size)
    (hnew : key ∉ known) (h : Tabled given start known s) (hextent : s.ctx.Stored extent) :
    Ensures .univ (do setDomain key (← Domain.ofExtent extent)) known s fun _ known' s' =>
      Finds given start known [key] known' s' ∧
        ∃ d, known'.FromZero s'.ctx key d ∧ d.extent = extent := by
  refine .build hs (Domain.ofExtent_fromZero s.ctx extent) fun d s₁ hs₁ hg₁ hd₁ ⟨hmin, hd⟩ => ?_
  have hstored : s₁.ctx.StoredDomain d := ⟨hmin.1, hd ▸ hextent.mono hg₁.le⟩
  refine (enter_ensures hs₁ (hg₁.axes ▸ hkey) hnew (h.mono hg₁ hd₁) hstored).mono ?_
  rintro _ known' s' - - - ⟨hfinds, hget, hctx⟩
  exact ⟨hfinds, d, ⟨hget, hctx ▸ hmin⟩, hd⟩

theorem partDomains_tabled {first second : AxisId} {whole size : ExprId} (hs : s.Valid)
    (hfirst : first.index < s.ctx.axes.size) (hsecond : second.index < s.ctx.axes.size)
    (hfirstNew : first ∉ known) (hsecondNew : second ∉ known) (hne : second ≠ first)
    (h : Tabled given start known s) (hwhole : s.ctx.Stored whole) (hsize : s.ctx.Stored size) :
    Ensures .univ (do
      setDomain first (← Domain.ofExtent size)
      let count ← ceilDiv whole size
      setDomain second (← Domain.ofExtent count)) known s fun _ known' s' =>
        Finds given start known [second, first] known' s' ∧ ∃ d e,
          known'.FromZero s'.ctx first d ∧ known'.FromZero s'.ctx second e ∧ d.extent = size ∧
          ∀ ν : Valuation, s'.ctx ≤ ν.ctx → ν.Admits given → ν.Admits s'.domains → ∀ x n,
            ν.value whole = some x → ν.value size = some n → 0 < n →
              ν.value e.extent = some ((x + n - 1).fdiv n) := by
  rw [← bind_assoc]
  refine (enterExtent_tabled hs hfirst hfirstNew h hsize).bind ?_
  rintro _ known₁ s₁ hs₁ hg₁ - ⟨hfinds₁, d, hd, hdsize⟩
  refine Ensures.bind (Q := fun count t' s' => t' = known₁ ∧ s'.domains = s₁.domains ∧
    s'.ctx.Denotes .all count (RoundedUp s₁.domains whole size)) ?_ ?_
  · exact ceilDiv_denotes hs₁ (Context.over_all (hwhole.mono hg₁.le))
      (Context.over_all (hsize.mono hg₁.le))
  rintro count known₁ s₂ hs₂ hg₂ - ⟨rfl, hd₂, hcount⟩
  have hnew : second ∉ known₁ := by
    rw [hfinds₁.enters.mem, List.mem_singleton]
    exact not_or.2 ⟨hne, hsecondNew⟩
  have htabled₂ := hfinds₁.tabled.mono hg₂ hd₂
  refine (enterExtent_tabled hs₂ (by rwa [hg₂.axes, hg₁.axes]) hnew htabled₂ hcount.stored).mono ?_
  rintro _ known' s' - hg' - ⟨hfinds', e, he, hecount⟩
  refine ⟨⟨hfinds₁.enters.trans hfinds'.enters, hfinds'.tabled⟩, d, e,
    ⟨hfinds'.enters.old _ _ hd.1, (hd.2.mono hg₂.le).mono hg'.le⟩, he, hdsize,
    fun ν hν hgiven hadmits x n hx hn hpos => ?_⟩
  have hadmits₁ := hfinds₁.tabled.learnt.admits (hg₂.trans hg') hfinds'.enters.old
    hfinds'.tabled.learnt hgiven hadmits
  exact hecount ▸ hcount.value ν (hg'.le.trans hν) _ ⟨hadmits₁, x, n, hx, hn, hpos, rfl⟩

theorem splitDomains_tiles {parent outer inner : AxisId} {size : SplitBy} (hs : s.Valid)
    (hreg : ∀ a ∈ [outer, inner], a.index < s.ctx.axes.size)
    (hold : parent ∈ known) (hnew : ∀ a ∈ [outer, inner], a ∉ known) (hdistinct : outer ≠ inner)
    (hsize : s.ctx.Stored size.extent) (h : Tabled given start known s) :
    Ensures .univ (relationDomains allowMissing (.reshape (.split parent outer inner size))) known s
      fun _ known' s' => Finds given start known [outer, inner] known' s' ∧
        TilesFrom given (.reshape (.split parent outer inner size)) known' s' := by
  simp only [List.mem_cons, List.not_mem_nil, or_false, forall_eq_or_imp, forall_eq] at hreg hnew
  obtain ⟨whole, hwhole⟩ := exists_get_of_mem hold
  refine .table (.requireFound hwhole ?_)
  have hwholeStored := (h.stored parent whole hwhole).2
  cases size with
  | factor extent =>
      refine (partDomains_tabled hs hreg.2 hreg.1 hnew.2 hnew.1 hdistinct h hwholeStored
        hsize).mono ?_
      rintro _ known' s' - - - ⟨hfinds, d, e, hd, he, hextent, hvalue⟩
      refine ⟨hfinds, fun ν hν _ _ hgiven hadmits => ?_⟩
      refine ⟨whole, d, e, hfinds.enters.old _ _ hwhole, ⟨hd.1, hd.2.mono hν⟩,
        ⟨he.1, he.2.mono hν⟩, hextent, fun x n hx hn hpos => ?_⟩
      rw [ceil_eq_fdiv x hpos]
      exact hvalue ν hν hgiven hadmits x n hx hn hpos
  | parts extent =>
      refine (partDomains_tabled hs hreg.1 hreg.2 hnew.1 hnew.2 hdistinct.symm h hwholeStored
        hsize).mono ?_
      rintro _ known' s' - - - ⟨hfinds, d, e, hd, he, hextent, hvalue⟩
      refine ⟨⟨hfinds.enters.swap, hfinds.tabled⟩, fun ν hν _ _ hgiven hadmits => ?_⟩
      refine ⟨whole, d, e, hfinds.enters.old _ _ hwhole, ⟨hd.1, hd.2.mono hν⟩,
        ⟨he.1, he.2.mono hν⟩, hextent, fun x n hx hn hpos => ?_⟩
      rw [ceil_eq_fdiv x hpos]
      exact hvalue ν hν hgiven hadmits x n hx hn hpos

theorem fuseDomains_tiles {outer inner fused : AxisId} (hs : s.Valid)
    (hreg : fused.index < s.ctx.axes.size) (houter : outer ∈ known) (hinner : inner ∈ known)
    (hnew : fused ∉ known) (h : Tabled given start known s) :
    Ensures .univ (relationDomains allowMissing (.reshape (.fuse outer inner fused))) known s
      fun _ known' s' => Finds given start known [fused] known' s' ∧
        TilesFrom given (.reshape (.fuse outer inner fused)) known' s' := by
  obtain ⟨first, hfirst⟩ := exists_get_of_mem houter
  obtain ⟨second, hsecond⟩ := exists_get_of_mem hinner
  refine .table (.requireFound hfirst (.table (.requireFound hsecond ?_)))
  have hfirstNodes := Context.over_all (h.stored outer first hfirst).2
  have hsecondNodes := Context.over_all (h.stored inner second hsecond).2
  refine .build hs (Build.mul_denotes hfirstNodes hsecondNodes)
    fun product s₁ hs₁ hg₁ hd₁ hproduct => ?_
  have hadmitted : s₁.ctx.Denotes .all product fun ν z => ν.Admits s₁.domains ∧ ∃ x y,
      ν.value first.extent = some x ∧ ν.value second.extent = some y ∧ z = x * y := by
    refine hproduct.of_imp ?_
    rintro ν - _ ⟨-, x, y, hx, hy, rfl⟩
    exact ⟨x, y, hx, hy, rfl⟩
  refine .query (Query.simplify_denotes hs₁ hadmitted fun _ _ h => h.1)
    fun extent s₂ hs₂ hg₂ hd₂ hextent => ?_
  have hg := hg₁.trans hg₂
  have htabled := h.mono hg (hd₂.trans hd₁)
  refine (enterExtent_tabled hs₂ (hg.axes ▸ hreg) hnew htabled hextent.stored).mono ?_
  rintro _ known' s' - hg' - ⟨hfinds, d, hd, rfl⟩
  refine ⟨hfinds, fun ν hν _ _ hgiven hadmits => ?_⟩
  refine ⟨first, second, d, hfinds.enters.old _ _ hfirst, hfinds.enters.old _ _ hsecond,
    ⟨hd.1, hd.2.mono hν⟩, fun x y hx hy => ?_⟩
  have hadmits₂ := htabled.learnt.admits hg' hfinds.enters.old hfinds.tabled.learnt hgiven hadmits
  exact hextent.value ν (hg'.le.trans hν) _ ⟨hd₂ ▸ hadmits₂, x, y, hx, hy, rfl⟩

theorem rebaseDomains_tiles {parent rebased : AxisId} (hs : s.Valid)
    (hreg : rebased.index < s.ctx.axes.size) (hold : parent ∈ known) (hnew : rebased ∉ known)
    (h : Tabled given start known s) :
    Ensures .univ (relationDomains allowMissing (.rebase parent rebased)) known s
      fun _ known' s' => Finds given start known [rebased] known' s' ∧
        TilesFrom given (.rebase parent rebased) known' s' := by
  obtain ⟨whole, hwhole⟩ := exists_get_of_mem hold
  refine .table (.requireFound hwhole ?_)
  refine (enterExtent_tabled hs hreg hnew h (h.stored parent whole hwhole).2).mono ?_
  rintro _ known' s' - - - ⟨hfinds, d, hd, hextent⟩
  refine ⟨hfinds, fun ν hν _ _ _ _ => ?_⟩
  exact ⟨whole, d, hfinds.enters.old _ _ hwhole, ⟨hd.1, hd.2.mono hν⟩, hextent⟩

/-! ## Pinned axes -/

/-- A domain that is shown to be the one already found has its extent, and the one already found
starts at zero, unless the two are one. -/
theorem agrees_sound {σ : Type} {V : Set VarId} {t : σ} (hs : s.Valid) (hd : s.ctx.StoredDomain d)
    (he : s.ctx.StoredDomain e) :
    Ensures V (agrees d e : Sweep σ Bool) t s fun same t' s' => t' = t ∧ s'.domains = s.domains ∧
      (same = true → s'.ctx.Confirms (·.Admits s.domains) d e) := by
  unfold agrees
  split
  · next heq => exact .pure hs ⟨rfl, rfl, fun _ => heq ▸ .refl s.ctx _ d⟩
  -- The difference mentions no variables but those of the extents, whatever these are.
  have hsub : Build.Ensures (Build.sub e.extent d.extent) s.ctx fun diff ctx =>
      ∀ K, s.ctx.Over K d.extent → s.ctx.Over K e.extent → ctx.Denotes K diff fun ν z =>
        ∃ x y, ν.value e.extent = some x ∧ ν.value d.extent = some y ∧ x - y = z :=
    ⟨(Build.sub_denotes (Context.over_all he.2) (Context.over_all hd.2)).1,
      fun K hdK heK => (Build.sub_denotes heK hdK).2⟩
  refine .build hs hsub fun diff s₁ hs₁ hg₁ hd₁ hdiff => ?_
  have hdiff' := hdiff .all (Context.over_all hd.2) (Context.over_all he.2)
  refine .attempt hs₁ (Inlining.inline_sound hs₁.wellFormed hdiff'.stored).attempt ?_
  rintro inlined s₂ hs₂ hg₂ hd₂ ⟨hstored, hinlined⟩
  refine .build hs₂ (Build.constantLike_denotes s₂.ctx .all 0 inlined)
    fun zero s₃ hs₃ hg₃ hd₃ hzero => ?_
  refine .build hs₃ (Build.compare_denotes .eq (Context.over_all (hstored.mono hg₃.le)) hzero.nodes)
    fun same s₄ hs₄ hg₄ hd₄ hsame => ?_
  have hdom : s₄.domains = s.domains := by rw [hd₄, hd₃, hd₂, hd₁]
  have hg : s.ctx.Grows s₄.ctx := hg₁.trans (hg₂.trans (hg₃.trans hg₄))
  refine .context ?_
  split
  · next hmin =>
    have hmin' : s₄.ctx.Literal d.min 0 := Context.literal_of_isZero (hd.1.mono hg.le) hmin
    refine (Ensures.ofQuery (Query.proves_ensures hs₄ hsame.stored)).mono ?_
    rintro answer t' s₅ - hg₅ - ⟨rfl, hd₅, hanswer⟩
    refine ⟨rfl, hd₅.trans hdom, fun hyes => ⟨.inr (hmin'.mono hg₅.le), ?_⟩⟩
    intro ν hν hwf hproper hadmits hdfree hefree x y hx hy
    have hν₄ := hg₅.le.trans hν
    have hν₃ := hg₄.le.trans hν₄
    have hν₂ := hg₃.le.trans hν₃
    have hν₁ := hg₂.le.trans hν₂
    have hν₀ := hg₁.le.trans hν₁
    have hfree : ν.ctx.ParamFree diff := by
      refine (Context.over_mentions.1 ((hdiff (.mentions fun v => ¬ ν.ctx.IsParam v) ?_
        ?_).nodes.mono hν₁)).2
      · exact (Context.over_mentions.2 ⟨hd.2.mono hν₀, hdfree⟩).restrict hν₀ hd.2
      · exact (Context.over_mentions.2 ⟨he.2.mono hν₀, hefree⟩).restrict hν₀ he.2
    have hvalue := hdiff'.value ν hν₁ _ ⟨y, x, hy, hx, rfl⟩
    have heval := hinlined .unbounded ν hν₂ hwf hproper.declared hfree _
      (Valuation.evaluates_unbounded hvalue (hproper.truthful diff))
    have hcond := hsame.value ν hν₄ _ ⟨_, _, heval.value, hzero.value ν hν₃ _ rfl, rfl⟩
    have hne := hanswer hyes ν hν (hdom ▸ hadmits) _ hcond
    by_contra hxy
    have hne' : y - x ≠ 0 := sub_ne_zero.2 (Ne.symm hxy)
    exact hne (by simp [Comparison.exact, hne'])
  · exact .pure hs₄ ⟨rfl, hdom, by simp⟩

/-- A key that has a domain keeps it, and a domain that is entered again confirms it. -/
theorem setDomain_confirms {t : Table} [Keyed t] {known : Facts t Domain} {key : Handle t}
    {V : Set VarId} (hs : s.Valid) (hold : known[key]? = some d) (hd : s.ctx.StoredDomain d)
    (he : s.ctx.StoredDomain e) :
    Ensures V (setDomain key e) known s fun _ known' s' => known' = known ∧
      s'.domains = s.domains ∧ s'.ctx.Confirms (·.Admits s.domains) d e := by
  unfold setDomain
  refine .table ?_
  rw [hold]
  refine (agrees_sound hs hd he).bind ?_
  rintro same _ s₁ hs₁ - - ⟨rfl, hd₁, hsame⟩
  split
  · exact .context .throw
  · next hyes => exact .pure hs₁ ⟨rfl, hd₁, hsame (by simpa using hyes)⟩

/-- An axis that has a domain keeps it, and what is entered again has the same extent. -/
theorem reenter_ensures (hs : s.Valid) (hold : known[key]? = some d)
    (h : Tabled given start known s) (he : s.ctx.StoredDomain e) :
    Ensures .univ (setDomain key e) known s fun _ known' s' => known' = known ∧
      Tabled given start known s' ∧ s'.ctx.Confirms (·.Admits s'.domains) d e := by
  refine (setDomain_confirms hs hold (h.stored key d hold) he).mono ?_
  rintro _ _ s' - hg - ⟨rfl, hd, hconfirms⟩
  exact ⟨rfl, h.mono hg hd, hd ▸ hconfirms⟩

/-- Entering a domain keeps the table, and what the key has in the end is confirmed. -/
theorem setDomain_keeps (hs : s.Valid) (hkey : key.index < s.ctx.axes.size)
    (h : Tabled given start known s) (hd : s.ctx.StoredDomain d) :
    Ensures .univ (setDomain key d) known s fun _ known' s' => Tabled given start known' s' ∧
      known.Subset known' ∧
        ∃ e, known'[key]? = some e ∧ s'.ctx.Confirms (·.Admits s'.domains) e d := by
  by_cases hold : key ∈ known
  · obtain ⟨e, he⟩ := exists_get_of_mem hold
    refine (reenter_ensures hs he h hd).mono ?_
    rintro _ known' s' - - - ⟨rfl, htabled, hconfirms⟩
    exact ⟨htabled, fun _ _ => id, e, he, hconfirms⟩
  · refine (enter_ensures hs hkey hold h hd).mono ?_
    rintro _ known' s' - - - ⟨hfinds, hget, -⟩
    exact ⟨hfinds.tabled, hfinds.enters.old, d, hget, .refl s'.ctx _ d⟩

theorem singletonDomain_tiles {a : AxisId} (hs : s.Valid) (hold : a ∈ known)
    (h : Tabled given start known s) :
    Ensures .univ (relationDomains allowMissing (.singleton a)) known s fun _ known' s' =>
      Finds given start known [] known' s' ∧ TilesFrom given (.singleton a) known' s' := by
  refine .build hs (P := fun d ctx => ctx.StoredDomain d ∧ ctx.Literal d.extent 1) ?_
    fun one s₁ hs₁ hg₁ hd₁ ⟨hstored, hone⟩ => ?_
  · refine (Build.constant_literal s.ctx 0 .int32).bind fun zero ctx₁ hg₁ hzero => ?_
    refine (Build.constant_literal ctx₁ 1 .int32).bind fun one ctx₂ hg₂ hone => ?_
    exact .pure ⟨⟨hzero.1.mono hg₂.le, hone.1⟩, hone⟩
  have hget := Std.TreeMap.getElem?_eq_some_getElem hold
  refine (reenter_ensures hs₁ hget (h.mono hg₁ hd₁) hstored).mono ?_
  rintro _ known s₂ - hg₂ - ⟨rfl, htabled, hsame⟩
  refine ⟨⟨.refl known, htabled⟩, fun ν hν hwf hproper hgiven hadmits => ?_⟩
  refine ⟨_, hget, fun hfree x hx => ?_⟩
  obtain ⟨w, t, hn, hw⟩ := ((hone.mono hg₂.le).mono hν).exists_node
  refine hsame.extent ν hν hwf hproper hadmits hfree (fun v hv => ?_) x 1 hx ?_
  · obtain ⟨c, hc, hvar⟩ := Context.mem_freeVars.1 hv
    rcases Context.within_iff.1 hc with rfl | ⟨c', hc', -⟩
    · cases hn.symm.trans hvar
    · simp [hn, Node.children] at hc'
  · rw [Valuation.value_const hn, hw]

/-! ## The sweep -/

theorem TilesFrom.mono {r : AxisRelation} {known' : Facts .axis Domain} {s' : Session}
    (hg : s.ctx.Grows s'.ctx) (hsub : known.Subset known') (h : Tabled given start known s)
    (h' : Tabled given start known' s') (hr : TilesFrom given r known s) :
    TilesFrom given r known' s' := by
  intro ν hν hwf hproper hgiven hadmits
  have hadmits₀ := h.learnt.admits hg hsub h'.learnt hgiven hadmits
  exact (hr ν (hg.le.trans hν) hwf hproper hgiven hadmits₀).mono hsub

/-- What a relation consumes has been found, and what it makes has not. -/
structure Upcoming (r : AxisRelation) (known : Facts .axis Domain) (s : Session) : Prop where
  consumed : ∀ a, a ∈ r.consumed ∨ r = .singleton a → a ∈ known
  fresh : ∀ a ∈ r.made, a ∉ known
  registered : ∀ a ∈ r.made, a.index < s.ctx.axes.size
  distinct : r.made.Nodup
  stored : ∀ e ∈ r.exprs, s.ctx.Stored e

theorem relationDomains_tiles {r : AxisRelation} (hs : s.Valid) (hr : Upcoming r known s)
    (h : Tabled given start known s) :
    Ensures .univ (relationDomains allowMissing r) known s fun _ known' s' =>
      Finds given start known r.made known' s' ∧ TilesFrom given r known' s' := by
  obtain ⟨hold, hnew, hreg, hdistinct, hsizes⟩ := hr
  rcases r with (⟨parent, outer, inner, size⟩ | ⟨outer, inner, fused⟩) | ⟨parent, rebased⟩ | a
  · simp only [AxisRelation.made, List.nodup_cons, List.mem_singleton] at hdistinct
    exact splitDomains_tiles hs hreg (hold parent (by simp [AxisRelation.consumed])) hnew
      hdistinct.1 (hsizes _ (by simp [AxisRelation.exprs])) h
  · exact fuseDomains_tiles hs (hreg fused (by simp [AxisRelation.made]))
      (hold outer (by simp [AxisRelation.consumed])) (hold inner (by simp [AxisRelation.consumed]))
      (hnew fused (by simp [AxisRelation.made])) h
  · exact rebaseDomains_tiles hs (hreg rebased (by simp [AxisRelation.made]))
      (hold parent (by simp [AxisRelation.consumed])) (hnew rebased (by simp [AxisRelation.made])) h
  · exact singletonDomain_tiles hs (hold a (.inr rfl)) h

/-- What each relation keeps when its turn comes holds of them all. -/
theorem relations_tabled {nest : LoopNest}
    (I : List AxisRelation → Facts .axis Domain → Session → Prop) (hs : s.Valid)
    (hnest : LoopNest.Scheduled s.ctx nest) (hroots : ∀ a, a ∈ start ↔ a ∈ nest.roots)
    (h : Tabled given start start s) (hI : I [] start s)
    (hstep : ∀ done r known s₁, r ∈ nest.relations → s₁.Valid → s.ctx.Grows s₁.ctx →
      Tabled given start known s₁ →
      (∀ a, a ∈ known ↔ a ∈ nest.roots ∨ a ∈ done.flatMap AxisRelation.made) →
      Upcoming r known s₁ → I done known s₁ →
      Ensures .univ (relationDomains allowMissing r) known s₁ fun _ known' s₂ =>
        Finds given start known r.made known' s₂ ∧ I (done ++ [r]) known' s₂) :
    Ensures .univ (nest.relations.forM (relationDomains allowMissing)) start s fun _ known s' =>
      Tabled given start known s' ∧ I nest.relations known s' := by
  have hshaped := hnest.shaped
  refine (forM_ensures (fun done known s' => s.ctx.Grows s'.ctx ∧ Tabled given start known s' ∧
    (∀ a, a ∈ known ↔ a ∈ nest.roots ∨ a ∈ done.flatMap AxisRelation.made) ∧ I done known s') hs
    ⟨.refl _, h, by simpa using hroots, hI⟩ ?_).mono fun _ _ _ _ _ _ h => ⟨h.2.1, h.2.2.2⟩
  rintro done r rest known s₁ hsplit hs₁ ⟨hg₁, htabled, hmem, hI₁⟩
  have hr : r ∈ nest.relations := hsplit ▸ List.mem_append_right _ List.mem_cons_self
  have hnext : Upcoming r known s₁ := by
    refine ⟨fun a ha => (hmem a).2 (hnest.mem_before hsplit ha), fun a ha hold => ?_,
      fun a ha => ?_, (hnest.nodup_of_mem hr).of_append_right,
      fun e he => (hshaped.stored r hr e he).mono hg₁.le⟩
    · obtain ⟨hroot, hdone⟩ := hshaped.not_mem_before hsplit ha
      exact ((hmem a).1 hold).elim hroot hdone
    · rw [hg₁.axes]
      exact hshaped.registered a (hshaped.mem_axes_of_mem_made hr ha)
  refine (hstep done r known s₁ hr hs₁ hg₁ htabled hmem hnext hI₁).mono ?_
  rintro _ known' s₂ - hg₂ - ⟨hfinds, hI₂⟩
  refine ⟨hg₁.trans hg₂, hfinds.tabled, fun a => ?_, hI₂⟩
  rw [hfinds.enters.mem, hmem, List.flatMap_append, List.flatMap_singleton, List.mem_append]
  tauto

theorem relations_tile {nest : LoopNest} (hs : s.Valid) (hnest : LoopNest.Scheduled s.ctx nest)
    (hroots : ∀ a, a ∈ start ↔ a ∈ nest.roots) (h : Tabled given start start s) :
    Ensures .univ (nest.relations.forM (relationDomains allowMissing)) start s fun _ known s' =>
      Tabled given start known s' ∧ ∀ r ∈ nest.relations, TilesFrom given r known s' := by
  refine relations_tabled (fun done known s' => ∀ r ∈ done, TilesFrom given r known s') hs hnest
    hroots h nofun ?_
  intro done r known s₁ _ hs₁ _ htabled _ hnext htiles
  refine (relationDomains_tiles hs₁ hnext htabled).mono ?_
  rintro _ known' s₂ - hg₂ - ⟨hfinds, htiles'⟩
  refine ⟨hfinds, fun r' hr' => ?_⟩
  rcases List.mem_append.1 hr' with hr' | hr'
  · exact (htiles r' hr').mono hg₂ hfinds.enters.old htabled hfinds.tabled
  · exact List.mem_singleton.1 hr' ▸ htiles'

theorem threadDomain_tabled {a thread : AxisId} (hs : s.Valid)
    (hreg : thread.index < s.ctx.axes.size) (h : Tabled given start known s) :
    Ensures .univ (threadDomain allowMissing a thread) known s fun _ known' s' =>
      Tabled given start known' s' ∧ known.Subset known' := by
  refine .table (.requireOrSkip hs (fun d hd => ?_) (.pure hs ⟨h, fun _ _ => id⟩))
  exact (setDomain_keeps hs hreg h (h.stored a d hd)).mono fun _ _ _ _ _ _ h => ⟨h.1, h.2.1⟩

theorem threads_tabled {threads : List (AxisId × AxisId)} (hs : s.Valid)
    (hreg : ∀ p ∈ threads, p.2.index < s.ctx.axes.size) (h : Tabled given start known s) :
    Ensures .univ (threads.forM fun (a, thread) => threadDomain allowMissing a thread) known s
      fun _ known' s' => Tabled given start known' s' ∧ known.Subset known' := by
  refine (forM_ensures (fun _ known' s' => s.ctx.Grows s'.ctx ∧ Tabled given start known' s' ∧
    known.Subset known') hs ⟨.refl _, h, fun _ _ => id⟩ ?_).mono fun _ _ _ _ _ _ h => h.2
  rintro done ⟨a, thread⟩ rest known₁ s₁ hsplit hs₁ ⟨hg₁, h₁, hsub₁⟩
  have hmem : (a, thread) ∈ threads := hsplit ▸ List.mem_append_right _ List.mem_cons_self
  refine (threadDomain_tabled hs₁ (hg₁.axes ▸ hreg _ hmem) h₁).mono ?_
  rintro _ known₂ s₂ - hg₂ - ⟨h₂, hsub₂⟩
  exact ⟨hg₁.trans hg₂, h₂, fun c d hd => hsub₂ c d (hsub₁ c d hd)⟩

/-- The domains found from those of the roots tile exactly, at every assignment that keeps to the
domains that are known before and after. -/
theorem domains_tile {nest : LoopNest} {roots known : Facts .axis Domain} {s s' : Session}
    {env : Env Int64} (hnest : LoopNest.Scheduled s.ctx nest) (hs : s.Reachable)
    (hthreads : ∀ p ∈ nest.threads.toList, p.2.index < s.ctx.axes.size)
    (hroots : ∀ a, a ∈ roots ↔ a ∈ nest.roots)
    (hstored : ∀ (a : AxisId) (d : Domain), roots[a]? = some d → s.ctx.StoredDomain d)
    (hrun : ((domains nest false).run.run roots).run s = ((.ok (), known), s'))
    (hgiven : (s'.ctx.valuation env).Admits s.domains)
    (hadmits : (s'.ctx.valuation env).Admits s'.domains)
    (hproper : (s'.ctx.valuation env).Proper) :
    (∀ r ∈ nest.relations, r.Tiles (s'.ctx.valuation env) known) ∧
      ∀ (a : AxisId) (d : Domain) (x : Int), known[a]? = some d →
        (s'.ctx.valuation env).value d.extent = some x →
          ∃ w, s'.ctx.EvalsTo env d.extent w ∧ w.toInt = x := by
  have hshaped := hnest.shaped
  have hstart : Tabled s.domains roots roots s := by
    refine ⟨⟨fun a d ha hd => absurd (mem_of_get hd) ha, fun v d => .inl⟩, hstored, fun a ha => ?_,
      fun _ _ => id⟩
    exact hshaped.registered a (hshaped.mem_axes_of_mem_roots ((hroots a).1 ha))
  have hsweep : Ensures .univ (domains nest false) roots s fun _ known s' =>
      ∀ r ∈ nest.relations, TilesFrom s.domains r known s' := by
    refine (relations_tile hs.valid hnest hroots hstart).bind ?_
    rintro _ known₁ s₁ hs₁ hg₁ - ⟨htabled₁, htiles₁⟩
    refine (threads_tabled hs₁ (hg₁.axes ▸ hthreads) htabled₁).mono ?_
    rintro _ known s₂ - hg₂ - ⟨htabled₂, hsub⟩ r hr
    exact (htiles₁ r hr).mono hg₂ hsub htabled₁ htabled₂
  obtain ⟨hs', -, -, htiles⟩ := hsweep _ _ _ hrun
  refine ⟨fun r hr => htiles r hr _ le_rfl hs'.wellFormed hproper hgiven hadmits, ?_⟩
  exact fun a d x _ hx => Context.exists_evalsTo hadmits hx

/-- One root over `[0, extent)`, for an extent that is made of two variables. -/
def rootOver (extent : ExprId → ExprId → Build ExprId) : (AxisId × Domain) × Context := (do
  let n ← Build.var (← declareVar "n" .int64)
  let k ← Build.var (← declareVar "k" .int64)
  let domain ← Domain.ofExtent (← extent n k)
  return (← declareAxis "i" (some domain) .dataParallel, domain) : Build _).run default

def rootDomains (root : (AxisId × Domain) × Context) : Facts .axis Domain :=
  Std.TreeMap.empty.insert root.1.1 root.1.2

theorem mem_rootDomains (root : (AxisId × Domain) × Context) (a : AxisId) :
    a ∈ rootDomains root ↔ a ∈ [root.1.1] := by
  rw [rootDomains, Std.TreeMap.mem_insert, Std.compare_eq_iff_eq, List.mem_singleton, eq_comm]
  exact or_iff_left Std.TreeMap.not_mem_emptyc

def raggedRoot : (AxisId × Domain) × Context := rootOver fun n _ => return n

/-- A split into rows of four, fused again, rebased, and split into one part, which is pinned. -/
def raggedSchedule (i : AxisId) : Schedule LoopNest := do
  let (nest, outer, inner) ← (LoopNest.ofRoots "ragged" [i]).split i (.factor (← Build.int 4))
  let (nest, fused) ← nest.fuse outer inner
  let (nest, rebased) ← nest.rebase fused
  let (nest, part, _) ← nest.split rebased (.parts (← Build.int 1))
  nest.singleton part

def ragged : LoopNest × Context := (raggedSchedule raggedRoot.1.1).outcome raggedRoot.2

def raggedDomains : Facts .axis Domain × Session :=
  (domains ragged.1 false).outcome (rootDomains raggedRoot) ⟨ragged.2, {}⟩

theorem raggedSchedule_scheduled {ctx : Context} {i : AxisId} (hwf : ctx.WellFormed)
    (hi : i.index < ctx.axes.size) :
    Schedule.Ensures (raggedSchedule i) ctx fun nest ctx' => LoopNest.Scheduled ctx' nest := by
  have hint : ∀ {nest : LoopNest} {ctx : Context} (w : Int64), LoopNest.Scheduled ctx nest →
      Schedule.Ensures (liftM (Build.int w)) ctx fun e ctx' =>
        LoopNest.Scheduled ctx' nest ∧ ctx'.Stored e := by
    intro nest ctx w h
    have hg := Build.constant_literal ctx w .int32
    exact Schedule.Ensures.build ⟨h.store hg.1.le (hg.1.wellFormed h.shaped.wellFormed), hg.2.1⟩
  have hroot : LoopNest.Scheduled ctx (LoopNest.ofRoots "ragged" [i]) :=
    .ofRoots hwf "ragged" (List.nodup_singleton i) (by simpa using hi)
  refine (hint 4 hroot).bind fun four ctx ⟨h, hfour⟩ => ?_
  have hrows : ctx.Stored (SplitBy.factor four).extent := hfour
  refine Schedule.Ensures.bind (fun p ctx' hrun => LoopNest.Scheduled.split h hrows hrun)
    fun p ctx h => ?_
  refine Schedule.Ensures.bind (fun p ctx' hrun => LoopNest.Scheduled.fuse h hrun) fun p ctx h => ?_
  refine Schedule.Ensures.bind (fun p ctx' hrun => LoopNest.Scheduled.rebase h hrun)
    fun p ctx h => ?_
  refine (hint 1 h).bind fun one ctx ⟨h, hone⟩ => ?_
  have hpart : ctx.Stored (SplitBy.parts one).extent := hone
  refine Schedule.Ensures.bind (fun p ctx' hrun => LoopNest.Scheduled.split h hpart hrun)
    fun p ctx h => ?_
  exact fun p ctx' hrun => LoopNest.Scheduled.singleton h hrun

theorem ragged_scheduled : LoopNest.Scheduled ragged.2 ragged.1 :=
  (raggedSchedule_scheduled (by decide +kernel) (by decide +kernel)).outcome (by decide +kernel)

/-- Ten points in rows of four. -/
def tenPoints : Env Int64 := .ofList [(⟨0⟩, 10)]

theorem domains_tile_ragged :
    (∀ r ∈ ragged.1.relations, r.Tiles (raggedDomains.2.ctx.valuation tenPoints) raggedDomains.1) ∧
      ∀ (a : AxisId) (d : Domain) (x : Int), raggedDomains.1[a]? = some d →
        (raggedDomains.2.ctx.valuation tenPoints).value d.extent = some x →
          ∃ w, raggedDomains.2.ctx.EvalsTo tenPoints d.extent w ∧ w.toInt = x := by
  have hplain : (raggedDomains.2.ctx.valuation tenPoints).Plain := by decide +kernel
  have hroots : ragged.1.roots = [raggedRoot.1.1] := by decide +kernel
  have hstored : ∀ p ∈ (rootDomains raggedRoot).toList, ragged.2.StoredDomain p.2 := by
    decide +kernel
  exact domains_tile (s := ⟨ragged.2, {}⟩) ragged_scheduled (.start _ true (by decide +kernel))
    (by decide +kernel) (fun a => hroots ▸ mem_rootDomains raggedRoot a)
    (fun a d hd => hstored (a, d) (Std.TreeMap.mem_toList_iff_getElem?_eq_some.2 hd))
    (run_eq_of_succeeds (by decide +kernel))
    (Session.admits_of_bindings (s := ⟨ragged.2, {}⟩) hplain (by decide +kernel))
    (Session.admits_of_bindings hplain (by decide +kernel))
    ⟨hplain.truthful, fun _ _ _ _ hn => absurd hn hplain.not_call⟩

example : raggedDomains.1.toList.map (fun p =>
    (raggedDomains.2.ctx.valuation tenPoints).value p.2.extent) =
      [some 10, some 3, some 4, some 12, some 12, some 1, some 12] := by decide +kernel

/-- A root over `[0, (n % 2 >= 0 and k) + 1)`. -/
def numberRoot : (AxisId × Domain) × Context := rootOver fun n k => do
  let rest ← Build.division .floorMod n (← Build.int 2)
  Build.addConst (← Build.conj (← Build.compare .ge rest (← Build.int 0)) k) 1

def numberSchedule (i : AxisId) : Schedule LoopNest := do
  let (nest, _, _) ← (LoopNest.ofRoots "number" [i]).split i (.factor (← Build.int 1))
  return nest

def numberNest : LoopNest × Context := (numberSchedule numberRoot.1.1).outcome numberRoot.2

def numberDomains : Facts .axis Domain × Session :=
  (domains numberNest.1 false).outcome (rootDomains numberRoot) ⟨numberNest.2, {}⟩

/-- The connective is given the number five. -/
def numberSizes : Env Int64 := .ofList [(⟨0⟩, 0), (⟨1⟩, 5)]

theorem numberNest_scheduled : LoopNest.Scheduled numberNest.2 numberNest.1 := by
  refine Schedule.Ensures.outcome (Q := fun nest ctx => LoopNest.Scheduled ctx nest) ?_
    (by decide +kernel)
  have hone : LoopNest.Scheduled ((Build.int 1).run numberRoot.2).2
        (LoopNest.ofRoots "number" [numberRoot.1.1]) ∧
      ((Build.int 1).run numberRoot.2).2.Stored ((Build.int 1).run numberRoot.2).1 :=
    ⟨.ofRoots (by decide +kernel) "number" (by decide +kernel) (by decide +kernel),
      by decide +kernel⟩
  refine (Schedule.Ensures.build (Q := fun one ctx => LoopNest.Scheduled ctx
    (LoopNest.ofRoots "number" [numberRoot.1.1]) ∧ ctx.Stored one) hone).bind
    fun one ctx ⟨h, hone⟩ => ?_
  have hsize : ctx.Stored (SplitBy.factor one).extent := hone
  refine Schedule.Ensures.bind (fun p ctx' hrun => LoopNest.Scheduled.split h hsize hrun)
    fun p ctx h => ?_
  exact .pure h

/-- A conjunct that is true is left out whatever the other one is, so an extent may come out wrong
where a connective is given a number: two points in rows of one make six rows. -/
theorem domains_exceed_numberNest :
    LoopNest.Scheduled numberNest.2 numberNest.1 ∧
      (⟨numberNest.2, {}⟩ : Session).Reachable ∧
      (∀ a, a ∈ rootDomains numberRoot ↔ a ∈ numberNest.1.roots) ∧
      ((domains numberNest.1 false).run.run (rootDomains numberRoot)).run ⟨numberNest.2, {}⟩ =
        ((.ok (), numberDomains.1), numberDomains.2) ∧
      numberDomains.2.KeepsDomains numberSizes ∧
      (∀ i < numberDomains.2.ctx.size,
        ∀ x ∈ (numberDomains.2.ctx.valuation numberSizes).value ⟨i⟩, Word.Inside x) ∧
      ∃ whole ∈ numberDomains.1[(⟨0⟩ : AxisId)]?, ∃ rows ∈ numberDomains.1[(⟨1⟩ : AxisId)]?,
        ∃ size, .reshape (.split ⟨0⟩ ⟨1⟩ ⟨2⟩ (.factor size)) ∈ numberNest.1.relations ∧
          numberDomains.2.ctx.eval numberSizes whole.extent = some 2 ∧
          numberDomains.2.ctx.eval numberSizes size = some 1 ∧
          numberDomains.2.ctx.eval numberSizes rows.extent = some 6 := by
  have hroots : numberNest.1.roots = [numberRoot.1.1] := by decide +kernel
  have hrelation : ∃ r ∈ numberNest.1.relations.head?, ∃ e ∈ r.exprs.head?,
      r = .reshape (.split ⟨0⟩ ⟨1⟩ ⟨2⟩ (.factor e)) ∧
        numberDomains.2.ctx.eval numberSizes e = some 1 := by decide +kernel
  obtain ⟨_, hr, e, -, rfl, he⟩ := hrelation
  have hwhole : ∃ d ∈ numberDomains.1[(⟨0⟩ : AxisId)]?,
      numberDomains.2.ctx.eval numberSizes d.extent = some 2 := by decide +kernel
  have hrows : ∃ d ∈ numberDomains.1[(⟨1⟩ : AxisId)]?,
      numberDomains.2.ctx.eval numberSizes d.extent = some 6 := by decide +kernel
  obtain ⟨whole, hwhole, hvalue⟩ := hwhole
  obtain ⟨rows, hrows, hcount⟩ := hrows
  exact ⟨numberNest_scheduled, .start _ true (by decide +kernel),
    fun a => hroots ▸ mem_rootDomains numberRoot a, run_eq_of_succeeds (by decide +kernel),
    Session.keepsDomains_of_bindings (by decide +kernel), by decide +kernel,
    whole, hwhole, rows, hrows, e, List.mem_of_mem_head? hr, hvalue, he, hcount⟩

end Sweep

end LoopBounds
