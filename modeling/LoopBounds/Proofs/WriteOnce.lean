import LoopBounds.Proofs.Tiling

/-!
# Domains are written once

An entry of a table of domains stays what it is.  A domain that is entered again has the extent of
the one already there, which starts at zero; where the new one starts is not looked at.  So the
thread axis of a leaf ends up with the extent of the leaf, but perhaps not with its interval.
-/

namespace LoopBounds

/-- The ends of the domains have the same values, where they have any. -/
structure Valuation.SameInterval (ν : Valuation) (d e : Domain) : Prop where
  min : ∀ x y, ν.value d.min = some x → ν.value e.min = some y → x = y
  extent : ∀ x y, ν.value d.extent = some x → ν.value e.extent = some y → x = y

theorem Valuation.SameInterval.refl (ν : Valuation) (d : Domain) : ν.SameInterval d d :=
  ⟨fun _ _ hx hy => Option.some_inj.1 (hx.symm.trans hy),
    fun _ _ hx hy => Option.some_inj.1 (hx.symm.trans hy)⟩

theorem Context.Confirms.sameInterval {ctx : Context} {P : Valuation → Prop} {d e : Domain}
    {ν : Valuation} (h : ctx.Confirms P d e) (hν : ctx ≤ ν.ctx)
    (hzero : d = e ∨ ν.value e.min = some 0)
    (hextent : ∀ x y, ν.value d.extent = some x → ν.value e.extent = some y → x = y) :
    ν.SameInterval d e := by
  rcases hzero with rfl | hzero
  · exact .refl ν d
  rcases h.anchored with rfl | hmin
  · exact .refl ν d
  refine ⟨fun x y hx hy => ?_, hextent⟩
  obtain ⟨w, t, hn, hw⟩ := (hmin.mono hν).exists_node
  rw [Valuation.value_const hn, hw] at hx
  exact Option.some_inj.1 (hx.symm.trans (hzero.symm.trans hy))

/-- In a session that started from the domains `given`, `e` was accepted where `d` was known: `e`
is `d`, or `d` starts at a literal zero.  Wherever the domains known then and now are kept to, the
extents are the same, and if `e` starts at zero then so are the intervals. -/
structure Session.Accepts (s : Session) (given : Env Domain) (d e : Domain) : Prop where
  anchored : d = e ∨ s.ctx.Literal d.min 0
  sameExtent : ∀ env : Env Int64, (s.ctx.valuation env).Admits given →
    (s.ctx.valuation env).Admits s.domains → (s.ctx.valuation env).Proper →
      s.ctx.ParamFree d.extent → s.ctx.ParamFree e.extent →
        ∀ x y, (s.ctx.valuation env).value d.extent = some x →
          (s.ctx.valuation env).value e.extent = some y → x = y
  sameInterval : ∀ env : Env Int64, (s.ctx.valuation env).Admits given →
    (s.ctx.valuation env).Admits s.domains → (s.ctx.valuation env).Proper →
      s.ctx.ParamFree d.extent → s.ctx.ParamFree e.extent →
        (d = e ∨ (s.ctx.valuation env).value e.min = some 0) →
          (s.ctx.valuation env).SameInterval d e

/-- The assignments that keep to the domains known at the start and to those known now. -/
abbrev Session.Throughout (s : Session) (given : Env Domain) (ν : Valuation) : Prop :=
  ν.Admits given ∧ ν.Admits s.domains

theorem Session.accepts_of_confirms {s : Session} {given : Env Domain} {d e : Domain}
    (hs : s.Valid) (h : s.ctx.Confirms (s.Throughout given) d e) : s.Accepts given d e := by
  have hextent : ∀ env : Env Int64, (s.ctx.valuation env).Admits given →
      (s.ctx.valuation env).Admits s.domains → (s.ctx.valuation env).Proper →
        s.ctx.ParamFree d.extent → s.ctx.ParamFree e.extent →
          ∀ x y, (s.ctx.valuation env).value d.extent = some x →
            (s.ctx.valuation env).value e.extent = some y → x = y :=
    fun env hgiven hadmits hproper =>
      h.extent (s.ctx.valuation env) le_rfl hs.wellFormed hproper ⟨hgiven, hadmits⟩
  exact ⟨h.anchored, hextent, fun env hgiven hadmits hproper hd he hzero =>
    h.sameInterval le_rfl hzero (hextent env hgiven hadmits hproper hd he)⟩

namespace Sweep

variable {s : Session} {given : Env Domain} {start known : Facts .axis Domain} {key : AxisId}
  {d : Domain} {allowMissing : Bool}

/-! ## What a table of domains keeps -/

/-- The sweep leaves a table of the session, with what was there before. -/
abbrev Keeps (given : Env Domain) (start known : Facts .axis Domain)
    (m : Sweep (Facts .axis Domain) Unit) (s : Session) : Prop :=
  Ensures .univ m known s fun _ known' s' => Tabled given start known' s' ∧ known.Subset known'

theorem setExtent_keeps {extent : ExprId} (hs : s.Valid) (hkey : key.index < s.ctx.axes.size)
    (h : Tabled given start known s) (hextent : s.ctx.Stored extent) :
    Keeps given start known (do setDomain key (← Domain.ofExtent extent)) s := by
  refine .build hs (Domain.ofExtent_fromZero s.ctx extent) fun d s₁ hs₁ hg₁ hd₁ ⟨hmin, hd⟩ => ?_
  have hstored : s₁.ctx.StoredDomain d := ⟨hmin.1, hd ▸ hextent.mono hg₁.le⟩
  refine (setDomain_keeps hs₁ (hg₁.axes ▸ hkey) (h.mono hg₁ hd₁) hstored).mono ?_
  exact fun _ _ _ _ _ _ h => ⟨h.1, h.2.1⟩

theorem partDomains_keep {first second : AxisId} {whole size : ExprId} (hs : s.Valid)
    (hfirst : first.index < s.ctx.axes.size) (hsecond : second.index < s.ctx.axes.size)
    (h : Tabled given start known s) (hwhole : s.ctx.Stored whole) (hsize : s.ctx.Stored size) :
    Keeps given start known (do
      setDomain first (← Domain.ofExtent size)
      let count ← ceilDiv whole size
      setDomain second (← Domain.ofExtent count)) s := by
  rw [← bind_assoc]
  refine (setExtent_keeps hs hfirst h hsize).bind ?_
  rintro _ known₁ s₁ hs₁ hg₁ - ⟨h₁, hsub₁⟩
  refine (ceilDiv_denotes hs₁ (Context.over_all (hwhole.mono hg₁.le))
    (Context.over_all (hsize.mono hg₁.le))).bind ?_
  rintro count known₁ s₂ hs₂ hg₂ - ⟨rfl, hd₂, hcount⟩
  refine (setExtent_keeps hs₂ (by rwa [hg₂.axes, hg₁.axes]) (h₁.mono hg₂ hd₂) hcount.stored).mono ?_
  rintro _ known' s' - - - ⟨h', hsub'⟩
  exact ⟨h', fun a c hc => hsub' a c (hsub₁ a c hc)⟩

theorem relationDomains_keep {r : AxisRelation} (hs : s.Valid)
    (hreg : ∀ a, a ∈ r.made ∨ r = .singleton a → a.index < s.ctx.axes.size)
    (hsizes : ∀ e ∈ r.exprs, s.ctx.Stored e) (h : Tabled given start known s) :
    Keeps given start known (relationDomains allowMissing r) s := by
  have hskip : Keeps given start known (pure ()) s := .pure hs ⟨h, fun _ _ => id⟩
  rcases r with (⟨parent, outer, inner, size⟩ | ⟨outer, inner, fused⟩) | ⟨parent, rebased⟩ | a
  · have houter := hreg outer (.inl (by simp [AxisRelation.made]))
    have hinner := hreg inner (.inl (by simp [AxisRelation.made]))
    have hsize := hsizes size.extent (by simp [AxisRelation.exprs])
    refine .table (.requireOrSkip hs (fun whole hwhole => ?_) hskip)
    have hwhole := (h.stored parent whole hwhole).2
    cases size with
    | factor extent => exact partDomains_keep hs hinner houter h hwhole hsize
    | parts extent => exact partDomains_keep hs houter hinner h hwhole hsize
  · refine .table (.requireOrSkip hs (fun first hfirst => ?_) hskip)
    refine .table (.requireOrSkip hs (fun second hsecond => ?_) hskip)
    have hproduct := Build.mul_denotes (Context.over_all (h.stored outer first hfirst).2)
      (Context.over_all (h.stored inner second hsecond).2)
    refine .build hs hproduct fun product s₁ hs₁ hg₁ hd₁ hproduct => ?_
    refine .query (Query.simplified product s₁ hs₁ hproduct.stored)
      fun extent s₂ hs₂ hg₂ hd₂ hextent => ?_
    have hg := hg₁.trans hg₂
    have hstored := (hextent.denotes .all (Context.over_all hextent.stored)).stored
    exact setExtent_keeps hs₂ (hg.axes ▸ hreg fused (.inl (by simp [AxisRelation.made])))
      (h.mono hg (hd₂.trans hd₁)) hstored
  · refine .table (.requireOrSkip hs (fun whole hwhole => ?_) hskip)
    exact setExtent_keeps hs (hreg rebased (.inl (by simp [AxisRelation.made]))) h
      (h.stored parent whole hwhole).2
  · refine .build hs (P := fun d ctx => ctx.StoredDomain d) ?_ fun one s₁ hs₁ hg₁ hd₁ hone => ?_
    · refine (Build.constant_literal s.ctx 0 .int32).bind fun zero ctx₁ hg₁ hzero => ?_
      refine (Build.constant_literal ctx₁ 1 .int32).bind fun one ctx₂ hg₂ hone => ?_
      exact .pure ⟨hzero.1.mono hg₂.le, hone.1⟩
    refine (setDomain_keeps hs₁ (hg₁.axes ▸ hreg a (.inr rfl)) (h.mono hg₁ hd₁) hone).mono ?_
    exact fun _ _ _ _ _ _ h => ⟨h.1, h.2.1⟩

theorem relations_keep {nest : LoopNest} (hs : s.Valid) (hnest : LoopNest.Shaped s.ctx nest)
    (h : Tabled given start start s) :
    Keeps given start start (nest.relations.forM (relationDomains allowMissing)) s := by
  refine (forM_ensures (fun _ known s' => s.ctx.Grows s'.ctx ∧ Tabled given start known s' ∧
    start.Subset known) hs ⟨.refl _, h, fun _ _ => id⟩ ?_).mono fun _ _ _ _ _ _ h => h.2
  rintro done r rest known s₁ hsplit hs₁ ⟨hg₁, h₁, hsub₁⟩
  have hr : r ∈ nest.relations := hsplit ▸ List.mem_append_right _ List.mem_cons_self
  refine (relationDomains_keep hs₁ (fun a ha => ?_) (fun e he => ?_) h₁).mono ?_
  · rw [hg₁.axes]
    refine hnest.registered a ?_
    rcases ha with ha | rfl
    exacts [hnest.mem_axes_of_mem_made hr ha, hnest.pinned a hr]
  · exact (hnest.stored r hr e he).mono hg₁.le
  · rintro _ known' s₂ - hg₂ - ⟨h₂, hsub₂⟩
    exact ⟨hg₁.trans hg₂, h₂, fun a d hd => hsub₂ a d (hsub₁ a d hd)⟩

/-! ## Threads -/

/-- The leaf and its thread have domains, and that of the leaf was accepted for the thread. -/
def Shared (given : Env Domain) (known : Facts .axis Domain) (s : Session) (p : AxisId × AxisId) :
    Prop :=
  ∃ d e, known[p.2]? = some d ∧ known[p.1]? = some e ∧ s.ctx.Confirms (s.Throughout given) d e

theorem Shared.mono {known' : Facts .axis Domain} {s' : Session} {p : AxisId × AxisId}
    (hg : s.ctx.Grows s'.ctx) (hsub : known.Subset known') (h : Tabled given start known s)
    (h' : Tabled given start known' s') (hp : Shared given known s p) :
    Shared given known' s' p := by
  obtain ⟨d, e, hd, he, hconfirms⟩ := hp
  refine ⟨d, e, hsub _ _ hd, hsub _ _ he, hconfirms.mono hg.le fun ν _ hν => ⟨hν.1, ?_⟩⟩
  exact h.learnt.admits hg hsub h'.learnt hν.1 hν.2

theorem threadDomain_shared {a thread : AxisId} (hs : s.Valid)
    (hreg : thread.index < s.ctx.axes.size) (h : Tabled given start known s) :
    Ensures .univ (threadDomain false a thread) known s fun _ known' s' =>
      Tabled given start known' s' ∧ known.Subset known' ∧
        Shared given known' s' (a, thread) := by
  refine .table (.require hs fun e he => ?_)
  refine (setDomain_keeps hs hreg h (h.stored a e he)).mono ?_
  rintro _ known' s' - - - ⟨h', hsub, d, hd, hconfirms⟩
  exact ⟨h', hsub, d, e, hd, hsub _ _ he, hconfirms.mono le_rfl fun _ _ hν => hν.2⟩

theorem threads_shared {threads : List (AxisId × AxisId)} (hs : s.Valid)
    (hreg : ∀ p ∈ threads, p.2.index < s.ctx.axes.size) (h : Tabled given start known s) :
    Ensures .univ (threads.forM fun (a, thread) => threadDomain false a thread) known s
      fun _ known' s' => ∀ p ∈ threads, Shared given known' s' p := by
  refine (forM_ensures (fun done known' s' => s.ctx.Grows s'.ctx ∧ Tabled given start known' s' ∧
    ∀ p ∈ done, Shared given known' s' p) hs ⟨.refl _, h, nofun⟩ ?_).mono
      fun _ _ _ _ _ _ h => h.2.2
  rintro done ⟨a, thread⟩ rest known₁ s₁ hsplit hs₁ ⟨hg₁, h₁, hdone⟩
  have hmem : (a, thread) ∈ threads := hsplit ▸ List.mem_append_right _ List.mem_cons_self
  refine (threadDomain_shared hs₁ (hg₁.axes ▸ hreg _ hmem) h₁).mono ?_
  rintro _ known₂ s₂ - hg₂ - ⟨h₂, hsub, hshared⟩
  refine ⟨hg₁.trans hg₂, h₂, fun p hp => ?_⟩
  rcases List.mem_append.1 hp with hp | hp
  · exact (hdone p hp).mono hg₂ hsub h₁ h₂
  · exact List.mem_singleton.1 hp ▸ hshared

/-- A domain that is entered for a key that has one changes nothing and is accepted for it.  So
when the domains of a nest have been found, from whatever domains there were, that of each bound
leaf has been accepted for its thread. -/
theorem domains_accept (hs : s.Reachable) :
    (∀ {t : Table} [Keyed t] {known known' : Facts t Domain} {key : Handle t} {d e : Domain}
      {s' : Session}, s.ctx.StoredDomain d → s.ctx.StoredDomain e → known[key]? = some d →
        ((setDomain key e).run.run known).run s = ((.ok (), known'), s') →
          known' = known ∧ s'.Accepts s.domains d e) ∧
    ∀ {nest : LoopNest} {start known : Facts .axis Domain} {s' : Session},
      LoopNest.Scheduled s.ctx nest →
      (∀ p ∈ nest.threads.toList, p.2.index < s.ctx.axes.size) →
      (∀ a ∈ start, a.index < s.ctx.axes.size) →
      (∀ (a : AxisId) (d : Domain), start[a]? = some d → s.ctx.StoredDomain d) →
      ((domains nest false).run.run start).run s = ((.ok (), known), s') →
        ∀ p ∈ nest.threads.toList, ∃ d e, known[p.2]? = some d ∧ known[p.1]? = some e ∧
          s'.Accepts s.domains d e := by
  constructor
  · intro t _ known known' key d e s' hd he hold hrun
    obtain ⟨hs', -, -, rfl, -, hconfirms⟩ := setDomain_confirms (V := .univ) hs.valid hold hd he
      _ _ _ hrun
    exact ⟨rfl, Session.accepts_of_confirms hs' (hconfirms.mono le_rfl fun _ _ hν => hν.1)⟩
  · intro nest start known s' hnest hthreads hstart hstored hrun
    have htabled : Tabled s.domains start start s :=
      ⟨⟨fun a d ha hd => absurd (mem_of_get hd) ha, fun v d => .inl⟩, hstored, hstart,
        fun _ _ => id⟩
    have hsweep : Ensures .univ (domains nest false) start s fun _ known s' =>
        ∀ p ∈ nest.threads.toList, Shared s.domains known s' p := by
      refine (relations_keep hs.valid hnest.shaped htabled).bind ?_
      rintro _ known₁ s₁ hs₁ hg₁ - ⟨h₁, -⟩
      exact threads_shared hs₁ (hg₁.axes ▸ hthreads) h₁
    obtain ⟨hs', -, -, hshared⟩ := hsweep _ _ _ hrun
    intro p hp
    obtain ⟨d, e, hd, he, hconfirms⟩ := hshared p hp
    exact ⟨d, e, hd, he, Session.accepts_of_confirms hs' hconfirms⟩

/-- Two loops that run on one thread, the first over `[0, n)`. -/
structure ThreadSample where
  first : AxisId × Domain
  second : AxisId × Domain
  thread : AxisId
  deriving Inhabited

def shareThread (second : ExprId → Build Domain) : Build ThreadSample := do
  let n ← Build.var (← declareVar "n" .int64)
  let d ← Domain.ofExtent n
  let i ← declareAxis "i" (some d) .dataParallel
  let e ← second n
  let j ← declareAxis "j" (some e) .dataParallel
  return ⟨(i, d), (j, e), ← declareThread "threadIdx.x"⟩

namespace ThreadSample

def roots (sample : ThreadSample) : Facts .axis Domain :=
  (Std.TreeMap.empty.insert sample.first.1 sample.first.2).insert sample.second.1 sample.second.2

def schedule (sample : ThreadSample) : Schedule LoopNest := do
  let nest ← (LoopNest.ofRoots "shared" [sample.first.1, sample.second.1]).bind sample.first.1
    sample.thread
  nest.bind sample.second.1 sample.thread

def nest (sample : ThreadSample × Context) : LoopNest × Context :=
  sample.1.schedule.outcome sample.2

def session (sample : ThreadSample × Context) : Session := ⟨(nest sample).2, {}⟩

def found (sample : ThreadSample × Context) : Facts .axis Domain × Session :=
  (domains (nest sample).1 false).outcome sample.1.roots (session sample)

/-- The domain of the second loop entered for the first. -/
def entered (sample : ThreadSample × Context) : Facts .axis Domain × Session :=
  (setDomain sample.1.first.1 sample.1.second.2).outcome sample.1.roots (session sample)

theorem nest_scheduled {sample : ThreadSample × Context} (hwf : sample.2.WellFormed)
    (hne : sample.1.first.1 ≠ sample.1.second.1)
    (hfirst : sample.1.first.1.index < sample.2.axes.size)
    (hsecond : sample.1.second.1.index < sample.2.axes.size)
    (hok : sample.1.schedule.succeeds sample.2 = true) :
    LoopNest.Scheduled (nest sample).2 (nest sample).1 := by
  refine Schedule.Ensures.outcome (Q := fun nest ctx => LoopNest.Scheduled ctx nest) ?_ hok
  have hroots : LoopNest.Scheduled sample.2
      (LoopNest.ofRoots "shared" [sample.1.first.1, sample.1.second.1]) :=
    .ofRoots hwf "shared" (by simpa using hne) (by simpa using ⟨hfirst, hsecond⟩)
  refine Schedule.Ensures.bind (fun nest ctx hrun => LoopNest.Scheduled.bind hroots hrun)
    fun nest ctx h => ?_
  exact fun nest' ctx' hrun => LoopNest.Scheduled.bind h hrun

/-- The second loop runs over `[0, n + 1 - 1)`. -/
def alike : ThreadSample × Context :=
  (shareThread fun n => do
    Domain.ofExtent (← Build.addConst (← Build.addConst n 1) (-1))).run default

/-- The second loop runs over `[5, 5 + n)`. -/
def shifted : ThreadSample × Context :=
  (shareThread fun n => do return ⟨← Build.constant 5 .int64, n⟩).run default

theorem nest_alike_scheduled : LoopNest.Scheduled (session alike).ctx (nest alike).1 :=
  nest_scheduled (by decide +kernel) (by decide +kernel) (by decide +kernel) (by decide +kernel)
    (by decide +kernel)

theorem nest_shifted_scheduled : LoopNest.Scheduled (session shifted).ctx (nest shifted).1 :=
  nest_scheduled (by decide +kernel) (by decide +kernel) (by decide +kernel) (by decide +kernel)
    (by decide +kernel)

/-- In a session without functions, at ten points. -/
theorem sameInterval_of_accepts {s : Session} {given : Env Domain} {d e : Domain}
    (h : s.Accepts given d e) (hfuns : s.ctx.funs.size = 0)
    (hplain : (s.ctx.valuation tenPoints).Plain)
    (hgiven : (s.ctx.valuation tenPoints).Admits given)
    (hknown : (s.ctx.valuation tenPoints).Admits s.domains)
    (hzero : d = e ∨ (s.ctx.valuation tenPoints).value e.min = some 0) :
    (s.ctx.valuation tenPoints).SameInterval d e := by
  have hfree : ∀ r, s.ctx.ParamFree r := by
    rintro r v - ⟨f, hf⟩
    have hnone : s.ctx.fn f = default := by simp [Context.fn, Array.size_eq_zero_iff.1 hfuns]
    rw [hnone] at hf
    cases hf
  exact h.sameInterval tenPoints hgiven hknown
    ⟨hplain.truthful, fun _ _ _ _ hn => absurd hn hplain.not_call⟩ (hfree _) (hfree _) hzero

/-- The extents `n` and `n + 1 - 1` are the same ten points, and the thread takes over `[0, n)`. -/
theorem domains_accept_alike :
    (entered alike).1 = alike.1.roots ∧
      ((entered alike).2.ctx.valuation tenPoints).SameInterval alike.1.first.2 alike.1.second.2 ∧
      ∀ p ∈ (nest alike).1.threads.toList, ∃ d e, (found alike).1[p.2]? = some d ∧
        (found alike).1[p.1]? = some e ∧
          ((found alike).2.ctx.valuation tenPoints).SameInterval d e := by
  have hreach : (session alike).Reachable := .start _ true (by decide +kernel)
  have hstored : ∀ p ∈ alike.1.roots.toList, (session alike).ctx.StoredDomain p.2 := by
    decide +kernel
  have hentered : ((entered alike).2.ctx.valuation tenPoints).Plain := by decide +kernel
  have hfound : ((found alike).2.ctx.valuation tenPoints).Plain := by decide +kernel
  have hrun : ((setDomain alike.1.first.1 alike.1.second.2).run.run alike.1.roots).run
      (session alike) = ((.ok (), (entered alike).1), (entered alike).2) :=
    run_eq_of_succeeds (by decide +kernel)
  have hold : alike.1.roots[alike.1.first.1]? = some alike.1.first.2 := by decide +kernel
  obtain ⟨hsame, haccepts⟩ :=
    (domains_accept hreach).1 (by decide +kernel) (by decide +kernel) hold hrun
  have hthreads := (domains_accept hreach).2 nest_alike_scheduled (by decide +kernel)
    (fun a ha => by
      obtain ⟨d, hd⟩ := exists_get_of_mem ha
      have hreg : ∀ p ∈ alike.1.roots.toList, p.1.index < (session alike).ctx.axes.size := by
        decide +kernel
      exact hreg (a, d) (Std.TreeMap.mem_toList_iff_getElem?_eq_some.2 hd))
    (fun a d hd => hstored (a, d) (Std.TreeMap.mem_toList_iff_getElem?_eq_some.2 hd))
    (run_eq_of_succeeds (by decide +kernel))
  refine ⟨hsame, ?_, fun p hp => ?_⟩
  · exact sameInterval_of_accepts haccepts (by decide +kernel) hentered
      (Session.admits_of_bindings (s := session alike) hentered (by decide +kernel))
      (Session.admits_of_bindings hentered (by decide +kernel)) (by decide +kernel)
  · obtain ⟨d, e, hd, he, haccepts⟩ := hthreads p hp
    have hzero : ∀ p ∈ (found alike).1.toList,
        ((found alike).2.ctx.valuation tenPoints).value p.2.min = some 0 := by decide +kernel
    exact ⟨d, e, hd, he, sameInterval_of_accepts haccepts (by decide +kernel) hfound
      (Session.admits_of_bindings (s := session alike) hfound (by decide +kernel))
      (Session.admits_of_bindings hfound (by decide +kernel))
      (.inr (hzero (p.1, e) (Std.TreeMap.mem_toList_iff_getElem?_eq_some.2 he)))⟩

/-- `[5, 5 + n)` is accepted where `[0, n)` is known, also for the thread of the two loops. -/
theorem domains_accept_shifted :
    (LoopNest.Scheduled (session shifted).ctx (nest shifted).1 ∧ (session shifted).Reachable) ∧
    (shifted.1.roots[shifted.1.first.1]? = some shifted.1.first.2 ∧
      ((setDomain shifted.1.first.1 shifted.1.second.2).run.run shifted.1.roots).run
        (session shifted) = ((.ok (), (entered shifted).1), (entered shifted).2) ∧
      ((entered shifted).2.ctx.valuation tenPoints).Admits (entered shifted).2.domains ∧
      (entered shifted).2.ctx.eval tenPoints shifted.1.first.2.min = some 0 ∧
      (entered shifted).2.ctx.eval tenPoints shifted.1.second.2.min = some 5) ∧
    ((domains (nest shifted).1 false).run.run shifted.1.roots).run (session shifted) =
        ((.ok (), (found shifted).1), (found shifted).2) ∧
      ((found shifted).2.ctx.valuation tenPoints).Admits (found shifted).2.domains ∧
      ∃ p ∈ (nest shifted).1.threads.toList, ∃ d ∈ (found shifted).1[p.2]?,
        ∃ e ∈ (found shifted).1[p.1]?, (found shifted).2.ctx.eval tenPoints d.min = some 0 ∧
          (found shifted).2.ctx.eval tenPoints e.min = some 5 :=
  ⟨⟨nest_shifted_scheduled, .start _ true (by decide +kernel)⟩,
    ⟨by decide +kernel, run_eq_of_succeeds (by decide +kernel),
      Session.admits_of_bindings (by decide +kernel) (by decide +kernel), by decide +kernel,
      by decide +kernel⟩,
    run_eq_of_succeeds (by decide +kernel),
    Session.admits_of_bindings (by decide +kernel) (by decide +kernel), by decide +kernel⟩

end ThreadSample

end Sweep

end LoopBounds
