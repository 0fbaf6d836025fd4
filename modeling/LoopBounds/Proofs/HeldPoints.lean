import LoopBounds.Inference.Domains
import LoopBounds.Proofs.Enclosure
import LoopBounds.Proofs.Sets

/-!
# Sets that hold a point

The sets that go up a scheduled nest hold every axis of a point wherever the given sets hold its
leaves.  The statement is about the words of an assignment and about what the ends of the sets
evaluate to.
-/

namespace LoopBounds

namespace Sweep

variable {nest : LoopNest} {known : Facts .axis Domain} {table table' : SetTable} {s s' : Session}
  {env : Env Int64} {b : Box} {x : AxisId → Int}

/-- At a point of the domains that satisfies the relations and that the given sets hold, every
axis gets a set that holds it. -/
theorem setsUp_holds (hnest : LoopNest.Scheduled s.ctx nest) (hs : s.Reachable)
    (hknown : s.ctx.StoredDomains known) (hleaves : ∀ a ∈ nest.leaves, a ∈ table.sets)
    (hrun : ((setsUp nest known).run.run table).run s = ((.ok (), table'), s'))
    (hsets : ∀ (a : AxisId) (set : ValueSet), table.sets[a]? = some set →
      s.ctx.StoredSet set ∧ (s'.ctx.valuation env).Holds set (x a))
    (hadmits : (s'.ctx.valuation env).Admits s.domains)
    (hplaces : (s'.ctx.valuation env).Places nest.axes known b x)
    (heq : ∀ r ∈ nest.relations, r.Equation b x) :
    ∀ a ∈ nest.axes, ∃ set, table'.sets[a]? = some set ∧ s'.ctx.Holds env set (x a) := by
  have hentered : Entered (s'.ctx.valuation env) x table s := by
    intro a set hset
    obtain ⟨hstored, hholds⟩ := hsets a set hset
    refine ⟨fun e he => ⟨hstored.1 e he, ?_⟩, fun e he => ⟨hstored.2 e he, ?_⟩⟩
    · rintro _ - _ ⟨rfl, rfl⟩
      exact hholds.1 e he
    · rintro _ - _ ⟨rfl, rfl⟩
      exact hholds.2 e he
  obtain ⟨-, -, -, hentered', hall⟩ := setsUp_ensures hs.valid hnest.shaped hknown hadmits hplaces
    heq hleaves hentered () table' s' hrun
  intro a ha
  have hset := Std.TreeMap.getElem?_eq_some_getElem (hall a ha)
  exact ⟨_, hset, ((hentered' a _ hset).holds le_rfl ⟨rfl, rfl⟩).evaluated hadmits⟩

/-- A nest over one root with the domains of its axes and a set for its leaves. -/
structure Sample where
  nest : LoopNest
  known : Facts .axis Domain
  table : SetTable
  session : Session

namespace Sample

/-- The root of a sample, and the set for its leaves. -/
def root (declare : Build (Domain × ValueSet)) : (Domain × ValueSet × AxisId) × Context :=
  (do
    let (domain, leafSet) ← declare
    return (domain, leafSet, ← declareAxis "i" (some domain) .dataParallel) : Build _).run default

def scheduled (declare : Build (Domain × ValueSet)) (schedule : AxisId → Schedule LoopNest) :
    LoopNest × Context :=
  (schedule (root declare).1.2.2).outcome (root declare).2

def make (declare : Build (Domain × ValueSet)) (schedule : AxisId → Schedule LoopNest) : Sample :=
  let root := (root declare).1
  let nest := scheduled declare schedule
  let known := (domains nest.1 false).outcome
    (Std.TreeMap.empty.insert root.2.2 root.1) ⟨nest.2, {}⟩
  { nest := nest.1
    known := known.1
    table := { sets := .ofList (nest.1.leaves.map fun a => (a, root.2.1)) compare }
    session := ⟨known.2.ctx, {}⟩ }

def result (p : Sample) : SetTable × Session :=
  (setsUp p.nest p.known).outcome p.table p.session

def valuation (p : Sample) (env : Env Int64) : Valuation := p.result.2.ctx.valuation env

def box (p : Sample) (env : Env Int64) : Box := (p.valuation env).box p.known

/-- The given sets are stored and hold the leaves. -/
def HoldsLeaves (p : Sample) (env : Env Int64) : Prop :=
  ∀ q ∈ p.table.sets.toList, p.session.ctx.StoredSet q.2 ∧
    (p.valuation env).Holds q.2 ((p.valuation env).point q.1)

/-- The axes are at a point of the domains that satisfies the relations. -/
def Solves (p : Sample) (env : Env Int64) : Prop :=
  (∀ a ∈ p.nest.axes, (p.valuation env).env ((p.valuation env).ctx.axisVar a) =
      some ((p.valuation env).point a) ∧
    ∀ d ∈ p.known[a]?, (p.valuation env).value d.min = some ((p.box env).min a) ∧
      (p.valuation env).value d.extent = some ((p.box env).extent a) ∧
        (p.box env).Contains (p.valuation env).point a) ∧
  ∀ r ∈ p.nest.relations, r.Equation (p.box env) (p.valuation env).point

instance (p : Sample) (env : Env Int64) : Decidable (p.HoldsLeaves env) :=
  inferInstanceAs (Decidable (∀ q ∈ p.table.sets.toList, _ ∧ _))

instance (p : Sample) (env : Env Int64) : Decidable (p.Solves env) :=
  inferInstanceAs (Decidable ((∀ a ∈ p.nest.axes, _ ∧ ∀ d ∈ p.known[a]?, _ ∧ _ ∧ _) ∧ _))

theorem make_scheduled {declare : Build (Domain × ValueSet)} {schedule : AxisId → Schedule LoopNest}
    (h : Schedule.Ensures (schedule (root declare).1.2.2) (root declare).2 fun nest ctx =>
      LoopNest.Scheduled ctx nest)
    (hok : (schedule (root declare).1.2.2).succeeds (root declare).2 = true)
    (hctx : (scheduled declare schedule).2.entries.toList <+:
        (make declare schedule).session.ctx.entries.toList ∧
      (make declare schedule).session.ctx.vars = (scheduled declare schedule).2.vars ∧
      (make declare schedule).session.ctx.axes = (scheduled declare schedule).2.axes ∧
      (make declare schedule).session.ctx.funs = (scheduled declare schedule).2.funs)
    (hwf : (make declare schedule).session.ctx.WellFormed) :
    LoopNest.Scheduled (make declare schedule).session.ctx (make declare schedule).nest :=
  .store (h.outcome hok) (Context.le_of_entries hctx.1 hctx.2.1 hctx.2.2.1 hctx.2.2.2) hwf

theorem storedDomains {p : Sample} (h : ∀ q ∈ p.known.toList, p.session.ctx.StoredDomain q.2) :
    p.session.ctx.StoredDomains p.known :=
  fun a d hd => h (a, d) (Std.TreeMap.mem_toList_iff_getElem?_eq_some.2 hd)

theorem HoldsLeaves.get {p : Sample} {env : Env Int64} (h : p.HoldsLeaves env) (a : AxisId)
    (set : ValueSet) (hset : p.table.sets[a]? = some set) : p.session.ctx.StoredSet set ∧
      (p.valuation env).Holds set ((p.valuation env).point a) :=
  h (a, set) (Std.TreeMap.mem_toList_iff_getElem?_eq_some.2 hset)

theorem Solves.places {p : Sample} {env : Env Int64} (h : p.Solves env) :
    (p.valuation env).Places p.nest.axes p.known (p.box env) (p.valuation env).point :=
  ⟨fun a ha => (h.1 a ha).1, fun a ha => (h.1 a ha).2⟩

end Sample

/-- A root over `[0, 10)`, and the set `[4, 7]`. -/
def rowStart : Build (Domain × ValueSet) :=
  return (← Domain.literal 0 10, .between (← Build.int 4) (← Build.int 7))

/-- Splits a root into rows of four and fuses them again. -/
def rowSchedule (i : AxisId) : Schedule LoopNest := do
  let four ← Build.int 4
  let (nest, outer, inner) ← (LoopNest.ofRoots "rows" [i]).split i (.factor four)
  let (nest, _) ← nest.fuse outer inner
  return nest

def rows : Sample := .make rowStart rowSchedule

/-- The point six, which is column two of row one. -/
def sixthPoint : Env Int64 := .ofList [(⟨0⟩, 6), (⟨1⟩, 1), (⟨2⟩, 2), (⟨3⟩, 6)]

theorem rows_scheduled : LoopNest.Scheduled rows.session.ctx rows.nest := by
  refine Sample.make_scheduled ?_ (by decide +kernel) (by decide +kernel) (by decide +kernel)
  have hroot : LoopNest.Scheduled ((Build.int 4).run (Sample.root rowStart).2).2
      (LoopNest.ofRoots "rows" [(Sample.root rowStart).1.2.2]) :=
    .ofRoots (by decide +kernel) "rows" (by decide +kernel) (by decide +kernel)
  have hfour : ((Build.int 4).run (Sample.root rowStart).2).2.Stored
      ((Build.int 4).run (Sample.root rowStart).2).1 := by decide +kernel
  refine (Schedule.Ensures.build (Q := fun four ctx => LoopNest.Scheduled ctx
    (LoopNest.ofRoots "rows" [(Sample.root rowStart).1.2.2]) ∧ ctx.Stored four)
    ⟨hroot, hfour⟩).bind fun four ctx ⟨h, hfour⟩ => ?_
  have hsize : ctx.Stored (SplitBy.factor four).extent := hfour
  refine Schedule.Ensures.bind (fun p ctx' hrun => LoopNest.Scheduled.split h hsize hrun) ?_
  intro p ctx' h'
  refine Schedule.Ensures.bind (fun q ctx'' hrun => LoopNest.Scheduled.fuse h' hrun) ?_
  exact fun q ctx'' h'' => .pure h''

/-- The sixth point solves the relations, and the sets found from the second row hold all axes
there. -/
theorem setsUp_holds_sixthPoint : rows.Solves sixthPoint ∧ ∀ a ∈ rows.nest.axes, ∃ set,
    rows.result.1.sets[a]? = some set ∧
      rows.result.2.ctx.Holds sixthPoint set ((rows.valuation sixthPoint).point a) := by
  have hsolves : rows.Solves sixthPoint := by decide +kernel
  refine ⟨hsolves, ?_⟩
  exact setsUp_holds rows_scheduled (.start _ true (by decide +kernel))
    (Sample.storedDomains (by decide +kernel)) (by decide +kernel)
    (run_eq_of_succeeds (by decide +kernel))
    (Sample.HoldsLeaves.get (p := rows) (by decide +kernel))
    (Session.admits_of_bindings (by decide +kernel) (by decide +kernel)) hsolves.places hsolves.2

/-- A root over `[3, 13)`, and the values from `n % 2 >= 0 and y` up to nine. -/
def numberStart : Build (Domain × ValueSet) := do
  let n ← Build.var (← declareVar "n" .int32)
  let y ← Build.var (← declareVar "y" .int32)
  let rest ← Build.division .floorMod n (← Build.int 2)
  let lower ← Build.conj (← Build.compare .ge rest (← Build.int 0)) y
  return (← Domain.literal 3 10, .between lower (← Build.int 9))

def rebaseSchedule (i : AxisId) : Schedule LoopNest := do
  let (nest, _) ← (LoopNest.ofRoots "rebased" [i]).rebase i
  return nest

def rebasedNumber : Sample := .make numberStart rebaseSchedule

/-- The connective is given the number five, and the root is at its second point. -/
def numberPoint : Env Int64 := .ofList [(⟨0⟩, 0), (⟨1⟩, 5), (⟨2⟩, 4), (⟨3⟩, 1)]

theorem rebasedNumber_scheduled :
    LoopNest.Scheduled rebasedNumber.session.ctx rebasedNumber.nest := by
  refine Sample.make_scheduled ?_ (by decide +kernel) (by decide +kernel) (by decide +kernel)
  have hroot : LoopNest.Scheduled (Sample.root numberStart).2
      (LoopNest.ofRoots "rebased" [(Sample.root numberStart).1.2.2]) :=
    .ofRoots (by decide +kernel) "rebased" (by decide +kernel) (by decide +kernel)
  refine Schedule.Ensures.bind (fun p ctx' hrun => LoopNest.Scheduled.rebase hroot hrun) ?_
  exact fun p ctx' h => .pure h

/-- A conjunct that is true is left out whatever the other one is, so a set that is moved may
lose a value where a connective is given a number: `n % 2 >= 0 and y` is one, but three more than
it is said to be `y + 3`, which is eight, while the root is at four. -/
theorem setsUp_loses_numberPoint :
    LoopNest.Scheduled rebasedNumber.session.ctx rebasedNumber.nest ∧
      rebasedNumber.session.Reachable ∧
      rebasedNumber.session.ctx.StoredDomains rebasedNumber.known ∧
      (∀ a ∈ rebasedNumber.nest.leaves, a ∈ rebasedNumber.table.sets) ∧
      ((setsUp rebasedNumber.nest rebasedNumber.known).run.run rebasedNumber.table).run
        rebasedNumber.session = ((.ok (), rebasedNumber.result.1), rebasedNumber.result.2) ∧
      rebasedNumber.HoldsLeaves numberPoint ∧
      (∀ i < rebasedNumber.result.2.ctx.size,
        ∀ x ∈ (rebasedNumber.valuation numberPoint).value ⟨i⟩, Word.Inside x) ∧
      rebasedNumber.Solves numberPoint ∧
      ∃ a ∈ rebasedNumber.nest.axes, ∃ set ∈ rebasedNumber.result.1.sets[a]?, ∃ e ∈ set.lo?,
        ∃ w ∈ rebasedNumber.result.2.ctx.eval numberPoint e,
          (rebasedNumber.valuation numberPoint).point a < w.toInt :=
  ⟨rebasedNumber_scheduled, .start _ true (by decide +kernel),
    Sample.storedDomains (by decide +kernel), by decide +kernel,
    run_eq_of_succeeds (by decide +kernel), by decide +kernel, by decide +kernel,
    by decide +kernel, by decide +kernel⟩

end Sweep

end LoopBounds
