import LoopBounds.Inference.Config
import LoopBounds.Inference.Sweep
import LoopBounds.LoopNest.Basic
import LoopBounds.ValueSet

/-!
# Guards

An axis needs a check when its parts may run past its domain.  A guard is only made where the
values of its index over the loops are not shown to stay within the domain.
-/

namespace LoopBounds

namespace Sweep

abbrev Checks := Facts .axis Bool

def relationChecks (known : Facts .axis Domain) (r : AxisRelation) : Sweep Checks Unit := do
  match r with
  | .reshape (.split parent outer inner _) => do
    let outerCheck ← fetch .checksUp (.endpoint .outer) (← table) outer
    let innerCheck ← fetch .checksUp (.endpoint .inner) (← table) inner
    let check ←
      if outerCheck || innerCheck then pure true
      else
        match known[parent]?, known[outer]?, known[inner]? with
        | some parentDomain, some outerDomain, some innerDomain => do
          let tiled ← Build.mul innerDomain.extent outerDomain.extent
          let exact ← Build.compare .eq parentDomain.extent tiled
          pure !(← Query.proves exact)
        | _, _, _ => pure true
    changeTable (·.insert parent check)
  | .reshape (.fuse outer inner fused) => do
    let check ← fetch .checksUp (.endpoint .fused) (← table) fused
    changeTable fun checks => (checks.insert outer check).insert inner check
  | .rebase parent rebased => do
    let check ← fetch .checksUp (.endpoint .rebased) (← table) rebased
    changeTable (·.insert parent check)
  | .singleton _ => return ()

/-- Marks the axes whose index may leave their domain: a split axis when a part is marked or the
parts are not shown to tile it exactly. -/
def checksUp (nest : LoopNest) (known : Facts .axis Domain) : Sweep Checks Unit :=
  nest.relations.reverse.forM (relationChecks known)

/-- Whether the values up to `hi?` are shown to lie below `extent`. -/
def provesBelow (hi? : Option ExprId) (extent : ExprId) : Sweep Checks Bool := do
  match hi? with
  | some hi => Query.proves (← Build.compare .lt hi extent)
  | none => return false

def provesNonNegative (lo? : Option ExprId) : Sweep Checks Bool := do
  match lo? with
  | some lo => Query.proves (← Build.compare .ge lo (← Build.constantLike 0 lo))
  | none => return false

/-- The guard `offset < extent`, unless it is shown to hold. -/
def upperGuard (offset : ExprId) (hi? : Option ExprId) (extent : ExprId) :
    Sweep Checks (List ExprId) := do
  if ← provesBelow hi? extent then return []
  let guard ← Build.compare .lt offset extent
  return [← Attempt.inline true guard]

/-- The guard `0 ≤ offset`, unless it is shown to hold. -/
def lowerGuard (offset : ExprId) (lo? : Option ExprId) : Sweep Checks (List ExprId) := do
  if ← provesNonNegative lo? then return []
  return [← Build.compare .ge offset (← Build.constantLike 0 offset)]

def isUnguarded (config : Config) (ctx : Context) (a : AxisId) : Bool :=
  config.unguarded.contains a || (ctx.axis a).kind = .blackBox

/-- The guard of an axis that was marked. -/
def axisGuards (config : Config) (known : Facts .axis Domain) (values : Facts .axis ExprId)
    (sets : Env ValueSet) (a : AxisId) : Sweep Checks (List ExprId) := do
  if isUnguarded config (← Query.context) a || !((← table)[a]?).getD false then return []
  let some domain ← require config.allowMissing .guards .domain known a
    | return []
  let some value ← require config.allowMissing .guards .value values a
    | return []
  let offset ← Build.sub value domain.min
  let reached ← Query.valuesOf sets offset
  upperGuard offset reached.hi? domain.extent

/-- The guards of a root whose domain is not the declared one. -/
def rootGuards (config : Config) (known : Facts .axis Domain) (values : Facts .axis ExprId)
    (sets : Env ValueSet) (a : AxisId) : Sweep Checks (List ExprId) := do
  if config.skipRootGuards || isUnguarded config (← Query.context) a then return []
  let some domain ← require config.allowMissing .guards .rootDomain known a
    | return []
  let ctx ← Query.context
  let some declared := (ctx.axis a).domain?
    | throw (.undeclaredDomain (ctx.axisName a))
  if declared = domain then return []
  let some value ← require config.allowMissing .guards .rootValue values a
    | return []
  let offset ← Build.sub value declared.min
  let reached ← Query.valuesOf sets offset
  let lower ← lowerGuard offset reached.lo?
  let upper ← upperGuard offset reached.hi? declared.extent
  return lower ++ upper

/-- Lets the variable of an axis range over its domain. -/
def enterDomain (sets : Env ValueSet) (entry : AxisId × Domain) :
    Sweep Checks (Env ValueSet) := do
  let v := (← Query.context).axisVar entry.1
  let s ← ValueSet.ofDomain entry.2
  Query.learn v entry.2
  return sets.set v s

def guardsOver (config : Config) (nest : LoopNest) (known : Facts .axis Domain)
    (values : Facts .axis ExprId) : Sweep Checks (List ExprId) := do
  checksUp nest known
  let sets ← known.toList.foldlM enterDomain Env.empty
  let axisPart ← nest.axes.mapM (axisGuards config known values sets)
  let rootPart ← nest.roots.mapM (rootGuards config known values sets)
  return axisPart.flatten ++ rootPart.flatten

end Sweep

/-- The guards under which the indices of a nest stay within the domains of its axes. -/
def guards (config : Config) (nest : LoopNest) (known : Facts .axis Domain)
    (values : Facts .axis ExprId) : Schedule (List ExprId) := do
  let leafChecks : Sweep.Checks := nest.leaves.foldl (fun checks a => checks.insert a false) {}
  let query := (Sweep.guardsOver config nest known values).run.run' leafChecks
  ExceptT.mk (Query.runWith config.analyzer query)

end LoopBounds
