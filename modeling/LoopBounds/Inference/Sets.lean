import LoopBounds.Inference.Sweep
import LoopBounds.LoopNest.Basic
import LoopBounds.ValueSet

/-!
# Value sets of axes

Sets go up a relation.  A set that is exactly the domain of its axis gives back the domain of
the parent; any other set is carried over by evaluating how the parent's index is made.
-/

namespace LoopBounds

/-- A fused set that starts or ends inside a row of the inner axis, so that the sets recovered
for both axes hold points which the fused set does not. -/
structure Misalignment where
  fused : String
  span : String
  factor : String
  deriving DecidableEq, Repr

def Misalignment.message : String :=
  "fused and original axes are not aligned, this may cause redundant computations"

/-- The sets found so far and the misalignments met on the way. -/
structure SetTable where
  sets : Facts .axis ValueSet := {}
  misalignments : List Misalignment := []

namespace Sweep

def axisSets : Sweep SetTable (Facts .axis ValueSet) := return (← table).sets

def enterSet (a : AxisId) (s : ValueSet) : Sweep SetTable Unit :=
  changeTable fun table => { table with sets := table.sets.insert a s }

def domainFor (known : Facts .axis Domain) (p : Endpoint) (a : AxisId) : Sweep SetTable Domain :=
  fetch .setsUp (.domainOf p) known a

def splitSets (known : Facts .axis Domain) (parent outer inner : AxisId)
    (outerSet innerSet : ValueSet) : Sweep SetTable ValueSet := do
  let parentDomain ← domainFor known .parent parent
  let outerDomain ← domainFor known .outer outer
  let innerDomain ← domainFor known .inner inner
  let whole ←
    if ← outerSet.coversExactly outerDomain then innerSet.coversExactly innerDomain
    else pure false
  if whole then ValueSet.ofDomain parentDomain
  else
    let outerVar ← Build.axis outer
    let innerVar ← Build.axis inner
    let index ← Build.add (← Build.mul outerVar innerDomain.extent) innerVar
    let index ← Build.offset index parentDomain.min
    let ctx ← Query.context
    let sets := (Env.empty.set (ctx.axisVar outer) outerSet).set (ctx.axisVar inner) innerSet
    Query.valuesOf sets index

def rebaseSets (known : Facts .axis Domain) (parent rebased : AxisId) (rebasedSet : ValueSet) :
    Sweep SetTable ValueSet := do
  let parentDomain ← domainFor known .parent parent
  let rebasedDomain ← domainFor known .rebased rebased
  if ← rebasedSet.coversExactly rebasedDomain then ValueSet.ofDomain parentDomain
  else
    let index ← Build.offset (← Build.axis rebased) parentDomain.min
    Query.valuesOf (Env.empty.set ((← Query.context).axisVar rebased) rebasedSet) index

/-- Whether `divisor` is shown to divide `value`. -/
def divides (divisor value : ExprId) : Sweep SetTable Bool := do
  let rest ← Query.simplify (← Attempt.floorMod value divisor)
  return (← Query.context).isZero rest

def dividesBoth (divisor x y : ExprId) : Sweep SetTable Bool := do
  if ← divides divisor x then divides divisor y else return false

/-- The quotient by `factor`, counted from the least point of the outer domain. -/
def outerIndex (outerDomain : Domain) (factor value : ExprId) : Sweep SetTable ExprId := do
  Build.offset (← Attempt.floorDiv value factor) outerDomain.min

/-- The remainder by `factor`, counted from the least point of the inner domain. -/
def innerIndex (innerDomain : Domain) (factor value : ExprId) : Sweep SetTable ExprId := do
  Build.offset (← Attempt.floorMod value factor) innerDomain.min

/-- The inner set of a fused interval: one stretch of a row when the interval lies in one, else
the whole inner domain. -/
def fusedInnerSet (fusedName : String) (innerDomain : Domain) (lo hi : ExprId) :
    Sweep SetTable ValueSet := do
  let factor := innerDomain.extent
  let span ← Query.simplify (← Build.addConst (← Build.sub hi lo) 1)
  if ← dividesBoth span factor lo then
    let first ← innerIndex innerDomain factor lo
    let last ← innerIndex innerDomain factor hi
    return .between (← Query.simplify first) (← Query.simplify last)
  if !(← dividesBoth factor span lo) then
    let ctx ← Query.context
    let misalignment := ⟨fusedName, ctx.text span, ctx.text factor⟩
    changeTable fun table =>
      { table with misalignments := table.misalignments ++ [misalignment] }
  ValueSet.ofDomain innerDomain

/-- The sets of two axes from the set of their fusion. -/
def fuseSets (known : Facts .axis Domain) (outer inner fused : AxisId) (fusedSet : ValueSet) :
    Sweep SetTable (ValueSet × ValueSet) := do
  let outerDomain ← domainFor known .outer outer
  let innerDomain ← domainFor known .inner inner
  let fusedDomain ← domainFor known .fused fused
  if ← fusedSet.coversExactly fusedDomain then
    return (← ValueSet.ofDomain outerDomain, ← ValueSet.ofDomain innerDomain)
  let factor := innerDomain.extent
  match fusedSet.point?, fusedSet.lo?, fusedSet.hi? with
  | some value, _, _ => do
    let outerValue ← outerIndex outerDomain factor value
    let innerValue ← innerIndex innerDomain factor value
    return (.point (← Query.simplify outerValue), .point (← Query.simplify innerValue))
  | none, some lo, some hi => do
    let first ← outerIndex outerDomain factor lo
    let last ← outerIndex outerDomain factor hi
    let outerSet := ValueSet.between (← Query.simplify first) (← Query.simplify last)
    let fusedName := (← Query.context).axisName fused
    return (outerSet, ← fusedInnerSet fusedName innerDomain lo hi)
  | none, _, _ => return (← ValueSet.ofDomain outerDomain, ← ValueSet.ofDomain innerDomain)

def relationSets (known : Facts .axis Domain) (r : AxisRelation) : Sweep SetTable Unit := do
  match r with
  | .reshape (.split parent outer inner _) => do
    let outerSet ← fetch .setsUp (.endpoint .outer) (← axisSets) outer
    let innerSet ← fetch .setsUp (.endpoint .inner) (← axisSets) inner
    enterSet parent (← splitSets known parent outer inner outerSet innerSet)
  | .reshape (.fuse outer inner fused) => do
    let fusedSet ← fetch .setsUp (.endpoint .fused) (← axisSets) fused
    let (outerSet, innerSet) ← fuseSets known outer inner fused fusedSet
    enterSet outer outerSet
    enterSet inner innerSet
  | .rebase parent rebased => do
    let rebasedSet ← fetch .setsUp (.endpoint .rebased) (← axisSets) rebased
    enterSet parent (← rebaseSets known parent rebased rebasedSet)
  | .singleton _ => return ()

/-- Finds sets for all axes of a nest from those of its leaves. -/
def setsUp (nest : LoopNest) (known : Facts .axis Domain) : Sweep SetTable Unit :=
  nest.relations.reverse.forM (relationSets known)

end Sweep

end LoopBounds
