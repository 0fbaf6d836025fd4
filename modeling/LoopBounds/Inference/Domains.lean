import LoopBounds.Inference.Sweep
import LoopBounds.LoopNest.Basic
import LoopBounds.Operation

/-!
# Domains

Domains go down a relation, from what it consumes to what it makes.  The part of a split that is
given has the given extent and the other part the quotient rounded up; a fused extent is the
product of the two.
-/

namespace LoopBounds.Sweep

variable {t : Table} [Keyed t]

/-- Domains made by splitting and fusing. -/
def reshapeDomains (pass : Pass) (allowMissing : Bool) (r : Reshape (Handle t)) :
    Sweep (Facts t Domain) Unit := do
  match r with
  | .split parent outer inner size => do
    let some whole ← require allowMissing pass (.endpoint .parent) (← table) parent
      | return ()
    let (given, other) := match size with
      | .factor _ => (inner, outer)
      | .parts _ => (outer, inner)
    setDomain given (← Domain.ofExtent size.extent)
    let count ← ceilDiv whole.extent size.extent
    setDomain other (← Domain.ofExtent count)
  | .fuse outer inner fused => do
    let some outerDomain ← require allowMissing pass (.endpoint .outer) (← table) outer
      | return ()
    let some innerDomain ← require allowMissing pass (.endpoint .inner) (← table) inner
      | return ()
    let extent ← Query.simplify (← Build.mul outerDomain.extent innerDomain.extent)
    setDomain fused (← Domain.ofExtent extent)

def relationDomains (allowMissing : Bool) (r : AxisRelation) :
    Sweep (Facts .axis Domain) Unit := do
  match r with
  | .reshape r => reshapeDomains .domains allowMissing r
  | .rebase parent rebased => do
    let some domain ← require allowMissing .domains (.endpoint .parent) (← table) parent
      | return ()
    setDomain rebased (← Domain.ofExtent domain.extent)
  | .singleton a => do setDomain a (← Domain.literal 0 1)

/-- The thread axis of a leaf takes over its domain. -/
def threadDomain (allowMissing : Bool) (a thread : AxisId) :
    Sweep (Facts .axis Domain) Unit := do
  let some domain ← require allowMissing .domains .bound (← table) a
    | return ()
  setDomain thread domain

/-- Finds the domains of all axes of a nest from those of its roots. -/
def domains (nest : LoopNest) (allowMissing : Bool) : Sweep (Facts .axis Domain) Unit := do
  nest.relations.forM (relationDomains allowMissing)
  nest.threads.toList.forM fun (a, thread) => threadDomain allowMissing a thread

/-- The domain that replaces an old dimension: a unit one stays a unit, any other takes the
domain declared by the axis that defines it. -/
def replacementDomain (definition : DimDefinition) (old : Domain) :
    Sweep (Facts .dim Domain) Domain := do
  let ctx ← Query.context
  if ctx.isOne old.extent then Domain.literal 0 1
  else
    match (ctx.axis definition.axis).domain? with
    | some declared => return declared
    | none => throw (.undeclaredDomain (ctx.axisName definition.axis))

def changeDomains (op : Operation) (allowMissing : Bool) (old : DimId) :
    Sweep (Facts .dim Domain) Unit := do
  let some domain ← require allowMissing .dimDomains .old (← table) old
    | return ()
  let definition ← op.definition (← Query.context) old
  let replacement ← replacementDomain definition domain
  let callee := (← Query.context).fn definition.value
  callee.dims.forM fun d => setDomain d replacement

/-- Finds the domains of the dimensions that an operation derives. -/
def dimDomains (op : Operation) (allowMissing : Bool) : Sweep (Facts .dim Domain) Unit :=
  op.relations.forM fun
    | .reshape r => reshapeDomains .dimDomains allowMissing r
    | .change old _ => old.forM (changeDomains op allowMissing)

end LoopBounds.Sweep
