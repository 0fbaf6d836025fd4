import LoopBounds.Expr.Build
import LoopBounds.Inference.Error
import LoopBounds.LoopNest.Relation

/-!
# Loop nests

A loop nest starts from root axes.  Each scheduling step consumes leaves and puts new axes in
their place, and records the relation between them, so the relations stand in an order in which
every axis is derived before it is used.  A step that fails changes nothing.
-/

namespace LoopBounds

structure LoopNest where
  name : String
  roots : List AxisId
  /-- The axes of the nest, roots first. -/
  axes : List AxisId
  /-- The loops, outermost first. -/
  leaves : List AxisId
  relations : List AxisRelation
  /-- The thread axis that runs a leaf, for the leaves that have one. -/
  threads : Std.TreeMap AxisId AxisId

/-- A scheduling step. -/
abbrev Schedule := ExceptT InferError Build

namespace LoopNest

instance : Inhabited LoopNest := ⟨⟨"", [], [], [], [], {}⟩⟩

def ofRoots (name : String) (roots : List AxisId) : LoopNest :=
  { name, roots, axes := roots, leaves := roots, relations := [], threads := {} }

/-- The nest with `count` leaves from position `i` on replaced by `fresh` axes. -/
def replace (nest : LoopNest) (i count : Nat) (fresh : List AxisId) (r : AxisRelation) : LoopNest :=
  { nest with
    leaves := nest.leaves.take i ++ fresh ++ nest.leaves.drop (i + count)
    axes := nest.axes ++ fresh
    relations := nest.relations ++ [r] }

/-- The position of a leaf. -/
def leafIndex (nest : LoopNest) (a : AxisId) : Schedule Nat := do
  match nest.leaves.idxOf? a with
  | some i => return i
  | none => throw (.notALeaf nest.name ((← get).axisName a))

/-- Splits a leaf into an outer and an inner axis. -/
def split (nest : LoopNest) (parent : AxisId) (size : SplitBy) :
    Schedule (LoopNest × AxisId × AxisId) := do
  let i ← nest.leafIndex parent
  let ctx ← get
  let name := ctx.axisName parent
  let kind := (ctx.axis parent).kind
  match ctx.literal? size.extent with
  | some c => if c ≤ 0 then throw (.invalidFactor name c)
  | none => pure ()
  let outer ← deriveAxis parent (name ++ ".outer") kind
  let inner ← deriveAxis parent (name ++ ".inner") kind
  return (nest.replace i 1 [outer, inner] (.reshape (.split parent outer inner size)), outer, inner)

/-- Fuses two leaves, the second of which follows the first. -/
def fuse (nest : LoopNest) (outer inner : AxisId) : Schedule (LoopNest × AxisId) := do
  let i ← nest.leafIndex outer
  let j ← nest.leafIndex inner
  let ctx ← get
  let outerName := ctx.axisName outer
  let innerName := ctx.axisName inner
  if j ≠ i + 1 then throw (.notAdjacent outerName innerName)
  let kind := (ctx.axis outer).kind.join (ctx.axis inner).kind
  let fused ← deriveAxis outer (outerName ++ "." ++ innerName ++ ".fused") kind
  return (nest.replace i 2 [fused] (.reshape (.fuse outer inner fused)), fused)

/-- Replaces a leaf by a copy that starts at zero. -/
def rebase (nest : LoopNest) (parent : AxisId) : Schedule (LoopNest × AxisId) := do
  let i ← nest.leafIndex parent
  let ctx ← get
  let kind := (ctx.axis parent).kind
  let rebased ← deriveAxis parent (ctx.axisName parent ++ ".rb") kind
  return (nest.replace i 1 [rebased] (.rebase parent rebased), rebased)

/-- Pins a leaf to the value zero. -/
def singleton (nest : LoopNest) (a : AxisId) : Schedule LoopNest := do
  let _ ← nest.leafIndex a
  return { nest with relations := nest.relations ++ [.singleton a] }

/-- Runs a leaf on a thread axis, which takes over the domain of the leaf. -/
def bind (nest : LoopNest) (a thread : AxisId) : Schedule LoopNest := do
  let _ ← nest.leafIndex a
  return { nest with threads := nest.threads.insert a thread }

end LoopNest

end LoopBounds
