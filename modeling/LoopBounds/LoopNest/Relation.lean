import LoopBounds.Handle

/-!
# Relations

The steps that derive axes, or dimensions, from one another.  Splitting and fusing mean the same
for both and share a type.
-/

namespace LoopBounds

/-- How a split divides its parent. -/
inductive SplitBy where
  /-- The extent of the inner part. -/
  | factor (extent : ExprId)
  /-- The extent of the outer part. -/
  | parts (extent : ExprId)
  deriving DecidableEq, Repr

def SplitBy.extent : SplitBy → ExprId
  | factor e | parts e => e

inductive Reshape (κ : Type) where
  /-- `parent = outer * extent(inner) + inner`, counted from the least point of each. -/
  | split (parent outer inner : κ) (size : SplitBy)
  /-- `fused = outer * extent(inner) + inner`, counted from the least point of each. -/
  | fuse (outer inner fused : κ)
  deriving DecidableEq, Repr

inductive AxisRelation where
  | reshape (r : Reshape AxisId)
  /-- `parent = rebased + min(parent)`. -/
  | rebase (parent rebased : AxisId)
  /-- The axis takes the value zero only. -/
  | singleton (axis : AxisId)
  deriving DecidableEq, Repr

inductive DimRelation where
  | reshape (r : Reshape DimId)
  /-- Old and new dimensions describe the same points; each old one is a function of the new. -/
  | change (old new : List DimId)
  deriving DecidableEq, Repr

end LoopBounds
