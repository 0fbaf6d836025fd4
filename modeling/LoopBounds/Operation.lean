import LoopBounds.Context
import LoopBounds.Inference.Error
import LoopBounds.LoopNest.Relation

/-!
# Operations over dimensions

An operation relates abstract dimensions as a loop nest relates axes.  A dimension may be
defined by an axis and by a function that gives its value from other dimensions.
-/

namespace LoopBounds

structure DimDefinition where
  dim : DimId
  axis : AxisId
  value : FunId
  deriving DecidableEq, Repr

structure Operation where
  name : String
  roots : List DimId
  definitions : List DimDefinition
  relations : List DimRelation
  deriving Repr, Inhabited

namespace Operation

def ofRoots (name : String) (roots : List DimId) : Operation :=
  { name, roots, definitions := [], relations := [] }

def define (op : Operation) (definition : DimDefinition) : Operation :=
  { op with definitions := op.definitions ++ [definition] }

def relate (op : Operation) (r : DimRelation) : Operation :=
  { op with relations := op.relations ++ [r] }

/-- The first definition of a dimension. -/
def definition (op : Operation) (ctx : Context) (d : DimId) : Except InferError DimDefinition :=
  match op.definitions.find? (·.dim == d) with
  | some definition => .ok definition
  | none => .error (.undefinedDim op.name (ctx.dim d).name)

end Operation

end LoopBounds
