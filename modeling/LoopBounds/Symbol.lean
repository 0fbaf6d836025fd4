import LoopBounds.Handle
import LoopBounds.Operator

/-!
# Symbols

The records kept beside the expressions of a context: variables, dimensions, loop axes and
index functions.
-/

namespace LoopBounds

structure Variable where
  name : String
  type : Scalar
  deriving DecidableEq, Repr, Inhabited

/-- The half-open interval `[min, min + extent)` between symbolic ends. -/
structure Domain where
  min : ExprId
  extent : ExprId
  deriving DecidableEq, Repr, Inhabited

inductive DimKind where
  /-- One extent for the whole dimension. -/
  | uniform
  /-- The extent is an index function of other dimensions. -/
  | ragged
  deriving DecidableEq, Repr, Inhabited

/-- An axis of an iteration space, apart from any loop nest. -/
structure Dim where
  name : String
  kind : DimKind
  deriving DecidableEq, Repr, Inhabited

/-- The ways in which a loop may be run, from the least to the most constrained. -/
inductive AxisKind where
  | dataParallel
  | threadIndex
  | reduction
  | ordered
  | blackBox
  | unrolled
  | vectorized
  | parallelized
  deriving DecidableEq, Repr, Inhabited

namespace AxisKind

def rank : AxisKind → Nat
  | dataParallel => 0
  | threadIndex => 1
  | reduction => 2
  | ordered => 3
  | blackBox => 4
  | unrolled => 5
  | vectorized => 6
  | parallelized => 7

/-- The more constrained of two kinds. -/
def join (a b : AxisKind) : AxisKind := if a.rank ≤ b.rank then b else a

end AxisKind

/-- A loop of a nest, with its variable.  Axes made by scheduling declare no domain. -/
structure Axis where
  var : VarId
  domain? : Option Domain
  kind : AxisKind
  thread? : Option String
  deriving DecidableEq, Repr, Inhabited

/-- A function from dimension values to an index.  Parameter `i` takes the argument given for
dimension `i`; the codomain, where declared, holds every value. -/
structure IndexFun where
  name : String
  params : List VarId
  dims : List DimId
  body? : Option ExprId
  codomain? : Option Domain
  deriving DecidableEq, Repr, Inhabited

namespace IndexFun

def arity (f : IndexFun) : Nat := f.params.length

/-- Each parameter with the dimension it stands for. -/
def signature (f : IndexFun) : List (VarId × DimId) := f.params.zip f.dims

def paramIndex? (f : IndexFun) (v : VarId) : Option Nat := f.params.idxOf? v

def dimIndex? (f : IndexFun) (d : DimId) : Option Nat := f.dims.idxOf? d

def isConstant (f : IndexFun) : Bool := f.params.isEmpty && f.body?.isSome

end IndexFun

end LoopBounds
