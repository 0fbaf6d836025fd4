/-!
# Errors of expressions and index functions

Each error is a cause with the names it is about; `message` gives the wording.
-/

namespace LoopBounds

/-- Why an index function could not be solved for its parameters. -/
inductive Obstacle where
  | noParameters
  | severalParameters
  | bodyNotAffine
  | severalTerms
  | parameterAbsent
  | notInImage
  deriving DecidableEq, Repr

def Obstacle.message : Obstacle → String
  | noParameters => "function has no parameters"
  | severalParameters => "body depends on more than one parameter"
  | bodyNotAffine => "body is not affine"
  | severalTerms => "body is not affine in its parameter"
  | parameterAbsent => "body does not depend on its parameter"
  | notInImage => "value is not in the image of the body"

inductive ExprError where
  /-- Division or remainder by a literal zero. -/
  | divisionByZero
  /-- A function declared with unequally many parameters and dimensions. -/
  | arityMismatch (fn : String) (params dims : Nat)
  /-- A call with unequally many arguments and dimensions. -/
  | callArityMismatch (fn : String) (args dims : Nat)
  /-- No argument stands for a dimension of the function. -/
  | missingArgument (fn : String) (dim : String)
  | noBody (fn : String)
  | notInvertible (fn : String) (obstacle : Obstacle)
  /-- A body mentions a variable that is no parameter. -/
  | freeVariable (fn : String) (var : String)
  deriving DecidableEq, Repr

def ExprError.message : ExprError → String
  | divisionByZero => "division by zero"
  | arityMismatch fn params dims =>
    s!"uninterpreted function {fn} has {params} parameters but {dims} dimensions"
  | callArityMismatch fn args dims =>
    s!"call to {fn} has {args} arguments but {dims} argument dimensions"
  | missingArgument fn dim => s!"no argument supplied for dimension {dim} of {fn}"
  | noBody fn => s!"uninterpreted function {fn} has no body"
  | notInvertible fn obstacle => s!"cannot invert call to {fn}: " ++ obstacle.message
  | freeVariable fn var => s!"body of {fn} refers to {var}, which is not a parameter"

end LoopBounds
