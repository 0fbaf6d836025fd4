import LoopBounds.Analyzer.Prove
import LoopBounds.IndexFun.Call
import LoopBounds.IndexFun.Renaming

/-!
# Inverting index functions

Finds arguments at which a function takes a given value.  A call of the function, or of one
equal to it, gives its own arguments; otherwise the body must be `c * p + b` in its only
parameter `p`, with the value shown to be `b` plus a multiple of `c`.
-/

namespace LoopBounds.Attempt

/-- The arguments of a call of `f`, or of a function equal to `f`, by dimension. -/
def argumentsOf? (f : FunId) (value : ExprId) : Attempt (Option (List (DimId × ExprId))) := do
  let ctx ← get
  let callee := ctx.fn f
  match ctx.node value with
  | .call g args dims =>
    if g = f ∨ (ctx.correspondence f g).equal then
      some <$> callee.dims.mapM fun d => do return (d, ← argument callee args dims d)
    else return none
  | _ => return none

def obstructed {α : Type} (callee : IndexFun) (obstacle : Obstacle) : Attempt α :=
  throw (.notInvertible callee.name obstacle)

/-- Asks an analyzer that knows no domains. -/
def ask {α : Type} (query : Query α) : Attempt α :=
  ExceptT.lift (Query.runWith .forgetful query)

/-- Solves `shifted = c * p` for `p`. -/
def solveMultiple (callee : IndexFun) (type : Scalar) (shifted : ExprId) (c : Int64) :
    Attempt ExprId := do
  if c = 1 then return shifted
  else if c = -1 then Build.sub (← Build.constant 0 type) shifted
  else
    let divisor ← Build.constant c type
    let rest ← floorMod shifted divisor
    let zero ← Build.constant 0 type
    let multiple ← Build.compare .eq rest zero
    if ← ask (Query.proves multiple) then floorDiv shifted divisor
    else obstructed callee .notInImage

/-- Solves an affine body in one parameter. -/
def solveAffine (callee : IndexFun) (body : ExprId) (param : VarId) (value : ExprId) :
    Attempt ExprId := do
  if !(← get).isAffine body then obstructed callee .bodyNotAffine
  let body ← ask (Query.simplify body)
  let form := Affine.ofExpr (← get) body
  let paramExpr ← Build.var param
  let c := form.coeff paramExpr
  if 1 < form.terms.length then obstructed callee .severalTerms
  if c = 0 then obstructed callee .parameterAbsent
  let ctx ← get
  let type := (ctx.typeOf value).promote (ctx.typeOf paramExpr)
  let shifted ← Build.sub value (← Build.constant form.const type)
  let solved ← solveMultiple callee type shifted c
  ask (Query.simplify solved)

/-- The value of each parameter, by dimension, at which the function takes `value`. -/
def invert (value : ExprId) (f : FunId) : Attempt (List (DimId × ExprId)) := do
  match ← argumentsOf? f value with
  | some solved => return solved
  | none =>
    let callee := (← get).fn f
    match callee.signature with
    | [] => obstructed callee .noParameters
    | [(param, dim)] =>
      match callee.body? with
      | none => throw (.noBody callee.name)
      | some body => return [(dim, ← solveAffine callee body param value)]
    | _ => obstructed callee .severalParameters

end LoopBounds.Attempt
