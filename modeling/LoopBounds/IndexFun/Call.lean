import LoopBounds.Domain
import LoopBounds.Expr.Rewrite
import LoopBounds.Expr.Shape

/-!
# Declaring and calling index functions

A body may mention the parameters only.  Arguments are matched to parameters by dimension, so
they may come in any order and more may be given than the function uses.
-/

namespace LoopBounds

namespace Attempt

/-- Refuses a body that mentions a variable other than the parameters. -/
def checkBody (name : String) (params : List VarId) (body : ExprId) : Attempt Unit := do
  let ctx ← get
  match (ctx.freeVars body).find? (!params.contains ·) with
  | some v => throw (.freeVariable name (ctx.var v).name)
  | none => return ()

def declareFun (name : String) (codomain? : Option Domain) (dims : List DimId)
    (params : List VarId) (body? : Option ExprId) : Attempt FunId := do
  if params.length ≠ dims.length then
    throw (.arityMismatch name params.length dims.length)
  match body? with
  | some body => checkBody name params body
  | none => pure ()
  addFun { name, params, dims, body?, codomain? }

/-- Replaces the body of a function. -/
def setBody (f : FunId) (body : ExprId) : Attempt Unit := do
  let callee := (← get).fn f
  checkBody callee.name callee.params body
  modifyFun f ({ · with body? := some body })

/-- The argument for dimension `d` of a function. -/
def argument (callee : IndexFun) (args : List ExprId) (dims : List DimId) (d : DimId) :
    Attempt ExprId := do
  match argument? args dims d with
  | some a => return a
  | none => throw (.missingArgument callee.name ((← get).dim d).name)

/-- The body of a function with its parameters replaced by arguments. -/
def instantiate (f : FunId) (args : List ExprId) (dims : List DimId) : Attempt ExprId := do
  let callee := (← get).fn f
  if args.length ≠ dims.length then
    throw (.callArityMismatch callee.name args.length dims.length)
  match callee.body? with
  | none => throw (.noBody callee.name)
  | some body =>
    let images ← callee.bindParams (argument callee args dims)
    substitute images body

/-- A call; a function without parameters is replaced by its body right away. -/
def call (f : FunId) (args : List ExprId) (dims : List DimId) : Attempt ExprId := do
  let callee := (← get).fn f
  if args.length ≠ dims.length then
    throw (.callArityMismatch callee.name args.length dims.length)
  match callee.dims.find? (!dims.contains ·) with
  | some d => throw (.missingArgument callee.name ((← get).dim d).name)
  | none =>
    match callee.params, callee.body? with
    | [], some body => return body
    | _, _ => intern (.call f args dims)

end Attempt

namespace Build

/-- A function without parameters. -/
def constantFun (name : String) (value : ExprId) : Build FunId := do
  let one ← constantLike 1 value
  addFun { name, params := [], dims := [], body? := some value, codomain? := some ⟨value, one⟩ }

/-- Replaces the codomain of a function. -/
def setCodomain (f : FunId) (codomain : Domain) : Build Unit :=
  modifyFun f ({ · with codomain? := some codomain })

end Build

end LoopBounds
