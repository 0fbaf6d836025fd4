import LoopBounds.Error

/-!
# Errors of scheduling and inference
-/

namespace LoopBounds

/-- The sweeps over relations that may refuse their input. -/
inductive Pass where
  | domains
  | indicesUp
  | indicesDown
  | setsUp
  | masksUp
  | masksDown
  | checksUp
  | guards
  | dimDomains
  | dimValues
  deriving DecidableEq, Repr

def Pass.name : Pass → String
  | domains => "pass_down_domain"
  | indicesUp => "pass_up_index"
  | indicesDown => "pass_down_index"
  | setsUp => "pass_up_domain"
  | masksUp => "pass_up_bit_mask_or"
  | masksDown => "pass_down_bit_mask_or"
  | checksUp => "pass_up_bound_check"
  | guards => "make_bound_check"
  | dimDomains => "dimension_pass_down_domain"
  | dimValues => "dimension_pass_down_values"

/-- The part that an axis or dimension plays in a relation. -/
inductive Endpoint where
  | parent
  | outer
  | inner
  | fused
  | rebased
  deriving DecidableEq, Repr

def Endpoint.name : Endpoint → String
  | parent => "parent"
  | outer => "outer"
  | inner => "inner"
  | fused => "fused"
  | rebased => "rebased"

/-- What an absent entry was wanted for. -/
inductive Role where
  | endpoint (p : Endpoint)
  | domainOf (p : Endpoint)
  | outerOrInner
  /-- The axis bound to a thread. -/
  | bound
  /-- An old dimension of a change. -/
  | old
  | domain
  | value
  | rootDomain
  | rootValue
  deriving DecidableEq, Repr

def Role.name : Role → String
  | endpoint p => p.name
  | domainOf p => p.name ++ " domain"
  | outerOrInner => "outer or inner"
  | bound => "bound"
  | old => "old"
  | domain => "domain"
  | value => "value"
  | rootDomain => "root domain"
  | rootValue => "root value"

inductive InferError where
  /-- Two domains found for one key are not shown to be the same. -/
  | inconsistentDomain (key existing new : String)
  /-- Two values found for one key are not shown to be equal. -/
  | inconsistentValue (key existing new : String)
  | missingEntry (pass : Pass) (role : Role) (key : String)
  /-- A domain that has to start at zero does not. -/
  | nonZeroMin (pass : Pass) (key min : String)
  | notALeaf (nest axis : String)
  /-- Fused leaves have to follow each other. -/
  | notAdjacent (outer inner : String)
  /-- A literal split factor has to be positive. -/
  | invalidFactor (axis : String) (factor : Int64)
  /-- A dimension has neither axis nor function in its operation. -/
  | undefinedDim (operation dim : String)
  | undeclaredDomain (axis : String)
  | expr (error : ExprError)
  deriving DecidableEq, Repr

def InferError.message : InferError → String
  | inconsistentDomain key existing new =>
    s!"{key} domain already inferred, cannot prove their extents are the same " ++
      s!"{existing} vs {new}"
  | inconsistentValue key existing new =>
    s!"{key} value already inferred, cannot prove {existing} == {new}"
  | missingEntry pass role key => pass.name ++ ": no entry for " ++ role.name ++ " " ++ key
  | nonZeroMin pass key min => pass.name ++ s!": {key} must start at 0, found min {min}"
  | notALeaf nest axis => s!"{axis} is not a leaf of stage {nest}"
  | notAdjacent outer inner =>
    s!"cannot fuse {outer} and {inner}: they are not adjacent leaves in that order"
  | invalidFactor axis factor => "invalid split factor " ++ toString factor.toInt ++ s!" for {axis}"
  | undefinedDim operation dim =>
    s!"operation {operation} has no dim-var entry for dimension {dim}"
  | undeclaredDomain axis => s!"root iteration variable {axis} has no declared domain"
  | expr error => error.message

end LoopBounds
