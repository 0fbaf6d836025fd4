import LoopBounds.IndexFun.Invert
import LoopBounds.Inference.Sweep
import LoopBounds.LoopNest.Basic
import LoopBounds.Operation

/-!
# Indices

Index values go up a relation by recombining parts, and down it by taking them apart.  Going
down counts from zero, so the parts have to start there.
-/

namespace LoopBounds.Sweep

/-- The index of a parent from those of its parts. -/
def combineSplit (allowMissing : Bool) (known : Facts .axis Domain)
    (parent outer inner : AxisId) : Sweep (Facts .axis ExprId) Unit := do
  let some outerValue ← require allowMissing .indicesUp (.endpoint .outer) (← table) outer
    | return ()
  let some innerValue ← require allowMissing .indicesUp (.endpoint .inner) (← table) inner
    | return ()
  let some innerDomain ← require allowMissing .indicesUp (.domainOf .inner) known inner
    | return ()
  let some parentDomain ← require allowMissing .indicesUp (.domainOf .parent) known parent
    | return ()
  let value ← Build.add (← Build.mul outerValue innerDomain.extent) innerValue
  setValue parent (← Build.offset value parentDomain.min)

/-- The indices of fused axes from that of their fusion. -/
def takeApartFused (allowMissing : Bool) (known : Facts .axis Domain)
    (outer inner fused : AxisId) : Sweep (Facts .axis ExprId) Unit := do
  let some fusedValue ← require allowMissing .indicesUp (.endpoint .fused) (← table) fused
    | return ()
  let some outerDomain ← require allowMissing .indicesUp (.domainOf .outer) known outer
    | return ()
  let some innerDomain ← require allowMissing .indicesUp (.domainOf .inner) known inner
    | return ()
  let quotient ← Attempt.floorDiv fusedValue innerDomain.extent
  let outerValue ← Build.offset quotient outerDomain.min
  let rest ← Attempt.floorMod fusedValue innerDomain.extent
  let innerValue ← Build.offset rest innerDomain.min
  setValue outer outerValue
  setValue inner innerValue

def relationIndicesUp (allowMissing : Bool) (known : Facts .axis Domain) (r : AxisRelation) :
    Sweep (Facts .axis ExprId) Unit := do
  match r with
  | .reshape (.split parent outer inner _) => combineSplit allowMissing known parent outer inner
  | .reshape (.fuse outer inner fused) => takeApartFused allowMissing known outer inner fused
  | .rebase parent rebased => do
    let some value ← require allowMissing .indicesUp (.endpoint .rebased) (← table) rebased
      | return ()
    let some parentDomain ← require allowMissing .indicesUp (.domainOf .parent) known parent
      | return ()
    setValue parent (← Build.offset value parentDomain.min)
  | .singleton _ => return ()

/-- Finds the indices of all axes of a nest from those of its leaves. -/
def indicesUp (nest : LoopNest) (known : Facts .axis Domain) (allowMissing : Bool) :
    Sweep (Facts .axis ExprId) Unit :=
  nest.relations.reverse.forM (relationIndicesUp allowMissing known)

/-- The indices of the parts of a split: quotient and remainder by the inner extent. -/
def takeApartSplit {t : Table} [Keyed t] (pass : Pass) (allowMissing : Bool)
    (known : Facts t Domain) (parent outer inner : Handle t) : Sweep (Facts t ExprId) Unit := do
  let some parentValue ← require allowMissing pass (.endpoint .parent) (← table) parent
    | return ()
  let some innerDomain ← require allowMissing pass (.domainOf .inner) known inner
    | return ()
  requireZeroMin pass inner innerDomain
  let outerValue ← Attempt.floorDiv parentValue innerDomain.extent
  let innerValue ← Attempt.floorMod parentValue innerDomain.extent
  setValue outer outerValue
  setValue inner innerValue

/-- The index `outer * extent(inner) + inner`. -/
def combineFused {t : Table} [Keyed t] (outer inner : ExprId) (innerDomain : Domain)
    (fused : Handle t) : Sweep (Facts t ExprId) Unit := do
  setValue fused (← Build.add (← Build.mul outer innerDomain.extent) inner)

def relationIndicesDown (allowMissing : Bool) (known : Facts .axis Domain) (r : AxisRelation) :
    Sweep (Facts .axis ExprId) Unit := do
  match r with
  | .reshape (.split parent outer inner _) =>
    takeApartSplit .indicesDown allowMissing known parent outer inner
  | .reshape (.fuse outer inner fused) => do
    let some outerValue ← require allowMissing .indicesDown (.endpoint .outer) (← table) outer
      | return ()
    let some innerValue ← require allowMissing .indicesDown (.endpoint .inner) (← table) inner
      | return ()
    let some outerDomain ← require allowMissing .indicesDown (.domainOf .outer) known outer
      | return ()
    let some innerDomain ← require allowMissing .indicesDown (.domainOf .inner) known inner
      | return ()
    requireZeroMin .indicesDown outer outerDomain
    requireZeroMin .indicesDown inner innerDomain
    combineFused outerValue innerValue innerDomain fused
  | .rebase parent rebased => do
    let some value ← require allowMissing .indicesDown (.endpoint .parent) (← table) parent
      | return ()
    let some parentDomain ← require allowMissing .indicesDown (.domainOf .parent) known parent
      | return ()
    requireZeroMin .indicesDown parent parentDomain
    setValue rebased value
  | .singleton a => do
    let ctx ← Query.context
    let zero ← Build.constant 0 (ctx.var (ctx.axisVar a)).type
    changeTable (·.insert a zero)

/-- Finds the indices of all axes of a nest from those of its roots. -/
def indicesDown (nest : LoopNest) (known : Facts .axis Domain) (allowMissing : Bool) :
    Sweep (Facts .axis ExprId) Unit :=
  nest.relations.forM (relationIndicesDown allowMissing known)

/-- Inverts the function that defines an old dimension, unless the dimension stays. -/
def changeValues (op : Operation) (allowMissing : Bool) (new : List DimId) (old : DimId) :
    Sweep (Facts .dim ExprId) Unit := do
  if new.contains old then return ()
  let some value ← require allowMissing .dimValues .old (← table) old
    | return ()
  let definition ← op.definition (← Query.context) old
  let solved ← Attempt.invert value definition.value
  solved.forM fun (d, value) => setValue d value

def relationDimValues (op : Operation) (allowMissing : Bool) (known : Facts .dim Domain)
    (r : DimRelation) : Sweep (Facts .dim ExprId) Unit := do
  match r with
  | .reshape (.split parent outer inner _) =>
    takeApartSplit .dimValues allowMissing known parent outer inner
  | .reshape (.fuse outer inner fused) => do
    let some outerValue ← require allowMissing .dimValues (.endpoint .outer) (← table) outer
      | return ()
    let some innerValue ← require allowMissing .dimValues (.endpoint .inner) (← table) inner
      | return ()
    let some innerDomain ← require allowMissing .dimValues (.domainOf .inner) known inner
      | return ()
    combineFused outerValue innerValue innerDomain fused
  | .change old new => old.forM (changeValues op allowMissing new)

/-- Finds the values of the dimensions that an operation derives. -/
def dimValues (op : Operation) (known : Facts .dim Domain) (allowMissing : Bool) :
    Sweep (Facts .dim ExprId) Unit :=
  op.relations.forM (relationDimValues op allowMissing known)

end LoopBounds.Sweep
