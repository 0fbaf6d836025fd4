import LoopBounds.IndexFun.Inline
import LoopBounds.Analyzer.Prove
import LoopBounds.Inference.Error

/-!
# Sweeps

A sweep goes over relations once and fills a table.  Domains and indices are written once; a
second entry for a key has to be shown to be the same.  A sweep that fails leaves its table as it
was at the failure.
-/

namespace LoopBounds

/-- A table of facts about axes or dimensions. -/
abbrev Facts (t : Table) (α : Type) := Std.TreeMap (Handle t) α

/-- A computation that fills a table and may fail. -/
abbrev Sweep (σ : Type) := ExceptT InferError (StateT σ Query)

instance {σ : Type} : MonadLift Attempt (Sweep σ) where
  monadLift action := do
    match ← (action.run : Build _) with
    | .ok a => return a
    | .error e => throw (.expr e)

instance {σ : Type} : MonadLift (Except InferError) (Sweep σ) where
  monadLift
    | .ok a => return a
    | .error e => throw e

/-- The tables whose entries have domains: axes have a loop variable, dimensions have none. -/
class Keyed (t : Table) where
  name : Context → Handle t → String
  loopVar? : Context → Handle t → Option VarId

instance : Keyed .axis where
  name := Context.axisName
  loopVar? ctx a := some (ctx.axisVar a)

instance : Keyed .dim where
  name ctx d := (ctx.dim d).name
  loopVar? _ _ := none

namespace Sweep

variable {σ α : Type} {t : Table}

/-- The table as it stands. -/
def table : Sweep σ σ := ExceptT.lift StateT.get

def changeTable (change : σ → σ) : Sweep σ Unit :=
  ExceptT.lift (StateT.modifyGet fun table => ((), change table))

/-- The entry of a key, which has to be there. -/
def fetch [Keyed t] (pass : Pass) (role : Role) (facts : Facts t α) (key : Handle t) :
    Sweep σ α := do
  match facts[key]? with
  | some x => return x
  | none => throw (.missingEntry pass role (Keyed.name (← Query.context) key))

/-- The entry of a key, if it may be missing. -/
def require [Keyed t] (allowMissing : Bool) (pass : Pass) (role : Role) (facts : Facts t α)
    (key : Handle t) : Sweep σ (Option α) := do
  if allowMissing then return facts[key]?
  else some <$> fetch pass role facts key

/-- Whether a domain is shown to be the one already found.  It has to start at zero, and calls
are unfolded to compare the extents. -/
def agrees (existing new : Domain) : Sweep σ Bool := do
  if existing = new then return true
  let diff ← Build.sub new.extent existing.extent
  let diff ← Attempt.inline false diff
  let zero ← Build.constantLike 0 diff
  let same ← Build.compare .eq diff zero
  if (← Query.context).isZero existing.min then Query.proves same else return false

/-- Enters a domain and tells the analyzer, or checks it against the domain already there. -/
def setDomain [Keyed t] (key : Handle t) (domain : Domain) : Sweep (Facts t Domain) Unit := do
  match (← table)[key]? with
  | none =>
    changeTable (·.insert key domain)
    match Keyed.loopVar? (← Query.context) key with
    | some v => Query.learn v domain
    | none => return ()
  | some existing =>
    if !(← agrees existing domain) then
      let ctx ← Query.context
      throw (.inconsistentDomain (Keyed.name ctx key) (existing.text ctx) (domain.text ctx))

/-- Enters a value, or checks it against the value already there. -/
def setValue [Keyed t] (key : Handle t) (value : ExprId) : Sweep (Facts t ExprId) Unit := do
  match (← table)[key]? with
  | none => changeTable (·.insert key value)
  | some existing =>
    if !(← Query.provesEqual existing value) then
      let ctx ← Query.context
      throw (.inconsistentValue (Keyed.name ctx key) (ctx.text existing) (ctx.text value))

/-- Refuses a domain that does not start at zero. -/
def requireZeroMin [Keyed t] (pass : Pass) (key : Handle t) (domain : Domain) : Sweep σ Unit := do
  let ctx ← Query.context
  if !ctx.isZero domain.min then
    throw (.nonZeroMin pass (Keyed.name ctx key) (ctx.text domain.min))

end Sweep

/-- `value + min`, without a sum when `min` is a literal zero. -/
def Build.offset (value min : ExprId) : Build ExprId := do
  if (← get).isZero min then return value else add value min

/-- The quotient rounded up, or the exact quotient where `b` is shown to divide `a`. -/
def Sweep.ceilDiv {σ : Type} (a b : ExprId) : Sweep σ ExprId := do
  let rest ← Attempt.floorMod a b
  let zero ← Build.constantLike 0 rest
  let divisible ← Build.compare .eq rest zero
  let quotient ←
    if ← Query.proves divisible then Attempt.floorDiv a b
    else do
      let bumped ← Build.addConst (← Build.add a b) (-1)
      Attempt.floorDiv bumped b
  Query.simplify quotient

end LoopBounds
