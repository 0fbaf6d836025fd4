import LoopBounds.Inference.Sweep
import LoopBounds.LoopNest.Basic

/-!
# Bit masks

Masks are joined, never checked: going up, an axis collects the bits of everything made from it,
and going down, of everything it is made from.
-/

namespace LoopBounds.Sweep

abbrev Masks := Facts .axis UInt32

/-- The mask of an axis, empty when it has none. -/
def maskOf (masks : Masks) (a : AxisId) : UInt32 := masks[a]?.getD 0

/-- Adds bits to the mask of an axis. -/
def joinMask (a : AxisId) (bits : UInt32) : Sweep Masks Unit :=
  changeTable fun masks => masks.insert a (maskOf masks a ||| bits)

/-- The bits of two axes, one of which needs a mask; an error names `key`. -/
def eitherMask (allowMissing : Bool) (pass : Pass) (key outer inner : AxisId) :
    Sweep Masks (Option UInt32) := do
  let masks ← table
  if masks.contains outer ∨ masks.contains inner then
    return some (maskOf masks outer ||| maskOf masks inner)
  else if allowMissing then return none
  else throw (.missingEntry pass .outerOrInner ((← Query.context).axisName key))

def relationMasksUp (allowMissing : Bool) (r : AxisRelation) : Sweep Masks Unit := do
  match r with
  | .reshape (.split parent outer inner _) => do
    let some bits ← eitherMask allowMissing .masksUp parent outer inner
      | return ()
    joinMask parent bits
  | .reshape (.fuse outer inner fused) => do
    let some bits ← require allowMissing .masksUp (.endpoint .fused) (← table) fused
      | return ()
    joinMask outer bits
    joinMask inner bits
  | .rebase parent rebased => do
    let some bits ← require allowMissing .masksUp (.endpoint .rebased) (← table) rebased
      | return ()
    joinMask parent bits
  | .singleton _ => return ()

/-- Joins the mask of every axis into the axes it is made from. -/
def masksUp (nest : LoopNest) (allowMissing : Bool) : Sweep Masks Unit :=
  nest.relations.reverse.forM (relationMasksUp allowMissing)

def relationMasksDown (allowMissing : Bool) (r : AxisRelation) : Sweep Masks Unit := do
  match r with
  | .reshape (.split parent outer inner _) => do
    let some bits ← require allowMissing .masksDown (.endpoint .parent) (← table) parent
      | return ()
    joinMask outer bits
    joinMask inner bits
  | .reshape (.fuse outer inner fused) => do
    let some bits ← eitherMask allowMissing .masksDown fused outer inner
      | return ()
    joinMask fused bits
  | .rebase parent rebased => do
    let some bits ← require allowMissing .masksDown (.endpoint .parent) (← table) parent
      | return ()
    joinMask rebased bits
  | .singleton a => joinMask a 0

/-- Joins the mask of every axis into the axes made from it; a pinned axis has at least the
empty mask. -/
def masksDown (nest : LoopNest) (allowMissing : Bool) : Sweep Masks Unit :=
  nest.relations.forM (relationMasksDown allowMissing)

end LoopBounds.Sweep
