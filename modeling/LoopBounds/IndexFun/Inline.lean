import LoopBounds.IndexFun.Call

/-!
# Inlining

Calls are replaced by the bodies of their functions, and the calls in those bodies in turn.
Bodies that call themselves may unfold for ever; past the call depth of the context a call is
left as it stands.
-/

namespace LoopBounds.Attempt

def inlineWithin (onlySimple : Bool) : Nat → ExprId → Attempt ExprId
  | 0, e => return e
  | depth + 1, e => rewrite (m := Attempt) (fun e => do
    let ctx ← get
    match ctx.node e with
    | .call f args dims =>
      if (ctx.fn f).body?.isNone ∨ (onlySimple ∧ ctx.isComplex f) then return none
      some <$> inlineWithin onlySimple depth (← instantiate f args dims)
    | _ => return none) e

/-- Replaces calls by bodies.  Functions without a body stay, and with `onlySimple` so do those
whose body is not affine. -/
def inline (onlySimple : Bool) (e : ExprId) : Attempt ExprId := do
  inlineWithin onlySimple (← get).callDepth e

def inlineDomain (onlySimple : Bool) (d : Domain) : Attempt Domain :=
  return ⟨← inline onlySimple d.min, ← inline onlySimple d.extent⟩

def relaxWithin : Nat → ExprId → Attempt ExprId
  | 0, e => return e
  | depth + 1, e => rewrite (m := Attempt) (fun e => do
    let ctx ← get
    match ctx.node e with
    | .call f args dims =>
      if ctx.isComplex f then
        match (ctx.fn f).codomain? with
        | some d => some <$> d.last
        | none => return none
      else some <$> relaxWithin depth (← instantiate f args dims)
    | _ => return none) e

/-- Inlines simple calls and puts the last point of the codomain in place of the others.  Calls
of functions that declare no codomain stay. -/
def relax (e : ExprId) : Attempt ExprId := do relaxWithin (← get).callDepth e

end LoopBounds.Attempt
