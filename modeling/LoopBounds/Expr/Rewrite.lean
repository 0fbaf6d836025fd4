import LoopBounds.Env
import LoopBounds.Expr.Build

/-!
# Rewriting

A rewrite visits every sub-expression once, operands first, and may replace it.  An expression
with replaced operands is rebuilt by the folding constructors before it is visited.
-/

namespace LoopBounds

/-- The results of the sub-expressions already visited. -/
abbrev Rewritten := Std.TreeMap ExprId ExprId

def rewriteStep {m : Type → Type} [Monad m] [MonadLiftT Build m]
    (visit : ExprId → m (Option ExprId)) (e : ExprId) : StateT Rewritten m ExprId := do
  match (← get)[e]? with
  | some done => return done
  | none =>
    let ctx ← (liftM (get : Build Context) : m Context)
    let node := ctx.node e
    let operands ← node.children.attach.mapM fun ⟨c, _⟩ => rewriteStep visit c
    let rebuilt ← if operands = node.children then pure e
      else (liftM (Build.rebuild node operands) : m ExprId)
    let result := (← visit rebuilt).getD rebuilt
    modify (·.insert e result)
    return result
termination_by e.index
decreasing_by exact ctx.child_lt ‹_›

/-- Rewrites an expression by `visit`, which sees each sub-expression with its operands already
rewritten. -/
def rewrite {m : Type → Type} [Monad m] [MonadLiftT Build m]
    (visit : ExprId → m (Option ExprId)) (e : ExprId) : m ExprId :=
  (rewriteStep visit e).run' {}

/-- Replaces the variables that have an image, all at once. -/
def substitute (images : Env ExprId) (e : ExprId) : Build ExprId :=
  rewrite (m := Build) (fun e => do
    match (← get).node e with
    | .var v => return images v
    | _ => return none) e

end LoopBounds
