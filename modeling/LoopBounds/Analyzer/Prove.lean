import LoopBounds.Analyzer.Simplify

/-!
# Proving conditions

A condition is proved when it simplifies to a true literal, or to a conjunction whose parts are
proved in turn.  Simplifying never nests connectives more deeply, and a condition nests them no
more deeply than its position among the stored expressions, which bounds the search.  "Not
proved" says nothing about the truth of a condition.
-/

namespace LoopBounds

namespace Query

/-- Proves a condition by simplifying at most `rounds` nested conjunctions. -/
def provesWithin : Nat → ExprId → Query Bool
  | 0, _ => return false
  | rounds + 1, cond => do
    match (← analyzer).proved? cond with
    | some known => return known
    | none =>
      let simplified ← simplify cond
      let answer ← match (← context).node simplified with
        | .const v _ => pure (decide (v ≠ 0))
        | .and a b => do
          if ← provesWithin rounds a then provesWithin rounds b else pure false
        | _ => pure false
      recordProved cond answer
      return answer

/-- Whether a condition is shown to hold under the known domains. -/
def proves (cond : ExprId) : Query Bool := provesWithin (cond.index + 1) cond

/-- Whether two expressions are shown to be equal. -/
def provesEqual (a b : ExprId) : Query Bool := do
  if a = b then return true
  let diff ← simplify (← Build.sub a b)
  return (← context).isZero diff

end Query

end LoopBounds
