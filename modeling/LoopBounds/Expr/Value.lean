import LoopBounds.Context
import LoopBounds.Env

/-!
# The value of an expression

An expression has a value when its variables have values, every function called has a body
with a value at the arguments, and no operator leaves the word.  A conjunction whose first
operand is false, and a disjunction whose first operand is true, do not look at the second.
A call is evaluated in an environment that holds the callee's parameters and nothing else.
-/

namespace LoopBounds

namespace Context

/-- The value of an expression, given the values of function bodies. -/
def evalStep (ctx : Context) (evalBody : Env Int64 → ExprId → Option Int64)
    (env : Env Int64) (e : ExprId) : Option Int64 :=
  match _h : ctx.node e with
  | .const v _ => some v
  | .var v => env v
  | .arith op a b => do
    let x ← ctx.evalStep evalBody env a
    let y ← ctx.evalStep evalBody env b
    op.apply x y
  | .compare op a b => do
    let x ← ctx.evalStep evalBody env a
    let y ← ctx.evalStep evalBody env b
    return truth (op.holds x y)
  | .and a b => do
    let x ← ctx.evalStep evalBody env a
    if x = 0 then return 0
    let y ← ctx.evalStep evalBody env b
    return truth (y ≠ 0)
  | .or a b => do
    let x ← ctx.evalStep evalBody env a
    if x ≠ 0 then return 1
    let y ← ctx.evalStep evalBody env b
    return truth (y ≠ 0)
  | .not a => do
    let x ← ctx.evalStep evalBody env a
    return truth (x = 0)
  | .call f args dims => do
    let body ← (ctx.fn f).body?
    let inner ← (ctx.fn f).bindParams fun dim =>
      match _ha : argument? args dims dim with
      | some a => ctx.evalStep evalBody env a
      | none => none
    evalBody inner body
termination_by e.index
decreasing_by
  all_goals (apply ctx.child_lt; rw [_h]; simp [Node.children])
  exact mem_of_argument? _ha

/-- The value of an expression whose calls nest at most `depth` deep. -/
def evalWithin (ctx : Context) : Nat → Env Int64 → ExprId → Option Int64
  | 0 => ctx.evalStep fun _ _ => none
  | depth + 1 => ctx.evalStep (ctx.evalWithin depth)

/-- The value of an expression; past the call depth it counts as having none. -/
def eval (ctx : Context) (env : Env Int64) (e : ExprId) : Option Int64 :=
  ctx.evalWithin ctx.callDepth env e

end Context

end LoopBounds
