import LoopBounds.Analyzer.Basic
import LoopBounds.Env

/-!
# Constant bounds

The bounds of an expression are found by interval arithmetic.  A variable has the bounds of its
domain and a call those of its body, within its codomain.  Domains may mention one another in
circles and bodies may call themselves, so both are followed only to a fixed depth; past it,
anything is possible.
-/

namespace LoopBounds

/-- The values of `[min, min + extent)` for ends within known bounds. -/
def Domain.bound (d : Domain) (boundOf : ExprId → Interval) : Interval :=
  let first := boundOf d.min
  let last := (first.add (boundOf d.extent)).add (.point (-1))
  ⟨first.lo, last.hi⟩

/-- Bounds that depend on the known domains and on the bounds given to some variables. -/
abbrev Bounding := Env Domain → Env Interval → ExprId → Interval

namespace Context

/-- One level of bounds: domains, codomains and bodies are left to `deeper?`. -/
def boundStep (ctx : Context) (deeper? : Option Bounding) (domains : Env Domain)
    (given : Env Interval) (e : ExprId) : Interval :=
  match _h : ctx.node e with
  | .const v _ => .point v
  | .var v =>
    match given v, domains v, deeper? with
    | some i, _, _ => i
    | none, some d, some deeper => d.bound (deeper domains given)
    | none, _, _ => .everything
  | .arith op a b =>
    op.image (ctx.boundStep deeper? domains given a) (ctx.boundStep deeper? domains given b)
  | .compare .. | .and .. | .or .. | .not _ => .truths
  | .call f args dims =>
    match deeper? with
    | none => .everything
    | some deeper =>
      let declared :=
        match (ctx.fn f).codomain? with
        | some d => d.bound (deeper domains given)
        | none => .everything
      match (ctx.fn f).body? with
      | none => declared
      | some body =>
        let inner : Env Interval := Id.run <| (ctx.fn f).bindParams fun dim =>
          match _ha : argument? args dims dim with
          | some a => pure (ctx.boundStep deeper? domains given a)
          | none => pure .everything
        (deeper Env.empty inner body).intersect declared
termination_by e.index
decreasing_by
  all_goals (apply ctx.child_lt; rw [_h]; simp [Node.children])
  exact mem_of_argument? _ha

/-- Bounds that follow domains and bodies `depth` levels. -/
def boundWithin (ctx : Context) : Nat → Bounding
  | 0 => ctx.boundStep none
  | depth + 1 => ctx.boundStep (some (ctx.boundWithin depth))

/-- How far domains and bodies are followed. -/
def bindingDepth : Nat := 16

end Context

namespace Query

/-- The constant bounds of an expression. -/
def bound (e : ExprId) : Query Interval := do
  let an ← analyzer
  match an.bound? e with
  | some known => return known
  | none =>
    let bound := (← context).boundWithin Context.bindingDepth (an.bindings[·]?) Env.empty e
    recordBound e bound
    return bound

end Query

end LoopBounds
