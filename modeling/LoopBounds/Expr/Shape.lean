import Std.Data.TreeSet.Basic
import LoopBounds.Expr.Build

/-!
# The shape of an expression

Which variables an expression mentions, whether it contains a call, and whether it is affine.
-/

namespace LoopBounds.Context

/-- Adds an expression and what it is made of to a set that holds the parts of its members. -/
def addSubexprs (ctx : Context) (seen : Std.TreeSet ExprId) (e : ExprId) : Std.TreeSet ExprId :=
  if seen.contains e then seen
  else
    let operands := (ctx.node e).children.attach
    (operands.foldl (fun seen ⟨c, _⟩ => ctx.addSubexprs seen c) seen).insert e
termination_by e.index
decreasing_by exact ctx.child_lt ‹_›

/-- An expression and its sub-expressions. -/
def subexprs (ctx : Context) (e : ExprId) : Std.TreeSet ExprId := ctx.addSubexprs {} e

def var? (ctx : Context) (e : ExprId) : Option VarId :=
  match ctx.node e with
  | .var v => some v
  | _ => none

/-- The variables that an expression mentions, in order of declaration. -/
def freeVars (ctx : Context) (e : ExprId) : List VarId :=
  (Std.TreeSet.ofList ((ctx.subexprs e).toList.filterMap ctx.var?)).toList

def containsCall (ctx : Context) (e : ExprId) : Bool :=
  match ctx.node e with
  | .call .. => true
  | _ => (ctx.node e).children.attach.any fun ⟨c, _⟩ => ctx.containsCall c
termination_by e.index
decreasing_by exact ctx.child_lt ‹_›

/-- Built from literals, variables, sums, differences and products with a literal. -/
def isAffine (ctx : Context) (e : ExprId) : Bool :=
  match _h : ctx.node e with
  | .const .. | .var _ => true
  | .arith .add a b | .arith .sub a b => ctx.isAffine a && ctx.isAffine b
  | .arith .mul a b =>
    ((ctx.literal? a).isSome && ctx.isAffine b) || ((ctx.literal? b).isSome && ctx.isAffine a)
  | _ => false
termination_by e.index
decreasing_by
  all_goals (apply ctx.child_lt; rw [_h]; simp [Node.children])

/-- Without a body, or with one that is not affine, a function is not inlined as simple. -/
def isComplex (ctx : Context) (f : FunId) : Bool :=
  match (ctx.fn f).body? with
  | some body => !ctx.isAffine body
  | none => true

end LoopBounds.Context
