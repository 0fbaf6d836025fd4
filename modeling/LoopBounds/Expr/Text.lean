import LoopBounds.Context

/-!
# The text of expressions

Sums, differences, products and predicates are written in parentheses with their sign between
the operands; every other operator is written like a call.
-/

namespace LoopBounds.Context

def text (ctx : Context) (e : ExprId) : String :=
  match _h : ctx.node e with
  | .const v .bool => if v = 0 then "false" else "true"
  | .const v _ => toString v.toInt
  | .var v => (ctx.var v).name
  | .arith op a b =>
    match op.symbol? with
    | some sign => "(" ++ ctx.text a ++ " " ++ sign ++ " " ++ ctx.text b ++ ")"
    | none => op.name ++ "(" ++ ctx.text a ++ ", " ++ ctx.text b ++ ")"
  | .compare op a b => "(" ++ ctx.text a ++ " " ++ op.symbol ++ " " ++ ctx.text b ++ ")"
  | .and a b => "(" ++ ctx.text a ++ " && " ++ ctx.text b ++ ")"
  | .or a b => "(" ++ ctx.text a ++ " || " ++ ctx.text b ++ ")"
  | .not a => "!" ++ ctx.text a
  | .call f args _ =>
    (ctx.fn f).name ++ "(" ++ ", ".intercalate (args.attach.map fun ⟨a, _⟩ => ctx.text a) ++ ")"
termination_by e.index
decreasing_by
  all_goals (apply ctx.child_lt; rw [_h]; simp [Node.children])
  assumption

end LoopBounds.Context
