import LoopBounds.Expr.Build
import LoopBounds.Expr.Text

/-!
# Domains

Ways to write the half-open interval `[min, min + extent)`, and its last point.
-/

namespace LoopBounds.Domain

/-- `[0, extent)`, with a zero of the type of the extent. -/
def ofExtent (extent : ExprId) : Build Domain := return ⟨← Build.constantLike 0 extent, extent⟩

def literal (min extent : Int64) : Build Domain := return ⟨← Build.int min, ← Build.int extent⟩

/-- The domain from `first` up to, and without, `last`. -/
def between (first last : ExprId) : Build Domain := return ⟨first, ← Build.sub last first⟩

def isPoint (d : Domain) (ctx : Context) : Bool := ctx.isOne d.extent

/-- The last point, `min + extent - 1`. -/
def last (d : Domain) : Build ExprId := do Build.addConst (← Build.add d.min d.extent) (-1)

def text (d : Domain) (ctx : Context) : String :=
  "range(min=" ++ ctx.text d.min ++ ", ext=" ++ ctx.text d.extent ++ ")"

end LoopBounds.Domain
