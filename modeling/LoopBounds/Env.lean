import LoopBounds.Symbol

/-!
# Environments

An environment gives some variables a meaning: a value, an interval, or an expression that
stands for them.
-/

namespace LoopBounds

abbrev Env (α : Type) := VarId → Option α

namespace Env

variable {α : Type}

def empty : Env α := fun _ => none

def set (env : Env α) (v : VarId) (x : α) : Env α := fun w => if w = v then some x else env w

@[simp] theorem set_self (env : Env α) (v : VarId) (x : α) : env.set v x v = some x := if_pos rfl

@[simp] theorem set_of_ne (env : Env α) {v w : VarId} (x : α) (h : w ≠ v) :
    env.set v x w = env w := if_neg h

/-- The environment of a list of meanings, the last of which counts. -/
def ofList (xs : List (VarId × α)) : Env α := xs.foldl (fun env (v, x) => env.set v x) empty

end Env

/-- The environment that gives each parameter the meaning of its dimension. -/
def IndexFun.bindParams {α : Type} {m : Type → Type} [Monad m] (f : IndexFun)
    (meaning : DimId → m α) : m (Env α) :=
  f.signature.foldlM (fun env (param, dim) => do return env.set param (← meaning dim)) Env.empty

end LoopBounds
