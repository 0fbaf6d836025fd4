import LoopBounds.Handle
import LoopBounds.Operator

/-!
# Expression nodes

A node names its operands by handle, so that equal sub-expressions are shared.
-/

namespace LoopBounds

inductive Node where
  | const (value : Int64) (type : Scalar)
  | var (v : VarId)
  | arith (op : Arith) (lhs rhs : ExprId)
  | compare (op : Comparison) (lhs rhs : ExprId)
  | and (lhs rhs : ExprId)
  | or (lhs rhs : ExprId)
  | not (arg : ExprId)
  /-- A call of an index function; each argument stands for the dimension beside it. -/
  | call (fn : FunId) (args : List ExprId) (dims : List DimId)
  deriving DecidableEq, Repr

namespace Node

instance : Inhabited Node := ⟨.const 0 .bool⟩

def children : Node → List ExprId
  | const _ _ | var _ => []
  | arith _ a b | compare _ a b | and a b | or a b => [a, b]
  | not a => [a]
  | call _ args _ => args

/-- Numbers that tell nodes apart. -/
def key : Node → List Nat
  | const v t => [0, v.toUInt64.toNat, t.width]
  | var v => [1, v.index]
  | arith op a b => [2, op.rank, a.index, b.index]
  | compare op a b => [3, op.rank, a.index, b.index]
  | and a b => [4, a.index, b.index]
  | or a b => [5, a.index, b.index]
  | not a => [6, a.index]
  | call f args dims =>
    7 :: f.index :: args.length :: (args.map Handle.index ++ dims.map Handle.index)

theorem key_injective {m n : Node} (h : m.key = n.key) : m = n := by
  cases m <;> cases n <;>
    simp_all [key, Handle.index_inj, Scalar.width_inj, Arith.rank_inj, Comparison.rank_inj,
      UInt64.toNat_inj]
  case const.const => exact congrArg Int64.ofUInt64 h.1
  case call.call =>
    obtain ⟨_, hlen, h⟩ := h
    obtain ⟨hargs, hdims⟩ := List.append_inj h (by simpa using hlen)
    exact ⟨Handle.map_index_inj hargs, Handle.map_index_inj hdims⟩

instance : Ord Node := ⟨compareOn key⟩

instance : Std.TransOrd Node := inferInstanceAs (Std.TransCmp (compareOn key))

instance : Std.LawfulEqOrd Node where
  eq_of_compare h := key_injective (Std.LawfulEqOrd.eq_of_compare h)

end Node

/-- The argument of a call that stands for dimension `d`. -/
def argument? (args : List ExprId) (dims : List DimId) (d : DimId) : Option ExprId :=
  match dims.idxOf? d with
  | some i => args[i]?
  | none => none

theorem mem_of_argument? {args : List ExprId} {dims : List DimId} {d : DimId} {a : ExprId}
    (h : argument? args dims d = some a) : a ∈ args := by
  unfold argument? at h
  split at h
  · exact List.mem_of_getElem? h
  · cases h

end LoopBounds
