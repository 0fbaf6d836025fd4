import LoopBounds.Context
import LoopBounds.Error

/-!
# Building expressions

Expressions are built by folding constructors: operators on literals are computed, and units
and zeros of an operator disappear.  What an operator folds to depends only on which operands
are literals and whether the operands are the same expression, so the rule is a function of its
own, `Arith.fold`, apart from the storing of nodes.
-/

namespace LoopBounds

/-- What an operator over two operands is built as. -/
inductive Fold where
  | literal (value : Int64)
  | lhs
  | rhs
  /-- The operator stays. -/
  | node
  deriving DecidableEq, Repr

namespace Arith

/-- Units and zeros of an operator. -/
def foldUnit (op : Arith) (x? y? : Option Int64) (same : Bool) : Fold :=
  match op with
  | add => if y? = some 0 then .lhs else if x? = some 0 then .rhs else .node
  | sub => if y? = some 0 then .lhs else if same then .literal 0 else .node
  | mul =>
    if y? = some 1 then .lhs
    else if x? = some 1 then .rhs
    else if x? = some 0 ∨ y? = some 0 then .literal 0
    else .node
  | floorDiv => if y? = some 1 then .lhs else .node
  | floorMod => if y? = some 1 then .literal 0 else .node
  | min | max => if same then .lhs else .node

/-- Literals are computed when the value exists; otherwise units and zeros are dropped. -/
def fold (op : Arith) (x? y? : Option Int64) (same : Bool) : Fold :=
  match x?, y? with
  | some x, some y =>
    match op.apply x y with
    | some v => .literal v
    | none => op.foldUnit x? y? same
  | _, _ => op.foldUnit x? y? same

end Arith

def Comparison.fold (op : Comparison) (x? y? : Option Int64) (same : Bool) : Fold :=
  match x?, y? with
  | some x, some y => .literal (truth (op.holds x y))
  | _, _ => if same then .literal (truth op.isReflexive) else .node

/-- A literal operand of a conjunction is false or drops out. -/
def foldAnd (x? y? : Option Int64) (same : Bool) : Fold :=
  if x? = some 0 ∨ y? = some 0 then .literal 0
  else if x?.isSome then .rhs
  else if y?.isSome ∨ same then .lhs
  else .node

/-- A literal operand of a disjunction is true or drops out. -/
def foldOr (x? y? : Option Int64) (same : Bool) : Fold :=
  if x?.any (· ≠ 0) ∨ y?.any (· ≠ 0) then .literal 1
  else if x?.isSome then .rhs
  else if y?.isSome ∨ same then .lhs
  else .node

/-- A computation that may store expressions or fail. -/
abbrev Attempt := ExceptT ExprError Build

namespace Context

def literal? (ctx : Context) (e : ExprId) : Option Int64 :=
  match ctx.node e with
  | .const v _ => some v
  | _ => none

def isZero (ctx : Context) (e : ExprId) : Bool := ctx.literal? e = some 0

def isOne (ctx : Context) (e : ExprId) : Bool := ctx.literal? e = some 1

end Context

namespace Build

def constant (value : Int64) (type : Scalar) : Build ExprId := intern (.const value type)

def int (value : Int64) : Build ExprId := constant value .int32

def boolean (b : Bool) : Build ExprId := constant (truth b) .bool

/-- A literal of the type of `like`. -/
def constantLike (value : Int64) (like : ExprId) : Build ExprId := do
  constant value ((← get).typeOf like)

def var (v : VarId) : Build ExprId := intern (.var v)

/-- The expression of the variable that runs over an axis. -/
def axis (a : AxisId) : Build ExprId := do var ((← get).axisVar a)

/-- Builds what an operator over `lhs` and `rhs` folds to. -/
def folded (fold : Option Int64 → Option Int64 → Bool → Fold) (type : Scalar) (node : Node)
    (lhs rhs : ExprId) : Build ExprId := do
  let ctx ← get
  match fold (ctx.literal? lhs) (ctx.literal? rhs) (lhs == rhs) with
  | .literal v => constant v type
  | .lhs => return lhs
  | .rhs => return rhs
  | .node => intern node

def arith (op : Arith) (lhs rhs : ExprId) : Build ExprId := do
  let ctx ← get
  folded op.fold ((ctx.typeOf lhs).promote (ctx.typeOf rhs)) (.arith op lhs rhs) lhs rhs

def add (lhs rhs : ExprId) : Build ExprId := arith .add lhs rhs

def sub (lhs rhs : ExprId) : Build ExprId := arith .sub lhs rhs

def mul (lhs rhs : ExprId) : Build ExprId := arith .mul lhs rhs

def minimum (lhs rhs : ExprId) : Build ExprId := arith .min lhs rhs

def maximum (lhs rhs : ExprId) : Build ExprId := arith .max lhs rhs

/-- `lhs + n` with a literal of the type of `lhs`. -/
def addConst (lhs : ExprId) (n : Int64) : Build ExprId := do add lhs (← constantLike n lhs)

/-- `lhs * n` with a literal of the type of `lhs`. -/
def mulConst (lhs : ExprId) (n : Int64) : Build ExprId := do mul lhs (← constantLike n lhs)

def compare (op : Comparison) (lhs rhs : ExprId) : Build ExprId :=
  folded op.fold .bool (.compare op lhs rhs) lhs rhs

def conj (lhs rhs : ExprId) : Build ExprId := folded foldAnd .bool (.and lhs rhs) lhs rhs

def disj (lhs rhs : ExprId) : Build ExprId := folded foldOr .bool (.or lhs rhs) lhs rhs

/-- The negation; a double negation disappears. -/
def negation (e : ExprId) : Build ExprId := do
  match (← get).node e with
  | .const v _ => boolean (v = 0)
  | .not inner => return inner
  | _ => intern (.not e)

/-- The conjunction of a list, true when it is empty. -/
def all (es : List ExprId) : Build ExprId := do es.foldlM conj (← boolean true)

/-- A division, stored as it stands when the divisor is a literal zero. -/
def division (op : Arith) (lhs rhs : ExprId) : Build ExprId := do
  if (← get).isZero rhs then intern (.arith op lhs rhs) else arith op lhs rhs

/-- A node like `node` over other operands, folded as the constructors fold. -/
def rebuild (node : Node) (operands : List ExprId) : Build ExprId :=
  match node, operands with
  | .arith .floorDiv _ _, [a, b] => division .floorDiv a b
  | .arith .floorMod _ _, [a, b] => division .floorMod a b
  | .arith op _ _, [a, b] => arith op a b
  | .compare op _ _, [a, b] => compare op a b
  | .and _ _, [a, b] => conj a b
  | .or _ _, [a, b] => disj a b
  | .not _, [a] => negation a
  | .call f _ dims, args => intern (.call f args dims)
  | node, _ => intern node

end Build

namespace Attempt

/-- Refuses a literal zero divisor. -/
def divide (op : Arith) (lhs rhs : ExprId) : Attempt ExprId := do
  if (← get).isZero rhs then throw .divisionByZero
  Build.arith op lhs rhs

def floorDiv (lhs rhs : ExprId) : Attempt ExprId := divide .floorDiv lhs rhs

def floorMod (lhs rhs : ExprId) : Attempt ExprId := divide .floorMod lhs rhs

end Attempt

end LoopBounds
