import LoopBounds.Affine
import LoopBounds.Analyzer.Bound

/-!
# Simplification

Sums are brought to affine form with their atoms in the order of creation.  Quotients,
remainders, minima, maxima and comparisons are decided where the constant bounds decide them.
-/

namespace LoopBounds

/-- The truth of a comparison whose difference lies within `diff`, where that settles it. -/
def Comparison.decideWithin (op : Comparison) (diff : Interval) : Option Bool :=
  match op with
  | .lt => if diff.hi < 0 then some true else if 0 ≤ diff.lo then some false else none
  | .le => if diff.hi ≤ 0 then some true else if 0 < diff.lo then some false else none
  | .gt => if 0 < diff.lo then some true else if diff.hi ≤ 0 then some false else none
  | .ge => if 0 ≤ diff.lo then some true else if diff.hi < 0 then some false else none
  | .eq =>
    if diff.isConst ∧ diff.lo = 0 then some true
    else if 0 < diff.lo ∨ diff.hi < 0 then some false
    else none
  | .ne =>
    if diff.isConst ∧ diff.lo = 0 then some false
    else if 0 < diff.lo ∨ diff.hi < 0 then some true
    else none

/-- The quotient by `c` that all values of an interval share, if they do. -/
def Interval.block? (i : Interval) (c : Int64) : Option Int64 :=
  if i.isFinite ∧ Word.floorDiv i.lo c = Word.floorDiv i.hi c then Word.floorDiv i.lo c else none

namespace Query

/-- An operator that no rule applies to; operands that commute are put in order of creation. -/
def operator (op : Arith) (a b : ExprId) : Query ExprId :=
  if op.isCommutative ∧ b.index < a.index then Build.arith op b a else Build.arith op a b

/-- `a - b` in affine form, unless a coefficient overflows. -/
def difference? (a b : ExprId) : Query (Option ExprId) := do
  let ctx ← context
  let type := (ctx.typeOf a).promote (ctx.typeOf b)
  match (Affine.ofExpr ctx a).sub (Affine.ofExpr ctx b) with
  | some diff => return some (← diff.toExpr type)
  | none => return none

/-- Writes an affine form, or the operator itself when the form overflowed. -/
def affineOr (form? : Option Affine) (type : Scalar) (op : Arith) (a b : ExprId) :
    Query ExprId :=
  match form? with
  | some form => form.toExpr type
  | none => Build.arith op a b

def simplifyProduct (type : Scalar) (a b : ExprId) : Query ExprId := do
  let ctx ← context
  let f := Affine.ofExpr ctx a
  let g := Affine.ofExpr ctx b
  match f.const?, g.const? with
  | _, some c => affineOr (f.scale c) type .mul a b
  | some c, none => affineOr (g.scale c) type .mul a b
  | none, none => operator .mul a b

/-- Quotient or remainder of `a` by a positive literal `c`.  Terms whose coefficient `c` divides
leave the division; what remains is decided when its bounds lie in one block of `c`. -/
def simplifyDivision (op : Arith) (type : Scalar) (a : ExprId) (c : Int64) : Query ExprId := do
  let (quotient, remainder) := (Affine.ofExpr (← context) a).splitBy c
  let rest ← remainder.toExpr type
  let block? := (← bound rest).block? c
  let divisor ← Build.constant c type
  match op, block? with
  | .floorDiv, some k => affineOr (quotient.add (.ofConst k)) type op a divisor
  | .floorMod, some k =>
    affineOr (do remainder.sub (.ofConst (← Word.mul k c))) type op a divisor
  | .floorDiv, none =>
    let inner ← Build.arith op rest divisor
    if quotient.const? = some 0 then return inner
    affineOr (quotient.add (.atom inner)) type op a divisor
  | _, _ => Build.arith op rest divisor

def simplifyDivisionBy (op : Arith) (type : Scalar) (a b : ExprId) : Query ExprId := do
  match (← context).literal? b with
  | some c =>
    if 0 < c then simplifyDivision op type a c
    else if c = 0 then intern (.arith op a b)
    else Build.arith op a b
  | none => Build.arith op a b

/-- A minimum or maximum is one of its operands when the bounds of their difference have one
sign. -/
def simplifyChoice (op : Arith) (a b : ExprId) : Query ExprId := do
  let sign? ← match ← difference? a b with
    | some diff => some <$> bound diff
    | none => pure none
  let (lesser, greater) := if op = .min then (a, b) else (b, a)
  match sign? with
  | some sign =>
    if sign.hi ≤ 0 then return lesser
    if 0 ≤ sign.lo then return greater
    operator op a b
  | none => operator op a b

def simplifyArith (op : Arith) (type : Scalar) (a b : ExprId) : Query ExprId := do
  match op with
  | .add => do
    let ctx ← context
    affineOr ((Affine.ofExpr ctx a).add (Affine.ofExpr ctx b)) type op a b
  | .sub => do
    let ctx ← context
    affineOr ((Affine.ofExpr ctx a).sub (Affine.ofExpr ctx b)) type op a b
  | .mul => simplifyProduct type a b
  | .floorDiv | .floorMod => simplifyDivisionBy op type a b
  | .min | .max => simplifyChoice op a b

def simplifyCompare (op : Comparison) (a b : ExprId) : Query ExprId := do
  let decided ← match ← difference? a b with
    | some diff => pure (op.decideWithin (← bound diff))
    | none => pure none
  match decided with
  | some answer => Build.boolean answer
  | none => Build.compare op a b

def simplifyNegation (a : ExprId) : Query ExprId := do
  match (← context).node a with
  | .compare op x y => Build.compare op.negate x y
  | _ => Build.negation a

/-- An expression equal to the given one under the known domains, in canonical form. -/
def simplify (e : ExprId) : Query ExprId := do
  match (← analyzer).simplified? e with
  | some done => return done
  | none =>
    let ctx ← context
    let type := ctx.typeOf e
    let result ← match _h : ctx.node e with
      | .const .. | .var _ => pure e
      | .arith op a b => do simplifyArith op type (← simplify a) (← simplify b)
      | .compare op a b => do simplifyCompare op (← simplify a) (← simplify b)
      | .and a b => do Build.conj (← simplify a) (← simplify b)
      | .or a b => do Build.disj (← simplify a) (← simplify b)
      | .not a => do simplifyNegation (← simplify a)
      | .call f args dims => do
        let args ← args.attach.mapM fun ⟨a, _⟩ => simplify a
        intern (.call f args dims)
    recordSimplified e result
    return result
termination_by e.index
decreasing_by
  all_goals (apply ctx.child_lt; rw [_h]; simp [Node.children])
  assumption

end Query

end LoopBounds
