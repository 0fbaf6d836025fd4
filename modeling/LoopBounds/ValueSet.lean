import LoopBounds.Analyzer.Prove
import LoopBounds.Domain

/-!
# Value sets

A value set holds the values between two symbolic ends, either of which may be missing.  Every
operation may enlarge a set but never loses a value: `Query.valuesOf` gives a set that holds all
values of an expression whose variables stay within their sets.
-/

namespace LoopBounds

structure ValueSet where
  lo? : Option ExprId
  hi? : Option ExprId
  deriving DecidableEq, Repr, Inhabited

namespace ValueSet

def everything : ValueSet := ⟨none, none⟩

def point (e : ExprId) : ValueSet := ⟨some e, some e⟩

def between (lo hi : ExprId) : ValueSet := ⟨some lo, some hi⟩

def isEverything (s : ValueSet) : Bool := s.lo?.isNone && s.hi?.isNone

/-- The only value of a set whose ends are the same expression. -/
def point? (s : ValueSet) : Option ExprId := if s.lo? = s.hi? then s.lo? else none

/-- The values of a domain. -/
def ofDomain (d : Domain) : Build ValueSet := do
  if d.isPoint (← get) then return point d.min
  return between d.min (← d.last)

/-- Whether the set is shown to hold exactly the values of a domain. -/
def coversExactly (s : ValueSet) (d : Domain) : Query Bool := do
  match s.lo?, s.hi? with
  | some lo, some hi => do
    let last ← d.last
    if ← Query.provesEqual lo d.min then Query.provesEqual hi last else return false
  | _, _ => return false

/-- The domain of a bounded set. -/
def toDomain? (s : ValueSet) : Query (Option Domain) := do
  match s.lo?, s.hi? with
  | some lo, some hi => do
    let extent ← Build.addConst (← Build.sub hi lo) 1
    return some ⟨lo, ← Query.simplify extent⟩
  | _, _ => return none

/-- Combines two ends, missing unless both are there. -/
def both (op : Arith) (x? y? : Option ExprId) : Build (Option ExprId) :=
  match x?, y? with
  | some x, some y => some <$> Build.arith op x y
  | _, _ => return none

/-- Combines two ends; one alone stands for both. -/
def either (op : Arith) (x? y? : Option ExprId) : Build (Option ExprId) :=
  match x?, y? with
  | some x, some y => some <$> Build.arith op x y
  | some x, none | none, some x => return some x
  | none, none => return none

def simplifyEnd (x? : Option ExprId) : Query (Option ExprId) :=
  match x? with
  | some x => some <$> Query.simplify x
  | none => return none

/-- The set between two ends, simplified. -/
def simplified (lo? hi? : Option ExprId) : Query ValueSet :=
  return ⟨← simplifyEnd lo?, ← simplifyEnd hi?⟩

/-- The smallest set around two sets. -/
def union (s t : ValueSet) : Query ValueSet := do
  let lo? ← simplifyEnd (← both .min s.lo? t.lo?)
  let hi? ← simplifyEnd (← both .max s.hi? t.hi?)
  return ⟨lo?, hi?⟩

/-- The products with a factor; the ends change places when the factor is not positive. -/
def scale (s : ValueSet) (factor : ExprId) : Query ValueSet := do
  let zero ← Build.constantLike 0 factor
  if ← Query.proves (← Build.compare .ge factor zero) then
    let lo? ← simplifyEnd (← both .mul s.lo? (some factor))
    let hi? ← simplifyEnd (← both .mul s.hi? (some factor))
    return ⟨lo?, hi?⟩
  if ← Query.proves (← Build.compare .le factor zero) then
    let lo? ← both .mul s.hi? (some factor)
    let hi? ← both .mul s.lo? (some factor)
    simplified lo? hi?
  else return everything

/-- Whether a divisor is shown to be positive. -/
def provesPositive (divisor : ExprId) : Query Bool := do
  let zero ← Build.constantLike 0 divisor
  Query.proves (← Build.compare .gt divisor zero)

def quotient (s : ValueSet) (divisor : ExprId) : Query ValueSet := do
  if ← provesPositive divisor then
    let lo? ← simplifyEnd (← both .floorDiv s.lo? (some divisor))
    let hi? ← simplifyEnd (← both .floorDiv s.hi? (some divisor))
    return ⟨lo?, hi?⟩
  else return everything

/-- The remainders of a bounded set when both ends have the same quotient. -/
def remainderInBlock? (s : ValueSet) (divisor : ExprId) : Query (Option ValueSet) := do
  match s.lo?, s.hi? with
  | some lo, some hi => do
    let qlo ← Build.arith .floorDiv lo divisor
    let qhi ← Build.arith .floorDiv hi divisor
    if ← Query.provesEqual qlo qhi then
      let mlo ← Build.arith .floorMod lo divisor
      let mhi ← Build.arith .floorMod hi divisor
      some <$> simplified (some mlo) (some mhi)
    else return none
  | _, _ => return none

def remainder (s : ValueSet) (divisor : ExprId) : Query ValueSet := do
  if ← provesPositive divisor then
    match ← s.remainderInBlock? divisor with
    | some block => return block
    | none =>
      let zero ← Build.constantLike 0 divisor
      let last ← Build.addConst divisor (-1)
      simplified (some zero) (some last)
  else return everything

/-- The values of an operator over two sets. -/
def arith (op : Arith) (s t : ValueSet) : Query ValueSet := do
  match op with
  | .add => do
    let lo? ← both .add s.lo? t.lo?
    let hi? ← both .add s.hi? t.hi?
    simplified lo? hi?
  | .sub => do
    let lo? ← both .sub s.lo? t.hi?
    let hi? ← both .sub s.hi? t.lo?
    simplified lo? hi?
  | .mul =>
    match s.point?, t.point? with
    | _, some factor => s.scale factor
    | some factor, none => t.scale factor
    | none, none => return everything
  | .floorDiv =>
    match t.point? with
    | some divisor => s.quotient divisor
    | none => return everything
  | .floorMod =>
    match t.point? with
    | some divisor => s.remainder divisor
    | none => return everything
  | .min => do
    let lo? ← both .min s.lo? t.lo?
    let hi? ← either .min s.hi? t.hi?
    simplified lo? hi?
  | .max => do
    let lo? ← either .max s.lo? t.lo?
    let hi? ← both .max s.hi? t.hi?
    simplified lo? hi?

/-- The value of an operator over two points; a division by a literal zero could be anything. -/
def arithPoints (op : Arith) (a b : ExprId) : Query ValueSet := do
  if (op = .floorDiv ∨ op = .floorMod) ∧ (← Query.context).isZero b then return everything
  return point (← Query.simplify (← Build.arith op a b))

end ValueSet

/-- The values of an expression whose variables range over `sets`.  A variable without a set is
a fixed symbol. -/
def Query.valuesOf (sets : Env ValueSet) (e : ExprId) : Query ValueSet := do
  let ctx ← Query.context
  match _h : ctx.node e with
  | .const .. => return .point e
  | .var v => return (sets v).getD (.point e)
  | .arith op a b => do
    let s ← valuesOf sets a
    let t ← valuesOf sets b
    match s.point?, t.point? with
    | some x, some y => ValueSet.arithPoints op x y
    | _, _ => ValueSet.arith op s t
  | .call f args dims => do
    let points? ← OptionT.run <| args.attach.mapM fun ⟨a, _⟩ =>
      OptionT.mk (do return (← valuesOf sets a).point?)
    match points? with
    | some points => return .point (← intern (.call f points dims))
    | none =>
      match ((← Query.context).fn f).codomain? with
      | some d => ValueSet.ofDomain d
      | none => return .everything
  | node => do
    let points? ← OptionT.run <| node.children.attach.mapM fun ⟨a, _⟩ =>
      OptionT.mk (do return (← valuesOf sets a).point?)
    match points? with
    | some points => return .point (← Query.simplify (← Build.rebuild node points))
    | none => return .between (← Build.boolean false) (← Build.boolean true)
termination_by e.index
decreasing_by
  all_goals apply ctx.child_lt
  all_goals simp_all [Node.children]

end LoopBounds
