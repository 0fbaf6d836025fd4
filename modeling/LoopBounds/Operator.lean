import LoopBounds.Word

/-!
# Scalars and operators

The scalar types of index expressions, the arithmetic operators and the comparisons, each with
its action on words.  Division and remainder round towards minus infinity.
-/

namespace LoopBounds

/-- The type of an index expression; truth values are `bool`. -/
inductive Scalar where
  | bool
  | int32
  | int64
  deriving DecidableEq, Repr, Inhabited

namespace Scalar

def name : Scalar → String
  | bool => "bool"
  | int32 => "int32"
  | int64 => "int64"

def isInt : Scalar → Bool
  | bool => false
  | int32 | int64 => true

def width : Scalar → Nat
  | bool => 1
  | int32 => 32
  | int64 => 64

theorem width_inj {s t : Scalar} : s.width = t.width ↔ s = t := by
  cases s <;> cases t <;> simp [width]

instance : LT Scalar := ⟨fun a b => a.width < b.width⟩

instance (a b : Scalar) : Decidable (a < b) := inferInstanceAs (Decidable (a.width < b.width))

/-- The type of an arithmetic result: the wider operand type, at least `int32`. -/
def promote : Scalar → Scalar → Scalar
  | int64, _ | _, int64 => int64
  | _, _ => int32

end Scalar

/-- Arithmetic operators. -/
inductive Arith where
  | add
  | sub
  | mul
  | floorDiv
  | floorMod
  | min
  | max
  deriving DecidableEq, Repr

namespace Arith

def name : Arith → String
  | add => "add"
  | sub => "sub"
  | mul => "mul"
  | floorDiv => "floordiv"
  | floorMod => "floormod"
  | min => "min"
  | max => "max"

/-- The place of an operator in the list of operators. -/
def rank : Arith → Nat
  | add => 0
  | sub => 1
  | mul => 2
  | floorDiv => 3
  | floorMod => 4
  | min => 5
  | max => 6

theorem rank_inj {o p : Arith} : o.rank = p.rank ↔ o = p := by
  cases o <;> cases p <;> simp [rank]

/-- The sign written between the operands; the other operators are written as calls. -/
def symbol? : Arith → Option String
  | add => some "+"
  | sub => some "-"
  | mul => some "*"
  | floorDiv | floorMod | min | max => none

def isCommutative : Arith → Bool
  | add | mul | min | max => true
  | sub | floorDiv | floorMod => false

/-- The value of the operator; none when it does not fit the word or the divisor is zero. -/
def apply : Arith → Int64 → Int64 → Option Int64
  | add, a, b => Word.add a b
  | sub, a, b => Word.sub a b
  | mul, a, b => Word.mul a b
  | floorDiv, a, b => Word.floorDiv a b
  | floorMod, a, b => Word.floorMod a b
  | min, a, b => some (Min.min a b)
  | max, a, b => some (Max.max a b)

end Arith

/-- Comparisons of words. -/
inductive Comparison where
  | lt
  | le
  | gt
  | ge
  | eq
  | ne
  deriving DecidableEq, Repr

namespace Comparison

def name : Comparison → String
  | lt => "Lt"
  | le => "Le"
  | gt => "Gt"
  | ge => "Ge"
  | eq => "Eq"
  | ne => "Ne"

/-- The place of a comparison in the list of comparisons. -/
def rank : Comparison → Nat
  | lt => 0
  | le => 1
  | gt => 2
  | ge => 3
  | eq => 4
  | ne => 5

theorem rank_inj {o p : Comparison} : o.rank = p.rank ↔ o = p := by
  cases o <;> cases p <;> simp [rank]

def symbol : Comparison → String
  | lt => "<"
  | le => "<="
  | gt => ">"
  | ge => ">="
  | eq => "=="
  | ne => "!="

def holds : Comparison → Int64 → Int64 → Bool
  | lt, a, b => a < b
  | le, a, b => a ≤ b
  | gt, a, b => b < a
  | ge, a, b => b ≤ a
  | eq, a, b => a = b
  | ne, a, b => a ≠ b

/-- The comparison that holds exactly when the given one does not. -/
def negate : Comparison → Comparison
  | lt => ge
  | le => gt
  | gt => le
  | ge => lt
  | eq => ne
  | ne => eq

/-- Whether the comparison holds of a value and itself. -/
def isReflexive : Comparison → Bool
  | le | ge | eq => true
  | lt | gt | ne => false

theorem negate_negate (op : Comparison) : op.negate.negate = op := by cases op <;> rfl

theorem isReflexive_eq_holds (op : Comparison) (a : Int64) : op.isReflexive = op.holds a a := by
  cases op <;> simp [isReflexive, holds, Int64.lt_irrefl]

end Comparison

/-- The word that stands for a truth value. -/
def truth (b : Bool) : Int64 := if b then 1 else 0

end LoopBounds
