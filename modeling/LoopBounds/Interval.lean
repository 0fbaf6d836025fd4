import LoopBounds.Operator

/-!
# Intervals of words

The constant bounds of an expression.  The least and the greatest word stand for an end that is
unbounded; arithmetic is exact and saturates, so an overflow widens an interval.
-/

namespace LoopBounds

/-- The values from `lo` to `hi`, both included. -/
structure Interval where
  lo : Int64
  hi : Int64
  deriving DecidableEq, Repr, Inhabited

namespace Interval

def negInf : Int64 := Int64.minValue

def posInf : Int64 := Int64.maxValue

def isInf (w : Int64) : Bool := w = negInf ∨ w = posInf

def point (w : Int64) : Interval := ⟨w, w⟩

def everything : Interval := ⟨negInf, posInf⟩

/-- The interval of a truth value. -/
def truths : Interval := ⟨0, 1⟩

def isConst (i : Interval) : Bool := i.lo = i.hi ∧ ¬ isInf i.lo

def isFinite (i : Interval) : Bool := ¬ isInf i.lo ∧ ¬ isInf i.hi

def isNonNegative (i : Interval) : Bool := 0 ≤ i.lo

def union (i j : Interval) : Interval := ⟨min i.lo j.lo, max i.hi j.hi⟩

def intersect (i j : Interval) : Interval := ⟨max i.lo j.lo, min i.hi j.hi⟩

def add (i j : Interval) : Interval where
  lo := if i.lo = negInf ∨ j.lo = negInf then negInf
    else Word.saturate (i.lo.toInt + j.lo.toInt)
  hi := if i.hi = posInf ∨ j.hi = posInf then posInf
    else Word.saturate (i.hi.toInt + j.hi.toInt)

/-- The opposite end: the infinities change places. -/
def negEnd (w : Int64) : Int64 :=
  if w = negInf then posInf else if w = posInf then negInf else Word.saturate (-w.toInt)

def neg (i : Interval) : Interval := ⟨negEnd i.hi, negEnd i.lo⟩

def sub (i j : Interval) : Interval := i.add j.neg

/-- An end times a factor other than zero. -/
def scaleEnd (c w : Int64) : Int64 :=
  if w = negInf then (if 0 < c then negInf else posInf)
  else if w = posInf then (if 0 < c then posInf else negInf)
  else Word.saturate (w.toInt * c.toInt)

def scale (i : Interval) (c : Int64) : Interval :=
  if c = 0 then point 0
  else if 0 < c then ⟨scaleEnd c i.lo, scaleEnd c i.hi⟩
  else ⟨scaleEnd c i.hi, scaleEnd c i.lo⟩

def mul (i j : Interval) : Interval :=
  if j.isConst then i.scale j.lo
  else if i.isConst then j.scale i.lo
  else if ¬ i.isFinite ∨ ¬ j.isFinite then everything
  else
    let a := i.lo.toInt * j.lo.toInt
    let b := i.lo.toInt * j.hi.toInt
    let c := i.hi.toInt * j.lo.toInt
    let d := i.hi.toInt * j.hi.toInt
    ⟨Word.saturate (min (min a b) (min c d)), Word.saturate (max (max a b) (max c d))⟩

/-- An end divided by a finite constant. -/
def divEnd (c w : Int64) : Int64 :=
  if isInf w then (if decide (w = posInf) = decide (0 < c) then posInf else negInf)
  else (Word.floorDiv w c).getD w

def floorDiv (i j : Interval) : Interval :=
  if j.isConst ∧ j.lo ≠ 0 then
    if 0 < j.lo then ⟨divEnd j.lo i.lo, divEnd j.lo i.hi⟩
    else ⟨divEnd j.lo i.hi, divEnd j.lo i.lo⟩
  else if 0 < j.lo ∧ i.isFinite ∧ j.isFinite then
    match [Word.floorDiv i.lo j.lo, Word.floorDiv i.lo j.hi,
      Word.floorDiv i.hi j.lo, Word.floorDiv i.hi j.hi].filterMap id with
    | [] => everything
    | q :: qs => ⟨qs.foldl min q, qs.foldl max q⟩
  else everything

/-- The remainders by a positive constant, when the interval lies in one block of it. -/
def floorModBlock? (i : Interval) (c : Int64) : Option Interval :=
  if Word.floorDiv i.lo c = Word.floorDiv i.hi c then do
    return ⟨← Word.floorMod i.lo c, ← Word.floorMod i.hi c⟩
  else none

def floorMod (i j : Interval) : Interval :=
  if 0 < j.lo then
    match if j.isConst ∧ i.isFinite then i.floorModBlock? j.lo else none with
    | some block => block
    | none =>
      if 0 ≤ i.lo ∧ i.hi < j.lo then i
      else ⟨0, if j.hi = posInf then posInf else j.hi - 1⟩
  else if j.hi < 0 then ⟨if j.lo = negInf then negInf else j.lo + 1, 0⟩
  else everything

/-- The pointwise lesser value. -/
def minWith (i j : Interval) : Interval := ⟨min i.lo j.lo, min i.hi j.hi⟩

/-- The pointwise greater value. -/
def maxWith (i j : Interval) : Interval := ⟨max i.lo j.lo, max i.hi j.hi⟩

end Interval

/-- The action of an operator on intervals. -/
def Arith.image : Arith → Interval → Interval → Interval
  | add => Interval.add
  | sub => Interval.sub
  | mul => Interval.mul
  | floorDiv => Interval.floorDiv
  | floorMod => Interval.floorMod
  | min => Interval.minWith
  | max => Interval.maxWith

end LoopBounds
