/-!
# Machine words

Index arithmetic is carried out on 64-bit signed integers.  An exact result in `Int` either
fits the word, and `checked` returns it, or the operation has no value; the interval analysis
uses `saturate` instead, which moves a result outside the word to the nearest word.
-/

namespace LoopBounds.Word

/-- The word equal to `n`, if there is one. -/
def checked (n : Int) : Option Int64 :=
  if Int64.minValue.toInt ≤ n ∧ n ≤ Int64.maxValue.toInt then some (Int64.ofInt n) else none

/-- The word nearest to `n`. -/
def saturate (n : Int) : Int64 :=
  if n ≤ Int64.minValue.toInt then Int64.minValue
  else if Int64.maxValue.toInt ≤ n then Int64.maxValue
  else Int64.ofInt n

def add (a b : Int64) : Option Int64 := checked (a.toInt + b.toInt)

def sub (a b : Int64) : Option Int64 := checked (a.toInt - b.toInt)

def mul (a b : Int64) : Option Int64 := checked (a.toInt * b.toInt)

def neg (a : Int64) : Option Int64 := checked (-a.toInt)

/-- The quotient rounded towards zero; no value for a zero divisor and for the one quotient that
is no word. -/
def truncDiv (a b : Int64) : Option Int64 :=
  if b = 0 ∨ a = Int64.minValue ∧ b = -1 then none else some (a / b)

/-- The quotient rounded towards minus infinity: one less than towards zero where the division
leaves a rest and the signs differ.  No value for a zero divisor. -/
def floorDiv (a b : Int64) : Option Int64 :=
  if b = 0 then none
  else do
    let q ← truncDiv a b
    return if a % b ≠ 0 ∧ ¬(a < 0 ↔ b < 0) then q - 1 else q

/-- The remainder of `floorDiv`, computed as `a - (a div b) * b` with every step checked. -/
def floorMod (a b : Int64) : Option Int64 := do
  sub a (← mul (← floorDiv a b) b)

theorem toInt_of_checked {n : Int} {w : Int64} (h : checked n = some w) : w.toInt = n := by
  unfold checked at h
  split at h
  · next hn =>
    obtain ⟨hlo, hhi⟩ := hn
    cases h
    exact Int64.toInt_ofInt_of_le hlo
      (by simpa [Int64.toInt_maxValue] using Int.lt_add_one_of_le hhi)
  · cases h

theorem checked_toInt (w : Int64) : checked w.toInt = some w := by
  rw [checked, if_pos ⟨Int64.minValue_le_toInt w, Int64.toInt_le w⟩, Int64.ofInt_toInt]

theorem checked_eq_some_iff {n : Int} {w : Int64} : checked n = some w ↔ w.toInt = n :=
  ⟨toInt_of_checked, fun h => h ▸ checked_toInt w⟩

end LoopBounds.Word
