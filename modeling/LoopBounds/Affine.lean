import LoopBounds.Expr.Build

/-!
# Affine forms

An affine form is a sum of atoms with coefficients, plus a constant.  Atoms are expressions that
are not themselves sums or products with a literal.  Terms are kept in the order of their atoms
and without zero coefficients, so forms built from the same atoms are written alike.
-/

namespace LoopBounds

structure Affine where
  terms : List (ExprId × Int64)
  const : Int64
  deriving DecidableEq, Repr

namespace Affine

def ofConst (c : Int64) : Affine := ⟨[], c⟩

def atom (e : ExprId) : Affine := ⟨[(e, 1)], 0⟩

def const? (f : Affine) : Option Int64 := if f.terms.isEmpty then some f.const else none

def coeff (f : Affine) (e : ExprId) : Int64 := (f.terms.lookup e).getD 0

/-- Merges two ordered lists of terms; coefficients that cancel leave no term. -/
def addTerms : List (ExprId × Int64) → List (ExprId × Int64) → Option (List (ExprId × Int64))
  | [], ys => some ys
  | xs, [] => some xs
  | (e, a) :: xs, (f, b) :: ys =>
    if e.index < f.index then do return (e, a) :: (← addTerms xs ((f, b) :: ys))
    else if f.index < e.index then do return (f, b) :: (← addTerms ((e, a) :: xs) ys)
    else do
      let c ← Word.add a b
      let rest ← addTerms xs ys
      return if c = 0 then rest else (e, c) :: rest
termination_by xs ys => xs.length + ys.length

def add (f g : Affine) : Option Affine :=
  return ⟨← addTerms f.terms g.terms, ← Word.add f.const g.const⟩

def scale (f : Affine) (c : Int64) : Option Affine :=
  if c = 0 then some (ofConst 0)
  else return ⟨← f.terms.mapM fun (e, a) => return (e, ← Word.mul a c), ← Word.mul f.const c⟩

def sub (f g : Affine) : Option Affine := do f.add (← g.scale (-1))

/-- The quotient and remainder by a positive `d`: the quotient takes every term whose
coefficient `d` divides, and the remainder's constant lies in `[0, d)`. -/
def splitBy (f : Affine) (d : Int64) : Affine × Affine :=
  let (multiples, others) := f.terms.partition fun (_, a) => a % d = 0
  (⟨multiples.map fun (e, a) => (e, a / d), Int64.ofInt (f.const.toInt / d.toInt)⟩,
    ⟨others, Int64.ofInt (f.const.toInt % d.toInt)⟩)

/-- Reads an expression as an affine form.  What overflows is an atom. -/
def ofExpr (ctx : Context) (e : ExprId) : Affine :=
  match _h : ctx.node e with
  | .const v _ => ofConst v
  | .arith .add a b => ((ofExpr ctx a).add (ofExpr ctx b)).getD (atom e)
  | .arith .sub a b => ((ofExpr ctx a).sub (ofExpr ctx b)).getD (atom e)
  | .arith .mul a b =>
    match ctx.literal? a, ctx.literal? b with
    | _, some c => ((ofExpr ctx a).scale c).getD (atom e)
    | some c, none => ((ofExpr ctx b).scale c).getD (atom e)
    | none, none => atom e
  | _ => atom e
termination_by e.index
decreasing_by
  all_goals (apply ctx.child_lt; rw [_h]; simp [Node.children])

/-- `acc + c * e`, or `c * e` when nothing stands before it. -/
def addTerm (acc? : Option ExprId) (term : ExprId × Int64) : Build (Option ExprId) := do
  let (e, c) := term
  let product ← if c = 1 then pure e else Build.mulConst e c
  match acc? with
  | some acc => return some (← Build.add acc product)
  | none => return some product

/-- `acc - m * e` for a term with the negative coefficient `-m`; the product keeps the negative
coefficient when nothing stands before it or `m` does not fit the word. -/
def subTerm (acc? : Option ExprId) (term : ExprId × Int64) : Build (Option ExprId) := do
  let (e, c) := term
  match acc?, Word.neg c with
  | some acc, some m =>
    if m = 1 then return some (← Build.sub acc e)
    return some (← Build.sub acc (← Build.mulConst e m))
  | some acc, none => return some (← Build.add acc (← Build.mulConst e c))
  | none, _ => return some (← Build.mulConst e c)

/-- Writes the form as an expression: terms with positive coefficients, then terms with negative
ones, then the constant. -/
def toExpr (f : Affine) (type : Scalar) : Build ExprId := do
  let acc? ← (f.terms.filter (0 < ·.2)).foldlM addTerm none
  let acc? ← (f.terms.filter (·.2 < 0)).foldlM subTerm acc?
  match acc? with
  | none => Build.constant f.const type
  | some acc =>
    if 0 < f.const then Build.addConst acc f.const
    else if f.const < 0 then
      match Word.neg f.const with
      | some m => Build.sub acc (← Build.constantLike m acc)
      | none => Build.addConst acc f.const
    else return acc

end Affine

end LoopBounds
