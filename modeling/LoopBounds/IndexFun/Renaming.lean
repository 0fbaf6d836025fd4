import LoopBounds.Context

/-!
# Equality up to renaming

Two functions are equal when a one-to-one renaming of parameters, which keeps dimensions, turns
one body into the other.  The renaming is found by walking both bodies together; parameters that
neither body mentions are paired in the order of declaration.
-/

namespace LoopBounds

/-- The pairs of a one-to-one renaming, looked up in both directions. -/
structure Renaming where
  forth : Std.TreeMap VarId VarId := {}
  back : Std.TreeMap VarId VarId := {}

namespace Renaming

def insert (r : Renaming) (v w : VarId) : Renaming :=
  ⟨r.forth.insert v w, r.back.insert w v⟩

/-- Adds a pair unless one of its variables is paired otherwise. -/
def pair? (r : Renaming) (v w : VarId) : Option Renaming :=
  if (r.forth[v]?).any (· ≠ w) ∨ (r.back[w]?).any (· ≠ v) then none else some (r.insert v w)

/-- Whether a parameter of `f` and one of `g` stand for the same dimension. -/
def sameDim (f g : IndexFun) (v w : VarId) : Bool :=
  match f.paramIndex? v, g.paramIndex? w with
  | some i, some j => f.dims[i]? = g.dims[j]?
  | _, _ => false

/-- Renames `v`, met in the body of `f`, to `w`, met in the body of `g`.  A variable that is no
parameter stands only for itself. -/
def ofVars? (f g : IndexFun) (r : Renaming) (v w : VarId) : Option Renaming :=
  match f.paramIndex? v, g.paramIndex? w with
  | some _, some _ => if sameDim f g v w then r.pair? v w else none
  | none, none => if v = w then some r else none
  | _, _ => none

/-- Extends a renaming so that it turns expression `a` into `b`. -/
def ofExprs? (ctx : Context) (f g : IndexFun) (r : Renaming) (a b : ExprId) :
    Option Renaming :=
  match _h : ctx.node a, ctx.node b with
  | .var v, .var w => r.ofVars? f g v w
  | .const x s, .const y t => if x = y ∧ s = t then some r else none
  | .arith o a₁ a₂, .arith p b₁ b₂ =>
    if o = p then do ofExprs? ctx f g (← ofExprs? ctx f g r a₁ b₁) a₂ b₂ else none
  | .compare o a₁ a₂, .compare p b₁ b₂ =>
    if o = p then do ofExprs? ctx f g (← ofExprs? ctx f g r a₁ b₁) a₂ b₂ else none
  | .and a₁ a₂, .and b₁ b₂ => do ofExprs? ctx f g (← ofExprs? ctx f g r a₁ b₁) a₂ b₂
  | .or a₁ a₂, .or b₁ b₂ => do ofExprs? ctx f g (← ofExprs? ctx f g r a₁ b₁) a₂ b₂
  | .not a₁, .not b₁ => ofExprs? ctx f g r a₁ b₁
  | .call o as ds, .call p bs es =>
    if o = p ∧ ds = es ∧ as.length = bs.length then
      (as.attach.zip bs).foldlM (fun r (⟨x, _⟩, y) => ofExprs? ctx f g r x y) r
    else none
  | _, _ => none
termination_by a.index
decreasing_by
  all_goals (apply ctx.child_lt; rw [_h]; simp [Node.children])
  assumption

/-- Pairs the parameters that have no partner yet, in order, keeping dimensions. -/
def ofUnused? (f g : IndexFun) (r : Renaming) : Option Renaming :=
  let vs := f.params.filter (!r.forth.contains ·)
  let ws := g.params.filter (!r.back.contains ·)
  if vs.length = ws.length then
    (vs.zip ws).foldlM (fun r (v, w) => if sameDim f g v w then some (r.insert v w) else none) r
  else none

end Renaming

/-- Whether two functions are equal, and which parameters correspond. -/
structure Correspondence where
  equal : Bool
  params : Std.TreeMap VarId VarId

/-- Compares two functions up to renaming.  A function without a body equals only itself. -/
def Context.correspondence (ctx : Context) (f g : FunId) : Correspondence :=
  let callee := ctx.fn f
  let other := ctx.fn g
  if callee.arity ≠ other.arity then ⟨false, {}⟩
  else
    match callee.body?, other.body? with
    | some a, some b =>
      match (Renaming.ofExprs? ctx callee other {} a b).bind (·.ofUnused? callee other) with
      | some r => ⟨true, r.forth⟩
      | none => ⟨false, {}⟩
    | _, _ => ⟨f = g, callee.params.foldl (fun params v => params.insert v v) {}⟩

end LoopBounds
