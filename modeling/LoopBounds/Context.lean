import Std.Data.TreeMap.Lemmas
import LoopBounds.Expr.Node
import LoopBounds.Symbol

/-!
# Contexts

A context owns the expressions and symbols of one problem.  Each expression is stored once,
after its operands, so a handle determines an expression tree and recursion on handles ends.
Stored expressions are never changed.
-/

namespace LoopBounds

/-- A stored expression and its type, fixed when it is stored. -/
structure Entry where
  node : Node
  type : Scalar
  deriving DecidableEq, Repr, Inhabited

structure Context where
  entries : Array Entry := #[]
  /-- Where each stored node is. -/
  index : Std.TreeMap Node ExprId := {}
  vars : Array Variable := #[]
  dims : Array Dim := #[]
  axes : Array Axis := #[]
  funs : Array IndexFun := #[]
  /-- Operands are stored before the expressions that use them. -/
  lt_of_mem_children : ∀ (i : Nat) (h : i < entries.size), ∀ c ∈ entries[i].node.children,
    c.index < i := by intro i h; exact absurd h (Nat.not_lt_zero i)
  /-- Each node is stored once, and the index finds it. -/
  index_eq_some_iff : ∀ node e, index[node]? = some e ↔
    entries[e.index]?.map Entry.node = some node := by simp

/-- A computation that may store expressions and symbols. -/
abbrev Build := StateM Context

namespace Context

instance : Inhabited Context := ⟨{}⟩

def size (ctx : Context) : Nat := ctx.entries.size

def entry (ctx : Context) (e : ExprId) : Entry := ctx.entries[e.index]?.getD default

def node (ctx : Context) (e : ExprId) : Node := (ctx.entry e).node

/-- The type of an expression. -/
def typeOf (ctx : Context) (e : ExprId) : Scalar := (ctx.entry e).type

def var (ctx : Context) (v : VarId) : Variable := ctx.vars[v.index]?.getD default

def dim (ctx : Context) (d : DimId) : Dim := ctx.dims[d.index]?.getD default

def axis (ctx : Context) (a : AxisId) : Axis := ctx.axes[a.index]?.getD default

def fn (ctx : Context) (f : FunId) : IndexFun := ctx.funs[f.index]?.getD default

/-- How deep calls are followed into bodies: far enough for any functions that do not call
themselves, and for those that do, further than a computation can go. -/
def callDepth (ctx : Context) : Nat := ctx.funs.size + Nat.pow 2 62

/-- The variable that runs over an axis. -/
def axisVar (ctx : Context) (a : AxisId) : VarId := (ctx.axis a).var

/-- An axis goes by the name of its variable. -/
def axisName (ctx : Context) (a : AxisId) : String := (ctx.var (ctx.axisVar a)).name

theorem child_lt (ctx : Context) {e c : ExprId} (h : c ∈ (ctx.node e).children) :
    c.index < e.index := by
  unfold node entry at h
  by_cases he : e.index < ctx.entries.size
  · rw [Array.getElem?_eq_getElem he] at h
    exact ctx.lt_of_mem_children e.index he c h
  · rw [Array.getElem?_eq_none (Nat.le_of_not_lt he)] at h
    cases h

/-- The type that a node takes when it is stored. -/
def nodeType (ctx : Context) : Node → Scalar
  | .const _ type => type
  | .var v => (ctx.var v).type
  | .arith _ a b => (ctx.typeOf a).promote (ctx.typeOf b)
  | .compare .. | .and .. | .or .. | .not _ => .bool
  | .call f _ _ =>
    match (ctx.fn f).body? with
    | some body => ctx.typeOf body
    | none => .int32

/-- The handle of a stored node. -/
def find? (ctx : Context) (node : Node) : Option ExprId := ctx.index[node]?

/-- Adds an expression that is not stored over operands that are. -/
def push (ctx : Context) (node : Node) (hnew : ctx.find? node = none)
    (hlt : ∀ c ∈ node.children, c.index < ctx.size) : Context :=
  let fresh : ExprId := ⟨ctx.size⟩
  { ctx with
    entries := ctx.entries.push ⟨node, ctx.nodeType node⟩
    index := ctx.index.insert node fresh
    lt_of_mem_children := by
      intro i hi c hc
      rw [Array.getElem_push] at hc
      split at hc
      · next hi => exact ctx.lt_of_mem_children i hi c hc
      · next hge =>
        have hsize : i = ctx.entries.size := by
          rw [Array.size_push] at hi
          omega
        exact hsize ▸ hlt c hc
    index_eq_some_iff := by
      intro n e
      have hold := ctx.index_eq_some_iff n e
      simp only [Std.TreeMap.getElem?_insert, Std.compare_eq_iff_eq, Array.getElem?_push]
      by_cases hn : node = n
      · subst hn
        rw [find?] at hnew
        by_cases he : e.index = ctx.entries.size
        · simp [he, fresh, size, ← Handle.index_inj]
        · simpa [he, fresh, size, ← Handle.index_inj, hnew, Ne.symm he] using hold
      · by_cases he : e.index = ctx.entries.size <;> simpa [hn, he] using hold }

/-- The handle of a node, stored at the end unless it is present.  A node over operands that are
not stored is refused and gets a handle of nothing. -/
def intern (ctx : Context) (node : Node) : ExprId × Context :=
  match hnew : ctx.find? node with
  | some e => (e, ctx)
  | none =>
    let fresh : ExprId := ⟨ctx.size⟩
    if hlt : ∀ c ∈ node.children, c.index < ctx.size then (fresh, ctx.push node hnew hlt)
    else (fresh, ctx)

end Context

/-- Stores a node. -/
def intern (node : Node) : Build ExprId := fun ctx => ctx.intern node

/-- Declares a variable. -/
def declareVar (name : String) (type : Scalar) : Build VarId := fun ctx =>
  (⟨ctx.vars.size⟩, { ctx with vars := ctx.vars.push ⟨name, type⟩ })

/-- Declares a dimension. -/
def declareDim (name : String) (kind : DimKind) : Build DimId := fun ctx =>
  (⟨ctx.dims.size⟩, { ctx with dims := ctx.dims.push ⟨name, kind⟩ })

def addAxis (axis : Axis) : Build AxisId := fun ctx =>
  (⟨ctx.axes.size⟩, { ctx with axes := ctx.axes.push axis })

def addFun (f : IndexFun) : Build FunId := fun ctx =>
  (⟨ctx.funs.size⟩, { ctx with funs := ctx.funs.push f })

def modifyFun (f : FunId) (change : IndexFun → IndexFun) : Build Unit := fun ctx =>
  ((), { ctx with funs := ctx.funs.modify f.index change })

/-- Declares an axis with a variable of its own, typed like the extent of its domain. -/
def declareAxis (name : String) (domain? : Option Domain) (kind : AxisKind) : Build AxisId := do
  let ctx ← get
  let type := match domain? with
    | some domain => ctx.typeOf domain.extent
    | none => .int32
  let var ← declareVar name type
  addAxis { var, domain?, kind, thread? := none }

/-- Declares the axis of a hardware thread, named by its tag. -/
def declareThread (tag : String) : Build AxisId := do
  let var ← declareVar tag .int32
  addAxis { var, domain? := none, kind := .threadIndex, thread? := some tag }

/-- Declares an axis made from `parent`: its variable has the parent's type, its domain is left
to inference. -/
def deriveAxis (parent : AxisId) (name : String) (kind : AxisKind) : Build AxisId := do
  let ctx ← get
  let var ← declareVar name (ctx.var (ctx.axisVar parent)).type
  addAxis { var, domain? := none, kind, thread? := none }

end LoopBounds
