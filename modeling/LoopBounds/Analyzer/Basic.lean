import LoopBounds.Expr.Build
import LoopBounds.Interval

/-!
# Analyzers

An analyzer knows domains of variables and answers questions about expressions.  It may keep its
answers; learning a domain forgets them all, so an answer in a cache was found under the present
domains.
-/

namespace LoopBounds

structure Analyzer where
  bindings : Std.TreeMap VarId Domain := {}
  memoize : Bool := true
  simplified : Std.TreeMap ExprId ExprId := {}
  proved : Std.TreeMap ExprId Bool := {}
  bounds : Std.TreeMap ExprId Interval := {}

namespace Analyzer

instance : Inhabited Analyzer := ⟨{}⟩

/-- An analyzer that works out every answer anew. -/
def forgetful : Analyzer := { memoize := false }

/-- Learns that `v` runs over `domain`, in place of what was known of `v`. -/
def learn (an : Analyzer) (v : VarId) (domain : Domain) : Analyzer :=
  { bindings := an.bindings.insert v domain, memoize := an.memoize }

def simplified? (an : Analyzer) (e : ExprId) : Option ExprId :=
  if an.memoize then an.simplified[e]? else none

def proved? (an : Analyzer) (e : ExprId) : Option Bool :=
  if an.memoize then an.proved[e]? else none

def bound? (an : Analyzer) (e : ExprId) : Option Interval :=
  if an.memoize then an.bounds[e]? else none

end Analyzer

/-- A context and the analyzer that is asked about it. -/
structure Session where
  ctx : Context := {}
  analyzer : Analyzer := {}

instance : Inhabited Session := ⟨⟨default, default⟩⟩

/-- A computation that may store expressions and ask an analyzer. -/
abbrev Query := StateM Session

instance : MonadLift Build Query where
  monadLift action := fun ⟨ctx, an⟩ =>
    let (a, ctx) := action ctx
    (a, ⟨ctx, an⟩)

namespace Query

def context : Query Context := return (← get).ctx

def analyzer : Query Analyzer := return (← get).analyzer

def changeAnalyzer (change : Analyzer → Analyzer) : Query Unit := fun ⟨ctx, an⟩ =>
  ((), ⟨ctx, change an⟩)

def learn (v : VarId) (domain : Domain) : Query Unit := changeAnalyzer (·.learn v domain)

def recordSimplified (e result : ExprId) : Query Unit := changeAnalyzer fun an =>
  if an.memoize then { an with simplified := an.simplified.insert e result } else an

def recordProved (e : ExprId) (answer : Bool) : Query Unit := changeAnalyzer fun an =>
  if an.memoize then { an with proved := an.proved.insert e answer } else an

def recordBound (e : ExprId) (bound : Interval) : Query Unit := changeAnalyzer fun an =>
  if an.memoize then { an with bounds := an.bounds.insert e bound } else an

/-- Asks `analyzer` inside a computation that has none, and drops it afterwards. -/
def runWith {α : Type} (an : Analyzer) (query : Query α) : Build α := fun ctx =>
  let (a, session) := query ⟨ctx, an⟩
  (a, session.ctx)

end Query

end LoopBounds
