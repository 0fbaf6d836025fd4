import LoopBounds.Inference.Domains
import LoopBounds.Inference.Guards
import LoopBounds.Inference.Indices

/-!
# Bounds of a loop nest

Domains are found from the roots down, indices from the loops up, and guards from both.
-/

namespace LoopBounds

/-- What is needed to write out the loops of a nest. -/
structure NestBounds where
  domains : Facts .axis Domain
  /-- The index of every axis in terms of the loops. -/
  values : Facts .axis ExprId
  guards : List ExprId

/-- Runs a sweep from a given table and keeps the table it leaves. -/
def Sweep.runFrom {σ : Type} (sweep : Sweep σ Unit) (table : σ) : ExceptT InferError Query σ :=
  ExceptT.mk do
    let (result, table) ← sweep.run.run table
    return result.map fun _ => table

/-- A loop counts from zero, so its index is its variable plus the least point of its domain. -/
def leafValue (known : Facts .axis Domain) (leaf : AxisId) : Build ExprId := do
  let var ← Build.axis leaf
  match known[leaf]? with
  | some domain => Build.offset var domain.min
  | none => return var

def domainsAndValues (config : Config) (nest : LoopNest) (roots : Facts .axis Domain) :
    ExceptT InferError Query (Facts .axis Domain × Facts .axis ExprId) := do
  roots.toList.forM fun (a, domain) => do Query.learn ((← Query.context).axisVar a) domain
  let known ← (Sweep.domains nest config.allowMissing).runFrom roots
  let loops ← nest.leaves.foldlM
    (fun values leaf => do return values.insert leaf (← leafValue known leaf)) {}
  let values ← (Sweep.indicesUp nest known config.allowMissing).runFrom loops
  return (known, values)

/-- Finds the bounds of a nest whose roots run over the given domains. -/
def inferBoundsFrom (config : Config) (nest : LoopNest) (roots : Facts .axis Domain) :
    Schedule NestBounds := do
  let query := (domainsAndValues config nest roots).run
  let (domains, values) ← ExceptT.mk (Query.runWith config.analyzer query)
  return ⟨domains, values, ← guards config nest domains values⟩

/-- The domain that a root declares. -/
def declaredDomain (a : AxisId) : Schedule Domain := do
  let ctx ← get
  match (ctx.axis a).domain? with
  | some domain => return domain
  | none => throw (.undeclaredDomain (ctx.axisName a))

/-- Finds the bounds of a nest whose roots run over the domains they declare. -/
def inferBounds (config : Config) (nest : LoopNest) : Schedule NestBounds := do
  let roots ← nest.roots.foldlM (fun roots a => do return roots.insert a (← declaredDomain a)) {}
  inferBoundsFrom config nest roots

end LoopBounds
