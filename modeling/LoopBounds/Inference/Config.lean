import LoopBounds.Analyzer.Basic
import Std.Data.TreeSet.Basic

/-!
# Configuration of inference
-/

namespace LoopBounds

structure Config where
  /-- Relations whose inputs are missing are passed over. -/
  allowMissing : Bool := false
  /-- Roots get no guards for domains that differ from the declared ones. -/
  skipRootGuards : Bool := false
  /-- The analyzer keeps its answers. -/
  memoizeProofs : Bool := true
  /-- Axes that never get a guard. -/
  unguarded : Std.TreeSet AxisId := {}

namespace Config

/-- The configuration for the switches that are set, whatever they are set to. -/
def ofSwitches (isSet : String → Bool) : Config where
  allowMissing := isSet "ALLOW_MISSING"
  skipRootGuards := isSet "SKIP_IVAR_DOMAIN"
  memoizeProofs := !isSet "NO_PROOF_CACHE"

/-- A new analyzer. -/
def analyzer (config : Config) : Analyzer := if config.memoizeProofs then {} else .forgetful

end Config

end LoopBounds
