import Jib.Graph.Allocation
import Jib.Graph.Cases
import Jib.Graph.Equality
import Jib.Graph.Inline
import Jib.Graph.Optimizer.Rules
import Jib.Graph.Registers

/-!
# The simplifier

One round of all passes, repeated until nothing changes, and then a check of the result.
-/

namespace Jib.Session

/-- Runs passes one after the other; says whether one of them changed anything. -/
def runPasses (id : GraphId) (passes : List (Graph → Builtins → GraphM Bool)) : SessionM Bool :=
  passes.foldlM (fun changed pass => return (← onGraph id pass) || changed) false

/-- One round of all passes. -/
def simplifyOnce (id : GraphId) : SessionM Bool := do
  let before ← runPasses id
    [fun g _ => g.propagateEquality, fun g _ => g.joinBlocks, Graph.removeDead,
      fun g _ => g.simplifyPhis]
  let inlined ← inline id
  let after ← runPasses id
    [Graph.decideUnionChecks, fun g bn => g.localOpt bn false, fun g _ => g.removeEmptyBlocks,
      Graph.swapNot, Graph.optimizeWithRanges, Graph.forwardReads, Graph.decideUnionChecks,
      fun g bn => g.localOpt bn true, fun g _ => g.bypassPhi, Graph.decideEnumCases,
      Graph.removeUselessSwitch]
  let _ ← onGraph id (fun g _ => g.removeAllocations)
  return before || inlined || after

def simplifyAll (id : GraphId) : SessionM Bool := repeated (simplifyOnce id)

def checkGraph (id : GraphId) : SessionM Unit := onGraph id (fun g _ => GraphM.ofExcept g.check)

/-- Simplifies a graph without making specialised versions of what it calls. -/
def simplify (id : GraphId) : SessionM Bool := do
  let changed ← simplifyAll id
  if changed then checkGraph id
  return changed

end Jib.Session
