import Jib.Graph.Edges
import Jib.Graph.EndBlocks
import Jib.Graph.Specialize

/-!
# The passes

All changes to a graph that can be asked for one by one.
-/

namespace Jib

inductive Pass where
  | swapNot
  | removeEmptyBlocks
  | decideBranches
  | removeRepeatedChecks
  | assertionsToBranches
  | decideEnumCases
  | decideUnionChecks
  | removeAllocations
  | propagateEquality
  | forwardReads
  | optimizeWithRanges
  | localOpt (joinCasts : Bool)
  | removeDead
  | joinBlocks
  | simplifyPhis
  | bypassPhi
  | removeUselessSwitch
  | splitCriticalEdges
  | phisToCopies
  | copyEndBlocks
  | inline
  | optimize
  | simplify
  | simplifyAll
  | simplifyOnce
  | specializeCalls
  | splitConstantCalls
  deriving BEq, DecidableEq, Repr, Inhabited

/-- What a pass tells: whether it changed something, or how many changes it made. -/
inductive PassResult where
  | changed (b : Bool)
  | count (n : Nat)
  deriving BEq, DecidableEq, Repr, Inhabited

namespace Pass

def run (p : Pass) (id : GraphId) : SessionM PassResult :=
  let onGraph (f : Graph → Builtins → GraphM Bool) : SessionM PassResult := do
    return .changed (← Session.onGraph id f)
  let silent (f : Graph → GraphM Unit) : SessionM PassResult := do
    Session.onGraph id (fun g _ => f g)
    return .changed false
  let whole (f : GraphId → SessionM Bool) : SessionM PassResult := do return .changed (← f id)
  match p with
  | .swapNot => onGraph (fun g bn => g.swapNot bn)
  | .removeEmptyBlocks => onGraph (fun g _ => g.removeEmptyBlocks)
  | .decideBranches => onGraph (fun g _ => g.decideBranches)
  | .removeRepeatedChecks => onGraph (fun g bn => g.removeRepeatedChecks bn)
  | .assertionsToBranches => onGraph (fun g bn => g.assertionsToBranches bn)
  | .decideEnumCases => onGraph (fun g bn => g.decideEnumCases bn)
  | .decideUnionChecks => onGraph (fun g bn => g.decideUnionChecks bn)
  | .removeAllocations => onGraph (fun g _ => g.removeAllocations)
  | .propagateEquality => onGraph (fun g _ => g.propagateEquality)
  | .forwardReads => onGraph (fun g bn => g.forwardReads bn)
  | .optimizeWithRanges => onGraph (fun g bn => g.optimizeWithRanges bn)
  | .localOpt casts => onGraph (fun g bn => g.localOpt bn casts)
  | .removeDead => onGraph (fun g bn => g.removeDead bn)
  | .joinBlocks => onGraph (fun g _ => g.joinBlocks)
  | .simplifyPhis => onGraph (fun g _ => g.simplifyPhis)
  | .bypassPhi => onGraph (fun g _ => g.bypassPhi)
  | .removeUselessSwitch => onGraph (fun g bn => g.removeUselessSwitch bn)
  | .splitCriticalEdges => silent (fun g => g.splitCriticalEdges)
  | .phisToCopies => silent (fun g => g.phisToCopies)
  | .copyEndBlocks => do return .count (← Session.onGraph id (fun g _ => g.copyEndBlocks))
  | .inline => whole Session.inline
  | .optimize => whole Session.optimize
  | .simplify => whole Session.simplify
  | .simplifyAll => whole Session.simplifyAll
  | .simplifyOnce => whole Session.simplifyOnce
  | .specializeCalls => whole Session.specializeCalls
  | .splitConstantCalls => whole Session.splitConstantCalls

end Pass

end Jib
