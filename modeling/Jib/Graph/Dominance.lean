import Jib.Digraph
import Jib.Graph.Order

/-!
# Dominance

A block dominates another when every path from the start to the second goes through the first.  Two
computations are offered, one of the closest dominators and one of all of them.
-/

namespace Jib.Graph

/-- The closest strict dominators; the start block is its own. -/
def immediateDominators (g : Graph) (a : Arena) : Result (Std.HashMap BlockId BlockId) :=
  let entry := g.entryMap a
  let succ := a.targets
  let idom := Digraph.immediateDominators succ (fun b => (entry.get b).toList)
    (Digraph.searchBound succ (g.blocks a).toList) g.start
  idom.elim (.error .internal) .ok

abbrev DomTable := Std.HashMap BlockId (Array BlockId)

/-- A block and what all its predecessors have in common; one without an entry has everything. -/
def commonDominators (g : Graph) (all : Array BlockId) (entry : EntryMap) (t : DomTable)
    (b : BlockId) : Array BlockId :=
  all.filter fun x => x == b || b != g.start && (entry.get b).all fun p => (t.getD p all).contains x

/-- All dominators of every block, by shrinking from "everything" until nothing changes. -/
def dominators (g : Graph) (a : Arena) : Result (EntryMap × DomTable) :=
  let entry := g.entryMap a
  let all := g.blocks a
  let t := Digraph.untilStable (some <| g.commonDominators all entry · ·) all.toList
    (all.size + 1) ∅
  t.elim (.error .internal) fun t => .ok (entry, t)

def dominatees (g : Graph) (a : Arena) (b : BlockId) : Result (Array BlockId) := do
  let (entry, t) ← g.dominators a
  return entry.order.filter (fun x => (t.getD x #[]).contains b)

/-- Edges whose target dominates their source. -/
def backEdges (g : Graph) (a : Arena) : Result (Array (BlockId × BlockId)) :=
  if !g.hasLoop then .error .assertion
  else do
    let (_, t) ← g.dominators a
    return (g.edges a).filter (fun (s, e) => (t.getD s #[]).contains e)

end Jib.Graph
