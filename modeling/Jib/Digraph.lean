import Std.Data.HashSet
import Std.Data.HashMap

/-!
# Directed graphs: depth-first search and immediate dominators

A directed graph is given by the successor lists of its nodes, which are numbers.  The search lists
the edges it looks at with what it made of them; dominators are found by walking up the tree found
so far until two branches meet, over and over until nothing changes.
-/

namespace Jib.Digraph

/-- How the search met an edge: it entered a new node, found an old one, or left a node for good. -/
inductive Label where
  | forward
  | nontree
  | reverse
  deriving BEq, DecidableEq, Repr

structure Step where
  source : Nat
  target : Nat
  label : Label
  deriving BEq, Repr

/-- Enough depth for a search over the given nodes. -/
def searchBound (succ : Nat → List Nat) (nodes : List Nat) : Nat :=
  nodes.length + (nodes.flatMap succ).length + 1

/-- The nodes that a search has seen, and its steps. -/
abbrev Trace := Std.HashSet Nat × Array Step

/-- Searches from a node, unless it was seen before; fails if it gets too deep. -/
def search (succ : Nat → List Nat) : Nat → Nat → Trace → Nat → Option Trace
  | 0, _, _, _ => none
  | fuel + 1, parent, (seen, steps), v =>
    if seen.contains v then some (seen, steps.push ⟨parent, v, .nontree⟩)
    else do
      let (seen, steps) ← (succ v).foldlM (search succ fuel v)
        (seen.insert v, steps.push ⟨parent, v, .forward⟩)
      return (seen, steps.push ⟨parent, v, .reverse⟩)

/-- All steps of depth-first searches from the given roots, each root searched once. -/
def searchAll (succ : Nat → List Nat) (bound : Nat) (roots : List Nat) : Option (Array Step) :=
  (·.2) <$> roots.foldlM (fun s root => if s.1.contains root then some s
    else search succ bound root s root) ((∅, #[]) : Trace)

def leftNodes (steps : Array Step) : List Nat :=
  (steps.toList.filter (fun s => s.label == .reverse)).map (·.target)

/-- Nodes in the order in which the search leaves them. -/
def postorder (succ : Nat → List Nat) (bound : Nat) (root : Nat) : Option (List Nat) :=
  leftNodes <$> searchAll succ bound [root]

/-- Walks up from two nodes until they meet; `rank` grows towards the root. -/
def meet (rank : Nat → Nat) (idom : Nat → Option Nat) : Nat → Nat → Nat → Option Nat
  | 0, _, _ => none
  | fuel + 1, u, v =>
    if u == v then some u
    else if rank u < rank v then do meet rank idom fuel (← idom u) v
    else do meet rank idom fuel u (← idom v)

/-- The node where all known predecessors meet; the root meets itself. -/
def meetAll (rank : Nat → Nat) (pred : Nat → List Nat) (bound root : Nat)
    (idom : Std.HashMap Nat Nat) (u : Nat) : Option Nat :=
  if u == root then some root
  else match (pred u).filter idom.contains with
    | [] => none
    | v :: vs => vs.foldlM (meet rank (idom[·]?) bound) v

/-- Sets the entry of a node, and says whether anything has changed. -/
def setEntry {β : Type} [BEq β] (entry : Std.HashMap Nat β → Nat → Option β) :
    Std.HashMap Nat β × Bool → Nat → Option (Std.HashMap Nat β × Bool)
  | (t, changed), u => do
    let x ← entry t u
    return if t[u]? == some x then (t, changed) else (t.insert u x, true)

/-- Sets the entries of nodes, over and over until nothing changes. -/
def untilStable {β : Type} [BEq β] (entry : Std.HashMap Nat β → Nat → Option β) (nodes : List Nat) :
    Nat → Std.HashMap Nat β → Option (Std.HashMap Nat β)
  | 0, _ => none
  | fuel + 1, t => do
    let (t, changed) ← nodes.foldlM (setEntry entry) (t, false)
    if changed then untilStable entry nodes fuel t else return t

/-- The closest strict dominator of every node that can be reached; the root is its own. -/
def immediateDominators (succ pred : Nat → List Nat) (bound : Nat) (root : Nat) :
    Option (Std.HashMap Nat Nat) := do
  let order ← postorder succ bound root
  let rank := Std.HashMap.ofList order.zipIdx
  untilStable (meetAll (rank.getD · 0) pred (2 * order.length + 1) root) order.reverse
    (order.length + 1) ∅

end Jib.Digraph
