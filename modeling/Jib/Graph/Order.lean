import Std.Data.HashSet
import Std.Data.HashMap
import Jib.Graph.Basic

/-!
# Orders of blocks

Depth first (last successor first), breadth first, edges, predecessors, and two topological orders.
The depth-first walk looks at a block's successors only after the visitor is done with it, so a
visitor may redirect them.
-/

namespace Jib

/-- Steps that a depth-first walk can take over the blocks of an arena. -/
def Arena.walkBound (a : Arena) : Nat := 2 * a.blocks.size + 2

/-- Visits blocks depth first until the visitor gives a result. -/
def walk {m : Type → Type} [Monad m] [MonadExceptOf Fault m] {ρ : Type}
    (succ : BlockId → m (List BlockId)) (visit : BlockId → m (Option ρ)) :
    Nat → List BlockId → Std.HashSet BlockId → m (Option ρ)
  | 0, _, _ => throw .internal
  | _ + 1, [], _ => pure none
  | fuel + 1, b :: todo, seen =>
    if seen.contains b then walk succ visit fuel todo seen
    else do
      match ← visit b with
      | some r => pure (some r)
      | none =>
        let ts ← succ b
        walk succ visit fuel (ts.reverse ++ todo) (seen.insert b)

namespace Arena

variable {a : Arena} {b : BlockId} {seen : Std.HashSet BlockId} {ts todo : List BlockId}

def unseen (a : Arena) (seen : Std.HashSet BlockId) : List BlockId :=
  (List.range a.blocks.size).filter (!seen.contains ·)

theorem length_targets_le (a : Arena) (b : BlockId) : (a.targets b).length ≤ 2 := by
  unfold targets Next.targets
  cases a.next b <;> simp

theorem targets_of_size_le (hb : a.blocks.size ≤ b) : a.targets b = [] := by
  simp [targets, next, block, Nat.not_lt.mpr hb, Next.targets]

/-- A walk comes closer to its end: a block outside the arena adds nothing to do, and one inside is
found only once. -/
theorem length_unseen_insert (hb : ¬seen.contains b = true)
    (hts : ts.length ≤ (a.targets b).length + todo.length) :
    ts.length + 2 * (a.unseen (seen.insert b)).length <
      (b :: todo).length + 2 * (a.unseen seen).length := by
  have hinsert : a.unseen (seen.insert b) = (a.unseen seen).filter (· != b) := by
    rw [unseen, unseen, List.filter_filter]
    refine List.filter_congr fun c _ => ?_
    rw [Std.HashSet.contains_insert, Bool.not_or, bne, BEq.comm]
  rw [hinsert, List.length_cons]
  rcases Nat.lt_or_ge b a.blocks.size with hlt | hge
  · have hmem : b ∈ a.unseen seen := List.mem_filter.mpr ⟨List.mem_range.mpr hlt, by simpa using hb⟩
    have hless : ((a.unseen seen).filter (· != b)).length < (a.unseen seen).length :=
      List.length_filter_lt_length_iff_exists.mpr ⟨b, hmem, by simp⟩
    have htargets := length_targets_le a b
    omega
  · have hle := List.length_filter_le (· != b) (a.unseen seen)
    rw [targets_of_size_le hge, List.length_nil] at hts
    omega

/-- The blocks that a depth-first walk comes to; if `again`, also those that it comes to again,
since they were found twice before. -/
def reachFrom (a : Arena) (again : Bool) :
    List BlockId → Std.HashSet BlockId → Array BlockId → Array BlockId
  | [], _, acc => acc
  | b :: todo, seen, acc =>
    if seen.contains b then reachFrom a again todo seen (if again then acc.push b else acc)
    else
      reachFrom a again (((a.targets b).filter (!(seen.insert b).contains ·)).reverse ++ todo)
        (seen.insert b) (acc.push b)
termination_by todo seen => todo.length + 2 * (a.unseen seen).length
decreasing_by
  · exact Nat.add_lt_add_right (Nat.lt_succ_self _) _
  · refine length_unseen_insert ‹_› ?_
    rw [List.length_append, List.length_reverse]
    exact Nat.add_le_add_right (List.length_filter_le _ _) _

end Arena

namespace Graph

def blocks (g : Graph) (a : Arena) : Array BlockId := a.reachFrom false [g.start] ∅ #[]

/-- Visits the blocks of a graph depth first until the visitor gives a result. -/
def findBlock {ρ : Type} (g : Graph) (visit : BlockId → GraphM (Option ρ)) : GraphM (Option ρ) := do
  walk (fun b => do return (← get).targets b) visit (← get).walkBound [g.start] ∅

def hasMoreBlocksThan (g : Graph) (a : Arena) (n : Nat) : Bool := (g.blocks a).size > n

def breadthFirstLoop (a : Arena) :
    List BlockId → Std.HashSet BlockId → Array BlockId → Array BlockId
  | [], _, acc => acc
  | b :: todo, seen, acc =>
    if seen.contains b then breadthFirstLoop a todo seen acc
    else breadthFirstLoop a (todo ++ a.targets b) (seen.insert b) (acc.push b)
termination_by todo seen => todo.length + 2 * (a.unseen seen).length
decreasing_by
  · exact Nat.add_lt_add_right (Nat.lt_succ_self _) _
  · exact Arena.length_unseen_insert ‹_› (Nat.le_of_eq (by rw [List.length_append, Nat.add_comm]))

def breadthFirst (g : Graph) (a : Arena) : Array BlockId := breadthFirstLoop a [g.start] ∅ #[]

def outEdges (a : Arena) (order : Array BlockId) : Array (BlockId × BlockId) :=
  order.flatMap fun b => ((a.targets b).map (b, ·)).toArray

/-- Edges in the order in which a walk meets them, breadth first. -/
def breadthFirstEdges (g : Graph) (a : Arena) : Array (BlockId × BlockId) :=
  outEdges a (g.breadthFirst a)

def edges (g : Graph) (a : Arena) : Array (BlockId × BlockId) := outEdges a (g.blocks a)

end Graph

/-- Predecessors of the blocks of a graph, in the order in which a walk found the blocks. -/
structure EntryMap where
  order : Array BlockId
  preds : Std.HashMap BlockId (Array BlockId)
  deriving Inhabited

namespace EntryMap

def empty : EntryMap := ⟨#[], ∅⟩

def contains (m : EntryMap) (b : BlockId) : Bool := m.preds.contains b

def get (m : EntryMap) (b : BlockId) : Array BlockId := m.preds.getD b #[]

def set (m : EntryMap) (b : BlockId) (ps : Array BlockId) : EntryMap :=
  if m.preds.contains b then { m with preds := m.preds.insert b ps }
  else ⟨m.order.push b, m.preds.insert b ps⟩

def add (m : EntryMap) (b pred : BlockId) : EntryMap := m.set b ((m.get b).push pred)

def erase (m : EntryMap) (b : BlockId) : EntryMap :=
  ⟨m.order.filter (· != b), m.preds.erase b⟩

/-- Whether a block has exactly one recorded predecessor. -/
def single (m : EntryMap) (b : BlockId) : Bool := (m.get b).size == 1

end EntryMap

namespace Graph

/-- The edges of all blocks, again when a walk comes to a block again. -/
def entryMap (g : Graph) (a : Arena) : EntryMap :=
  let edges := outEdges a (a.reachFrom true [g.start] ∅ #[])
  (edges.foldl (fun m e => m.add e.2 e.1) EntryMap.empty).set g.start #[]

/-- For every block that has predecessors, which of them have not been listed yet. -/
abbrev Waiting := Std.HashMap BlockId (List BlockId)

/-- A block that waits for nothing has no entry. -/
def setWaiting (m : Waiting) (c : BlockId) (ps : List BlockId) : Waiting :=
  if ps.isEmpty then m.erase c else m.insert c ps

def waiting (a : Arena) (order : Array BlockId) : Waiting :=
  (outEdges a order).foldl (fun m e => setWaiting m e.2 (e.1 :: m.getD e.2 [])) ∅

/-- A successor of a listed block waits for it no longer. -/
def release (b : BlockId) (m : Waiting) (c : BlockId) : Waiting :=
  setWaiting m c ((m.getD c []).filter (· != b))

/-- The blocks that wait for no other one. -/
def freed (b : BlockId) (m : Waiting) (ts : List BlockId) : List BlockId :=
  ts.filter fun c => (m.getD c []).all (· == b)

/-- Successors, each once. -/
def distinctTargets (a : Arena) (b : BlockId) : List BlockId := (a.targets b).eraseDups

/-- Whether two lists have the same members. -/
def sameBlocks (xs ys : List BlockId) : Bool :=
  let inXs := Std.HashSet.ofList xs
  let inYs := Std.HashSet.ofList ys
  xs.all inYs.contains && ys.all inXs.contains

/-- Lists a block that is ready and releases its successors.  Where loops are allowed, the
bookkeeping is asserted, only blocks that wait are released, and if nothing is ready the first block
left is taken. -/
def topoLoop (a : Arena) (order : Array BlockId) (loops : Bool) :
    Nat → List BlockId → Waiting → Array BlockId → Result (Array BlockId)
  | 0, _, _, _ => .error .internal
  | fuel + 1, b :: ready, m, acc =>
    if loops && (!sameBlocks (m.keys ++ (acc.toList ++ b :: ready)) order.toList || m.contains b
        || acc.contains b) then
      .error .assertion
    else
      let ts := (distinctTargets a b).filter fun c => !loops || m.contains c
      topoLoop a order loops fuel ((freed b m ts).reverse ++ ready) (ts.foldl (release b) m)
        (acc.push b)
  | fuel + 1, [], m, acc =>
    match order.find? fun b => loops && m.contains b with
    | none => .ok acc
    | some b => topoLoop a order loops fuel [b] (m.erase b) acc

/-- Lists all blocks, each once, or fails. -/
def listBlocks (g : Graph) (a : Arena) (loops : Bool) : Result (Array BlockId) := do
  let order := g.blocks a
  let result ← topoLoop a order loops (2 * order.size + 2) [g.start] (waiting a order) #[]
  if sameBlocks result.toList order.toList && Arena.noDuplicates result then return result
  else throw .assertion

/-- Every block after all its predecessors; fails when there is a loop. -/
def topoOrder (g : Graph) (a : Arena) : Result (Array BlockId) := g.listBlocks a false

/-- A topological order that enters a loop at its first block in depth-first order. -/
def bestTopoOrder (g : Graph) (a : Arena) : Result (Array BlockId) := g.listBlocks a g.hasLoop

end Graph

/-- Runs a computation that only reads the arena. -/
def GraphM.ofExcept {α : Type} (f : Arena → Result α) : GraphM α := fun a =>
  match f a with
  | .ok x => .ok x a
  | .error e => .error e a

end Jib
