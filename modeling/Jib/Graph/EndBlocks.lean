import Jib.Graph.Cleanup

/-!
# Copies of end blocks

Cutting a function in two needs end blocks that have one predecessor each.  An end block with
several predecessors is copied for each of them.
-/

namespace Jib.Graph

def isEndBlock (a : Arena) (b : BlockId) : Bool := (a.targets b).isEmpty

def wantsCopies (a : Arena) (entry : EntryMap) (b : BlockId) : Bool :=
  isEndBlock a b && (entry.get b).size > 1

/-- Copies of a block's operations as seen from one predecessor, with what stands for the old
ones. -/
def copyForPred (pred : BlockId) :
    List ValueId → Substitution → Array ValueId → GraphM (Array ValueId × Substitution)
  | [], s, acc => pure (acc, s)
  | v :: vs, s, acc => do
    match (← get).value v with
    | .phi p =>
      let some i := p.preds.findIdx? (· == pred) | throw .badValue
      let some x := p.values[i]? | throw .outOfRange
      copyForPred pred vs (s.insert v x) acc
    | .op o =>
      let nv ← GraphM.newValue (.op { o with args := o.args.map (fun x => s.getD x x) })
      copyForPred pred vs (s.insert v nv) (acc.push nv)
    | _ => throw .assertion

def copyEndBlock (b : BlockId) (next : Next) (entry : EntryMap) (pred : BlockId) :
    GraphM (Option BlockId) := do
  let (ops, s) ← copyForPred pred ((← get).ops b).toList ∅ #[]
  let mut again := none
  let mut target := pred
  if ((← get).next pred).isGoto then
    modify (fun a => a.setOps pred (a.ops pred ++ ops))
    let n := (entry.get pred).size
    if 1 < n && n < 8 then again := some pred
  else
    target ← GraphM.newBlock ops .unset
    let nb := target
    modify (fun a => a.setNext pred ((a.next pred).retarget b nb))
  let nb := target
  match next with
  | .ret .. | .raise .. => modify (fun a => a.setNext nb (next.mapArgs (fun x => s.getD x x)))
  | _ => throw (.assertion "unreachable")
  return again

/-- Works through the candidates, last first; gives the number of copies. -/
def copyEndBlocksLoop : Nat → List BlockId → EntryMap → Nat → GraphM Nat
  | 0, _, _, _ => throw .internal
  | _ + 1, [], _, n => pure n
  | fuel + 1, b :: candidates, entry, n => do
    let preds := entry.get b
    GraphM.check (wantsCopies (← get) entry b)
    let entry := entry.erase b
    let next := (← get).next b
    let mut candidates := candidates
    let mut n := n
    for pred in preds do
      n := n + 1
      if let some again ← copyEndBlock b next entry pred then candidates := again :: candidates
    copyEndBlocksLoop fuel candidates entry n

/-- Gives every end block one predecessor by copying; the result is the number of copies. -/
def copyEndBlocks (g : Graph) : GraphM Nat := do
  GraphM.check (!g.hasLoop)
  let a ← get
  let entry := g.entryMap a
  let candidates := entry.order.filter (wantsCopies a entry)
  let edges := entry.order.foldl (fun n b => n + (entry.get b).size + 1) 0
  let n ← copyEndBlocksLoop (2 * edges + 2) candidates.toList.reverse entry 0
  if n > 0 then GraphM.ofExcept g.check
  return n

end Jib.Graph
