import Jib.Graph.Cleanup

/-!
# Leaving single-assignment form

An edge from a block with several successors to a block with several predecessors gets a block of
its own.  Then each phi becomes a copy at the end of every predecessor.
-/

namespace Jib.Graph

/-- Puts an empty block on every critical edge. -/
def splitCriticalEdges (g : Graph) : GraphM Unit := do
  let a ← get
  let entry := g.entryMap a
  for b in g.blocks a do
    let targets := (← get).targets b
    if targets.length != 1 then
      for t in targets do
        if !entry.single t then
          let nb ← GraphM.newBlock #[] (.goto t none)
          modify (fun a => a.setNext b ((a.next b).retarget t nb))
          Arena.replacePred t b nb

/-- The copies that phis need, grouped by predecessor in the order of their first mention. -/
abbrev Copies := Array (BlockId × Array (ValueId × ValueId))

def addCopy (cs : Copies) (b : BlockId) (c : ValueId × ValueId) : Copies :=
  if cs.any (fun p => p.1 == b) then
    cs.map (fun p => if p.1 == b then (b, p.2.push c) else p)
  else cs.push (b, #[c])

def phiCopies (a : Arena) (blocks : Array BlockId) : Copies :=
  blocks.foldl
    (fun cs b => (a.ops b).foldl
      (fun cs v => match a.phi? v with
        | none => cs
        | some p => (p.preds.zip p.values).foldl
          (fun cs (pred, x) => if x == v then cs else addCopy cs pred (v, x)) cs)
      cs)
    #[]

/-- Adds the copies of all phis; fails where one copy would read what another has overwritten. -/
def phisToCopies (g : Graph) : GraphM Unit := do
  let a ← get
  for (b, copies) in phiCopies a (g.blocks a) do
    GraphM.check (copies.all (fun (t, _) => copies.all (fun (_, s) => s != t)))
    for (t, s) in copies do
      let v ← GraphM.newValue (.op ⟨.assign, "non_ssa_assign", #[t, s], .unit, none, none⟩)
      modify (fun a => a.setOps b ((a.ops b).push v))

end Jib.Graph
