import Jib.Graph.Cleanup

/-!
# Propagation of equality with constants

Behind a branch on equality with a constant, the tested integer is that constant.
-/

namespace Jib.Graph

def constantTest? (a : Arena) (cond : ValueId) : GraphM (Option (ValueId × ValueId)) :=
  equalityTest? (· == .machineInt) (· matches .const (.machineInt _)) a cond

/-- The operations of some blocks that use a value. -/
def usersIn (a : Arena) (blocks : Array BlockId) (v : ValueId) : Array ValueId :=
  blocks.flatMap (fun b => (a.ops b).filter (fun w => (a.value w).args.contains v))

/-- For a target block and an integer, the constants it was compared with and from where. -/
abbrev Comparisons := Std.HashMap (BlockId × ValueId) (Array (ValueId × BlockId))

/-- Replaces integers behind the branches that compared them with constants. -/
def propagateEquality (g : Graph) : GraphM Bool := do
  let mut changed := false
  let mut known : Comparisons := ∅
  let mut tables : Option (EntryMap × DomTable) := none
  for b in ← GraphM.ofExcept g.bestTopoOrder do
    let a ← get
    if let .branch cond target _ _ := a.next b then
      if let some (x, c) ← constantTest? a cond then
        let found := (known.getD (target, x) #[]).push (c, b)
        known := known.insert (target, x) found
        let (entry, doms) ← tables.elim (GraphM.ofExcept g.dominators) pure
        tables := some (entry, doms)
        if found.size == (entry.get target).size then
          let below := entry.order.filter (fun y => (doms.getD y #[]).contains target)
          let users := usersIn a below x
          if !users.isEmpty then
            let new ← if found.size == 1 then pure c
              else do
                let phi ← GraphM.newValue
                  (.phi ⟨found.map (·.2), found.map (·.1), .machineInt⟩)
                modify (fun a => a.setOps target (#[phi] ++ a.ops target))
                pure phi
            for u in users do
              GraphM.check (u != x)
              let _ ← replaceInValue ((∅ : Substitution).insert x new) u
            changed := true
  return changed

end Jib.Graph
