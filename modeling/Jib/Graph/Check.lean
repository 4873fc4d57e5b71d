import Jib.Graph.Dominance

/-!
# Validity and substitution

`check` looks at a graph block by block: every value that is used has to be a constant or has to be
defined in the same block or above it in the tree of closest dominators.  `replaceValues`
substitutes values in all blocks of a graph.
-/

namespace Jib.Graph

abbrev ValueSet := Std.HashSet ValueId

abbrev Definitions := Std.HashMap BlockId ValueSet

/-- What a block itself defines; the arguments count for the start block. -/
def ownDefinitions (g : Graph) (a : Arena) (b : BlockId) : ValueSet :=
  .ofList ((if b == g.start then g.args.toList else []) ++ (a.ops b).toList)

def phisNamePredecessors (a : Arena) (entry : EntryMap) (b : BlockId) : Bool :=
  (a.ops b).all fun v =>
    match a.phi? v with
    | none => true
    | some p => p.preds.all (fun x => entry.contains x && (entry.get b).contains x)

/-- Adds what the closest dominator of a block makes available. -/
def inherit (g : Graph) (idom : Std.HashMap BlockId BlockId) (defs : Definitions) (b : BlockId) :
    Result Definitions :=
  if b == g.start then .ok defs
  else
    match idom[b]? with
    | none => .error .missingKey
    | some d => .ok (defs.insert b (defs.getD b ∅ ∪ defs.getD d ∅))

/-- Whether a value can be used at the end of a block. -/
def isAvailable (a : Arena) (defs : Definitions) (b : BlockId) (v : ValueId) : Bool :=
  a.isConst v || (defs.getD b ∅).contains v

def operandsAvailable (a : Arena) (defs : Definitions) (b : BlockId) (v : ValueId) : Bool :=
  match a.value v with
  | .phi p => (p.values.zip p.preds).all fun (x, pred) => isAvailable a defs pred x
  | .op o => o.args.all (isAvailable a defs b)
  | _ => true

def usesAreDefined (a : Arena) (defs : Definitions) (b : BlockId) : Bool :=
  Arena.noDuplicates (a.ops b) && (a.ops b).all (operandsAvailable a defs b)
    && (a.next b).args.all (isAvailable a defs b)

/-- Fails unless every use is covered by a definition. -/
def check (g : Graph) (a : Arena) : Result Unit := do
  let idom ← g.immediateDominators a
  let entry := g.entryMap a
  if !entry.order.all (phisNamePredecessors a entry) then throw .assertion
  let order := entry.order.toList
  let own := order.foldl (fun (defs : Definitions) b => defs.insert b (g.ownDefinitions a b)) ∅
  let defs ← order.foldlM (g.inherit idom) own
  if !entry.order.all (usesAreDefined a defs) then throw .assertion

abbrev Substitution := Std.HashMap ValueId ValueId

/-- Substitutes in one operation or phi; says whether it had anything to substitute. -/
def replaceInValue (s : Substitution) (v : ValueId) : GraphM Bool := do
  let x := (← get).value v
  if x.args.any (fun y => s.contains y) then
    modify (fun a => a.setValue v (x.mapArgs (fun y => s.getD y y)))
    return true
  return false

/-- Substitutes in all blocks of a graph; a value that is substituted must be gone from them. -/
def replaceValues (g : Graph) (s : Substitution) : GraphM Bool := do
  let mut changed := false
  for b in g.blocks (← get) do
    for v in (← get).ops b do
      GraphM.check (!s.contains v)
      if ← replaceInValue s v then changed := true
    let n := (← get).next b
    if n.args.any (fun y => s.contains y) then
      modify (fun a => a.setNext b (n.mapArgs (fun y => s.getD y y)))
      changed := true
  return changed

def replaceValue (g : Graph) (old new : ValueId) : GraphM Bool :=
  g.replaceValues ((∅ : Substitution).insert old new)

/-- Substitutes until nothing is left to substitute. -/
def replaceAllLoop (g : Graph) (s : Substitution) : Nat → GraphM Unit
  | 0 => throw .internal
  | fuel + 1 => do
    if ← g.replaceValues s then replaceAllLoop g s fuel

def replaceAll (g : Graph) (s : Substitution) : GraphM Unit := replaceAllLoop g s (s.size + 2)

/-- How often each value is used. -/
def countUses (g : Graph) (a : Arena) : Std.HashMap ValueId Nat :=
  let bump := fun (m : Std.HashMap ValueId Nat) v => m.insert v (m.getD v 0 + 1)
  (g.blocks a).foldl
    (fun m b =>
      let m := (a.ops b).foldl (fun m v => (a.value v).args.foldl bump m) m
      (a.next b).args.foldl bump m)
    ∅

end Jib.Graph
