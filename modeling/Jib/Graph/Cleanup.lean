import Jib.Graph.Check
import Jib.Primitive.Names

/-!
# Clean-up passes

Small passes that remove what is dead, empty or decided.  Each says whether it changed the graph;
most are repeated until they change nothing any more.
-/

namespace Jib

/-- Runs a pass until it changes nothing, at most so many times. -/
def repeatLoop {m : Type → Type} [Monad m] (pass : m Bool) : Nat → Bool → m Bool
  | 0, ever => pure ever
  | fuel + 1, ever => do
    if ← pass then repeatLoop pass fuel true else pure ever

/-- Runs a pass until it changes nothing, at most a thousand times. -/
def repeated {m : Type → Type} [Monad m] (pass : m Bool) : m Bool := repeatLoop pass 1000 false

/-- Looks up the primitive that a name stands for; other names stand for themselves. -/
abbrev Builtins := String → String

def stripMarks (s : String) : String := Text.dropLeading (fun c => c == '@' || c == '$') s

def stripAt (s : String) : String := Text.dropLeading (fun c => c == '@') s

/-- A call of a primitive without effects, found under its unmarked name. -/
def Operation.isPureCall (o : Operation) (bn : Builtins) : Bool :=
  o.kind == .call && Primitive.isPure (bn (stripMarks o.name))

namespace Graph

/-- Whether a value that nobody uses may be dropped. -/
def isRemovable (a : Arena) (bn : Builtins) (v : ValueId) : Bool :=
  match a.value v with
  | .op o =>
    o.kind.isPlain || o.name == "@not" || o.name == "@eq" || a.isUnionCreation v || o.isPureCall bn
  | _ => true

/-- The values that one operation needs; a phi does not need itself. -/
def neededBy (a : Arena) (v : ValueId) : List ValueId :=
  match a.value v with
  | .phi p => p.values.toList.erase v
  | x => x.args.toList

def neededValues (a : Arena) (blocks : Array BlockId) : Std.HashSet ValueId :=
  blocks.foldl
    (fun s b =>
      ((a.ops b).foldl (fun (s : Std.HashSet ValueId) v => s.insertMany (neededBy a v))
        s).insertMany (a.next b).args)
    ∅

def dropUnneeded (bn : Builtins) (needed : Std.HashSet ValueId) :
    List BlockId → Arena → Arena × Bool
  | [], a => (a, false)
  | b :: bs, a =>
    let ops := a.ops b
    let kept := ops.filter (fun v => needed.contains v || !isRemovable a bn v)
    let (a, changed) := dropUnneeded bn needed bs (a.setOps b kept)
    (a, changed || kept.size != ops.size)

def removeDeadOnce (g : Graph) (bn : Builtins) (a : Arena) : Arena × Bool :=
  let blocks := g.blocks a
  dropUnneeded bn (neededValues a blocks) blocks.toList a

/-- Removes operations without effect whose results are not used. -/
def removeDead (g : Graph) (bn : Builtins) : GraphM Bool :=
  repeated (modifyGet (fun a => let (a, c) := g.removeDeadOnce bn a; (c, a)))

/-- Bypasses one empty block behind a block. -/
def bypassEmpty (b nb : BlockId) : GraphM Bool := do
  let blk := (← get).block nb
  if !blk.ops.isEmpty then return false
  let .goto target _ := blk.next | return false
  let preds ← GraphM.ofExcept (fun a => a.phiPreds target)
  if preds.contains nb then return false
  modify (fun a => a.setNext b ((a.next b).retarget nb target))
  Arena.replacePred target nb b
  return true

/-- Walks over the blocks of a graph that changes on the way; says whether it did. -/
def changeBlocks (g : Graph) (change : BlockId → GraphM Bool) : GraphM Bool := do
  let changed ← walk (m := StateT Bool GraphM) (ρ := Unit)
    (fun b => do return (← getThe Arena).targets b)
    (fun b => do
      if ← change b then set true
      pure none)
    (← get).walkBound [g.start] ∅ |>.run false
  return changed.2

def removeEmptyBlocksOnce (g : Graph) : GraphM Bool := g.changeBlocks fun b => do
  let mut changed := false
  for nb in (← get).targets b do
    if ← bypassEmpty b nb then changed := true
  return changed

/-- Removes blocks that only jump, unless a phi tells them apart. -/
def removeEmptyBlocks (g : Graph) : GraphM Bool := repeated g.removeEmptyBlocksOnce

/-- Appends successors to a block as long as it is their only predecessor. -/
def absorbLoop (entry : EntryMap) (b : BlockId) : Nat → Array BlockId → GraphM (Array BlockId)
  | 0, _ => throw .internal
  | fuel + 1, gone => do
    let .goto nb _ := (← get).next b | return gone
    if !entry.single nb then return gone
    if gone.contains nb then throw .internal
    let nblk := (← get).block nb
    for v in nblk.ops do
      GraphM.check (!(← get).isPhi v)
    modify (fun a => ((a.setOps b (a.ops b ++ nblk.ops)).setOps nb #[]).setNext b nblk.next)
    for t in nblk.next.targets do
      Arena.replacePred t nb b
    absorbLoop entry b fuel (gone.push nb)

def joinBlocksOnce (g : Graph) : GraphM Bool := do
  let entry := g.entryMap (← get)
  let mut gone : Array BlockId := #[]
  for b in entry.order do
    if !gone.contains b then
      gone ← absorbLoop entry b (entry.order.size + 1) gone
  return !gone.isEmpty

/-- Joins blocks with their only successor where that has no other predecessor. -/
def joinBlocks (g : Graph) : GraphM Bool := repeated g.joinBlocksOnce

/-- The only operand; any other number of operands is refused. -/
def oneArg (o : Operation) : GraphM ValueId :=
  match o.args.toList with
  | [x] => pure x
  | _ => throw .badValue

def swapNotOnce (g : Graph) (bn : Builtins) : GraphM Bool := do
  let mut changed := false
  for b in g.blocks (← get) do
    if let .branch c t f pos := (← get).next b then
      if let .op o := (← get).value c then
        if o.kind == .call && o.name == "@not" then
          let x ← oneArg o
          modify (fun a => a.setNext b (.branch x f t pos))
          changed := true
  if changed then
    let _ ← g.removeDead bn
  return changed

/-- Branches on a negation become branches on what is negated, with the targets swapped. -/
def swapNot (g : Graph) (bn : Builtins) : GraphM Bool := repeated (g.swapNotOnce bn)

/-- The value that a phi always has, if its entries show it; a phi of only itself is refused. -/
def phiSoleValue (v : ValueId) (p : Phi) : GraphM (Option ValueId) :=
  let vs := p.values.toList.eraseDups
  if vs.length == 1 || (vs.length == 2 && vs.contains v) then
    match vs.erase v with
    | [x] => pure (some x)
    | _ => throw .badValue
  else pure none

/-- Removes the first phi of a block that has one value only. -/
def simplifyPhiIn (g : Graph) (b : BlockId) (s : Substitution) : GraphM Substitution := do
  for v in (← get).ops b do
    if let .phi p := (← get).value v then
      if let some x ← phiSoleValue v p then
        let s := s.insert v x
        modify (fun a => a.setOps b ((a.ops b).erase v))
        let _ ← g.replaceValues s
        return s
  return s

/-- One walk that removes phis with one value, at most one in each block. -/
def simplifyPhis (g : Graph) : GraphM Bool := do
  let mut s : Substitution := ∅
  for b in g.blocks (← get) do
    s ← g.simplifyPhiIn b s
  return false

/-- Drops the entries of a phi that come from elsewhere than the given predecessors. -/
def restrictPhi (preds : Array BlockId) (s : Substitution) (p : Phi) : Phi :=
  let kept := (p.preds.zip p.values).filter (fun (b, _) => preds.contains b)
  { p with preds := kept.map (·.1), values := kept.map (fun (_, v) => s.getD v v) }

/-- Drops phi entries of edges that no longer exist; a phi left with one entry is replaced by it. -/
def dropLostEntries (g : Graph) : GraphM Unit := do
  let entry := g.entryMap (← get)
  let mut s : Substitution := ∅
  for b in entry.order do
    let mut kept : Array ValueId := #[]
    for v in (← get).ops b do
      match (← get).value v with
      | .phi p =>
        let p := restrictPhi (entry.get b) s p
        modify (fun a => a.setValue v (.phi p))
        if p.preds.size == 1 then
          s := s.insert v (p.values.getD 0 Arena.missingId)
        else kept := kept.push v
      | _ => kept := kept.push v
    modify (fun a => a.setOps b kept)
  if !s.isEmpty then
    let _ ← g.replaceValues s

def decideBranchesOnce (g : Graph) : GraphM Bool := do
  let changed ← g.changeBlocks fun b => do
    let .branch c t f _ := (← get).next b | return false
    let some (.bool x) := (← get).const? c | return false
    modify (fun a => a.setNext b (.goto (if x then t else f) none))
    return true
  if changed then g.dropLostEntries
  return changed

/-- Branches on a constant become jumps. -/
def decideBranches (g : Graph) : GraphM Bool := repeated g.decideBranchesOnce

/-- The phi of a block that holds nothing else but comments. -/
def lonePhi (a : Arena) (b : BlockId) : Option (ValueId × Phi) :=
  match ((a.ops b).filter (fun v => !a.isKind v .comment)).toList with
  | [v] => (a.phi? v).map (fun p => (v, p))
  | _ => none

/-- Sends an edge into a branching block on to the target for a known outcome. -/
def bypassEdge (a : Arena) (b pred : BlockId) (outcome : Bool) : Arena :=
  match a.next b with
  | .branch _ t f _ => a.setNext pred ((a.next pred).retarget b (if outcome then t else f))
  | _ => a

def bypassPhiOnce (g : Graph) : GraphM Bool := do
  let uses := g.countUses (← get)
  let changed ← g.changeBlocks fun b => do
    let a ← get
    let some (v, p) := lonePhi a b | return false
    let .branch c .. := a.next b | return false
    if !(p.type == .bool && c == v && uses.getD v 0 == 1) then return false
    let mut preds := #[]
    let mut values := #[]
    let mut changed := false
    for (pred, x) in p.preds.zip p.values do
      if let some (.bool y) := a.const? x then
        modify (fun a => bypassEdge a b pred y)
        changed := true
      else
        preds := preds.push pred
        values := values.push x
    if values.size < p.values.size then
      modify (fun a => a.setValue v (.phi { p with preds := preds, values := values }))
    return changed
  if changed then
    g.dropLostEntries
    let _ ← g.simplifyPhis
    let _ ← g.joinBlocks
  return changed

/-- Jumps past a block that only branches on a phi, where the phi's entry is a constant. -/
def bypassPhi (g : Graph) : GraphM Bool := repeated g.bypassPhiOnce

def assertionToBranch (bn : Builtins) (b : BlockId) (index : Nat) (v : ValueId) : GraphM Bool := do
  let .op o := (← get).value v | return false
  if bn o.name != "zsail_assert" then return false
  let nb ← Arena.split b index false
  let cond :: message :: _ := o.args.toList | throw .outOfRange
  let fail ← GraphM.newBlock #[] (.raise message none)
  if let some (.text s) := (← get).const? message then
    let c ← GraphM.comment ("sail_assert " ++ s)
    modify (fun a => a.setOps b ((a.ops b).push c))
  modify (fun a => a.setNext b (.branch cond nb fail o.pos))
  return true

def assertionsInBlock (bn : Builtins) (b : BlockId) : List (ValueId × Nat) → GraphM Bool
  | [] => pure false
  | (v, i) :: rest => do
    if ← assertionToBranch bn b i v then pure true else assertionsInBlock bn b rest

def assertionsToBranchesOnce (g : Graph) (bn : Builtins) : GraphM Bool := do
  let mut changed := false
  for b in g.blocks (← get) do
    if ← assertionsInBlock bn b ((← get).ops b).toList.zipIdx then changed := true
  return changed

/-- Every assertion becomes a branch to a block that raises its message. -/
def assertionsToBranches (g : Graph) (bn : Builtins) : GraphM Bool :=
  repeated (g.assertionsToBranchesOnce bn)

/-- The operands of an equality test on values of some types, the constant second. -/
def equalityTest? (tested : Ty → Bool) (isConst : Value → Bool) (a : Arena) (cond : ValueId) :
    GraphM (Option (ValueId × ValueId)) := do
  let .op o := a.value cond | return none
  if o.name != "@eq" then return none
  let x :: rest := o.args.toList | throw .outOfRange
  if !tested (a.typeOf x) then return none
  let [y] := rest | throw .badValue
  return if isConst (a.value y) then some (x, y) else if isConst (a.value x) then some (y, x)
    else none

/-- A branch with one target for both outcomes becomes a jump. -/
def removeUselessSwitch (g : Graph) (bn : Builtins) : GraphM Bool := do
  let mut changed := false
  for b in g.blocks (← get) do
    if let .branch _ t f pos := (← get).next b then
      if t == f then
        for v in (← get).ops t do
          GraphM.check (!(← get).isPhi v)
        modify (fun a => a.setNext b (.goto t pos))
        changed := true
  if changed then
    let _ ← g.removeDead bn
  return changed

end Graph

end Jib
