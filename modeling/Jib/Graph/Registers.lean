import Jib.Graph.Cleanup

/-!
# Forwarding of register reads

Within straight-line code, and across joins where all predecessors agree, a register that was read
or written keeps its value until an operation that may change registers.
-/

namespace Jib.Graph

abbrev RegisterKey := String × Ty

abbrev Available := Std.HashMap RegisterKey ValueId

def leavesRegistersAlone (a : Arena) (bn : Builtins) (v : ValueId) : Bool :=
  match a.value v with
  | .op o =>
    o.kind.isPlain || o.kind == .comment || o.name == "@not" || o.name == "@eq" || o.isPureCall bn
  | _ => true

def availableOnEntry (entry : EntryMap) (done : Std.HashMap BlockId Available) (b : BlockId) :
    Result Available := do
  let p :: ps := (entry.get b).toList | return ∅
  let some m := done[p]? | throw .missingKey
  return if ps.isEmpty then m
    else m.filter (fun k v => ps.all (fun q => (done.getD q ∅)[k]? == some v))

structure ForwardState where
  available : Available
  replaced : Substitution

def forwardInBlock (a : Arena) (bn : Builtins) (s : ForwardState) (v : ValueId) : ForwardState :=
  match a.value v with
  | .op o =>
    let key := (o.name, o.type)
    if o.kind == .globalRead then
      match s.available[key]? with
      | some x => { s with replaced := s.replaced.insert v x }
      | none => { s with available := s.available.insert key v }
    else if o.kind == .globalWrite then
      { s with available := s.available.insert key (o.args.getD 0 Arena.missingId) }
    else if leavesRegistersAlone a bn v then s
    else { s with available := ∅ }
  | _ => s

def forwardReadsOnce (g : Graph) (bn : Builtins) : GraphM Bool := do
  let a ← get
  let entry := g.entryMap a
  let blocks ← GraphM.ofExcept g.bestTopoOrder
  let mut done : Std.HashMap BlockId Available := ∅
  let mut replaced : Substitution := ∅
  for b in blocks do
    let known ← GraphM.ofExcept (fun _ => availableOnEntry entry done b)
    let s := (a.ops b).foldl (forwardInBlock a bn) ⟨known, replaced⟩
    done := done.insert b s.available
    replaced := s.replaced
  if replaced.isEmpty then return false
  for b in blocks do
    let s := replaced
    modify (fun a => a.setOps b ((a.ops b).filter (fun v => !s.contains v)))
  g.replaceAll replaced
  return true

/-- Replaces register reads whose value is known. -/
def forwardReads (g : Graph) (bn : Builtins) : GraphM Bool := repeated (g.forwardReadsOnce bn)

/-- The constant that a graph without result stores into a register as its last step. -/
def globalValue? (g : Graph) (a : Arena) (name : String) : Result (Option ValueId) := do
  let .justStop := a.next g.start | return none
  let some v := (a.ops g.start).back? | throw .outOfRange
  let .op o := a.value v | return none
  return if o.kind == .globalWrite && o.name == name then o.args[0]?.filter a.isConst else none

end Jib.Graph
