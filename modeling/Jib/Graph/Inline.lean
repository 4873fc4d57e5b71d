import Jib.Graph.Copy
import Jib.Graph.Exceptions
import Jib.Graph.Session

/-!
# Inlining

Calls of small functions are replaced by their bodies.  A function that is one block is copied in
place; a larger one splits the block of the call.
-/

namespace Jib

namespace Graph

/-- Whether calls of a graph are to be inlined when nothing else is known: it is small, has no
loop, always returns a value and does not call itself. -/
def isSmall (g : Graph) (a : Arena) : Bool :=
  let blocks := g.blocks a
  let ops := blocks.foldl (fun n b => n + (a.ops b).size) 0
  !g.hasLoop
    && blocks.all (fun b => match a.next b with | .ret none _ => false | _ => true)
    && blocks.all (fun b => (a.ops b).all (fun v => (a.op? v).all (·.name != g.name)))
    && blocks.size ≤ 4 && ops < 25

def shouldInline (g : Graph) (a : Arena) (wish : String → Option Bool) : Bool :=
  (wish g.name).getD (g.isSmall a)

end Graph

namespace Session

/-- Remembers that a graph calls a function. -/
def noteCaller (name : String) (id : GraphId) : SessionM Unit :=
  modify fun s =>
    let gs := s.callers.getD name #[]
    if gs.contains id then s else { s with callers := s.callers.insert name (gs.push id) }

/-- What inlining at one place led to. -/
inductive InlineStep where
  | nothing
  /-- The block has new operations; look at it again from its start. -/
  | again
  /-- The graph has new blocks. -/
  | restructured

def inlineAt (id : GraphId) (huge : Bool) (b : BlockId) (index : Nat) (v : ValueId) :
    SessionM InlineStep := do
  let s ← get
  let some o := s.arena.op? v | return .nothing
  let some subId := s.inlinable.get? o.name
    | noteCaller o.name id
      return .nothing
  let sub := s.graph subId
  if let .ret (some res) _ := s.arena.next sub.start then
    onGraph id fun g _ => do
      let (ops, res) ← Graph.copySingle sub o.args res
      let c ← GraphM.comment ("inlined " ++ sub.name)
      modify fun a =>
        let old := a.ops b
        a.setOps b (old.extract 0 index ++ #[c] ++ ops ++ old.extract (index + 1) old.size)
      let _ ← g.replaceValue v res
    return .again
  if huge || sub.hasLoop then return .nothing
  onGraph id fun g bn => do
    g.inlineCall b index sub true
    let _ ← g.removeEmptyBlocks
    let _ ← g.joinBlocks
    let _ ← g.removeRepeatedChecks bn
  return .restructured

/-- Works through a block; says whether it changed and whether the walk has to stop. -/
def inlineInBlock (id : GraphId) (huge : Bool) (b : BlockId) :
    Nat → Nat → Bool → SessionM (Bool × Bool)
  | 0, _, _ => throw .internal
  | fuel + 1, index, changed => do
    let some v := ((← get).arena.ops b)[index]? | return (changed, false)
    match ← inlineAt id huge b index v with
    | .nothing => inlineInBlock id huge b fuel (index + 1) changed
    | .again => inlineInBlock id huge b fuel 0 true
    | .restructured => return (true, true)

/-- Enough steps to work through one block; functions that inline each other without end use up
all of them. -/
def inlineFuel : Nat := 1000000

def inlineOnce (id : GraphId) : SessionM Bool := do
  let s ← get
  let g := s.graph id
  let huge := g.hasMoreBlocksThan s.arena 1000
  let mut changed := false
  for b in g.blocks s.arena do
    let (c, stop) ← inlineInBlock id huge b inlineFuel 0 changed
    if stop then return true
    changed := c
  if changed then
    let _ ← onGraph id (fun g bn => g.removeRepeatedChecks bn)
  return changed

/-- Inlines calls until none is left that can be. -/
def inline (id : GraphId) : SessionM Bool := repeated (inlineOnce id)

end Session

end Jib
