import Jib.Graph.Cleanup

/-!
# Repeated exception checks

After a call the flag for a pending exception is read and branched on.  When one such check follows
another directly, the second has been decided by the first.
-/

namespace Jib.Graph

/-- Whether the operation at an index reads the exception flag and the block branches on it. -/
def isExceptionCheck (a : Arena) (b : BlockId) (index : Nat) : Bool :=
  (a.ops b)[index]?.any fun v =>
    match a.value v, a.next b with
    | .op o, .branch c _ _ _ => o.kind == .globalRead && o.name == "have_exception" && c == v
    | _, _ => false

/-- A block that only returns an uninitialised value. -/
def isExceptionalReturn (a : Arena) (b : BlockId) : Bool :=
  (a.ops b).isEmpty &&
    match a.next b with
    | .ret (some v) _ => (a.const? v matches some (.default _))
    | _ => false

/-- The first operation that runs from a block on, phis and comments apart. -/
def nextOp? (a : Arena) : Nat → BlockId → Option (BlockId × Nat)
  | 0, _ => none
  | fuel + 1, b =>
    let ops := a.ops b
    if ops.isEmpty then
      match a.next b with
      | .goto t _ => nextOp? a fuel t
      | _ => none
    else
      (ops.findIdx? (fun v => !a.isPhi v && !a.isKind v .comment)).map (fun i => (b, i))

/-- The check that is reached first from a block, if it ends its block. -/
def nextCheck? (a : Arena) (b : BlockId) : Option BlockId := do
  let (nb, i) ← nextOp? a (a.blocks.size + 1) b
  if isExceptionCheck a nb i && (a.ops nb).size == i + 1 then some nb else none

/-- Clears the condition of a check and tidies up. -/
def dropCheck (g : Graph) (bn : Builtins) (b : BlockId) : GraphM Unit := do
  modify fun a =>
    match a.next b with
    | .branch _ t f pos => a.setNext b (.branch Arena.falseId t f pos)
    | _ => a
  let _ ← g.decideBranches
  let _ ← g.removeEmptyBlocks
  let _ ← g.joinBlocks
  let _ ← g.removeDead bn

/-- A check behind the exception side of a check: that side leaves at once. -/
def skipAfterException? (a : Arena) (b : BlockId) : Option (BlockId × Next) := do
  let .branch c t f pos := a.next b | none
  let nb ← nextCheck? a t
  let .branch _ leave _ _ := a.next nb | none
  if isExceptionalReturn a leave then some (nb, .branch c leave f pos) else none

/-- A check behind the other side of a check that returns when there is an exception. -/
def skipAfterSuccess? (a : Arena) (b : BlockId) : Option BlockId := do
  let .branch _ t f _ := a.next b | none
  let nb ← nextCheck? a f
  if (a.next t).isRet then some nb else none

def removeRepeatedCheckOnce (g : Graph) (bn : Builtins) : GraphM Bool := do
  let a ← get
  let checks := (g.blocks a).filter
    (fun b => !(a.ops b).isEmpty && isExceptionCheck a b ((a.ops b).size - 1))
  if let some (b, nb, next) := checks.findSome? (fun b => (skipAfterException? a b).map (b, ·)) then
    modify (fun a => a.setNext b next)
    g.dropCheck bn nb
    return true
  let some nb := checks.findSome? (skipAfterSuccess? a) | return false
  g.dropCheck bn nb
  return true

/-- Removes exception checks that an earlier check has decided. -/
def removeRepeatedChecks (g : Graph) (bn : Builtins) : GraphM Bool :=
  repeated (g.removeRepeatedCheckOnce bn)

end Jib.Graph
