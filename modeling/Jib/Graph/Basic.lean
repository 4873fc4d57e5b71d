import Jib.Ty
import Jib.Bits.Basic

/-!
# Control-flow graphs in single-assignment form

Every value and every block has a number, and an `Arena` holds what the numbers stand for.  A graph
is a start block with the arguments of its function; its blocks are those that can be reached from
the start block.  Constants have numbers of their own, so two mentions of the same literal are two
values; the truth values and the unit value are the exception and have one number each.
-/

namespace Jib

open scoped Jib.Power

abbrev ValueId := Nat
abbrev BlockId := Nat

inductive Const where
  | bool (b : Bool)
  | unit
  | machineInt (n : Int)
  | int (n : Int)
  | smallBits (word : UInt64) (type : Ty)
  | bits (b : Bits)
  /-- The uninitialised value of a type. -/
  | default (type : Ty)
  | enum (variant : String) (type : Ty)
  | text (s : String)
  deriving BEq, Repr, Inhabited

namespace Const

def type : Const → Ty
  | bool _ => .bool
  | unit => .unit
  | machineInt _ => .machineInt
  | int _ => .int
  | smallBits _ t => t
  | bits _ => .bits
  | default t => t
  | enum _ t => t
  | text _ => .string

protected def hash : Const → UInt64
  | bool b => Hashable.hash b
  | unit => 3
  | machineInt n => mixHash 4 (Hashable.hash n)
  | int n => mixHash 5 (Hashable.hash n)
  | smallBits w t => mixHash (Hashable.hash w) t.hash
  | bits b => b.hash
  | default t => mixHash 6 t.hash
  | enum v _ => mixHash 7 (Hashable.hash v)
  | text s => mixHash 8 (Hashable.hash s)

instance : Hashable Const := ⟨Const.hash⟩

end Const

/-- What an operation does; only `call` is looked up by name. -/
inductive OpKind where
  | call
  | cast
  | allocate
  | structConstruction
  | fieldAccess
  | fieldWrite
  | unionVariantCheck
  | unionCast
  | globalRead
  | globalWrite
  | refAssignment
  | refOf
  | vectorInit
  | vectorUpdate
  /-- Copies a value into the place of a phi on leaving a block. -/
  | assign
  | comment
  deriving BEq, DecidableEq, Hashable, Repr, Inhabited

namespace OpKind

def text : OpKind → String
  | call => "Operation"
  | cast => "Cast"
  | allocate => "Allocate"
  | structConstruction => "StructConstruction"
  | fieldAccess => "FieldAccess"
  | fieldWrite => "FieldWrite"
  | unionVariantCheck => "UnionVariantCheck"
  | unionCast => "UnionCast"
  | globalRead => "GlobalRead"
  | globalWrite => "GlobalWrite"
  | refAssignment => "RefAssignment"
  | refOf => "RefOf"
  | vectorInit => "VectorInit"
  | vectorUpdate => "VectorUpdate"
  | assign => "NonSSAAssignment"
  | comment => "Comment"

def all : List OpKind :=
  [call, cast, allocate, structConstruction, fieldAccess, fieldWrite, unionVariantCheck, unionCast,
    globalRead, globalWrite, refAssignment, refOf, vectorInit, vectorUpdate, assign, comment]

def ofText? (s : String) : Option OpKind := all.find? (fun k => k.text == s)

/-- Kinds that neither change state nor stop the program, whatever their operands are. -/
def isPlain : OpKind → Bool
  | cast | allocate | structConstruction | fieldAccess | unionVariantCheck | globalRead | refOf
  | vectorInit | vectorUpdate => true
  | _ => false

end OpKind

structure Operation where
  kind : OpKind
  name : String
  args : Array ValueId
  type : Ty
  pos : Option String
  hint : Option String
  deriving BEq, Repr, Inhabited

structure Phi where
  preds : Array BlockId
  values : Array ValueId
  type : Ty
  deriving BEq, Repr, Inhabited

inductive Value where
  /-- Stands where no value is known. -/
  | missing
  | const (c : Const)
  | argument (name : String) (type : Ty)
  | op (o : Operation)
  | phi (p : Phi)
  deriving BEq, Repr, Inhabited

namespace Value

def type : Value → Ty
  | missing => .unknown
  | const c => c.type
  | argument _ t => t
  | op o => o.type
  | phi p => p.type

def isConst : Value → Bool
  | const _ => true
  | _ => false

def isPhi : Value → Bool
  | phi _ => true
  | _ => false

/-- The values that this one is computed from. -/
def args : Value → Array ValueId
  | op o => o.args
  | phi p => p.values
  | _ => #[]

/-- Applies a change to every value that this one is computed from. -/
def mapArgs (f : ValueId → ValueId) : Value → Value
  | op o => op { o with args := o.args.map f }
  | phi p => phi { p with values := p.values.map f }
  | v => v

end Value

/-- How a block ends. -/
inductive Next where
  | unset
  | ret (value : Option ValueId) (pos : Option String)
  | raise (kind : ValueId) (pos : Option String)
  | justStop
  | goto (target : BlockId) (pos : Option String)
  | branch (cond : ValueId) (ifTrue ifFalse : BlockId) (pos : Option String)
  deriving BEq, Repr, Inhabited

namespace Next

/-- The successors; of a branch the one for a false condition comes first. -/
def targets : Next → List BlockId
  | goto t _ => [t]
  | branch _ t f _ => [f, t]
  | _ => []

def args : Next → List ValueId
  | ret (some v) _ => [v]
  | raise k _ => [k]
  | branch c _ _ _ => [c]
  | _ => []

def mapArgs (f : ValueId → ValueId) : Next → Next
  | ret v p => ret (v.map f) p
  | raise k p => raise (f k) p
  | branch c t e p => branch (f c) t e p
  | n => n

/-- Redirects every edge to one block towards another. -/
def retarget (old new : BlockId) : Next → Next
  | goto t p => goto (if t == old then new else t) p
  | branch c t f p => branch c (if t == old then new else t) (if f == old then new else f) p
  | n => n

def isGoto : Next → Bool
  | goto .. => true
  | _ => false

def isRaise : Next → Bool
  | raise .. => true
  | _ => false

def isRet : Next → Bool
  | ret .. => true
  | _ => false

end Next

structure Block where
  ops : Array ValueId
  next : Next
  deriving BEq, Repr, Inhabited

structure Graph where
  name : String
  args : Array ValueId
  start : BlockId
  hasLoop : Bool
  deriving BEq, Repr, Inhabited

structure Arena where
  values : Array Value
  blocks : Array Block
  deriving Repr, Inhabited

namespace Arena

/-- Numbers of the values that exist once. -/
def falseId : ValueId := 0
def trueId : ValueId := 1
def unitId : ValueId := 2
def missingId : ValueId := 3

def boolId (b : Bool) : ValueId := if b then trueId else falseId

def empty : Arena where
  values := #[.const (.bool false), .const (.bool true), .const .unit, .missing]
  blocks := #[]

def value (a : Arena) (v : ValueId) : Value := a.values.getD v .missing

def block (a : Arena) (b : BlockId) : Block := a.blocks.getD b ⟨#[], .unset⟩

def ops (a : Arena) (b : BlockId) : Array ValueId := (a.block b).ops

def next (a : Arena) (b : BlockId) : Next := (a.block b).next

def targets (a : Arena) (b : BlockId) : List BlockId := (a.next b).targets

def typeOf (a : Arena) (v : ValueId) : Ty := (a.value v).type

def argumentName (a : Arena) (v : ValueId) : String :=
  match a.value v with
  | .argument n _ => n
  | _ => ""

def const? (a : Arena) (v : ValueId) : Option Const :=
  match a.value v with
  | .const c => some c
  | _ => none

def op? (a : Arena) (v : ValueId) : Option Operation :=
  match a.value v with
  | .op o => some o
  | _ => none

def phi? (a : Arena) (v : ValueId) : Option Phi :=
  match a.value v with
  | .phi p => some p
  | _ => none

def isConst (a : Arena) (v : ValueId) : Bool := (a.value v).isConst

/-- An operation of any kind. -/
def isOp (a : Arena) (v : ValueId) : Bool := (a.op? v).isSome

def isPhi (a : Arena) (v : ValueId) : Bool := (a.value v).isPhi

def isKind (a : Arena) (v : ValueId) (k : OpKind) : Bool :=
  match a.value v with
  | .op o => o.kind == k
  | _ => false

def isUnionCreation (a : Arena) (v : ValueId) : Bool :=
  match a.value v with
  | .op o => o.kind == .call && o.type.hasVariant o.name
  | _ => false

def addValue (a : Arena) (v : Value) : ValueId × Arena :=
  (a.values.size, { a with values := a.values.push v })

def addBlock (a : Arena) (b : Block) : BlockId × Arena :=
  (a.blocks.size, { a with blocks := a.blocks.push b })

def setValue (a : Arena) (v : ValueId) (x : Value) : Arena :=
  { a with values := a.values.setIfInBounds v x }

def modifyValue (a : Arena) (v : ValueId) (f : Value → Value) : Arena :=
  { a with values := a.values.modify v f }

def modifyBlock (a : Arena) (b : BlockId) (f : Block → Block) : Arena :=
  { a with blocks := a.blocks.modify b f }

def setOps (a : Arena) (b : BlockId) (ops : Array ValueId) : Arena :=
  a.modifyBlock b (fun x => { x with ops := ops })

def setNext (a : Arena) (b : BlockId) (n : Next) : Arena :=
  a.modifyBlock b (fun x => { x with next := n })

end Arena

/-- Computations that change an arena and may fail; a failure keeps the changes made before it. -/
abbrev GraphM := EStateM Fault Arena

namespace GraphM

def check (c : Bool) : GraphM Unit := if c then pure () else throw .assertion

def newValue (v : Value) : GraphM ValueId := modifyGet (fun a => a.addValue v)

def newConst (c : Const) : GraphM ValueId := newValue (.const c)

def newBlock (ops : Array ValueId) (n : Next) : GraphM BlockId :=
  modifyGet (fun a => a.addBlock ⟨ops, n⟩)

def fitsWord (n : Int) : Bool := -(2 ^ (63 : Nat) : Int) ≤ n && n < (2 ^ (63 : Nat) : Int)

/-- A machine integer constant; the number has to fit a machine word. -/
def newMachineInt (n : Int) : GraphM ValueId := do
  check (fitsWord n)
  newConst (.machineInt n)

def smallBitsType (width : Int) : GraphM Ty := do
  check (0 ≤ width && width ≤ 64)
  pure (.smallBits width.toNat)

def comment (s : String) : GraphM ValueId :=
  newValue (.op ⟨.comment, s, #[], .unit, none, none⟩)

end GraphM


namespace Arena

/-- The predecessor lists of all phis at the start of a block, which have to agree. -/
def phiPreds (a : Arena) (b : BlockId) : Result (Array BlockId) :=
  go (a.ops b).toList #[]
where
  go : List ValueId → Array BlockId → Result (Array BlockId)
    | [], acc => .ok acc
    | v :: vs, acc =>
      match a.phi? v with
      | none => .ok acc
      | some p =>
        if acc.isEmpty then go vs p.preds
        else if p.preds == acc then go vs acc
        else .error .assertion

def noDuplicates (xs : Array Nat) : Bool := xs.toList.eraseDups.length == xs.size

/-- Renames a predecessor in all phis of a block. -/
def replacePred (b old new : BlockId) : GraphM Unit := do
  for v in (← get).ops b do
    match (← get).value v with
    | .phi p =>
      let preds := p.preds.map (fun x => if x == old then new else x)
      modify (fun a => a.setValue v (.phi { p with preds := preds }))
      GraphM.check (noDuplicates preds)
    | _ => pure ()

/-- Cuts a block before (or behind) the operation at an index; the second half is a new block. -/
def split (b : BlockId) (index : Nat) (keepOp : Bool) : GraphM BlockId := do
  let blk := (← get).block b
  let rest := blk.ops.extract (if keepOp then index else index + 1) blk.ops.size
  let nb ← GraphM.newBlock rest .unset
  for v in rest do
    GraphM.check (!(← get).isPhi v)
  modify (fun a => (a.setOps b (blk.ops.extract 0 index)).setNext nb blk.next)
  for t in blk.next.targets do
    replacePred t b nb
  modify (fun a => a.setNext b (.goto nb none))
  pure nb

end Arena

end Jib
