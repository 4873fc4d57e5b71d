import Jib.Bits.Read
import Jib.Rational
import Jib.Memory.Basic

/-!
# Data and the state of a run

What primitives and programs compute with.  Lists and objects are shared: a datum names a cell of
the heap, and a change to the cell is seen through every datum that names it.
-/

namespace Jib

inductive Datum where
  /-- A plain integer, not bounded by itself. -/
  | int (n : Int)
  | word (w : UInt64)
  | integer (z : Integer)
  | bits (b : Bits)
  | rational (q : Rational)
  /-- An unbounded integer outside of the two forms of `Integer`. -/
  | bignum (n : Int)
  | bool (b : Bool)
  | text (s : String)
  | unit
  | none
  | list (cell : Nat)
  | object (cell : Nat)
  /-- A reference to a place of the machine, with the name of its type. -/
  | place (type slot : String)
  deriving Inhabited, BEq, Repr

namespace Datum

/-- The number that a plain value counts as in comparisons. -/
def number? : Datum → Option Int
  | int n => some n
  | word w => some w.toNat
  | bool b => some (if b then 1 else 0)
  | _ => Option.none

/-- Equality of plain values: numbers by value, whatever their form. -/
def same (a b : Datum) : Bool :=
  match a.number?, b.number? with
  | some m, some n => m == n
  | Option.none, Option.none => a == b
  | _, _ => false

/-- Whether a value counts as true in a condition. -/
def truth : Datum → Bool
  | int n => n != 0
  | word w => w != 0
  | bool b => b
  | text s => s != ""
  | unit => false
  | none => false
  | _ => true

end Datum

/-- A cell of the heap. -/
inductive Cell where
  | list (items : Array Datum)
  | object (type : String) (fields : Array (String × Datum))
  deriving Inhabited, BEq, Repr

/-- The state that a run changes. -/
structure World where
  heap : Array Cell := #[]
  memory : Memory := .sparse .empty
  /-- The named places of the machine. -/
  slots : Std.HashMap String Datum := ∅
  output : String := ""
  errors : String := ""
  /-- The kind of a memory access that fetches an instruction. -/
  fetchKind : Datum := .int (-1)
  /-- Whether the machine has its memory yet. -/
  attached : Bool := true
  /-- The instructions of a board with a memory of words. -/
  rom : Array UInt64 := #[0]
  /-- The words of such a board that were written. -/
  ram : Std.HashMap Nat Datum := ∅
  deriving Inhabited

/-- Computations on the state that may fail; a failure keeps the changes made before it. -/
abbrev RunM := EStateM Fault World

namespace RunM

def ofExcept {α : Type} : Result α → RunM α
  | .ok a => pure a
  | .error e => throw e

/-- A value that has to be there. -/
def ofOption {α : Type} : Option α → RunM α
  | some a => pure a
  | none => throw .internal

def number (d : Datum) : RunM Int := ofOption d.number?

def alloc (c : Cell) : RunM Nat :=
  modifyGet (fun w => (w.heap.size, { w with heap := w.heap.push c }))

def newList (items : Array Datum) : RunM Datum := return .list (← alloc (.list items))

def items : Datum → RunM (Array Datum)
  | .list r => do
    match (← get).heap[r]? with
    | some (.list xs) => return xs
    | _ => throw .internal
  | _ => throw .internal

def setItems (r : Nat) (xs : Array Datum) : RunM Unit :=
  modify (fun w => { w with heap := w.heap.setIfInBounds r (.list xs) })

def print (s : String) : RunM Unit := modify (fun w => { w with output := w.output ++ s })

def printError (s : String) : RunM Unit := modify (fun w => { w with errors := w.errors ++ s })

def slot (name : String) : RunM Datum := do ofOption (← get).slots[name]?

def setSlot (name : String) (d : Datum) : RunM Unit :=
  modify (fun w => { w with slots := w.slots.insert name d })

/-- Does something to the memory of the machine. -/
def onMemory {α : Type} (f : Memory → Result α × Memory) : RunM α := fun w =>
  if w.attached then
    let m := w.memory
    let w := { w with memory := default }
    match f m with
    | (.ok r, m) => .ok r { w with memory := m }
    | (.error e, m) => .error e { w with memory := m }
  else .error .internal w

def readMemory (a : UInt64) (bytes : Int) (fetch : Bool) : RunM UInt64 :=
  onMemory (fun m => m.read a bytes fetch)

def writeMemory (a : UInt64) (bytes : Int) (v : UInt64) : RunM Unit :=
  onMemory (fun m => m.write a bytes v)

/-- The class and the fields of an object. -/
def object : Datum → RunM (String × Array (String × Datum))
  | .object r => do
    match (← get).heap[r]? with
    | some (.object c fs) => return (c, fs)
    | _ => throw .internal
  | _ => throw .internal

def newObject (type : String) (fields : Array (String × Datum)) : RunM Datum :=
  return .object (← alloc (.object type fields))

def setField (d : Datum) (name : String) (value : Datum) : RunM Unit := do
  match d with
  | .object r =>
    modify fun w =>
      { w with heap := w.heap.modify r fun
        | .object c fs =>
          .object c (match fs.findIdx? (·.1 == name) with
            | some i => fs.setIfInBounds i (name, value)
            | none => fs.push (name, value))
        | cell => cell }
  | _ => throw .internal

end RunM

/-- The position that an index names in a sequence; a negative one counts from the end. -/
def listPosition (size : Nat) (i : Int) : Result Nat :=
  if 0 ≤ i && i < size then .ok i.toNat
  else if i < 0 && -i ≤ size then .ok (i + size).toNat
  else .error .outOfRange

end Jib
