import Jib.Bytes
import Jib.Fault
import Jib.Power

/-!
# Device trees

Builds the flattened form of a device tree, version 17: a header, an empty memory reservation block,
the structure block and the strings block.  Nodes are opened and closed in a nested way; a node that
was opened with a handle gets a property with the handle when it is closed.
-/

namespace Jib

open scoped Jib.Power

structure DeviceTree where
  /-- The structure block so far. -/
  structure_ : Bytes := []
  strings : Bytes := []
  nextHandle : Nat := 1
  /-- The open nodes, innermost first, with their handles. -/
  openNodes : List (Option Nat) := []
  deriving Repr, BEq, Inhabited

namespace DeviceTree

/-- A 32-bit number, highest byte first. -/
def number32 (n : Nat) : Result Bytes :=
  if n < 2 ^ (32 : Nat) then .ok (Bytes.ofNatHigh 4 n) else .error .assertion

def token (n : Nat) : Bytes := Bytes.ofNatHigh 4 n

def beginNode : Bytes := token 1
def endNode : Bytes := token 2
def property : Bytes := token 3
def endTree : Bytes := token 9

/-- A text with its closing zero; the text itself may hold none. -/
def terminated (s : Bytes) : Result Bytes :=
  if s.contains 0 then .error .assertion else .ok (s ++ [0])

/-- The offset of a name in the strings block; an occurrence at the end of another name is
shared. -/
def addString (t : DeviceTree) (name : Bytes) : Result (Nat × DeviceTree) := do
  let s ← terminated name
  match Bytes.find? s 0 t.strings with
  | some i => return (i, t)
  | none => return (t.strings.length, { t with strings := t.strings ++ s })

def append (t : DeviceTree) (bs : Bytes) : DeviceTree := { t with structure_ := t.structure_ ++ bs }

def addRaw (t : DeviceTree) (name data : Bytes) : Result DeviceTree := do
  let (offset, t) ← t.addString name
  let size ← number32 data.length
  let place ← number32 offset
  return t.append (property ++ size ++ place ++ data ++ Bytes.padding data.length)

def addText (t : DeviceTree) (name data : Bytes) : Result DeviceTree := do
  t.addRaw name (← terminated data)

/-- Several texts, each with a closing zero. -/
def addTexts (t : DeviceTree) (name : Bytes) (data : List Bytes) : Result DeviceTree :=
  t.addRaw name (List.intercalate [0] data ++ [0])

def addEmpty (t : DeviceTree) (name : Bytes) : Result DeviceTree := t.addRaw name []

def addNumber (t : DeviceTree) (name : Bytes) (n : Nat) : Result DeviceTree := do
  t.addRaw name (← number32 n)

def addNumbers (t : DeviceTree) (name : Bytes) (ns : List Nat) : Result DeviceTree := do
  t.addRaw name (← ns.mapM number32).flatten

/-- 64-bit numbers, each as two of 32 bits with the upper one first. -/
def addLongNumbers (t : DeviceTree) (name : Bytes) (ns : List Nat) : Result DeviceTree :=
  t.addNumbers name (ns.flatMap (fun n => [n / 2 ^ (32 : Nat), n % 2 ^ (32 : Nat)]))

/-- Opens a node. -/
def open_ (t : DeviceTree) (name : Bytes) (handle : Option Nat) : Result DeviceTree := do
  let s ← terminated name
  let t := t.append (beginNode ++ s ++ Bytes.padding s.length)
  return { t with openNodes := handle :: t.openNodes }

def openPlain (t : DeviceTree) (name : Bytes) : Result DeviceTree := t.open_ name none

/-- Opens a node with the next free handle. -/
def openWithHandle (t : DeviceTree) (name : Bytes) : Result (Nat × DeviceTree) := do
  let t' ← t.open_ name (some t.nextHandle)
  return (t.nextHandle, { t' with nextHandle := t.nextHandle + 1 })

def handleName : Bytes := Bytes.ofText "phandle"

/-- Closes the innermost open node. -/
def close (t : DeviceTree) : Result DeviceTree := do
  match t.openNodes with
  | [] => throw .outOfRange
  | handle :: rest =>
    let t ← match handle with
      | some h => t.addNumber handleName h
      | none => pure t
    return { t.append endNode with openNodes := rest }

def headerSize : Nat := 40

def reservation : Bytes := List.replicate 16 0

def blob (t : DeviceTree) : Result Bytes := do
  let body := t.structure_ ++ endTree
  let structAt := headerSize + reservation.length
  let stringsAt := structAt + body.length
  let total := stringsAt + t.strings.length
  let header ← [0xd00dfeed, total, structAt, stringsAt, headerSize, 17, 16, 0, t.strings.length,
    body.length].mapM number32
  return header.flatten ++ reservation ++ body ++ t.strings

end DeviceTree

end Jib
