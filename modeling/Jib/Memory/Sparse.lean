import Std.Data.HashMap
import Jib.Memory.Flat

/-!
# Sparse memory

A memory of the whole address space.  It consists of blocks of one megabyte, which are made when
they are first used and start out as zeros.  The block used last is remembered, for instruction
fetches and for all other accesses apart.
-/

namespace Jib

structure RecentBlock where
  address : UInt64
  index : Nat

structure SparseMemory where
  /-- The blocks in the order in which they were made. -/
  blocks : Array (Array UInt64)
  /-- Which of the blocks an address has. -/
  places : Std.HashMap UInt64 Nat
  last : RecentBlock
  lastFetched : RecentBlock

namespace SparseMemory

/-- No block has the address of the recent block at the start, because the address has bits that no
address of a block has. -/
def noBlock : RecentBlock := ⟨0xffffffffffffffff, 0⟩

def empty : SparseMemory := ⟨#[], ∅, noBlock, noBlock⟩

instance : Inhabited SparseMemory := ⟨empty⟩

def blockWords : Nat := 131072

def newBlock : Array UInt64 := Array.replicate blockWords 0

def blockAddress (a : UInt64) : UInt64 := a >>> 20

/-- Where a byte address lies in its block. -/
def placeInBlock (a : UInt64) : Place := Place.ofAddress (a &&& 0xfffff)

def withBlock (m : SparseMemory) (address : UInt64) : SparseMemory :=
  { m with blocks := m.blocks.push newBlock, places := m.places.insert address m.blocks.size }

/-- Finds the block with an address, and makes it if there is none yet. -/
def findBlock (m : SparseMemory) (address : UInt64) : Nat × SparseMemory :=
  match m.places[address]? with
  | some i => (i, m)
  | none => (m.blocks.size, m.withBlock address)

def recent (m : SparseMemory) (fetch : Bool) : RecentBlock :=
  if fetch then m.lastFetched else m.last

def remember (m : SparseMemory) (fetch : Bool) (r : RecentBlock) : SparseMemory :=
  if fetch then { m with lastFetched := r } else { m with last := r }

/-- The block with an address; only if it is not the recent one is it searched for. -/
def useBlock (m : SparseMemory) (address : UInt64) (fetch : Bool) : Nat × SparseMemory :=
  if (m.recent fetch).address == address then ((m.recent fetch).index, m)
  else
    let (i, m) := m.findBlock address
    (i, m.remember fetch ⟨address, i⟩)

def read? (m : SparseMemory) (block : Nat) (i : UInt64) : Result UInt64 :=
  match m.blocks[block]?.bind (·[i.toNat]?) with
  | some w => .ok w
  | none => .error .outOfRange

def setWord (m : SparseMemory) (block : Nat) (i value : UInt64) : SparseMemory :=
  { m with blocks := m.blocks.modify block (·.setIfInBounds i.toNat value) }

def alignedRead (m : SparseMemory) (a : UInt64) (bytes : Nat) (fetch : Bool) :
    Result UInt64 × SparseMemory :=
  let p := placeInBlock a
  let (b, m) := m.useBlock (blockAddress a) fetch
  (loadPart bytes p.byte (m.read? b p.word), m)

def alignedWrite (m : SparseMemory) (a : UInt64) (bytes : Nat) (value : UInt64) :
    Result Unit × SparseMemory :=
  let p := placeInBlock a
  let (b, m) := m.useBlock (blockAddress a) false
  match storePart bytes p.byte value (m.read? b p.word) with
  | .ok w => (.ok (), m.setWord b p.word w)
  | .error e => (.error e, m)

/-- The words that are not zero, with their byte addresses in ascending order. -/
def nonzeroWords (m : SparseMemory) : List (Nat × UInt64) :=
  let wordsOf (address : UInt64) (b : Nat) : List (Nat × UInt64) :=
    (((m.blocks.getD b #[]).zipIdx.filter (fun x => x.1 != 0)).map
      (fun x => (8 * (address.toNat * blockWords + x.2), x.1))).toList
  (m.places.toList.flatMap (fun x => wordsOf x.1 x.2)).mergeSort (fun x y => x.1 ≤ y.1)

end SparseMemory

end Jib
