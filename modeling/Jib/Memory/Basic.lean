import Jib.Memory.Sparse

/-!
# Memories

A memory is flat, sparse, or split into two regions that are memories themselves; the bare one has
no storage at all.  Accesses take one, two, four or eight bytes, lowest byte first.  An access at an
address that is no multiple of its size goes byte by byte.  An access that fails leaves behind what
it has done so far.
-/

namespace Jib

inductive Memory where
  | bare
  | flat (m : FlatMemory)
  | sparse (m : SparseMemory)
  | split (first : Memory) (base₁ end₁ : Int) (second : Memory) (base₂ end₂ : Int)

namespace Memory

instance : Inhabited Memory := ⟨bare⟩

def isAligned (a : UInt64) (bytes : Int) : Result Bool :=
  if bytes == 1 then .ok true
  else if bytes == 2 then .ok (a &&& 1 == 0)
  else if bytes == 4 then .ok (a &&& 3 == 0)
  else if bytes == 8 then .ok (a &&& 7 == 0)
  else .error (.assertion "invalid num_bytes")

def topBit : UInt64 := 0x8000000000000000

/-- Whether an address lies in a region; the upper half of the address space is in none. -/
def inRegion (base stop : Int) (a : UInt64) : Bool :=
  a &&& topBit == 0 && base ≤ Word.toInt a && Word.toInt a < stop

/-- What is checked of a region when memories are put side by side. -/
def regionFits (base size : UInt64) : Bool :=
  base &&& 7 == 0 && size &&& 7 == 0 && (base + size) &&& topBit == 0

/-- Two memories side by side.  Bases and sizes are multiples of eight, and both regions end in the
lower half of the address space. -/
def mkSplit (m₁ : Memory) (base₁ size₁ : UInt64) (m₂ : Memory) (base₂ size₂ : UInt64) :
    Result Memory :=
  if regionFits base₁ size₁ && regionFits base₂ size₂ then
    .ok (split m₁ (Word.toInt base₁) (Word.toInt (base₁ + size₁))
      m₂ (Word.toInt base₂) (Word.toInt (base₂ + size₂)))
  else .error .assertion

def alignedRead : Memory → UInt64 → Nat → Bool → Result UInt64 × Memory
  | bare, _, _, _ => (.error .abstractOperation, bare)
  | flat m, a, n, fetch =>
    let (r, m) := m.alignedRead a n fetch
    (r, flat m)
  | sparse m, a, n, fetch =>
    let (r, m) := m.alignedRead a n fetch
    (r, sparse m)
  | split m₁ b₁ e₁ m₂ b₂ e₂, a, n, fetch =>
    if inRegion b₁ e₁ a then
      let (r, m) := m₁.alignedRead (a - Word.ofInt b₁) n fetch
      (r, split m b₁ e₁ m₂ b₂ e₂)
    else if inRegion b₂ e₂ a then
      let (r, m) := m₂.alignedRead (a - Word.ofInt b₂) n fetch
      (r, split m₁ b₁ e₁ m b₂ e₂)
    else (.error (.badValue (some "")), split m₁ b₁ e₁ m₂ b₂ e₂)

def alignedWrite : Memory → UInt64 → Nat → UInt64 → Result Unit × Memory
  | bare, _, _, _ => (.error .abstractOperation, bare)
  | flat m, a, n, v =>
    match m.alignedWrite a n v with
    | .ok m => (.ok (), flat m)
    | .error e => (.error e, flat m)
  | sparse m, a, n, v =>
    let (r, m) := m.alignedWrite a n v
    (r, sparse m)
  | split m₁ b₁ e₁ m₂ b₂ e₂, a, n, v =>
    if inRegion b₁ e₁ a then
      let (r, m) := m₁.alignedWrite (a - Word.ofInt b₁) n v
      (r, split m b₁ e₁ m₂ b₂ e₂)
    else if inRegion b₂ e₂ a then
      let (r, m) := m₂.alignedWrite (a - Word.ofInt b₂) n v
      (r, split m₁ b₁ e₁ m b₂ e₂)
    else (.error (.badValue (some "")), split m₁ b₁ e₁ m₂ b₂ e₂)

def readBytes (m : Memory) (a : UInt64) (fetch : Bool) : Nat → UInt64 → Result UInt64 × Memory
  | 0, acc => (.ok acc, m)
  | n + 1, acc =>
    match m.alignedRead (a + n.toUInt64) 1 fetch with
    | (.error e, m) => (.error e, m)
    | (.ok b, m) => readBytes m a fetch n (acc <<< 8 ||| b)

/-- Writes `n` bytes one by one, the lowest first; nothing may be left of the value then. -/
def writeBytes (m : Memory) (a : UInt64) : Nat → UInt64 → Result Unit × Memory
  | 0, v => (if v == 0 then .ok () else .error .assertion, m)
  | n + 1, v =>
    match m.alignedWrite a 1 (v &&& 0xff) with
    | (.error e, m) => (.error e, m)
    | (.ok (), m) => writeBytes m (a + 1) n (v >>> 8)

def read (m : Memory) (a : UInt64) (bytes : Int) (fetch : Bool) : Result UInt64 × Memory :=
  match isAligned a bytes with
  | .error e => (.error e, m)
  | .ok true => m.alignedRead a bytes.toNat fetch
  | .ok false => m.readBytes a fetch bytes.toNat 0

def write (m : Memory) (a : UInt64) (bytes : Int) (v : UInt64) : Result Unit × Memory :=
  match isAligned a bytes with
  | .error e => (.error e, m)
  | .ok true => m.alignedWrite a bytes.toNat v
  | .ok false => m.writeBytes a bytes.toNat v

/-- Marks the word of an address as immutable; only flat memories know about that. -/
def markImmutable : Memory → UInt64 → Result Memory
  | flat m, a => (m.markImmutable a).map flat
  | _, _ => .error .internal

/-- The words of a memory that are not zero, with their byte addresses in ascending order. -/
def nonzeroWords : Memory → List (Nat × UInt64)
  | flat m => (m.words.toList.zipIdx.map (fun (w, i) => (8 * i, w))).filter (fun (_, w) => w != 0)
  | sparse m => m.nonzeroWords
  | _ => []

end Memory

end Jib
