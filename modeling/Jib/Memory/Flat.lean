import Jib.Word

/-!
# Flat memory

An array of 64-bit words.  Each word has a status: it starts out normal, becomes immutable when an
instruction is fetched from it, and mutable when an immutable word gets another content.  The
version changes at every such step and at no other, so what was fetched from immutable words stays
valid as long as the version is the same.
-/

namespace Jib

/-- Where a byte address lies: in which word, and at which byte of it. -/
structure Place where
  word : UInt64
  byte : UInt64

namespace Place

def ofAddress (a : UInt64) : Place := ⟨a >>> 3, a &&& 7⟩

end Place

/-- The bits that an access of a number of bytes covers. -/
def accessMask (bytes : Nat) : UInt64 := Word.shl 1 (bytes * 8) - 1

/-- The part of a word that an access reads. -/
def readPart (bytes : Nat) (inWord data : UInt64) : UInt64 :=
  if bytes == 8 then data else Word.shr data (inWord.toNat * 8) &&& accessMask bytes

/-- A word with the part replaced that an access covers. -/
def writePart (bytes : Nat) (inWord old value : UInt64) : UInt64 :=
  if bytes == 8 then value
  else
    (old &&& ~~~Word.shl (accessMask bytes) (inWord.toNat * 8)) |||
      Word.shl value (inWord.toNat * 8)

/-- Whether a value fits an access of a number of bytes. -/
def fitsAccess (bytes : Nat) (value : UInt64) : Bool :=
  bytes == 8 || value &&& ~~~accessMask bytes == 0

/-- An access of eight bytes has to start where a word does. -/
def checkWhole (bytes : Nat) (inWord : UInt64) : Result Unit :=
  if bytes == 8 && inWord != 0 then .error .assertion else .ok ()

/-- What an access reads from a word. -/
def loadPart (bytes : Nat) (inWord : UInt64) (word : Result UInt64) : Result UInt64 := do
  let data ← word
  checkWhole bytes inWord
  return readPart bytes inWord data

/-- The word that an access makes of a word; the value is checked before the word is looked at. -/
def storePart (bytes : Nat) (inWord value : UInt64) (word : Result UInt64) :
    Result UInt64 := do
  checkWhole bytes inWord
  if !fitsAccess bytes value then throw .assertion
  return writePart bytes inWord (← word) value

inductive WordStatus where
  | normal
  | immutable
  | mutable
  deriving Repr, DecidableEq, Inhabited

structure FlatMemory where
  words : Array UInt64
  status : Array WordStatus
  version : Nat
  deriving Repr, BEq, Inhabited

namespace FlatMemory

/-- A memory of a size in bytes.  There is a status for every byte of the size, so words past the
end have one too. -/
def ofSize (size : Nat) : FlatMemory :=
  ⟨Array.replicate (size / 8) 0, Array.replicate size .normal, 0⟩

def read? (m : FlatMemory) (i : UInt64) : Result UInt64 :=
  match m.words[i.toNat]? with
  | some w => .ok w
  | none => .error .outOfRange

def status? (m : FlatMemory) (i : UInt64) : Result WordStatus :=
  match m.status[i.toNat]? with
  | some s => .ok s
  | none => .error .outOfRange

/-- The status of a word.  The answer is kept under the version, which has to be the present one. -/
def statusUnder (m : FlatMemory) (i : UInt64) (version : Nat) : Result WordStatus :=
  if version == m.version then m.status? i else .error .assertion

/-- The content of an immutable word.  The answer is kept under the version, which has to be the
present one. -/
def immutableRead (m : FlatMemory) (i : UInt64) (version : Nat) : Result UInt64 :=
  if version == m.version then m.read? i else .error .assertion

/-- A normal word becomes immutable. -/
def markImmutable (m : FlatMemory) (a : UInt64) : Result FlatMemory := do
  let i := (Place.ofAddress a).word
  if (← m.statusUnder i m.version) == .normal then
    return { m with status := m.status.setIfInBounds i.toNat .immutable }
  else return m

def fetchWord (m : FlatMemory) (i : UInt64) : Result UInt64 := do
  if (← m.statusUnder i m.version) == .immutable then m.immutableRead i m.version else m.read? i

/-- Makes an immutable word mutable, under a new version. -/
def invalidate (m : FlatMemory) (i : UInt64) : FlatMemory :=
  { m with version := m.version + 1, status := m.status.setIfInBounds i.toNat .mutable }

/-- Stores a word; an immutable word that gets another content becomes mutable. -/
def writeWord (m : FlatMemory) (i value : UInt64) : Result FlatMemory := do
  let s ← m.status? i
  let old ← m.read? i
  let m := if s == .immutable && old != value then m.invalidate i else m
  return { m with words := m.words.setIfInBounds i.toNat value }

def alignedRead (m : FlatMemory) (a : UInt64) (bytes : Nat) (fetch : Bool) :
    Result UInt64 × FlatMemory :=
  let p := Place.ofAddress a
  if fetch then
    match m.markImmutable a with
    | .error e => (.error e, m)
    | .ok m => (loadPart bytes p.byte (m.fetchWord p.word), m)
  else (loadPart bytes p.byte (m.read? p.word), m)

def alignedWrite (m : FlatMemory) (a : UInt64) (bytes : Nat) (value : UInt64) :
    Result FlatMemory := do
  let p := Place.ofAddress a
  m.writeWord p.word (← storePart bytes p.byte value (m.read? p.word))

end FlatMemory

end Jib
