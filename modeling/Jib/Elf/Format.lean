import Jib.Bytes
import Jib.Fault
import Jib.Power

/-!
# The records of an object file

The file header, program headers, section headers and symbols, in the layouts for 32 and 64 bits.
All numbers are stored lowest byte first.  A record of the wrong length cannot be read.
-/

namespace Jib.Elf

open scoped Jib.Power

/-- Cuts bytes into numbers of the given widths, which have to use them all. -/
def fields : List Nat → Bytes → Result (List Nat)
  | [], [] => .ok []
  | [], _ :: _ => .error .internal
  | w :: ws, bs =>
    if bs.length < w then .error .internal
    else do return Bytes.toNatLow (bs.take w) :: (← fields ws (bs.drop w))

/-- What is read from a file at an offset.  Past the end there is nothing; a negative count reads
the rest. -/
def readAt (file : Bytes) (offset count : Int) : Bytes :=
  let rest := if offset < 0 then [] else file.drop offset.toNat
  if count < 0 then rest else rest.take count.toNat

/-- An unsigned 64-bit number taken as a signed one. -/
def signed64 (n : Nat) : Int := if n < 2 ^ (63 : Nat) then n else (n : Int) - 2 ^ (64 : Nat)

structure Header where
  wide : Bool
  ident : Bytes
  type : Nat
  machine : Nat
  version : Nat
  entry : Nat
  programOffset : Nat
  sectionOffset : Nat
  flags : Nat
  headerSize : Nat
  programSize : Nat
  programCount : Nat
  sectionSize : Nat
  sectionCount : Nat
  nameSection : Nat
  deriving Repr, BEq, Inhabited

namespace Header

/-- Widths of the fields behind the identification. -/
def widths (wide : Bool) : List Nat :=
  let a := if wide then 8 else 4
  [2, 2, 4, a, a, a, 4, 2, 2, 2, 2, 2, 2]

def size (wide : Bool) : Nat := (widths wide).foldl (· + ·) 16

def ofBytes (wide : Bool) (bs : Bytes) : Result Header := do
  if bs.length < 16 then throw .internal
  let [type, machine, version, entry, po, so, flags, hs, ps, pc, ss, sc, ns] ←
    fields (widths wide) (bs.drop 16) | throw .internal
  return ⟨wide, bs.take 16, type, machine, version, entry, po, so, flags, hs, ps, pc, ss, sc, ns⟩

/-- The header in the layout for 32 bits; larger numbers have no place in it. -/
def toBytes (h : Header) : Result Bytes := do
  let numbers := [h.type, h.machine, h.version, h.entry, h.programOffset, h.sectionOffset, h.flags,
    h.headerSize, h.programSize, h.programCount, h.sectionSize, h.sectionCount, h.nameSection]
  let parts ← (numbers.zip (widths false)).mapM (fun (n, w) =>
    if n < 256 ^ w then .ok (Bytes.ofNatLow w n) else .error Fault.internal)
  return h.ident ++ parts.flatten

def ofFile (file : Bytes) : Result Header := do
  let first := file.take 5
  if !([0x7f, 0x45, 0x4c, 0x46] : Bytes).isPrefixOf first then
    throw (.badValue (some "Not a valid ELF file"))
  let kind :: _ := first.drop 4 | throw .outOfRange
  if kind == 2 then ofBytes true (file.take (size true))
  else if kind == 1 then ofBytes false (file.take (size false))
  else throw (.badValue (some "unknown kind of elf file"))

end Header

structure ProgramHeader where
  type : Nat
  flags : Nat
  offset : Nat
  virtualAddress : Nat
  physicalAddress : Nat
  fileSize : Nat
  memorySize : Nat
  alignment : Nat
  deriving Repr, BEq, Inhabited

namespace ProgramHeader

/-- The type of segments that are loaded. -/
def loadable : Nat := 1

def ofBytes (wide : Bool) (bs : Bytes) : Result ProgramHeader := do
  if wide then
    let [type, flags, offset, va, pa, fs, ms, al] ← fields [4, 4, 8, 8, 8, 8, 8, 8] bs
      | throw .internal
    return ⟨type, flags, offset, va, pa, fs, ms, al⟩
  else
    let [type, offset, va, pa, fs, ms, flags, al] ← fields [4, 4, 4, 4, 4, 4, 4, 4] bs
      | throw .internal
    return ⟨type, flags, offset, va, pa, fs, ms, al⟩

end ProgramHeader

structure SectionHeader where
  name : Nat
  type : Nat
  flags : Nat
  address : Nat
  offset : Nat
  size : Nat
  link : Nat
  info : Nat
  alignment : Nat
  entrySize : Nat
  deriving Repr, BEq, Inhabited

namespace SectionHeader

def symbolTable : Nat := 2

def stringTable : Nat := 3

/-- Whether a section takes part in the memory image. -/
def isAllocated (h : SectionHeader) : Bool := h.flags.testBit 1

def recordSize (wide : Bool) : Nat := if wide then 64 else 40

def ofBytes (wide : Bool) (bs : Bytes) : Result SectionHeader := do
  let a := if wide then 8 else 4
  let [name, type, flags, address, offset, size, link, info, al, es] ←
    fields [4, 4, a, a, a, a, 4, 4, a, a] bs | throw .internal
  return ⟨name, type, flags, address, offset, size, link, info, al, es⟩

end SectionHeader

structure Symbol where
  name : Nat
  value : Nat
  size : Nat
  info : Nat
  deriving Repr, BEq, Inhabited

namespace Symbol

def recordSize (wide : Bool) : Nat := if wide then 24 else 16

def ofBytes (wide : Bool) (bs : Bytes) : Result Symbol := do
  if wide then
    let [name, info, _, _, value, size] ← fields [4, 1, 1, 2, 8, 8] bs | throw .internal
    return ⟨name, value, size, info⟩
  else
    let [name, value, size, info, _, _] ← fields [4, 4, 4, 1, 1, 2] bs | throw .internal
    return ⟨name, value, size, info⟩

/-- Untyped symbols, objects and functions are kept. -/
def isKept (s : Symbol) : Bool := s.info % 16 ≤ 2

end Symbol

end Jib.Elf
