import Jib.Elf.Format
import Jib.Memory.Basic
import Jib.Table

/-!
# Images

What an object file says about memory: its allocated sections with their symbols, and the loadable
segments, which are written into a memory.
-/

namespace Jib.Elf

open scoped Jib.Power

structure Section where
  name : Bytes
  address : Nat
  data : Bytes
  deriving Repr, BEq, Inhabited

structure Image where
  sections : List Section := []
  /-- Names with their values; a later entry of a name replaces the value. -/
  symbols : List (Bytes × Nat) := []
  deriving Repr, BEq, Inhabited

namespace Image

def addSymbol (symbols : List (Bytes × Nat)) (name : Bytes) (value : Nat) : List (Bytes × Nat) :=
  match symbols with
  | [] => [(name, value)]
  | (n, v) :: rest => if n == name then (n, value) :: rest else (n, v) :: addSymbol rest name value

def section? (i : Image) (name : Bytes) : Option Section :=
  i.sections.find? (fun s => s.name == name)

def symbol? (i : Image) (name : Bytes) : Option Nat := i.symbols.lookup name

end Image

/-- Sections by these names have no data in the file. -/
def zeroNames : List Bytes := [Bytes.ofText ".sbss", Bytes.ofText ".bss"]

/-- The largest section of zeros that can be made. -/
def zeroLimit : Nat := 2 ^ (36 : Nat)

/-- The data of a section.  A section of zeros is only known in the layout for 64 bits. -/
def sectionData (file : Bytes) (wide : Bool) (name : Bytes) (h : SectionHeader) :
    Result Bytes :=
  if zeroNames.contains name then
    if !wide then .error .badValue
    else if h.size ≥ 2 ^ (63 : Nat) then .error (.overflow none)
    else if h.size ≥ zeroLimit then .error .internal
    else .ok (List.replicate h.size 0)
  else .ok (readAt file (signed64 h.offset) (signed64 h.size))

/-- What has been read of the section table. -/
structure SectionState where
  sections : List Section := []
  strings : Option Bytes := none
  symbols : Option Bytes := none

def readSection (file : Bytes) (h : Header) (names : Bytes) (i : Nat) (st : SectionState) :
    Result SectionState := do
  let raw := readAt file (signed64 h.sectionOffset + i * h.sectionSize) h.sectionSize
  let padded := raw ++ List.replicate (SectionHeader.recordSize h.wide - raw.length) 0
  let s ← SectionHeader.ofBytes h.wide padded
  match Bytes.cString? names s.name with
  | none => throw .assertion
  | some name =>
    let data ← sectionData file h.wide name s
    if s.type == SectionHeader.stringTable then
      return if i == h.nameSection then st else { st with strings := some data }
    else if s.type == SectionHeader.symbolTable then return { st with symbols := some data }
    else if s.isAllocated then
      return { st with sections := st.sections ++ [⟨name, s.address, data⟩] }
    else return st

def readSections (file : Bytes) (h : Header) (names : Bytes) :
    List Nat → SectionState → Result SectionState
  | [], st => .ok st
  | i :: is, st => do readSections file h names is (← readSection file h names i st)

def readSymbols (wide : Bool) (strings table : Bytes) :
    List Nat → List (Bytes × Nat) → Result (List (Bytes × Nat))
  | [], acc => .ok acc
  | i :: is, acc => do
    let size := Symbol.recordSize wide
    let raw := (table.drop (i * size)).take size
    if i == 0 then
      if raw.all (· == 0) then readSymbols wide strings table is acc else throw .assertion
    else
      let s ← Symbol.ofBytes wide raw
      match Bytes.cString? strings s.name with
      | none => throw .assertion
      | some name =>
        readSymbols wide strings table is
          (if s.isKept then Image.addSymbol acc name s.value else acc)

/-- Reads sections and symbols. -/
def Image.ofFile (file : Bytes) : Result Image := do
  let h ← Header.ofFile file
  let raw := readAt file (signed64 h.sectionOffset + h.nameSection * h.sectionSize) h.sectionSize
  let s ← SectionHeader.ofBytes h.wide raw
  let names := readAt file (signed64 s.offset) (signed64 s.size)
  let st ← readSections file h names (List.range h.sectionCount) {}
  match st.strings, st.symbols with
  | some strings, some table =>
    let count := table.length / Symbol.recordSize h.wide
    return ⟨st.sections, ← readSymbols h.wide strings table (List.range count) []⟩
  | _, _ => throw .assertion

/-- Writes bytes one after the other. -/
def writeBytes (m : Memory) (a : UInt64) : Bytes → Result Memory
  | [] => .ok m
  | b :: bs =>
    match m.write a 1 b.toUInt64 with
    | (.ok (), m) => writeBytes m (a + 1) bs
    | (.error e, _) => .error e

/-- Writes a segment: its bytes from the file, then zeros. -/
def loadSegment (file : Bytes) (p : ProgramHeader) (m : Memory) : Result Memory := do
  let content := readAt file (signed64 p.offset) (signed64 p.fileSize)
  let start := p.physicalAddress.toUInt64
  let m ← writeBytes m start (content.take p.fileSize)
  if content.length < p.fileSize then throw .outOfRange
  writeBytes m (start + p.fileSize.toUInt64) (List.replicate (p.memorySize - p.fileSize) 0)

def loadSegments (file : Bytes) (h : Header) : List Nat → Memory → Result Memory
  | [], m => .ok m
  | i :: is, m => do
    let raw := readAt file (signed64 h.programOffset + i * h.programSize) h.programSize
    let p ← ProgramHeader.ofBytes h.wide raw
    let m ← if p.type == ProgramHeader.loadable then loadSegment file p m else pure m
    loadSegments file h is m

/-- Loads the segments of a file and gives the entry address. -/
def load (file : Bytes) (m : Memory) : Result (Nat × Memory) := do
  let h ← Header.ofFile file
  return (h.entry, ← loadSegments file h (List.range h.programCount) m)

end Jib.Elf
