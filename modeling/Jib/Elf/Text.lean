import Jib.Elf.Image
import Jib.Text.Quoted

/-!
# Object files as text

Listings of the records and tables of an object file.
-/

namespace Jib.Elf

def hexNumber (n : Nat) : String := "0x" ++ Text.hexDigits n

/-- A record as a title and named values, with a comma behind each value but possibly the last. -/
def recordText (title : String) (values : List (String × String)) (lastComma : Bool) : String :=
  let line (i : Nat) (v : String × String) : String :=
    let name := v.1 ++ String.ofList (List.replicate (9 - v.1.length) ' ')
    "   " ++ name ++ " = " ++ v.2 ++ (if i + 1 < values.length || lastComma then ",\n" else "\n")
  "\n " ++ title ++ ":\n" ++ String.join (values.zipIdx.map (fun (v, i) => line i v))

def Header.text (h : Header) : String :=
  recordText "ElfHeader" [
    ("ident", Bytes.text h.ident), ("type", toString h.type), ("machine", toString h.machine),
    ("version", toString h.version), ("entry", hexNumber h.entry),
    ("phoff", hexNumber h.programOffset), ("shoff", hexNumber h.sectionOffset),
    ("flags", hexNumber h.flags), ("ehsize", toString h.headerSize),
    ("phentsize", toString h.programSize), ("phnum", toString h.programCount),
    ("shentsize", toString h.sectionSize), ("shnum", toString h.sectionCount),
    ("shstrndx", toString h.nameSection)] false

def ProgramHeader.text (p : ProgramHeader) : String :=
  recordText "ElfProgramHeader" [
    ("type", toString p.type), ("flags", toString p.flags), ("offset", toString p.offset),
    ("vaddr", toString p.virtualAddress), ("paddr", toString p.physicalAddress),
    ("filesz", toString p.fileSize), ("memsz", toString p.memorySize),
    ("align", toString p.alignment)] true

def SectionHeader.text (s : SectionHeader) : String :=
  recordText "ElfSectionHeader" [
    ("name", toString s.name), ("type", toString s.type), ("flags", hexNumber s.flags),
    ("addr", hexNumber s.address), ("offset", hexNumber s.offset), ("size", toString s.size),
    ("link", toString s.link), ("info", toString s.info), ("addralign", toString s.alignment),
    ("entsize", toString s.entrySize)] true

/-- The slices of a table of records. -/
def slices (file : Bytes) (offset size count : Nat) : List Bytes :=
  (List.range count).map (fun i => (file.drop (offset + i * size)).take size)

def sectionTexts (file : Bytes) : Result (List String) := do
  let h ← Header.ofFile file
  (slices file h.sectionOffset h.sectionSize h.sectionCount).mapM (fun bs => do
    return (← SectionHeader.ofBytes h.wide bs).text)

def programTexts (file : Bytes) : Result (List String) := do
  let h ← Header.ofFile file
  (slices file h.programOffset h.programSize h.programCount).mapM (fun bs => do
    return (← ProgramHeader.ofBytes h.wide bs).text)

def padLeft (width : Nat) (c : Char) (s : String) : String :=
  String.ofList (List.replicate (width - s.length) c) ++ s

def padRight (width : Nat) (s : String) : String :=
  s ++ String.ofList (List.replicate (width - s.length) ' ')

def Image.sectionTable (i : Image) : List String :=
  "Idx Name           Addr     Size" :: i.sections.zipIdx.map (fun (s, n) =>
    padLeft 3 ' ' (toString n) ++ " " ++ padRight 14 (Bytes.text s.name) ++ " "
      ++ padLeft 8 '0' (Text.hexDigits s.address) ++ " " ++ toString s.data.length)

def Image.symbolTable (i : Image) : List String :=
  i.symbols.map (fun (n, v) => " " ++ padLeft 8 '0' (Text.hexDigits v) ++ " " ++ Bytes.text n)

def Image.sectionAddress (i : Image) (name : Bytes) : Result Nat :=
  match i.section? name with
  | some s => .ok s.address
  | none =>
    .error (.missingKey
      (some ("('Could not find section \x7b\x7d!', " ++ Text.quoted (Bytes.text name) ++ ")")))

def Image.symbolValue (i : Image) (name : Bytes) : Result Nat :=
  match i.symbol? name with
  | some v => .ok v
  | none => .error .missingKey

end Jib.Elf
