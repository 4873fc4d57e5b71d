import Jib.Platform.Riscv.Settings

/-!
# Disassembly

A disassembly tells for each address what stands there.  Its lines name a section, a function, or an
address with a text.
-/

namespace Jib.Riscv

/-- The lines of a text; a carriage return ends a line too, and counts once with a line feed. -/
def textLines : List Char → List Char → List (List Char)
  | [], [] => []
  | [], acc => [acc.reverse]
  | '\r' :: '\n' :: cs, acc => acc.reverse :: textLines cs []
  | c :: cs, acc =>
    if c == '\n' || c == '\r' then acc.reverse :: textLines cs [] else textLines cs (c :: acc)

/-- A line without blanks and tabs at its ends. -/
def trimmed (cs : List Char) : List Char :=
  let outer (c : Char) : Bool := c == ' ' || c == '\t'
  ((cs.dropWhile outer).reverse.dropWhile outer).reverse

/-- A number in base sixteen, modulo two to the word size. -/
def dumpAddress : List Char → UInt64 → Option UInt64
  | [], a => some a
  | c :: cs, a =>
    ((Text.digitValue c).filter (· < 16)).bind fun d => dumpAddress cs (a * 16 + d.toUInt64)

structure DumpState where
  sectionName : List Char := ['?']
  functionName : List Char := ['?']
  entries : List (UInt64 × String) := []

def sectionMark : List Char := "Disassembly of section ".toList

/-- The part of a list behind the last element of a kind. -/
def afterLast? (c : Char) (cs : List Char) : Option (List Char) :=
  if cs.contains c then some (cs.reverse.takeWhile (· != c)).reverse else none

/-- Reads a line. -/
def DumpState.addLine (s : DumpState) (raw : List Char) : DumpState :=
  let line := trimmed raw
  if line.isEmpty then s
  else if sectionMark.isPrefixOf line then { s with sectionName := line.drop sectionMark.length }
  else if [':', '>'].isPrefixOf line.reverse then
    (afterLast? '<' line).elim s fun rest => { s with functionName := rest.take (rest.length - 2) }
  else if line.contains ':' then
    let text := trimmed ((line.dropWhile (· != ':')).drop 1)
    match dumpAddress (line.takeWhile (· != ':')) 0 with
    | some a =>
      let entry := String.ofList (s.sectionName ++ [' '] ++ s.functionName ++ [' '] ++ text)
      { s with entries := (a, entry) :: s.entries.filter (fun e => e.1 != a) }
    | none => s
  else s

/-- The texts of a disassembly by their addresses, in order. -/
def readDump (file : Bytes) : List (UInt64 × String) :=
  let s := (textLines file.text.toList []).foldl DumpState.addLine {}
  s.entries.mergeSort (fun x y => x.1 ≤ y.1)

/-- Reads a disassembly and keeps it. -/
def loadDump (file : Bytes) : RunM (List (UInt64 × String)) := do
  let entries := readDump file
  let cells ← entries.mapM (fun (a, t) => RunM.newList #[.word a, .text t])
  RunM.setSetting "dump_dict" (← RunM.newList cells.toArray)
  return entries

/-- What is known about an address. -/
def dumpText? (a : Int) : RunM (Option String) := do
  let .list r ← RunM.setting "dump_dict" | return none
  (← RunM.items (.list r)).toList.findSomeM? fun c => do
    let [k, .text t] := (← RunM.items c).toList | return none
    return if k.same (.int a) then some t else none

/-- How a place in the run is called. -/
def location (pc : Int) (tick : Bool) : RunM String := do
  if tick then return "TICK " ++ Platform.hexText pc
  return Platform.hexText pc ++ (← dumpText? pc).elim "" (": " ++ ·)

end Jib.Riscv
