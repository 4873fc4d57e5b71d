import Jib.Platform.Common

/-!
# A board with words of sixteen bits

Programs run with the common primitives, and with a read-only memory of instructions and a memory of
65536 words beside them.
-/

namespace Jib.Platform

namespace Hack

open Primitive (effect)

def memorySize : Nat := 65536

/-- The word of the program at an address; there are zeros behind its end. -/
def readRom (a : Datum) : RunM Datum := do
  let rom := (← get).rom
  let n ← RunM.number a
  if n < rom.size then return .word (rom.getD (← RunM.ofExcept (listPosition rom.size n)) 0)
  return .word 0

def address (a : Datum) : RunM Nat := do RunM.ofExcept (listPosition memorySize (← RunM.number a))

def readRam (a : Datum) : RunM Datum := do
  let i ← address a
  return (← get).ram.getD i (.word 0)

def writeRam (a d : Datum) : RunM Datum := do
  let i ← address a
  modify (fun w => { w with ram := w.ram.insert i d })
  return .none

def printDebug (cycles pc a d : Datum) : RunM Datum := do
  RunM.print (s!"PC: {pc.message}, A: {a.message}, D: {d.message}, cycle count: "
    ++ cycles.message ++ "\n")
  return .none

/-- The words of the memory that are not zero, in order. -/
def usedWords (w : World) : List (Nat × Datum) :=
  (w.ram.toList.filter (fun e => !e.2.same (.word 0))).mergeSort (fun a b => a.1 ≤ b.1)

def effects : List (String × Service) := [
  ("my_read_rom", fun _ => effect readRom),
  ("my_read_mem", fun _ => effect readRam),
  ("my_write_mem", fun _ => effect writeRam),
  ("my_print_debug", fun _ => effect printDebug)]

end Hack

def hack : Platform where
  primitive? := primitives Hack.effects

end Jib.Platform
