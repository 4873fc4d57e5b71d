import Jib.Platform.Common

/-!
# Primitives of the Arm machine

Memory, the count of cycles, and functions that stand in for those of the program: the step runs
until something ends it, and the check for the last instruction ends the run.
-/

namespace Jib.Arm

open scoped Jib.Power
open Primitive (effect operand addressOf isAddressSize isAccessSize)
open Platform (constantService)

/-- What a new machine is set to. -/
def settings : List (String × Datum) := [
  ("cycle_count", .int 0), ("max_cycle_count", .int 0), ("sail_verbosity", .int 0),
  ("promote_pc", .bool false)]

/-! ### Ends of a run -/

def cycleLimit : Fault := .named "CycleLimitReached" (some "")

def lastInstruction : Fault := .named "ExecutedTerminationOpcode" (some "")

/-! ### Memory -/

/-- A read of memory; only one that is a single access can fetch an instruction. -/
def readMemory (fetch : Bool) : Primitive.Effect
  | [_, size, a, n] => do
    if !isAddressSize size then throw .assertion
    let a ← addressOf a
    let n : Int ← operand n
    if isAccessSize n then
      return .bits (← RunM.ofExcept (Bits.mkSmall (n * 8) (← RunM.readMemory a n fetch)))
    return (← Primitive.readByteWise a false n.toNat none).elim .none .bits
  | _ => throw .internal

def memoryServices : List (String × Service) :=
  let boxed (name : String) (e : Primitive.Effect) : List (String × Service) :=
    (Primitive.boxedEffect name e).map (fun (n, e) => (n, fun _ args => e args))
  let exclusive := (boxed "write_mem" Primitive.writePlatform).take 1
  boxed "read_mem_ifetch" (readMemory true) ++ boxed "read_mem" (readMemory false)
    ++ boxed "read_mem_exclusive" (readMemory false) ++ boxed "write_mem" Primitive.writePlatform
    ++ exclusive.map (fun (_, f) => ("write_mem_exclusive", f))

/-! ### Cycles -/

/-- Counts a cycle; the last one that is allowed ends the run. -/
def countCycle : RunM Unit := do
  let n := (← RunM.number (← RunM.setting "cycle_count")) + 1
  RunM.setSetting "cycle_count" (.int n)
  let limit ← RunM.setting "max_cycle_count"
  if limit.truth then
    if n ≥ (← RunM.number limit) then
      RunM.print ("[Sail] TIMEOUT: exceeded " ++ limit.message ++ " cycles\n")
      throw cycleLimit

/-- A line; where a default value is told, marks for line ends become line ends. -/
def printLine (s : String) : RunM Unit :=
  let mark := "\\n"
  let isHelp := (s.splitOn mark).length > 1 && (s.splitOn "default").length > 1
  RunM.print ((if isHelp then "\n".intercalate (s.splitOn mark) else s) ++ "\n")

def services : List (String × Service) := memoryServices ++ [
  ("platform_branch_announce", fun _ _ => pure .unit),
  ("reset_registers", fun _ _ => pure .unit),
  ("elf_entry", constantService (do
    return .integer (← RunM.ofExcept (Integer.ofWord 0x80000000)))),
  ("cycle_count", constantService (do
    countCycle
    return .unit)),
  ("get_cycle_count", constantService (do
    RunM.ofExcept (Primitive.fn1 Integer.ofWord [← RunM.setting "cycle_count"]))),
  ("sail_get_verbosity", constantService (RunM.setting "sail_verbosity")),
  ("emulator_read_tag", fun _ _ => throw .unfinished),
  ("emulator_write_tag", fun _ _ => throw .unfinished),
  ("print_endline", fun _ => effect printLine)]

/-! ### Functions that are replaced -/

def stepName : String := "func_zstep_model"

/-- Steps until the program raises an exception or something ends the run. -/
def steps (ask : Answers) : Nat → RunM Datum
  | 0 => throw .internal
  | n + 1 => do
    if (← RunM.setting "promote_pc").truth then
      let _ ← RunM.slot "_reg_z_PC"
    let _ ← ask (.own stepName [.unit])
    if (← RunM.slot "have_exception").truth then return .unit
    countCycle
    steps ask n

/-- How many steps may be taken. -/
def stepBound : Nat := 2 ^ (60 : Nat)

/-- A single step if steps are traced, and all steps otherwise. -/
def step : Service := fun ask args => do
  if (← RunM.setting "sail_verbosity").truth then ask (.own stepName args) else steps ask stepBound

def noteInstruction : Service
  | ask, [e, o, c] => do
    let _ : UInt64 ← operand o
    ask (.own "func_z__SetThisInstrDetails" [e, o, c])
  | _, _ => throw .internal

def lastOpcodeClass : String := "Union_zoptionzIbzK_zSomezIbzK"

/-- Ends the run at the instruction that was asked for. -/
def checkLast : Service
  | ask, [_, instruction] => do
    let wanted ← RunM.slot "_reg_z__emulator_termination_opcode"
    if (← Scope.classOf? wanted) == some lastOpcodeClass then
      let code ← addressOf (← ask (.convert lastOpcodeClass wanted))
      if instruction.same (.word code) then
        let pc ← RunM.number (← RunM.slot "_reg_z_PC")
        RunM.print ("[Sail] reached emulator termination opcode "
          ++ Platform.hexText code.toNat ++ " at PC " ++ Platform.hexText pc ++ "\n")
        throw lastInstruction
    return .unit
  | _, _ => throw .internal

def replacements : List (String × Service) := [
  (stepName, step),
  ("func_z__SetThisInstrDetails", noteInstruction),
  ("func_z__CheckForEmulatorTermination", checkLast)]

def platform : Platform where
  primitive? := Platform.primitives services
  replacement? name := replacements.lookup name
  settings := settings

/-! ### Compiling the model -/

/-- Registers that hardly ever change. -/
def steadyRegisters : List String := [
  "z__empam_implemented", "z__mpam_implemented", "z__supported_pa_sizze",
  "z__block_bbm_implemented"]

def contains (part name : String) : Bool := (name.splitOn part).length > 1

/-- Parts of names of functions that are always written out where they are called. -/
def inlineParts : List String := [
  "subrange_subrange", "slice_mask", "sail_mask", "extzzv", "IMPDEF", "ImpDef",
  "IsFeatureImplemented", "num_of_Feature", "undefined", "TGxGranuleBits", "fdiv_int", "Align__1"]

def laterInlineParts : List String := [
  "TTBaseAddress", "zAArch64_S1StartLevel", "zAArch64_S2StartLevel",
  "zAArch64_PhysicalAddressSizze",
  "zAArch64_PAMax"]

/-- Whether a function is written out where it is called, if that is decided by its name. -/
def shouldInline (name : String) : Option Bool :=
  if contains "step_model" name then some false
  else if inlineParts.any (contains · name) || name == "zAlign"
      || laterInlineParts.any (contains · name) then some true
  else if name == "z__SetThisInstrDetails" || name == "z__CheckForEmulatorTermination" then
    some false
  else none

def compileOptions : CompileOptions where
  promoted := steadyRegisters
  shouldInline := shouldInline

end Jib.Arm
