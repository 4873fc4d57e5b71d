import Jib.Platform.Options
import Jib.Platform.Riscv.Clock
import Jib.Platform.Riscv.Dump
import Jib.Platform.Riscv.Services

/-!
# Running a RISC-V model

The machine runs until it is done, and the program in front of it reads its options.
-/

namespace Jib.Riscv

open Platform (OptionM)
open Platform.OptionM (print flag value fileExists)

/-! ### Running -/

/-- What the main loop needs of a model. -/
def clocked (ask : Answers) : Clocked RunM where
  isDone := do return (← RunM.slot "_reg_zhtif_done").truth
  step n := do
    let _ ← RunM.slot "_reg_zPC"
    let z ← RunM.ofExcept (Integer.ofWord n)
    let retires ← ask (.function "func_zstep" [.integer z])
    if (← RunM.slot "have_exception").truth then
      let place ← RunM.slot "throw_location"
      RunM.print ("ended with exception!\n<object>\nfrom " ++ place.message ++ "\n")
      throw (.badValue (some ""))
    return retires.truth
  tick := do
    let _ ← ask (.function "func_ztick_clock" [.unit])
    let _ ← ask (.function "func_ztick_platform" [.unit])
  perTick := settingNumber "rv_insns_per_tick"

/-- Runs the machine and prints how it went. -/
def run (s : Scope) (options : LoopOptions) : RunM Unit := do
  let _ ← initRegions
  let last ← turns (clocked (s.answer Scope.depth)) options s.turns {}
  let code ← RunM.slot "_reg_zhtif_exit_code"
  if code.same (.int 0) then RunM.print "SUCCESS\n"
  else
    RunM.print ("FAILURE: " ++ code.message ++ "\n")
    throw (.badValue (some ""))
  RunM.print s!"Instructions: {last.retired}\n"

/-! ### Options -/

def version : String := "0.0.1-alpha0"

def modelVersion : String := "0.5-170-g23f18200b7"

def helpText (program : String) : String :=
  "\nUsage: " ++ program ++ " [options] <elf_file>\n\n"
  ++ "Run the Pydrofoil RISC-V emulator on elf_file.\n\n"
  ++ "--rv32                          run emulator in 32bit mode\n"
  ++ "-l/--inst-limit <limit>         exit after limit instructions have been executed\n"
  ++ "--instructions-per-tick <num>   tick the emulated clock every num instructions "
  ++ "(default: 100)\n"
  ++ "--verbose                       print a detailed trace of every instruction executed\n"
  ++ "--print-kips                    print kip/s every 2**20 instructions\n"
  ++ "--jit <options>                 set JIT options (try --jit help for details)\n"
  ++ "--dump <file>                   load elf file disassembly from file\n"
  ++ "-b/--device-tree-blob <file>    load dtb from file (usually not needed, "
  ++ "Pydrofoil has a dtb built-in)\n"
  ++ "--disable-vext                  disable vector extension\n"
  ++ "--version                       print the version of pydrofoil-riscv\n"
  ++ "--help                          print this information and exit\n\n"

def integerOf (s : String) : OptionM Int := (Text.readInt? s).elim (throw .badValue) pure

/-- The program in front of the machine, up to the reading of the executable; gives the exit code.
`machines` are the models that it can run, the one for 32 bits last. -/
def start (files : Platform.Files) (machines : List (Bool × Loaded)) : OptionM Int := do
  let program := (← get).headD ""
  if ← flag "--help" then
    print (helpText program)
    return 0
  if ← flag "--version" then
    print s!"pydrofoil-riscv {version} (Sail model version: {modelVersion})\n"
    return 0
  let blob ← value "-b" "--device-tree-blob"
  if let some t ← value "-l" "--inst-limit" then
    let n ← integerOf t
    print s!"instruction limit {n}\n"
  let _ ← value "--dump" ""
  let _ ← value "--instructions-per-tick" ""
  let _ ← value "--jit" ""
  let _ ← flag "--disable-vext"
  let _ ← flag "--verbose"
  let _ ← flag "--print-kips"
  let narrow ← flag "--rv32"
  if narrow && machines.length != 2 then throw .assertion
  match ← get with
  | [] | [_] =>
    print (helpText program)
    return 1
  | _ :: file :: rest =>
    if rest.length == 1 then
      let _ ← integerOf (rest.headD "")
    let (wide, l) ← RunM.ofOption (if narrow then machines[1]? else machines[0]?)
    l.newMachine
    match blob with
    | some b => if !(← fileExists files b) then return -1
    | none => let _ ← createDeviceTree wide
    if !(← fileExists files file) then return -1
    throw .internal

/-- Runs the front program with machines of its own. -/
def launch (files : Platform.Files) (machines : List (Bool × Loaded)) (args : List String) :
    RunM Int := fun w =>
  match (start files machines).run args w with
  | .ok (code, _) v => .ok code { w with heap := v.heap, output := v.output, errors := v.errors }
  | .error e v => .error e { w with heap := v.heap, output := v.output, errors := v.errors }

end Jib.Riscv
