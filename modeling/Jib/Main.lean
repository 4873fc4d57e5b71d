import Jib.Platform.Arm.FrontEnd
import Jib.Platform.Riscv.FrontEnd

/-!
# Command line

`jib PLATFORM MODEL ARGUMENT...` reads a model in the instruction language and hands the arguments
to the front program of the platform, `riscv32`, `riscv64` or `arm`.  Every argument that names a
file is read beforehand.
-/

namespace Jib.CommandLine

def usage : String := "usage: jib riscv32|riscv64|arm MODEL ARGUMENT...\n"

/-- The front program of a platform over a loaded model. -/
def frontProgram (platform source : String) (files : Platform.Files) (args : List String) :
    Result (Loaded × RunM Int) := do
  let load (options : CompileOptions) (p : Platform) : Result Loaded := do
    (← compileProgram options "" source).2.load p
  match platform with
  | "arm" =>
    let l ← load Arm.compileOptions Arm.platform
    return (l, Arm.launch l files args)
  | "riscv64" =>
    let l ← load {} (Riscv.platform true)
    return (l, Riscv.launch files [(true, l)] args)
  | "riscv32" =>
    let l ← load {} (Riscv.platform false)
    return (l, Riscv.launch files [(false, l)] args)
  | _ => throw .internal

/-- The exit code of a run, with what it printed. -/
def finish (p : Loaded × RunM Int) : UInt32 × String × String :=
  match p.2 p.1.world with
  | .ok code w => ((code % 256).toNat.toUInt32, w.output, w.errors)
  | .error _ w => (1, w.output, w.errors)

def readFiles (names : List String) : IO Platform.Files :=
  names.filterMapM (fun (name : String) => do
    try
      let bytes ← IO.FS.readBinFile name
      return some (name, bytes.toList)
    catch _ => return none)

end Jib.CommandLine

open Jib.CommandLine in
def main (args : List String) : IO UInt32 := do
  match args with
  | platform :: model :: rest =>
    match frontProgram platform (← IO.FS.readFile model) (← readFiles rest) ("jib" :: rest) with
    | .ok p =>
      let (code, output, errors) := finish p
      (← IO.getStdout).putStr output
      (← IO.getStderr).putStr errors
      return code
    | .error _ =>
      (← IO.getStderr).putStr usage
      return 1
  | _ =>
    (← IO.getStderr).putStr usage
    return 1
