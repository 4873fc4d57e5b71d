import Jib.Platform.Arm.Services
import Jib.Platform.Options

/-!
# Running an Arm model

The front program reads its options, loads files into memory, sets the configuration, and runs the
main function of the model.
-/

namespace Jib.Arm

open Platform (OptionM Files hexText)
open Platform.OptionM (print flag value values fileExists)

/-- A numeral with a mark for its base; the number has to fit a machine word. -/
def readNumber (s : String) : Result Int :=
  ((Text.readMarkedInt? s).filter GraphM.fitsWord).elim (.error .badNumeral) .ok

def number (s : String) : OptionM Int := RunM.ofExcept (readNumber s)

def numberOption (short long : String) : OptionM (Option Int) := do
  (← value short long).mapM number

/-! ### Memory -/

/-- Writes bytes one after the other. -/
def writeBytes : UInt64 → Bytes → RunM Unit
  | _, [] => pure ()
  | a, b :: bs => do
    RunM.writeMemory a 1 b.toNat.toUInt64
    writeBytes (a + 1) bs

/-- Writes a file to memory. -/
def loadFile (files : Files) (offset : UInt64) (name : String) : RunM Unit := do
  writeBytes offset (← RunM.ofOption (files.find? name))

/-- Writes several files to memory. -/
def loadFiles (files : Files) (offsets : List UInt64) (names : List String) : RunM Unit := do
  if offsets.length != names.length then throw .assertion
  let _ ← (offsets.zip names).mapM (fun (a, n) => loadFile files a n)

/-! ### Parts of a run -/

/-- What is left to do after a part: go on, or leave with a code. -/
abbrev Exit := Option Int

/-- Loads the file that an option names together with its place. -/
def loadBinary (files : Files) (option : String) : OptionM Exit := do
  match option.splitOn "," with
  | [_] =>
    print ("could not parse binary parameter: " ++ option ++ "\n"
      ++ "must be of the form <offset>,<filename> where <filename> is a path\n"
      ++ "to a file to be loaded at <offset> (which is a number)\n")
    return some (-1)
  | [place, file] =>
    let offset ← number place
    if !(← fileExists files file) then return some (-1)
    print ("loading binary blob " ++ file ++ " at offset " ++ hexText offset ++ "\n")
    loadFile files (Word.ofInt offset) file
    return none
  | _ => throw .badValue

/-- Sets what an option names. -/
def configure (s : Scope) (option : String) : OptionM Exit := do
  match option.splitOn "=" with
  | [_] =>
    print ("could not parse config parameter: " ++ option ++ "\n"
      ++ "must be of the form <parameter>=<value>, where <value> is a number.\n"
      ++ "documented <parameter>s are:\n")
    let _ ← s.callFunction "func_z__ListConfig" [.unit]
    return some (-1)
  | [name, setting] =>
    let n ← number setting
    print ("setting config value " ++ name ++ " to " ++ hexText n ++ "\n")
    let z ← RunM.ofExcept (Integer.ofWord n)
    let _ ← s.callFunction "func_z__SetConfig" [.text name, .integer z]
    return none
  | _ => throw .badValue

/-- Does something for each option until one of them leaves. -/
def each (f : String → OptionM Exit) : List String → OptionM Exit
  | [] => return none
  | x :: xs => do
    if let some code ← f x then return some code
    each f xs

/-- Runs the main function; reaching the limit ends only the last repetition with a failure. -/
def runMain (s : Scope) (isLast : Bool) : RunM Unit := fun w =>
  let note (w : World) : World :=
    let n := (w.slots.getD (settingSlot "cycle_count") (.int 0)).message
    { w with output := w.output ++ "ran for " ++ n ++ " instructions\n" }
  match s.callFunction "func_zmain" [.unit] w with
  | .ok _ w => .ok () (note w)
  | .error e w =>
    if e == cycleLimit then if isLast then .error e (note w) else .ok () (note w)
    else if e == lastInstruction then .error e (note w)
    else .error .unfinished (note w)

def repetition (s : Scope) (files : Files) (binaries configs : List String) (isLast : Bool) :
    OptionM Exit := do
  let _ ← s.callFunction "func_zinitializze_registers" [.unit]
  modifyThe World (fun w => { w with memory := .sparse .empty })
  if let some code ← each (loadBinary files) binaries then return some code
  if let some code ← each (configure s) configs then return some code
  RunM.setSetting "cycle_count" (.int 0)
  runMain s isLast
  return none

def repetitions (s : Scope) (files : Files) (binaries configs : List String) : Nat → OptionM Int
  | 0 => return 0
  | n + 1 => do
    if let some code ← repetition s files binaries configs (n == 0) then return code
    repetitions s files binaries configs n

/-- The front program; gives the exit code. -/
def start (l : Loaded) (files : Files) : OptionM Int := do
  l.newMachine
  if let some n ← numberOption "-l" "--inst-limit" then
    print s!"instruction limit {n}\n"
    RunM.setSetting "max_cycle_count" (.int n)
  let verbosity ← numberOption "-v" "--verbosity"
  if let some n := verbosity then print ("verbosity " ++ hexText n ++ "\n")
  RunM.setSetting "sail_verbosity" (.word (Word.ofInt (verbosity.getD 0)))
  let binaries ← values "-b" "--binary"
  let _ ← value "--jit" ""
  RunM.setSetting "promote_pc" (.bool (← flag "--promote-pc"))
  let configs ← values "-C" "--model-config"
  let count ← numberOption "--repeat" ""
  if let some n := count then print s!"will do {n} repetitions\n"
  match ← get with
  | [_] =>
    print "done, starting main\n"
    repetitions l.scope files binaries configs (count.getD 1).toNat
  | args =>
    print ("unrecognized option: " ++ args.getD 1 "" ++ "\n")
    return 1

/-- Runs the front program; a run that was ended on purpose succeeds. -/
def launch (l : Loaded) (files : Files) (args : List String) : RunM Int := fun w =>
  match (start l files).run args w with
  | .ok (code, _) w => .ok code w
  | .error e w => if e == cycleLimit || e == lastInstruction then .ok 0 w else .error e w

end Jib.Arm
