import Jib.CommandLine
import Jib.Platform.Common

/-!
# Options of front programs

Each option that is read is taken out of the list of arguments.
-/

namespace Jib.Platform

/-- Reading options changes the list of arguments. -/
abbrev OptionM := StateT (List String) RunM

namespace OptionM

def print (s : String) : OptionM Unit := liftM (RunM.print s)

def flag (name : String) : OptionM Bool := modifyGet (CommandLine.flag name)

def missing {α : Type} (name : String) : OptionM α := do
  print (CommandLine.missingValue name)
  throw (.badValue (some ""))

/-- The value of an option; an empty one counts as none. -/
def value (short long : String) : OptionM (Option String) := do
  match CommandLine.takeValue (CommandLine.isNamed short long) (← get) with
  | .absent => return none
  | .found v rest => do
    set rest
    return if v == "" then none else some v
  | .unfinished n => missing n

def values (short long : String) : OptionM (List String) := do
  let r := CommandLine.takeValues (CommandLine.isNamed short long) (← get)
  set r.rest
  r.unfinished.elim (pure r.values) missing

def fileExists (files : Files) (name : String) : OptionM Bool := do
  if (files.find? name).isSome then return true
  print (missingFile name)
  return false

end OptionM

end Jib.Platform
