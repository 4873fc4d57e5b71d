import Jib.Bytes
import Jib.Exec.Load

/-!
# What platforms share

A platform adds services of its own to the common primitives; its own come first.
-/

namespace Jib.Platform

def primitives (own : List (String × Service)) : String → Option Service :=
  let table : Std.HashMap String Service := Std.HashMap.ofList own
  fun name =>
    match table[name]? with
    | some f => some f
    | none => (Primitive.find? name).map (fun e _ args => e args)

/-- A service that takes a number of operands. -/
def service (count : Nat) (f : Answers → List Datum → RunM Datum) : Service := fun ask args =>
  if args.length == count then f ask args else throw .internal

/-- A service that takes one operand without looking at it. -/
def constantService (x : RunM Datum) : Service := service 1 (fun _ _ => x)

/-- The files that exist, by name. -/
abbrev Files := List (String × Bytes)

def Files.find? (fs : Files) (name : String) : Option Bytes := fs.lookup name

/-- What is printed about a file that does not exist. -/
def missingFile (name : String) : String := "ERROR: file does not exist: " ++ name ++ "\n"

/-- A number as a machine word with sign. -/
def signedWord (d : Datum) : RunM Int := return Word.toInt (Word.ofInt (← RunM.number d))

/-- The digits of a number in base sixteen. -/
def hexText (n : Int) : String :=
  (if n < 0 then "-0x" else "0x") ++ Text.hexDigits n.natAbs

end Jib.Platform
