/-!
# Command-line options

Options are found by their name anywhere in the argument list and are removed from it together with
their value.  All other arguments stay in their order.
-/

namespace Jib.CommandLine

/-- Whether an argument is one of the two names of an option. -/
def isNamed (short long : String) (arg : String) : Bool := arg == short || arg == long

/-- Takes out the first argument that satisfies `p`. -/
def takeName (p : String → Bool) : List String → Option (String × List String)
  | [] => none
  | a :: as =>
    if p a then some (a, as)
    else
      match takeName p as with
      | some (b, rest) => some (b, a :: rest)
      | none => none

/-- What a search for an option with a value finds. -/
inductive ValueSearch where
  | absent
  /-- The name is the last argument. -/
  | unfinished (name : String)
  | found (value : String) (rest : List String)
  deriving Repr, BEq, DecidableEq

/-- Takes out the first argument that satisfies `p` and the one behind it. -/
def takeValue (p : String → Bool) : List String → ValueSearch
  | [] => .absent
  | [a] => if p a then .unfinished a else .absent
  | a :: b :: as =>
    if p a then .found b as
    else
      match takeValue p (b :: as) with
      | .found v rest => .found v (a :: rest)
      | r => r

/-- All values of an option, the arguments that are left, and the name that stands at the end
without a value. -/
structure AllValues where
  values : List String
  rest : List String
  unfinished : Option String
  deriving Repr, BEq, DecidableEq

/-- Takes out, from left to right, every argument that satisfies `p` and the one behind it. -/
def takeValues (p : String → Bool) : List String → AllValues
  | [] => ⟨[], [], none⟩
  | [a] => ⟨[], [a], if p a then some a else none⟩
  | a :: b :: as =>
    if p a then
      let r := takeValues p as
      { r with values := b :: r.values }
    else
      let r := takeValues p (b :: as)
      { r with rest := a :: r.rest }

/-- Takes out a flag.  An empty argument matches too, but does not set the flag. -/
def flag (name : String) (args : List String) : Bool × List String :=
  match takeName (isNamed name "") args with
  | some (a, rest) => (a != "", rest)
  | none => (false, args)

def missingValue (name : String) : String := "missing argument after " ++ name ++ "\n"

end Jib.CommandLine
