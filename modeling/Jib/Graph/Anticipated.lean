import Jib.Graph.Order

/-!
# Anticipated conversions

A conversion of a value is anticipated at a block when every way on from there, blocks that raise
apart, performs it.
-/

namespace Jib.Graph

abbrev Conversion := ValueId × Ty

abbrev Anticipated := Std.HashMap BlockId (Array Conversion)

/-- The name under which an unbounded integer is converted to a machine integer. -/
def toMachineIntName : String := "zz5izDzKz5i64"

/-- The name under which a machine integer is converted to an unbounded one. -/
def ofMachineIntName : String := "zz5i64zDzKz5i"

def addConversion (cs : Array Conversion) (c : Conversion) : Array Conversion :=
  if cs.contains c then cs else cs.push c

/-- The conversion that an operation performs. -/
def conversion? (a : Arena) (v : ValueId) : Option Conversion :=
  match a.op? v with
  | some o =>
    match o.args[0]? with
    | some x =>
      if (o.kind == .cast && o.type.isSmallBits) || o.name == toMachineIntName then some (x, o.type)
      else none
    | none => none
  | none => none

/-- What all successors that do not raise agree on; nothing if one of them is not known yet.  A
block that leads back to itself adds nothing there and keeps what the others agree on. -/
def commonAhead (a : Arena) (t : Anticipated) (b : BlockId) : Array Conversion :=
  match (a.targets b).filter (fun s => !(a.next s).isRaise) with
  | [] => #[]
  | first :: rest =>
    if (first :: rest).all (fun s => s == b || t.contains s) then
      (t.getD first #[]).filter (fun c => rest.all (fun s => s == b || (t.getD s #[]).contains c))
    else #[]

/-- Adds the conversions of a block to those that are anticipated after it. -/
def recordBlock (a : Arena) (b : BlockId) (t : Anticipated) : Anticipated :=
  t.insert b (((a.ops b).filterMap (conversion? a)).foldl addConversion (commonAhead a t b))

/-- The anticipated conversions of every block. -/
def anticipatedCasts (g : Graph) (a : Arena) : Result Anticipated := do
  return (← g.bestTopoOrder a).foldr (recordBlock a) ∅

end Jib.Graph
