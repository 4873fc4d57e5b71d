import Jib.Code.Line

/-!
# Lines grouped by indentation

A line that opens a body is followed by deeper lines, and only such a line is.  Lines that do
nothing are left out first.
-/

namespace Jib.Code

/-- A line with the lines of its body. -/
inductive Tree where
  | node (line : Line) (body : List Tree)
  deriving Repr, Inhabited

def Line.opensBody : Line → Bool
  | .cls _ | .function .. | .methodFunction .. | .branch .. | .inBlock _ | .forever => true
  | .inert t => t.endsWith ":"
  | _ => false

/-- Whether the names that a line binds are all different. -/
def Line.bindsOnce : Line → Bool
  | .function _ ps | .methodFunction _ ps => ("machine" :: ps).eraseDups.length == ps.length + 1
  | .cls (.struct _ fs _) => (fs.map (·.1)).eraseDups.length == fs.length
  | _ => true

namespace Tree

/-- Trees that still wait for the line that they stand below, the deepest first. -/
abbrev Pending := List (Nat × List Tree)

/-- Puts a tree in front of those of its level. -/
def addTree (level : Nat) (t : Tree) : Pending → Pending
  | (l, ts) :: rest => if l == level then (l, t :: ts) :: rest else (level, [t]) :: (l, ts) :: rest
  | [] => [(level, [t])]

/-- Puts a line in front of the lines behind it. -/
def addLine (p : Placed) (later : Option Pending) : Option Pending := do
  let later ← later
  if p.line.isSilent then return later
  if !p.line.bindsOnce then none
  match later with
  | (l, ts) :: rest =>
    if l > p.level then
      if p.line.opensBody && (rest.head?.map (·.1)).all (· ≤ p.level) then
        return addTree p.level (.node p.line ts) rest
      else none
    else if p.line.opensBody then none
    else return addTree p.level (.node p.line []) later
  | [] => if p.line.opensBody then none else return [(p.level, [.node p.line []])]

/-- The trees of some lines, unless their indentation does not fit. -/
def ofLines (ls : List Placed) : Option (List Tree) :=
  match ls.foldr addLine (some []) with
  | some [] => some []
  | some [(0, ts)] => some ts
  | _ => none

end Tree

end Jib.Code
