import Jib.Table
import Jib.Graph.Cleanup

/-!
# Sessions

What the passes share while several graphs are worked on: the arena, the graphs by number, the
names of primitives, the functions that may be inlined or specialised, and the queue of graphs that
are still to be optimised.
-/

namespace Jib

abbrev GraphId := Nat

/-- What a specialised version is made for: for each argument a type and, if fixed, its value. -/
abbrev SpecKey := List (Ty × Option Int)

/-- A function of which specialised versions are made. -/
structure Specializer where
  graph : GraphId
  /-- The type of a returned value, if some block returns one. -/
  resultType : Option Ty
  argTypes : List Ty
  /-- Arguments that are converted on every way through the function. -/
  demanded : List (Option Ty)
  /-- Versions made so far; an entry without version is being made. -/
  cache : Array (SpecKey × Option (GraphId × Ty))
  /-- Graphs that call a specialised version. -/
  dependents : Array GraphId
  resultTypes : Table String Ty
  deriving Inhabited

structure Session where
  arena : Arena := .empty
  graphs : Array Graph := #[]
  builtins : Table String String := {}
  shouldInline : String → Option Bool := fun _ => none
  inlinable : Table String GraphId := {}
  specializers : Array Specializer := #[]
  specializable : Table String Nat := {}
  byName : Table String GraphId := {}
  callers : Std.HashMap String (Array GraphId) := ∅
  queue : List GraphId := []
  /-- The graphs in the queue, each once. -/
  queued : Array GraphId := #[]
  /-- Structure types made for specialised results. -/
  newStructs : Array Ty := #[]
  deriving Inhabited

abbrev SessionM := EStateM Fault Session

namespace Session

def graph (s : Session) (g : GraphId) : Graph := s.graphs.getD g ⟨"", #[], 0, false⟩

def builtin (s : Session) (name : String) : String := s.builtins.getD name name

/-- Runs a computation on the arena. -/
def onArena {α : Type} (x : GraphM α) : SessionM α := fun s =>
  let a := s.arena
  let s := { s with arena := default }
  match x a with
  | .ok r a => .ok r { s with arena := a }
  | .error e a => .error e { s with arena := a }

def addGraph (g : Graph) : SessionM GraphId :=
  modifyGet (fun s => (s.graphs.size, { s with graphs := s.graphs.push g }))

def modifyGraph (id : GraphId) (f : Graph → Graph) : SessionM Unit :=
  modify (fun s => { s with graphs := s.graphs.modify id f })

def onGraph {α : Type} (id : GraphId) (pass : Graph → Builtins → GraphM α) : SessionM α := do
  let s ← get
  let builtins := s.builtins
  onArena (pass (s.graph id) (fun n => builtins.getD n n))

end Session

end Jib
