import Jib.Compile.Program
import Jib.Exec.Eval

/-!
# Loading a program

The lines of a program define its names one after the other; in between, its constants are set.  A
function that a constant needs is known only if it was defined before that.
-/

namespace Jib

/-- A program whose names are known and whose constants are set. -/
structure Loaded where
  scope : Scope
  world : World

namespace Exec

/-- Loading defines names and changes the state. -/
abbrev LoadM := StateT Scope RunM

def define (name : String) (g : Global) : LoadM Unit :=
  modify (fun s => { s with globals := s.globals.insert name g })

/-- Evaluates an expression with what is known so far. -/
def evalNow (e : Code.Expr) : LoadM Datum := do
  let s ← get
  eval s (s.answer Scope.depth) ∅ e

def setAttribute (cls name : String) (d : Datum) : LoadM Unit := do
  let c ← (← get).classInfo cls
  define cls (.cls { c with attributes := c.attributes.insert name d })

def lineageBelow (name base : String) : LoadM (List String) := do
  return name :: (← (← get).classInfo base).lineage

/-- The elements that the body of an enumeration lists. -/
def elementsIn (body : List Code.Tree) : List (String × Datum) :=
  body.filterMap fun
    | .node (.element n v) _ => some (n, .int v)
    | _ => none

def defineClass (d : Code.ClassDef) (body : List Code.Tree) : LoadM Unit := do
  match d with
  | .enum n =>
    define n (.cls ⟨d, [n], Std.HashMap.ofList (elementsIn body), ∅⟩)
  | .struct n _ _ | .union n | .tuple n _ _ | .list n _ | .reference n _ =>
    define n (.cls ⟨d, [n], ∅, ∅⟩)
  | .variant n base _ defaults _ => do
    let lineage ← lineageBelow n base
    let parts ← defaults.mapM (fun (f, p, e) => do
      return (Code.Expr.partNames f p).zip (← Scope.pack p (← evalNow e)))
    define n (.cls ⟨d, lineage, Std.HashMap.ofList parts.flatten, ∅⟩)
  | .elementCase n base e => do
    let lineage ← lineageBelow n base
    define n (.cls ⟨d, lineage, Std.HashMap.ofList [("a", ← evalNow e)], ∅⟩)

/-- The one object of a class. -/
def defineSingleton (cls : String) (withUnit : Bool) : LoadM Unit := do
  let s ← get
  let c ← s.classInfo cls
  setAttribute cls "singleton" (← s.construct cls c (if withUnit then [.unit] else []))

def defineReference (name : String) : LoadM Unit := do
  let .reference _ slot := (← (← get).classInfo name).shape | throw .internal
  define name (.value (.place name slot))

/-- Gives a class a method. -/
def attach (cls method function : String) : LoadM Unit := do
  let s ← get
  let c ← s.classInfo cls
  let f ← RunM.ofOption (s.function? function)
  define cls (.cls { c with methods := c.methods.insert method f })

def loadTree : Code.Tree → LoadM Unit
  | .node line body =>
    match line with
    | .cls d => defineClass d body
    | .singleton c u => defineSingleton c u
    | .reference n => defineReference n
    | .define n e => do define n (.value (← evalNow e))
    | .register slot e => do RunM.setSlot slot (← evalNow e)
    | .function n ps | .methodFunction n ps => define n (.function ⟨ps, body⟩)
    | .hook n => define n .hook
    | .attach c m f => attach c m f
    | _ => pure ()

def loadTrees : List Code.Tree → LoadM Unit
  | [] => pure ()
  | t :: ts => do
    loadTree t
    loadTrees ts

def setConstants (code : List Code.Tree) : LoadM Unit := do
  let s ← get
  let _ ← execAll s (s.answer Scope.depth) code ∅

/-- What the machine has before anything is set. -/
def initialSlots : List (String × Datum) :=
  [("have_exception", .bool false), ("throw_location", .none), ("current_exception", .none)]

end Exec

/-- The three parts of a program as trees, if its text can be read. -/
def Program.trees? (p : Program) :
    Option (List Code.Tree × List Code.Tree × List Code.Tree) := do
  if !p.readable then none
  let constants ← Code.Tree.ofLines p.constants
  if constants.isEmpty && !p.constants.isEmpty then none
  return (← Code.Tree.ofLines p.declarations, constants, ← Code.Tree.ofLines p.functions)

/-- Defines all names of a program and sets its constants. -/
def Program.load (p : Program) (platform : Platform) : Result Loaded := do
  let some (declarations, constants, functions) := p.trees? | throw .internal
  let all : Exec.LoadM Unit := do
    Exec.loadTrees declarations
    Exec.setConstants constants
    Exec.loadTrees functions
  let world : World := { slots := Std.HashMap.ofList Exec.initialSlots, attached := false }
  match all.run { platform := platform } world with
  | .ok ((), scope) world => return ⟨scope, world⟩
  | .error e _ => throw e

/-- The place of a setting among those of the machine. -/
def settingSlot (name : String) : String := "g." ++ name

def RunM.setting (name : String) : RunM Datum := RunM.slot (settingSlot name)

def RunM.setSetting (name : String) (d : Datum) : RunM Unit := RunM.setSlot (settingSlot name) d

namespace Loaded

/-- A new machine: its registers are set up before it gets its memory and its settings. -/
def newMachine (l : Loaded) : RunM Unit := do
  if !l.scope.globals.contains "func_zinitializze_registers" then throw .internal
  modify (fun w => { w with slots := l.world.slots, attached := false })
  let _ ← l.scope.callFunction "func_zinitializze_registers" [.unit]
  let settings := l.scope.platform.settings.map (fun (n, d) => (settingSlot n, d))
  modify (fun w =>
    { w with slots := w.slots.insertMany settings, attached := true, memory := .sparse .empty })

end Loaded

end Jib
