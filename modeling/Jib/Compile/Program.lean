import Jib.Compile.Declaration

/-!
# Whole programs

After all declarations, the graphs are optimised together and those that are needed are written out.
-/

namespace Jib

structure CompileOptions where
  promoted : List String := []
  shouldInline : String → Option Bool := fun _ => none
  entryPoints : Option (List String) := none

/-- A program in its three parts. -/
structure Program where
  declarations : List Code.Placed
  constants : List Code.Placed
  functions : List Code.Placed
  /-- Whether the text of the program can be read back. -/
  readable : Bool
  deriving Inhabited

namespace Compile

open Code (Line)

/-- The state before the first declaration. -/
def initial (options : CompileOptions) : Compilation :=
  { names := Table.ofList initialNames
    promoted := options.promoted
    entryPoints := options.entryPoints
    session := { shouldInline := options.shouldInline } }

def writeGraph (id : GraphId) (job : Job) : CompileM Unit := do
  let s := (← get).session
  let g := s.graph id
  let actual := g.args.toList.map (fun v => (s.arena.argumentName v, s.arena.typeOf v))
  match job with
  | .function name args type target =>
    functionScope name args (.function target (actual.map (·.1))) actual (graphCode id (some type))
    emit .blank
  | .method name args type target cls =>
    functionScope name args (.methodFunction target args) [] (graphCode id (some type))
    emit (.attach cls name target)
  | .version target args => under (.function target args) (graphCode id none)

/-- Declares the structure types that were made for results. -/
def declareNewStructs : CompileM Unit := do
  let made := (← get).session.newStructs
  for t in made do
    if let .struct n .. := t then addStruct n ("TupSpec_" ++ n) t

/-- Optimises all graphs and writes those that are needed. -/
def finish : CompileM Unit := do
  inSession Session.optimizeQueue
  declareNewStructs
  let c ← get
  let entries ← match c.entryPoints with
    | none => pure (c.jobs.map (·.1))
    | some names =>
      (names ++ ["zinitializze_registers"]).toArray.mapM (fun n =>
        ofOption .missingKey (c.session.byName.get? n))
  let extra := c.session.neededVersions entries
  for (id, t) in extra do
    if let some t := t then
      let s := (← get).session
      let g := s.graph id
      let target := "func_" ++ g.name
      addName g.name ⟨.global target, some t, .builtin, none⟩
      addGraph id (.version target (g.args.toList.map s.arena.argumentName))
  let needed := entries ++ extra.map (·.1)
  for (id, job) in (← get).jobs do
    if needed.contains id then writeGraph id job

/-- The lines that every program starts with. -/
def preamble (support : String) : CompileM Unit :=
  inPart .declarations do
    emitText "from rpython.rlib import jit"
    emitText "from rpython.rlib.rbigint import rbigint"
    emitText "from rpython.rlib import objectmodel"
    emitText "from rpython.rlib.rarithmetic import r_uint, intmask"
    emitText "import operator"
    emitText support
    emitText "from pydrofoil import bitvector"
    emitText "from pydrofoil.bitvector import Integer"
    emitText "class Lets(supportcode.LetsBase): pass"
    underText "class Machine(supportcode.RegistersBase):" do
      emitText "_immutable_fields_ = ['g']"
      emitText "l = Lets()"
      underText "def __init__(self):" do
        emitText "self.l  = Machine.l; func_zinitializze_registers(self, ())"
        emitText "self.g = supportcode.Globals()"
    emitText "UninitInt = bitvector.Integer.fromint(-0xfefee)"

end Compile

/-- What compiling the declarations of a text gives before the graphs are written out. -/
def compileDeclarations (options : CompileOptions) (source : String) :
    Result (List (Nat × String) × Compilation) := do
  let (ds, _) ← Typing.program (← Declaration.readAll source)
  match Compile.declarations 0 ds (Compile.initial options) with
  | .ok failed c => return (failed, c)
  | .error e _ => throw e

/-- Compiles a text; the support line names the primitives it is to run with. -/
def compileProgram (options : CompileOptions) (support : String) (source : String) :
    Result (List (Nat × String) × Program) := do
  let (ds, _) ← Typing.program (← Declaration.readAll source)
  let all : CompileM (List (Nat × String)) := do
    Compile.preamble support
    let failed ← Compile.declarations 0 ds
    Compile.finish
    return failed
  match all (Compile.initial options) with
  | .ok failed c =>
    return (failed,
      { declarations := c.declarations.toList, constants := c.constants.toList,
        functions := c.functions.toList, readable := c.readable })
  | .error e _ => throw e

namespace Program

def render (p : Program) : String :=
  let texts (ls : List Code.Placed) := ls.map Code.Placed.render
  let setting := match p.constants with
    | [] => ["pass"]
    | ls => texts ls
  "\n\n".intercalate [
    "\n".intercalate (texts p.declarations),
    "def let_init(machine):\n    " ++ "\n    ".intercalate setting,
    "let_init(Machine)",
    "\n".intercalate (texts p.functions)]

end Program

end Jib
