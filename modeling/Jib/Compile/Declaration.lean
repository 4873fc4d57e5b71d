import Jib.Compile.Function
import Jib.Graph.Specialize

/-!
# Compiling declarations

Values and registers become names, types become classes, and functions become graphs that are
written out once all declarations are known.  A function that starts with a switch over the variants
of its first argument becomes one method for each variant instead.
-/

namespace Jib.Compile

open Code (Line)

/-- Primitives with a name that cannot stand as one. -/
def primitiveNames : List (String × String) := [
  ("%i->%i64", "int_to_int64"), ("%i64->%i", "int64_to_int"), ("%string->%i", "string_to_int"),
  ("%string->%real", "string_to_real"), ("%vec(%bv)->%vec(%bv8)", "vec_gbv_to_vec_bv8"),
  ("%vec(%bv)->%vec(%bv16)", "vec_gbv_to_vec_bv16"), ("not", "not_"), ("print", "print_")]

def primitiveName (definition : String) : CompileM String := do
  let some name := Text.literal? definition | throw .internal
  if let some n := primitiveNames.lookup name then return n
  if (name.splitOn "->").length > 1 then throw .unfinished
  return name

def value (name : String) (definition : Option String) (written : TypeExpr) (type : Option Ty) :
    CompileM Unit := do
  let t ← resolve written
  let origin := Origin.value definition written type
  let some d := definition | addName name ⟨.global ("func_" ++ name), some t, origin, none⟩
  let primitive ← primitiveName d
  let read ←
    if primitive == "cons" then
      let some (.function _ r) := type | throw .internal
      pure (Code.Expr.global (← ofOption .internal (← get).classNames[r]?))
    else pure (.support primitive)
  addName name ⟨read, some t, origin, none⟩
  modify (fun c =>
    { c with session := { c.session with builtins := c.session.builtins.insert name primitive } })

def abstract (name : String) (written : TypeExpr) (note : String) : CompileM Unit := do
  let t ← resolve written
  let target := "func_" ++ name
  addName name ⟨.global target, some t, .abstract, none⟩
  emit (.comment note)
  emit (.hook target)

/-- Writes the code of a body that sets places of the machine. -/
def settingCode (name : String) (body : List Statement) (type : Ty) : CompileM GraphId := do
  let known := (← get).known
  let steps := body.map Step.statement ++ [.stop]
  let blocks ← MonadExcept.ofExcept (StepBlocks.ofBody steps)
  let id ← inSession (Session.buildGraph name [] type known blocks 0)
  graphCode id (some type)
  return id

def register (name : String) (written : TypeExpr) (body : Option (List Statement)) (type : Ty) :
    CompileM Unit := do
  let slot := "_reg_" ++ name
  let t ← resolve written
  let (read, packing) :=
    if (← get).promoted.contains name then (Code.Expr.promote (machineField slot), Packing.plain)
    else (Code.Expr.read t.packing .machine slot, t.packing)
  modify (fun c => { c with registers := name :: c.registers })
  addName name ⟨read, some t, .other, some (.field packing .machine slot)⟩
  let unset ← defaultOf t
  inPart .declarations (emit (.register slot unset))
  if let some b := body then inPart .constants (inScope (do let _ ← settingCode name b type))

def constantDecl (name : String) (written : TypeExpr) (body : List Statement) (type : Ty) :
    CompileM Unit := do
  let place := Code.Expr.read .plain .machine "l"
  let t ← resolve written
  addName name ⟨.read .plain place name, some t, .other, some (.field .plain place name)⟩
  inPart .constants <| inScope do
    emit (.heading ("let " ++ name ++ " : " ++ written.text))
    let id ← settingCode name body type
    let s := (← get).session
    if let some v ← MonadExcept.ofExcept ((s.graph id).globalValue? s.arena name) then
      modify (fun c => { c with known := c.known.insert name v })

/-! ### Functions -/

/-- The scope of a function's code: its arguments and its result are local names. -/
def functionScope (name : String) (args : List String) (head : Line) (actual : List (String × Ty))
    (x : CompileM Unit) : CompileM Unit := do
  let i ← globalInfo name
  inScope <| under head do
    if (← get).session.inlinable.contains name then emit (.comment "inlinable")
    let some (.function argTypes result) := i.type | throw .internal
    addLocal "return" result
    for (a, k) in args.zipIdx do
      let .tuple ts := argTypes | throw .internal
      addLocal a (← ofOption .outOfRange ts[k]?)
    for (a, t) in actual do addLocal a t
    x

/-- The first statement of a block that is not a declaration. -/
def firstStep : List Step → Option (List Step × Step × List Step)
  | [] => none
  | s :: rest =>
    match s with
    | .statement (.declare ..) =>
      (firstStep rest).map (fun (before, x, after) => (s :: before, x, after))
    | _ => some ([], s, rest)

/-- Where a jump goes that is taken when a variable is not of a variant. -/
def unionTest? (arg : String) : Step → Option (String × Int)
  | .statement (.jump (.isVariant (.var n _) variant) target _) =>
    if n == arg then some (variant, target) else none
  | _ => none

/-- A block of a switch: what comes before the test, the test, and what follows. -/
structure SwitchCase where
  pc : Int
  before : List Step
  test : Option (String × Int)
  after : List Step

def switchCases (arg : String) (blocks : StepBlocks) : Nat → Int → Result (List SwitchCase)
  | 0, _ => .error .internal
  | fuel + 1, pc => do
    let some block := blocks.get? pc | throw .missingKey
    if let some (before, s, after) := firstStep block then
      if let some (variant, target) := unionTest? arg s then
        return ⟨pc, before, some (variant, target), after⟩ :: (← switchCases arg blocks fuel target)
    return [⟨pc, block, none, []⟩]

/-- What is left of a block when the variant of the first argument is known, and the places that it
leads to. -/
def restrictBlock (arg : String) (variant : Option String) : List Step → List Step × List Int
  | [] => ([], [])
  | s :: rest =>
    let keep :=
      let (steps, targets) := restrictBlock arg variant rest
      (s :: steps, s.target?.toList ++ targets)
    match unionTest? arg s, variant with
    | some (v, target), some known =>
      if v == known then restrictBlock arg variant rest else ([.goto target], [target])
    | _, _ => keep

/-- The blocks that can be reached from one when the variant of the first argument is known. -/
def reachableBlocks (arg : String) (variant : Option String) (blocks : StepBlocks) :
    Nat → List Int → List Int → StepBlocks → Result StepBlocks
  | 0, _, _, _ => .error .internal
  | _ + 1, [], _, acc => .ok acc
  | fuel + 1, pc :: todo, seen, acc => do
    let some block := blocks.get? pc | throw .assertion
    let (steps, targets) := restrictBlock arg variant block
    let fresh := (targets.eraseDups).filter (fun t => !seen.contains t)
    if !fresh.all blocks.contains then throw .assertion
    reachableBlocks arg variant blocks fuel (fresh.reverse ++ todo) (fresh ++ seen)
      (acc.insert pc steps)

def caseBlocks (arg : String) (blocks : StepBlocks) (earlier : List SwitchCase) (c : SwitchCase) :
    Result StepBlocks := do
  let variant := c.test.map (·.1)
  let first := earlier.flatMap (·.before) ++ c.before ++ c.after
  let (steps, targets) := restrictBlock arg variant first
  let fresh := targets.eraseDups
  if !fresh.all blocks.contains then throw .assertion
  reachableBlocks arg variant blocks (blocks.size + 2) fresh.reverse fresh
    (Table.ofList [(c.pc, steps)])

def addGraph (id : GraphId) (job : Job) : CompileM Unit := do
  inSession (Session.schedule id)
  modify (fun c => { c with jobs := c.jobs.push (id, job) })

/-- Writes a function that switches over the variants of its first argument. -/
def methods (name : String) (args : List String) (type : Ty) (blocks : StepBlocks) :
    CompileM Unit := do
  let i ← globalInfo name
  let arg := args.headD ""
  let some (.function (.tuple (unionType :: _)) _) := i.type | throw .internal
  let cases ← MonadExcept.ofExcept (switchCases arg blocks (blocks.size + 2) 0)
  let mut made : List String := []
  for (c, k) in cases.zipIdx do
    let cls ← match c.test with
      | some (variant, _) => do pure (← nameText variant).render
      | none =>
        match unionType with
        | .union n .. | .struct n .. | .enum n _ => do pure (← namedType n).1
        | _ => throw .internal
    if !made.contains cls then
      made := cls :: made
      let local_ ← MonadExcept.ofExcept (caseBlocks arg blocks (cases.take k) c)
      let target := name ++ "_" ++ c.test.elim "default" (·.1)
      let known := (← get).known
      let id ← inSession (Session.buildGraph target args type known local_ c.pc)
      addGraph id (.method name args type target cls)
      if let some (e :: es) := (← get).entryPoints then
        modify (fun s => { s with entryPoints := some (e :: es ++ [target]) })

/-- How many blocks a graph may have before it is cut. -/
def largestGraph : Nat := 150

/-- The size of the parts that a large graph is cut into. -/
def partSize : Nat := 100

def cutGraph (id : GraphId) (name : String) (args : List String) (type : Ty) : CompileM Unit := do
  let i ← globalInfo name
  let functionType := i.type.getD .unknown
  let parts ← inSession (Session.cutCompletely id functionType partSize (fun part t => do
    let s ← get
    return (part, (s.graph part).name, t)))
  for (part, target, t) in parts do
    addName target ⟨.global target, some t, .builtin, none⟩
    addGraph part (.function name args type target)

def function (name : String) (args : List String) (body : List Statement) (type : Ty) :
    CompileM Unit := do
  let target := (← nameText name).render
  check (target.startsWith "func_")
  let blocks ← MonadExcept.ofExcept (StepBlocks.ofBody (body.map Step.statement))
  let start ← ofOption .missingKey (blocks.get? 0)
  if (firstStep start).any fun (_, s, _) => (unionTest? (args.headD "") s).isSome then
    functionScope name args (.function target args) [] (emit (.dispatch name args))
    methods name args type blocks
  else
    let known := (← get).known
    let id ← inSession (Session.buildGraph name args type known blocks 0)
    let s := (← get).session
    let g := s.graph id
    if g.shouldInline s.arena s.shouldInline then
      modify (fun c =>
        { c with session := { c.session with inlinable := c.session.inlinable.insert name id } })
    else if !g.hasLoop && g.hasMoreBlocksThan s.arena largestGraph then
      cutGraph id name args type
    else if g.isUsefullySpecializable s.arena then
      let _ ← inSession (Session.addSpecializer name id)
    addGraph id (.function name args type target)

/-! ### Programs -/

def declaration (d : Declaration) : CompileM Unit := do
  match d with
  | .enum n ns => addEnum n ns
  | .union n ns ts => addUnion n ns ts
  | .struct n ns ts => do
    let types ← resolveAll ts
    let isTuple := (← get).tuples.contains n
    addStruct n ("Struct_" ++ n) (.struct n ns types isTuple)
  | .value n def_ w t => value n def_ w t
  | .abstract n _ w _ => abstract n w d.text
  | .register n w b t => register n w b (t.getD .unknown)
  | .constant n w b t => constantDecl n w b (t.getD .unknown)
  | .function n as b t => function n as b (t.getD .unknown)
  | .pragma n content => do
    emit (.comment d.text)
    if n == "tuplestruct" then modify (fun c => { c with tuples := c.tuples ++ content.take 1 })
  | .files _ => emit (.comment d.text)

end Jib.Compile

def Jib.Declaration.name? : Jib.Declaration → Option String
  | .enum n _ | .union n _ _ | .struct n _ _ | .value n _ _ _ | .abstract n _ _ _
    | .register n _ _ _
  | .constant n _ _ _ | .function n _ _ _ | .pragma n _ => some n
  | .files _ => none

namespace Jib.Compile

/-- Compiles declarations in order; gives the number and name of those that failed. -/
def declarations : Nat → List Declaration → CompileM (List (Nat × String))
  | _, [] => pure []
  | index, d :: ds => do
    let failed ← (do
      declaration d
      pure false) <|> pure true
    if failed then modify (fun c => { c with level := 0 })
    emit .blank
    let rest ← declarations (index + 1) ds
    return if failed then (index, d.name?.getD "") :: rest else rest

end Jib.Compile
