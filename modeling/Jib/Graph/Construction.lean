import Jib.Graph.Simplify
import Jib.Syntax.Tree
import Jib.Text.Literal

/-!
# Building graphs

A body is a numbered list of statements.  It is cut into blocks at the statements that jumps lead
to, and the blocks are brought into single-assignment form in the order of their numbers.  A table
says which value each variable holds at the end of a block.  Where ways meet, a variable with
different values gets a phi; at the start of a loop every variable gets one, and the entries for the
ways that come later are filled in when their blocks are done.
-/

namespace Jib

/-- A statement as it stands in a block. -/
inductive Step where
  | statement (s : Statement)
  /-- The end of a body that has no result. -/
  | stop
  deriving Repr, Inhabited

namespace Step

def target? : Step → Option Int
  | statement (.goto t) => some t
  | statement (.jump _ t _) => some t
  | _ => none

def isJump : Step → Bool
  | statement (.jump ..) => true
  | _ => false

def endsBlock : Step → Bool
  | statement s => s.endsBlock
  | stop => true

def goto (t : Int) : Step := statement (.goto t)

end Step

/-- Numbered blocks, in the order in which they were found. -/
abbrev StepBlocks := Table Int (List Step)

namespace StepBlocks

/-- The places that jumps lead to; the start counts as one as soon as some statement does not jump,
and so does the place behind a conditional jump. -/
def labels (body : List Step) : List Int :=
  body.map (fun s => s.target?.getD 0)
    ++ body.zipIdx.filterMap (fun (s, i) => if s.isJump then some ((i : Int) + 1) else none)

/-- The steps from a place up to the next label, with a jump there where the block would run on. -/
def upToLabel (labels : List Int) : List Step → Nat → List Step
  | [], _ => []
  | s :: rest, i =>
    if rest.isEmpty || labels.contains ((i + 1 : Nat) : Int) then
      if s.endsBlock then [s] else [s, .goto ((i + 1 : Nat) : Int)]
    else s :: upToLabel labels rest (i + 1)

/-- The places of a body where a block starts, in ascending order. -/
def starts (body : List Step) : List Nat :=
  let labels := labels body
  (List.range body.length).filter fun i : Nat => labels.contains (i : Int)

/-- The blocks of a body; statements before the first label have none. -/
def ofBody (body : List Step) : Result StepBlocks :=
  let labels := labels body
  if !body.isEmpty && !labels.contains 0 then .error .internal
  else .ok (Table.ofList
    ((starts body).map fun i => (Int.ofNat i, upToLabel labels (body.drop i) i)))

/-- Where the steps of a block lead, once for each jump. -/
def targets (block : List Step) : List Int := block.filterMap Step.target?

/-- The ways from block to block, once for each jump. -/
def ways (bs : StepBlocks) : List (Int × Int) :=
  bs.toList.flatMap fun (pc, block) => (targets block).map (pc, ·)

/-- The blocks that some ways lead from to a block. -/
def entering (ways : List (Int × Int)) (pc : Int) : List Int := (ways.filter (·.2 == pc)).map (·.1)

end StepBlocks

/-- The values of variables; one without value is not initialised on some way. -/
abbrev VarTable := Table String (Option ValueId)

/-- A phi entry to be filled with the value that a variable has at the end of a block. -/
structure OpenEntry where
  phi : ValueId
  index : Nat
  var : String
  deriving Inhabited

structure BuildState where
  arena : Arena
  vars : VarTable := {}
  /-- The operations of the block that is being built. -/
  ops : Array ValueId := #[]
  args : Array ValueId := #[]
  atEnd : Table Int VarTable := {}
  hasLoop : Bool := false
  exits : List (Int × Int)
  /-- Open entries with the blocks that they wait for. -/
  waiting : List (Int × OpenEntry) := []
  deriving Inhabited

/-- The entries that wait for a block. -/
def BuildState.openEntries (s : BuildState) (pc : Int) : List OpenEntry :=
  (s.waiting.filter (·.1 == pc)).map (·.2)

abbrev BuildM := EStateM Fault BuildState

/-- What a body is built from. -/
structure BuildSource where
  name : String
  args : List String
  type : Ty
  /-- Values of constants that are known already. -/
  constants : Table String ValueId
  start : Int
  blocks : StepBlocks
  blockIds : Table Int BlockId

namespace BuildM

def check (c : Bool) : BuildM Unit := if c then pure () else throw .assertion

def onArena {α : Type} (x : GraphM α) : BuildM α := fun s =>
  let a := s.arena
  let s := { s with arena := default }
  match x a with
  | .ok r a => .ok r { s with arena := a }
  | .error e a => .error e { s with arena := a }

def newConst (c : Const) : BuildM ValueId := onArena (GraphM.newConst c)

def typeOf (v : ValueId) : BuildM Ty := return (← get).arena.typeOf v

/-- Adds an operation or phi to the block. -/
def push (v : Value) : BuildM ValueId := do
  let id ← onArena (GraphM.newValue v)
  modify (fun s => { s with ops := s.ops.push id })
  return id

/-- Adds an operation to the block; a value of unit type is the unit constant. -/
def addValue (v : Value) : BuildM ValueId := do
  let id ← push v
  return if v.type == .unit then Arena.unitId else id

def addOp (kind : OpKind) (name : String) (args : List ValueId) (type : Ty)
    (pos hint : Option String) : BuildM ValueId :=
  addValue (.op ⟨kind, name, args.toArray, type, pos, hint⟩)

def setVar (name : String) (v : Option ValueId) : BuildM Unit :=
  modify (fun s => { s with vars := s.vars.insert name v })

/-- A field's type, or a failure if the value is no structure. -/
def fieldType (t : Ty) (name : String) : BuildM Ty :=
  match t with
  | .struct .. =>
    match t.field? name with
    | some f => pure f
    | none => throw .missingKey
  | _ => throw .internal

def converted (v : ValueId) (t : Ty) (pos : Option String) : BuildM ValueId := do
  if (← typeOf v) == t then return v
  addOp .cast "$cast" [v] t pos none

/-- Constants that are written as names. -/
def constantNamed? : String → Option Const
  | "true" => some (.bool true)
  | "false" => some (.bool false)
  | "bitzero" => some (.smallBits 0 (.smallBits 1))
  | "bitone" => some (.smallBits 1 (.smallBits 1))
  | _ => none

/-- Whether a name is an element of an enumeration. -/
def isElement (n : String) : Ty → Bool
  | .enum _ elements => elements.contains n
  | _ => false

/-- What a name stands for that is no variable. -/
def named (src : BuildSource) (n : String) (t : Ty) : BuildM ValueId :=
  match constantNamed? n with
  | some (.bool b) => pure (Arena.boolId b)
  | some c => newConst c
  | none =>
    match src.constants.get? n with
    | some v => pure v
    | none =>
      if isElement n t then newConst (.enum n t)
      else push (.op ⟨.globalRead, n, #[], t, none, none⟩)

/-- Converts the entries of a structure to the types of its fields. -/
def convertedFields (t : Ty) : List String → List ValueId → BuildM (List ValueId)
  | f :: fs, v :: vs => do
    let x ← converted v (← fieldType t f) none
    return x :: (← convertedFields t fs vs)
  | _, _ => pure []

/-- The type slot of an expression. -/
def slot (e : Expr) : Ty := e.type?.getD .unknown

mutual

/-- The value of an expression. -/
def expr (src : BuildSource) : Expr → BuildM ValueId
  | .var n t => do
    match (← get).vars.get? n with
    | some (some v) => return v
    | some none => throw .assertion
    | none => named src n (t.getD .unknown)
  | .struct n fields values t => do
    match t with
    | some (.struct tn names types tuple) => do
      check (fields == names)
      let t := Ty.struct tn names types tuple
      let args ← exprs src values
      let args ← convertedFields t fields args
      addOp .structConstruction n args t none none
    | _ => throw .internal
  | .field (.struct _ fields values _) f _ => do
    match fields.idxOf? f with
    | some i => exprAt src i values
    | none => throw .badValue
  | .field o f t => do
    let v ← expr src o
    push (.op ⟨.fieldAccess, f, #[v], t.getD .unknown, none, none⟩)
  | .cast e v t => do
    let x ← expr src e
    addOp .unionCast v [x] (t.getD .unknown) none none
  | .refOf e t => do
    let x ← expr src e
    addOp .refOf "$ref-of" [x] (t.getD .unknown) none none
  | .number n _ => onArena (GraphM.newMachineInt n)
  | .bits s t =>
    match t with
    | some (.smallBits w) => newConst (.smallBits (Text.bitsLiteral s).toUInt64 (.smallBits w))
    | _ => throw .assertion
  | .string s _ =>
    match Text.literal? s with
    | some text => newConst (.text text)
    | none => throw .internal
  | .unit _ => return Arena.unitId
  | .undefined _ | .call .. => throw .assertion

def exprs (src : BuildSource) : List Expr → BuildM (List ValueId)
  | [] => pure []
  | e :: es => do
    let v ← expr src e
    return v :: (← exprs src es)

def exprAt (src : BuildSource) : Nat → List Expr → BuildM ValueId
  | _, [] => throw .outOfRange
  | 0, e :: _ => expr src e
  | i + 1, _ :: es => exprAt src i es

end

def condition (src : BuildSource) (pos : Option String) : Condition → BuildM ValueId
  | .comparison op as => do
    let vs ← exprs src as
    addOp .call op vs .bool pos none
  | .expr e => expr src e
  | .isVariant e v => do
    let x ← expr src e
    addOp .unionVariantCheck v [x] .bool pos none

/-- Gives a variable a value; one that is not local is written to its place in the machine. -/
def store (name : String) (v : ValueId) : BuildM Unit := do
  if (!(← get).vars.contains name && name != "return") || name == "current_exception" then
    let _ ← addOp .globalWrite name [v] (← typeOf v) none none
  else setVar name (some v)

/-- Goes down a chain of fields and gives the innermost object with its type. -/
def descend (v : ValueId) (t : Ty) : List String → BuildM (ValueId × Ty)
  | [] => pure (v, t)
  | f :: fs => do
    let t ← fieldType t f
    let v ← addOp .fieldAccess f [v] t none none
    descend v t fs

/-- The last field of a chain and those before it. -/
def lastField (fields : List String) : BuildM (List String × String) :=
  match fields.getLast? with
  | some f => pure (fields.dropLast, f)
  | none => throw .outOfRange

/-- The result of the operation that a statement names. -/
def applied (result name : String) (args : List ValueId) (type : Ty) (pos : Option String) :
    BuildM ValueId :=
  if name == "$zinternal_vector_init" then
    match args with
    | size :: _ => addOp .vectorInit "$zinternal_vector_init" [size] type pos none
    | [] => throw .outOfRange
  else if name == "$zinternal_vector_update" then
    addOp .vectorUpdate "$zinternal_vector_update" args type pos none
  else addOp .call name args type pos (some result)

/-- Converts what is assigned to a variable if the types are not the same. -/
def assigned (result : String) (source target : Ty) (pos : Option String) (v : ValueId) :
    BuildM ValueId :=
  if target == source then pure v
  else push (.op ⟨.cast, "$cast", #[v], target, pos, some result⟩)

def blockId (src : BuildSource) (pc : Int) : BuildM BlockId :=
  match src.blockIds.get? pc with
  | some b => pure b
  | none => throw .missingKey

def setNext (b : BlockId) (n : Next) : BuildM Unit := onArena (modify (fun a => a.setNext b n))

/-- Writes the field at the end of a chain of fields; the new value comes after the chain has been
followed and depends on the type of the field. -/
def writeField (src : BuildSource) (o : Expr) (fields : List String) (pos : Option String)
    (value : BuildM Ty → BuildM ValueId) : BuildM Unit := do
  let (firsts, last) ← lastField fields
  let obj ← expr src o
  let (obj, t) ← descend obj (← typeOf obj) firsts
  let v ← value (fieldType t last)
  let _ ← addOp .fieldWrite last [obj, v] .unit pos none

def statement (src : BuildSource) : Statement → BuildM Unit
  | .declare n _ v t pos => do
    let t := t.getD .unknown
    match v with
    | some (.call f args rt cpos) => do
      let vs ← exprs src args
      setVar n (some (← addOp .call f vs rt cpos (some n)))
    | some _ => throw .internal
    | none =>
      if t.isStruct then setVar n (some (← addOp .allocate "$allocate" [] t pos none))
      else setVar n (some (← newConst (.default t)))
  | .operation r n args t pos => do
    let vs ← exprs src args
    store r (← applied r n vs (t.getD .unknown) pos)
  | .assign r e t pos => do
    let v ← expr src e
    store r (← assigned r (slot e) (t.getD .unknown) pos v)
  | .setField o fields e _ pos =>
    writeField src o fields pos fun type => do
      let v ← expr src e
      converted v (← type) pos
  | .setTarget g n args t pos => do
    let vs ← exprs src args
    let t := t.getD .unknown
    let rhs ← push (.op ⟨.call, n, vs.toArray, t, pos, none⟩)
    match g with
    | .ref r _ => do
      let x ← expr src r
      let _ ← addOp .refAssignment "$ref-assign" [x, rhs] .unit pos none
    | .field o fields _ =>
      writeField src o fields pos fun type => do
        if !(t == (← type)) then throw .unfinished
        return rhs
  | .setRef .. | .goto _ | .jump .. | .exit .. | .finish | .arbitrary => throw .internal

/-- Builds the statements of a block one after the other. -/
def steps (src : BuildSource) (b : BlockId) : List Step → BuildM Unit
  | [] => pure ()
  | .stop :: rest => do
    setNext b .justStop
    steps src b rest
  | .statement s :: rest => do
    match s with
    | .finish => do
      match (← get).vars.get? "return" with
      | some v => setNext b (.ret v none)
      | none => throw .missingKey
      check rest.isEmpty
    | .goto t => do
      setNext b (.goto (← blockId src t) none)
      steps src b rest
    | .jump c t pos => do
      let v ← condition src pos c
      match rest with
      | [.statement (.goto other)] =>
        setNext b (.branch v (← blockId src t) (← blockId src other) pos)
      | _ => throw .assertion
    | .exit kind pos => do
      let k ← newConst (.text kind)
      setNext b (.raise k pos)
      steps src b rest
    | .arbitrary => do
      match src.type with
      | .function _ result => setNext b (.ret (some (← newConst (.default result))) none)
      | _ => throw .internal
      steps src b rest
    | s => do
      statement src s
      steps src b rest

/-- Makes the arguments variables. -/
def argumentVars : List (String × Ty) → BuildM Unit
  | [] => pure ()
  | (n, t) :: rest => do
    setVar n (some (← onArena (GraphM.newValue (.argument n t))))
    argumentVars rest

/-- Notes the values of the arguments in their order. -/
def passArguments : List String → BuildM Unit
  | [] => pure ()
  | n :: rest => do
    match (← get).vars.get? n with
    | some (some v) => modify (fun s => { s with args := s.args.push v })
    | _ => throw .missingKey
    passArguments rest

/-- The variables at the start of the body: its arguments and its result. -/
def startVars (src : BuildSource) : BuildM Unit := do
  modify (fun s => { s with vars := {}, args := #[] })
  if !src.args.isEmpty then
    match src.type with
    | .function (.tuple types) _ => do
      argumentVars (src.args.zip types)
      passArguments src.args
    | _ => throw .internal
  match src.type with
  | .function _ result => setVar "return" (some (← newConst (.default result)))
  | _ => setVar "return" none

def varsAtEnd (pc : Int) : BuildM VarTable := do
  match (← get).atEnd.get? pc with
  | some t => pure t
  | none => throw .missingKey

/-- The value of a variable where ways without a loop meet. -/
def meetVar (preds : List BlockId) (first : ValueId) (others : List ValueId) : BuildM ValueId := do
  if others.all (· == first) then return first
  let t ← typeOf first
  if t == .unit then return Arena.unitId
  push (.phi ⟨preds.toArray, (first :: others).toArray, t⟩)

/-- The value of a variable where ways meet, if it has one at the end of the first and of all other
ways. -/
def meetEntry (preds : List BlockId) (others : List VarTable) (var : String) (v : Option ValueId) :
    BuildM (Option ValueId) :=
  match v, others.mapM (fun t => (t.get? var).join) with
  | some v, some vs => do return some (← meetVar preds v vs)
  | _, _ => pure none

/-- Gives variables new values one after the other. -/
def allVars (value : String → Option ValueId → BuildM (Option ValueId)) :
    List (String × Option ValueId) → VarTable → BuildM VarTable
  | [], vars => pure vars
  | (var, v) :: rest, vars => do allVars value rest (vars.insert var (← value var v))

/-- Starts a block with the variables of a table, each with a new value. -/
def startWith (value : String → Option ValueId → BuildM (Option ValueId)) (table : VarTable) :
    BuildM Unit := do
  let vars ← allVars value table.toList {}
  modify (fun s => { s with vars := vars })

/-- The variables where ways meet that all come from blocks that are done. -/
def meetVars (src : BuildSource) (first : Int) (others : List Int) : BuildM Unit := do
  let preds ← (first :: others).mapM (blockId src)
  let table ← varsAtEnd first
  let tables ← others.mapM varsAtEnd
  startWith (meetEntry preds tables) table

/-- Leaves the entries of a phi but the first open until their blocks are done. -/
def awaitAll (phi : ValueId) (var : String) (others : List Int) : BuildM Unit := do
  if others.any (← get).atEnd.contains then throw .internal
  modify fun s =>
    { s with waiting := others.zipIdx.map (fun (pc, i) => (pc, ⟨phi, i + 1, var⟩)) ++ s.waiting }

/-- The value of a variable at the start of a loop, from the one at the end of the first way. -/
def loopEntry (preds : List BlockId) (others : List Int) (var : String) :
    Option ValueId → BuildM (Option ValueId)
  | none => pure none
  | some v => do
    let t ← typeOf v
    if t == .unit then return some Arena.unitId
    let values := v :: others.map (fun _ => Arena.missingId)
    let phi ← push (.phi ⟨preds.toArray, values.toArray, t⟩)
    awaitAll phi var others
    return some phi

/-- The variables at the start of a loop. -/
def loopVars (src : BuildSource) (pc : Int) (entry : List Int) : BuildM Unit := do
  match entry with
  | [] => throw .assertion
  | first :: others => do
    check (others.all (first ≤ ·) && first < pc)
    let preds ← entry.mapM (blockId src)
    startWith (loopEntry preds others) (← varsAtEnd first)

/-- Notes that a way has been taken into account; without loops each way counts once. -/
def leaveWay (pc : Int) (pred : Int) : BuildM Unit := do
  if !(← get).exits.contains (pred, pc) then throw .missingKey
  modify (fun s => { s with exits := s.exits.filter (· != (pred, pc)) })

/-- The variables at the start of a block, from the blocks that lead to it. -/
def entryVars (src : BuildSource) (pc : Int) (isLoop : Bool) (entry : List Int) : BuildM Unit :=
  match entry with
  | [] => do
    check (pc == src.start)
    startVars src
  | [p] => do
    let vars ← varsAtEnd p
    modify (fun s => { s with vars := vars })
  | first :: others => if isLoop then loopVars src pc entry else meetVars src first others

/-- Enters a block; one that a later block, or itself, leads to is the start of a loop. -/
def enter (src : BuildSource) (pc : Int) (entry : List Int) : BuildM Unit := do
  let isLoop := entry.any (fun p => !(p < pc))
  modify (fun s => { s with hasLoop := s.hasLoop || isLoop })
  entryVars src pc isLoop entry
  if !(← get).hasLoop then entry.forM (leaveWay pc)

/-- Fills an open entry with the value that its variable has at the end of a block; a variable that
is not there any more keeps the first value. -/
def fillEntry (vars : VarTable) (a : Arena) (e : OpenEntry) : Arena :=
  a.modifyValue e.phi fun v =>
    match v with
    | .phi p =>
      let x := match vars.get? e.var with
        | some v => v.getD Arena.missingId
        | none => p.values.getD 0 Arena.missingId
      .phi { p with values := p.values.setIfInBounds e.index x }
    | v => v

/-- Fills the entries that wait for a block that is done. -/
def fillEntries (pc : Int) : BuildM Unit := do
  let s ← get
  onArena (modify (fun a => (s.openEntries pc).foldl (fillEntry s.vars) a))

def block (src : BuildSource) (ways : List (Int × Int)) (pc : Int) : BuildM Unit := do
  let b ← blockId src pc
  modify (fun s => { s with ops := #[] })
  enter src pc (StepBlocks.entering ways pc)
  steps src b (src.blocks.getD pc [])
  fillEntries pc
  let s ← get
  onArena (modify (fun a => a.setOps b s.ops))
  modify (fun s => { s with atEnd := s.atEnd.insert pc s.vars })

def blocks (src : BuildSource) : BuildM Unit :=
  (src.blocks.keys.toList.mergeSort (fun a b => decide (a ≤ b))).forM (block src src.blocks.ways)

end BuildM

namespace GraphM

def newBlocks : List Int → Table Int BlockId → GraphM (Table Int BlockId)
  | [], ids => pure ids
  | pc :: pcs, ids => do newBlocks pcs (ids.insert pc (← newBlock #[] .unset))

def buildBlocks (src : BuildSource) : GraphM (Array ValueId × Bool) := fun a =>
  match BuildM.blocks src { arena := a, exits := src.blocks.ways } with
  | .ok _ s => .ok (s.args, s.hasLoop) s.arena
  | .error e s => .error e s.arena

def build (name : String) (args : List String) (type : Ty) (constants : Table String ValueId)
    (blocks : StepBlocks) (start : Int) : GraphM Graph := do
  let ids ← newBlocks blocks.keys.toList {}
  let (args, hasLoop) ← buildBlocks ⟨name, args, type, constants, start, blocks, ids⟩
  match ids.get? start with
  | none => throw .missingKey
  | some b => return ⟨name, args, b, hasLoop⟩

end GraphM

namespace Session

def buildGraph (name : String) (args : List String) (type : Ty) (constants : Table String ValueId)
    (blocks : StepBlocks) (start : Int) : SessionM GraphId := do
  let g ← onArena (GraphM.build name args type constants blocks start)
  let id ← addGraph g
  let _ ← onGraph id (fun g bn => g.assertionsToBranches bn)
  let _ ← simplify id
  return id

end Session

end Jib
