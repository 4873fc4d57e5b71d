import Jib.Graph.Optimizer.Vectors
import Jib.Primitive.Pure

/-!
# The local optimizer

One rule for each kind of operation: conversions are undone, primitives are rewritten for machine
words or evaluated on constants, phis over converted values are converted once, checks and casts of
freshly made union values are decided.
-/

namespace Jib.Graph

open OptM

/-! ### Evaluation on constants -/

/-- The operand that a constant stands for when a primitive is evaluated. -/
def foldOperand (a : Arena) (v : ValueId) : Result (Option Datum) :=
  match a.const? v with
  | some (.int n) =>
    .ok (if GraphM.fitsWord n then some (.integer (.small (Int64.ofInt n))) else none)
  | some (.machineInt n) => .ok (some (.int n))
  | some (.smallBits w _) => .ok (some (.word w))
  | some (.bits b) => .ok (some (.bits b))
  | some c =>
    match c.type with
    | .unit => .ok (some .unit)
    | .string =>
      match c with
      | .text s => .ok (some (.text s))
      | _ => .error .internal
    | _ => .ok none
  | none => .ok none

def foldOperands (a : Arena) : List ValueId → Result (Option (List Datum))
  | [] => .ok (some [])
  | v :: vs => do
    let some d ← foldOperand a v | return none
    return (← foldOperands a vs).map (d :: ·)

/-- The constant of a type that a result denotes. -/
def constOfDatum (t : Ty) (d : Datum) : OptM (Option ValueId) := do
  match t with
  | .machineInt =>
    match d with
    | .int n =>
      ensure (GraphM.fitsWord n)
      return some (← newMachineInt n)
    | _ => throw .assertion
  | .int =>
    match d with
    | .integer z => return some (← newConst (.int z.toInt))
    | .bits b => return some (← newConst (.int b.toNat))
    | _ => throw .internal
  | .smallBits w =>
    match d with
    | .word x => return some (← newConst (.smallBits x (.smallBits w)))
    | _ => throw .assertion
  | .bool =>
    match d with
    | .bool b => return some (Arena.boolId b)
    | _ => throw .assertion
  | .string =>
    match d with
    | .text s => return some (← newConst (.text s))
    | _ => throw .assertion
  | .bits =>
    match d with
    | .bits b => return some (← newConst (.bits b))
    | _ => throw .assertion
  | _ => return none

/-- Evaluates a primitive on constants; an evaluation that fails gives nothing. -/
def foldCall (name : String) (args : List ValueId) (t : Ty) : OptM (Option ValueId) := do
  let a := (← get).arena
  match foldOperands a args with
  | .error e => throw e
  | .ok none => return none
  | .ok (some ds) =>
    match Primitive.evalPure name ds with
    | .error _ => return none
    | .ok d => constOfDatum t d

/-- The phi among the operands, if all others are constants and so are all its entries. -/
def constantPhi? (a : Arena) : List ValueId → Option (ValueId × Phi)
  | args =>
    match args.filter (fun v => !a.isConst v) with
    | [v] =>
      match a.phi? v with
      | some p => if p.values.all (fun x => a.isConst x) then some (v, p) else none
      | none => none
    | _ => none

/-- The block among the successors of a phi's predecessors that holds it. -/
def homeBlock? (a : Arena) (v : ValueId) (p : Phi) : Option BlockId :=
  p.preds.findSome? (fun b => (a.targets b).find? (fun t => (a.ops t).contains v))

/-- Puts a new phi beside another one; a long block is left alone where that is asked for. -/
def placeBeside (v : ValueId) (p : Phi) (phi : ValueId) (limit : Option Nat) :
    OptM (Option ValueId) := do
  let s ← get
  if (s.arena.ops s.current).contains v || (s.newOps.getD #[]).contains v then
    insertNewFront phi
    return some phi
  let some home := homeBlock? s.arena v p | return none
  if !limit.all (fun n => (s.arena.ops home).size < n) then return none
  insertFront home phi
  return some phi

def foldEntries (name : String) (args : List ValueId) (v : ValueId) (t : Ty) :
    List ValueId → OptM (Option (List ValueId))
  | [] => pure (some [])
  | x :: xs => do
    let some r ← foldCall name (args.map (fun y => if y == v then x else y)) t | return none
    return (← foldEntries name args v t xs).map (r :: ·)

/-- Evaluates a primitive on every entry of a phi. -/
def foldPhi (name : String) (args : List ValueId) (t : Ty) : OptM (Option ValueId) := do
  match constantPhi? (← get).arena args with
  | none => return none
  | some (v, p) =>
    match ← foldEntries name args v t p.values.toList with
    | none => return none
    | some [] => throw .outOfRange
    | some (r :: rs) =>
      let a := (← get).arena
      if rs.all (fun x => a.const? x == a.const? r) then return some r
      let phi ← onArena (GraphM.newValue (.phi ⟨p.preds, (r :: rs).toArray, t⟩))
      placeBeside v p phi (some 50)

/-! ### Rules for kinds of operations -/

def castRule (b : BlockId) (index : Nat) (o : Operation) : OptM ValueId := do
  let x ← arg1 o
  if o.type == (← typeOf x) then
    vacate b index
    return x
  let s ← get
  let some c := s.arena.op? x | noMatch
  if !s.doubleCasts || c.kind != .cast then noMatch
  let y ← arg1 c
  if (← typeOf y) == o.type then
    vacate b index
    return y
  newCast y o.type o.pos o.hint

/-- Operands of the form that takes machine integers. -/
def wordOperands : List Primitive.Passing → List ValueId → OptM (List ValueId)
  | [], _ => pure []
  | _, [] => pure []
  | .whole :: ps, x :: xs => do return x :: (← wordOperands ps xs)
  | .word :: ps, x :: xs => do return (← forceMachineInt x) :: (← wordOperands ps xs)

def callRule (v : ValueId) (o : Operation) : OptM ValueId := do
  let name ← builtinName o.name
  if let some (passing, wordName) := Primitive.wordForm? name then
    ensure (passing.length == o.args.size)
    return ← instead o ("@" ++ wordName) (← wordOperands passing (← operands o))
  let name := stripMarks name
  if let some rule := rule? name then
    if let some r ← attempt (rule v o) then return r
  if o.type == .real || !Primitive.isPure name || (name.splitOn "undefined").length > 1 then noMatch
  let args ← operands o
  let a := (← get).arena
  let fold := if args.all (fun x => a.isConst x) then foldCall else foldPhi
  let some r ← fold name args o.type | noMatch
  return r

/-- A register that is read, updated at one index and written back is updated in place. -/
def globalWriteRule (o : Operation) : OptM Bool := do
  let x ← arg1 o
  match ← op? x with
  | some c =>
    if c.kind != .cast then return false
    let u ← arg1 c
    match ← op? u with
    | some update =>
      if update.name != "@vector_update_o_i_o" then return false
      let (list, _, _) ← arg3 update
      if (← typeOf list) == .bits then return false
      match ← op? list with
      | some lc =>
        if lc.kind != .cast then throw .unfinished
        match ← op? (← arg1 lc) with
        | some r =>
          if r.kind != .globalRead then throw .unfinished
          if r.name != o.name then throw .unfinished
          onArena (modify (fun a => a.setValue u
            (.op { update with name := "@helper_vector_update_inplace_o_i_o", type := .unit })))
          return true
        | none => throw .unfinished
      | none => throw .unfinished
    | none => return false
  | none => return false

/-- A vector that was just made is updated in place. -/
def vectorUpdateInitRule (o : Operation) : OptM ValueId := do
  let (list, i, x) ← arg3 o
  if !(← get).arena.isKind list .vectorInit then noMatch
  let _ ← newOp "@helper_vector_update_inplace_o_i_o" [list, i, x] .unit o.pos o.hint
  return list

/-- The entries of a phi as narrow vectors of one width; uninitialised entries are left open. -/
def narrowEntries :
    List ValueId → Option Ty → OptM (List (Option ValueId) × Option Ty)
  | [], t => pure ([], t)
  | x :: xs, t => do
    if let some (.default _) ← const? x then
      let (ys, t) ← narrowEntries xs t
      return (none :: ys, t)
    let (y, u) ← smallBits (← current x)
    if t.any (!· == u) then noMatch
    let (ys, t) ← narrowEntries xs (some u)
    return (some y :: ys, t)

def bitsPhiRule (p : Phi) : OptM ValueId := do
  let (entries, t?) ← narrowEntries p.values.toList none
  let t := t?.getD .unknown
  let values ← entries.mapM (fun e => match e with
    | some y => pure y
    | none => newConst (.default t))
  let phi ← newPhi p.preds values.toArray t
  newCast phi .bits

def intPhiRule (p : Phi) : OptM ValueId := do
  let values ← p.values.mapM (fun x => do asMachineInt (← current x))
  let a := (← get).arena
  if values.all (fun x => a.isConst x) then noMatch
  toInt (← newPhi p.preds values .machineInt)

/-- Entries are converted at the end of the blocks they come from, if they all fit there. -/
def intPhiRangeRule (info : RangeInfo) (p : Phi) : OptM ValueId := do
  let a := (← get).arena
  if p.values.all (fun x => a.isConst x) then noMatch
  let mut values := #[]
  for (pred, x) in p.preds.zip p.values do
    if !((info.table.getD pred ∅)[x]?).any (·.fitsMachineInt) then noMatch
    values := values.push (← placeConversion info x pred)
  toInt (← newPhi p.preds values .machineInt)

def isStructOrDefault (a : Arena) (v : ValueId) : Bool :=
  match a.value v with
  | .op o => o.kind == .structConstruction
  | .const (.default _) => true
  | _ => false

/-- The field of a structure that is being built, or of an uninitialised one. -/
def entryField (t : Ty) (index : Nat) (v : ValueId) : OptM ValueId := do
  let .op o ← value v | newConst (.default t)
  let some x := o.args[index]? | throw .outOfRange
  return x

/-- A phi over structures becomes a structure of phis. -/
def structPhiRule (p : Phi) : OptM ValueId := do
  let a := (← get).arena
  if !p.values.all (isStructOrDefault a) then noMatch
  let .struct name names _ _ := p.type | noMatch
  let mut fields := #[]
  for (n, i) in names.zipIdx do
    let t := (p.type.field? n).getD .unknown
    let values ← p.values.mapM (entryField t i)
    fields := fields.push (← newPhi p.preds values t)
  emit (.op ⟨.structConstruction, name, fields, p.type, none, none⟩)

def phiRule (p : Phi) : OptM ValueId := do
  if p.type == .bits then return ← bitsPhiRule p
  if p.type == .int then
    return ← match (← get).ranges with
      | some info => intPhiRangeRule info p
      | none => intPhiRule p
  if p.type.isTupleStruct then structPhiRule p else noMatch

/-- Whether a value of union type was just made. -/
def isCreation (v : ValueId) : OptM Bool := do
  ensure (← typeOf v).isUnion
  return (← get).arena.isUnionCreation v

def allCreations : List ValueId → OptM Bool
  | [] => pure true
  | v :: vs => do if ← isCreation v then allCreations vs else pure false

def opName (v : ValueId) : OptM String := do return ((← op? v).map (·.name)).getD ""

def variantCheckRule (o : Operation) : OptM ValueId := do
  let x ← arg1 o
  match ← value x with
  | .op c =>
    if c.kind == .call then
      if c.name == o.name then return Arena.falseId
      if ← isCreation x then return Arena.trueId
    noMatch
  | .phi p =>
    if !(← allCreations p.values.toList) then noMatch
    let results ← p.values.mapM (fun y => do return Arena.boolId ((← opName y) != o.name))
    if let [r] := results.toList.eraseDups then return r
    let phi ← onArena (GraphM.newValue (.phi ⟨p.preds, results, .bool⟩))
    let some r ← placeBeside x p phi none | noMatch
    return r
  | _ => noMatch

def unionCastRule (o : Operation) : OptM ValueId := do
  let x ← arg1 o
  if !(← isCreation x) then noMatch
  let some c ← op? x | noMatch
  if c.name != o.name then noMatch
  let [y] := c.args.toList | throw .assertion
  ensure ((← typeOf y) == o.type)
  return y

/-- What the rule for an operation's kind makes of it. -/
def applyRules (b : BlockId) (index : Nat) (v : ValueId) : OptM Outcome := do
  match ← value v with
  | .op o =>
    match o.kind with
    | .cast => return .replace (← castRule b index o)
    | .call => return .replace (← callRule v o)
    | .globalWrite => if ← globalWriteRule o then return .remove else noMatch
    | .vectorUpdate => return .replace (← vectorUpdateInitRule o)
    | .assign => return .remove
    | .unionVariantCheck => return .replace (← variantCheckRule o)
    | .unionCast => return .replace (← unionCastRule o)
    | _ => noMatch
  | .phi p => return .replace (← phiRule p)
  | _ => noMatch

/-- A value that intervals show to be constant. -/
def constantByRange? (v : ValueId) : OptM (Option ValueId) := do
  if (← get).ranges.isNone then return none
  let some r ← rangeHere? v | return none
  match ← typeOf v with
  | .bool =>
    return if r == .yes then some Arena.trueId else if r == .no then some Arena.falseId else none
  | .int => r.const?.mapM fun n => newConst (.int n)
  | .machineInt => r.const?.mapM newMachineInt
  | _ => return none

def localStep (b : BlockId) (index : Nat) (v : ValueId) : OptM Outcome := do
  if let some x ← constantByRange? v then return .replace x
  let some outcome ← attempt (applyRules b index v) | reuseOrKeep b index v
  return outcome

def runWith (g : Graph) (bn : Builtins) (doubleCasts : Bool) (ranges : Option RangeInfo)
    (x : OptM Bool) : GraphM Bool := fun a =>
  match optimizerFor g a bn doubleCasts ranges with
  | .error e => .error e a
  | .ok s =>
    match x s with
    | .ok r s => .ok r s.arena
    | .error e s => .error e s.arena

def localOptOnce (g : Graph) (bn : Builtins) (doubleCasts : Bool) : GraphM Bool :=
  runWith g bn doubleCasts none (runOptimizer localStep)

/-- Rewrites operations by local rules until nothing changes. -/
def localOpt (g : Graph) (bn : Builtins) (doubleCasts : Bool := true) : GraphM Bool :=
  repeated (g.localOptOnce bn doubleCasts)

/-- Rewrites operations once with the help of interval analysis. -/
def optimizeWithRanges (g : Graph) (bn : Builtins) : GraphM Bool := do
  if g.hasLoop then return false
  if g.hasMoreBlocksThan (← get) 1000 then return false
  let table ← GraphM.ofExcept (g.analyzeRanges bn)
  let idom ← GraphM.ofExcept g.immediateDominators
  runWith g bn true (some ⟨table, idom⟩) (runOptimizer localStep)

end Jib.Graph
