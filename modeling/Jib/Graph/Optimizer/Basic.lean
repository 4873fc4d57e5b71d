import Jib.Graph.Anticipated
import Jib.Graph.Ranges

/-!
# The block optimizer

Walks over the blocks of a graph in topological order and rebuilds the operations of each.  An
operation is kept, dropped, or replaced by another value; an operation that computes what an
available one has computed is replaced by it.  Substitutions are carried out at the end.

With interval information at hand the walk skips blocks that are never reached, and integers that
fit a machine word count as such.
-/

namespace Jib.Graph

/-- What an expression is compared by. -/
inductive OperandKey where
  | value (v : ValueId)
  | const (c : Const)
  deriving BEq, Hashable

/-- What identifies a computation. -/
inductive ExprKey where
  | op (kind : OpKind) (name : String) (args : List OperandKey) (type : Ty)
  | phi (values : List OperandKey) (preds : List BlockId) (type : Ty)
  deriving BEq, Hashable

abbrev Expressions := Std.HashMap ExprKey ValueId

/-- What is known about intervals, for an optimizer that uses them. -/
structure RangeInfo where
  table : RangeTable
  idom : Std.HashMap BlockId BlockId
  deriving Inhabited

structure OptState where
  arena : Arena
  graph : Graph
  builtins : Builtins
  doubleCasts : Bool
  anticipated : Anticipated
  entry : EntryMap
  /-- Successors that still need what is available at a block. -/
  followers : Std.HashMap BlockId (List BlockId)
  ranges : Option RangeInfo
  current : BlockId
  changed : Bool := false
  deadEdges : Bool := false
  deadCode : Bool := false
  /-- The operations of the block that is being rebuilt. -/
  newOps : Option (Array ValueId) := none
  replaced : Substitution := ∅
  availableAt : Std.HashMap BlockId Expressions := ∅
  available : Option Expressions := none

abbrev OptM := EStateM Fault OptState

/-- What becomes of an operation. -/
inductive Outcome where
  /-- It has been dealt with. -/
  | done
  | remove
  | replace (v : ValueId)

namespace OptM

def onArena {α : Type} (x : GraphM α) : OptM α := fun s =>
  let a := s.arena
  let s := { s with arena := default }
  match x a with
  | .ok r a => .ok r { s with arena := a }
  | .error e a => .error e { s with arena := a }

def value (v : ValueId) : OptM Value := do return (← get).arena.value v

def typeOf (v : ValueId) : OptM Ty := do return (← value v).type

def const? (v : ValueId) : OptM (Option Const) := do return (← get).arena.const? v

def op? (v : ValueId) : OptM (Option Operation) := do return (← get).arena.op? v

def ensure (c : Bool) : OptM Unit := if c then pure () else throw .assertion

def noMatch {α : Type} : OptM α := throw .noMatch

/-- Runs a rule; a rule that does not apply gives nothing, but what it did stays done. -/
def attempt {α : Type} (x : OptM α) : OptM (Option α) := fun s =>
  match x s with
  | .ok r s => .ok (some r) s
  | .error .noMatch s => .ok none s
  | .error e s => .error e s

def pushOp (v : ValueId) : OptM Unit :=
  modify (fun s => { s with newOps := s.newOps.map (·.push v) })

/-- Adds a value to the block that is being rebuilt. -/
def emit (x : Value) : OptM ValueId := do
  let v ← onArena (GraphM.newValue x)
  if (← get).newOps.isNone then throw .internal
  pushOp v
  return v

def newOp (name : String) (args : List ValueId) (type : Ty) (pos hint : Option String := none) :
    OptM ValueId :=
  emit (.op ⟨.call, name, args.toArray, type, pos, hint⟩)

def newCast (arg : ValueId) (type : Ty) (pos hint : Option String := none) : OptM ValueId :=
  emit (.op ⟨.cast, "$cast", #[arg], type, pos, hint⟩)

def newPhi (preds : Array BlockId) (values : Array ValueId) (type : Ty) : OptM ValueId :=
  emit (.phi ⟨preds, values, type⟩)

def newConst (c : Const) : OptM ValueId := onArena (GraphM.newConst c)

def newMachineInt (n : Int) : OptM ValueId := onArena (GraphM.newMachineInt n)

def smallBitsType (w : Int) : OptM Ty := onArena (GraphM.smallBitsType w)

/-- Converts a machine integer to an unbounded one. -/
def toInt (arg : ValueId) (pos : Option String := none) : OptM ValueId :=
  newOp ofMachineIntName [arg] .int pos

/-- Converts an unbounded integer to a machine integer. -/
def toMachineInt (arg : ValueId) (pos : Option String := none) : OptM ValueId :=
  newOp toMachineIntName [arg] .machineInt pos

def builtinName (name : String) : OptM String := do return (← get).builtins name

/-- Follows replacements to the end. -/
def chase (s : Substitution) : Nat → ValueId → ValueId
  | 0, v => v
  | fuel + 1, v =>
    match s[v]? with
    | some x => chase s fuel x
    | none => v

/-- What stands for a value now; with intervals at hand values are looked at as they are. -/
def current (v : ValueId) : OptM ValueId := do
  let s ← get
  if s.ranges.isSome then return v
  return chase s.replaced (s.replaced.size + 1) v

def operands (o : Operation) : OptM (List ValueId) := o.args.toList.mapM current

def arg1 (o : Operation) : OptM ValueId := do
  let [x] ← operands o | throw .badValue
  return x

def arg2 (o : Operation) : OptM (ValueId × ValueId) := do
  let [x, y] ← operands o | throw .badValue
  return (x, y)

def arg3 (o : Operation) : OptM (ValueId × ValueId × ValueId) := do
  let [x, y, z] ← operands o | throw .badValue
  return (x, y, z)

def arg4 (o : Operation) : OptM (ValueId × ValueId × ValueId × ValueId) := do
  let [w, x, y, z] ← operands o | throw .badValue
  return (w, x, y, z)

def rangesHere? : OptM (Option RangeMap) := do
  let s ← get
  return s.ranges.bind (fun r => r.table[s.current]?)

/-- The interval of a value at the block that is being rebuilt. -/
def rangeHere? (v : ValueId) : OptM (Option Interval) := do
  return (← rangesHere?).bind (fun m => m[v]?)

/-! ### Common subexpressions -/

def operandKey (v : ValueId) : OptM OperandKey := do
  let s ← get
  let x := s.replaced.getD v v
  match s.arena.value x with
  | .const c => return .const c
  | .missing => throw .internal
  | _ => return .value x

def operandKeys (vs : List ValueId) : OptM (List OperandKey) := vs.mapM operandKey

def isReusable (o : Operation) : OptM Bool := do
  let s ← get
  match o.kind with
  | .cast | .unionCast | .unionVariantCheck => return true
  | _ =>
    if o.kind == .fieldAccess then
      let some x := o.args[0]? | throw .outOfRange
      if (s.arena.typeOf x).isTupleStruct then return true
    if o.name == "@not" then return true
    return o.kind == .call && Primitive.isPure (stripAt (s.builtins o.name))

def remember (k : ExprKey) (v : ValueId) : OptM Unit :=
  modify (fun s => { s with available := s.available.map (·.insert k v) })

def lookup (k : ExprKey) : OptM (Option ValueId) := do
  return (← get).available.bind (fun m => m[k]?)

def stands (v : ValueId) : OptM ValueId := do return (← get).replaced.getD v v

/-- What writing or building a structure with fixed fields teaches about its fields. -/
def rememberFields (v : ValueId) (o : Operation) : OptM Unit := do
  let a := (← get).arena
  if o.kind == .fieldWrite then
    let some obj := o.args[0]? | throw .outOfRange
    if (a.typeOf obj).isTupleStruct then
      ensure (!a.isKind obj .structConstruction)
      let some y := o.args[1]? | throw .outOfRange
      remember (.op .fieldAccess o.name (← operandKeys [obj]) (a.typeOf y)) (← stands y)
  if o.kind == .structConstruction && o.type.isTupleStruct then
    if let .struct _ names _ _ := o.type then
      for (n, y) in names.zip o.args.toList do
        remember (.op .fieldAccess n [.value v] (a.typeOf y)) (← stands y)

/-- Marks the place of an operation that is gone from its block. -/
def vacate (b : BlockId) (index : Nat) : OptM Unit :=
  onArena (modify (fun a => a.setOps b ((a.ops b).setIfInBounds index Arena.missingId)))

/-- Keeps an operation unless its value is available. -/
def reuseOrKeep (b : BlockId) (index : Nat) (v : ValueId) : OptM Outcome := do
  let key? ← match ← value v with
    | .phi p => pure (some (.phi (← operandKeys p.values.toList) p.preds.toList p.type))
    | .op o =>
      if ← isReusable o then pure (some (.op o.kind o.name (← operandKeys o.args.toList) o.type))
      else
        rememberFields v o
        pure none
    | _ => pure none
  if let some key := key? then
    if let some x ← lookup key then
      vacate b index
      modify (fun s => { s with deadCode := true })
      return .replace x
    remember key v
  pushOp v
  return .done

/-- What is available on entry to a block: what all its predecessors have. -/
def availableFrom (s : OptState) (b : BlockId) : Result Expressions :=
  match (s.entry.get b).toList with
  | [] => .ok ∅
  | [p] =>
    s.availableAt[p]?.elim (.error .missingKey) .ok
  | p :: ps =>
    let first := s.availableAt.getD p ∅
    let rest := ps.map (fun q => s.availableAt.getD q ∅)
    if rest.any (·.isEmpty) then .ok ∅
    else .ok (first.filter (fun k v => rest.all (fun m => m[k]? == some v)))

/-- Forgets what is available at blocks all of whose successors have been entered. -/
def release (b : BlockId) : OptM Unit := do
  for p in (← get).entry.get b do
    modify fun s =>
      let fs := (s.followers.getD p []).erase b
      let s := { s with followers := s.followers.insert p fs }
      if fs.isEmpty then { s with availableAt := s.availableAt.erase p } else s

def enterBlock (b : BlockId) : OptM Unit := do
  let m ← MonadExcept.ofExcept (availableFrom (← get) b)
  release b
  modify (fun s =>
    { s with available := some m, availableAt := s.availableAt.insert b m, newOps := some #[] })

/-- The truth value that a condition is known to have. -/
def knownBool? (v : ValueId) : OptM (Option Bool) := do
  if (← get).ranges.isSome then
    let r? ← rangeHere? v
    return if r? == some .yes then some true else if r? == some .no then some false else none
  let some (.bool b) ← const? (← current v) | return none
  return some b

def leaveBlock (b : BlockId) : OptM Unit := do
  if let .branch c t f _ := (← get).arena.next b then
    if let some x ← knownBool? c then
      onArena (modify (fun a => a.setNext b (.goto (if x then t else f) none)))
      modify (fun s => { s with deadEdges := true })
  let s ← get
  let ops := s.newOps.getD #[]
  let known := s.available.getD ∅
  onArena (modify (fun a => a.setOps b ops))
  modify (fun s =>
    { s with newOps := none, available := none, availableAt := s.availableAt.insert b known })

/-- Records what became of an operation. -/
def settle (v : ValueId) : Outcome → OptM Unit
  | .done => pure ()
  | .remove => modify (fun s => { s with changed := true })
  | .replace x => do
    ensure ((← typeOf v) == (← typeOf x))
    modify (fun s => { s with replaced := s.replaced.insert v x })

/-- Whether a block is skipped because it is never reached. -/
def isSkipped (b : BlockId) : OptM Bool := do
  return (← get).ranges.any (fun r => !r.table.contains b)

/-! ### Looking through conversions -/

/-- The narrower form of a bit vector whose width is known, with its type. -/
def smallBits (v : ValueId) : OptM (ValueId × Ty) := do
  let x ← value v
  if let .const (.bits b) := x then
    if b.width ≤ 64 then
      let t := Ty.smallBits b.width
      return (← newConst (.smallBits (b.toNat.toUInt64) t), t)
  if x.type.isSmallBits then return (v, x.type)
  if let .op o := x then
    if o.kind == .cast then
      let some e := o.args[0]? | throw .outOfRange
      match ← typeOf e with
      | .smallBits w => return (e, .smallBits w)
      | .bits | .bigBits _ => noMatch
      | _ => throw .assertion
  let s ← get
  if s.newOps.isSome then
    let ahead : Array Conversion := s.anticipated.getD s.current #[]
    let casts : List Ty := (ahead.filter (fun c => s.replaced.getD c.1 c.1 == v)).toList.map (·.2)
    if let [t] := casts.eraseDups then return (← newCast v t, t)
  noMatch

/-- Puts a conversion to a machine integer into the earliest block where its operand is known to
fit, going up the tree of closest dominators. -/
def earliestFit (s : OptState) (info : RangeInfo) (v : ValueId) : Nat → BlockId → Result BlockId
  | 0, _ => .error .internal
  | fuel + 1, b =>
    if b == s.graph.start then .ok b
    else do
      let some p := info.idom[b]? | throw .missingKey
      if (((info.table.getD p ∅)[v]?).getD .unbounded).fitsMachineInt then
        earliestFit s info v fuel p
      else .ok b

def placeConversion (info : RangeInfo) (v : ValueId) (b : BlockId) : OptM ValueId := do
  let c ← onArena (GraphM.newValue (.op ⟨.call, toMachineIntName, #[v], .machineInt, none, none⟩))
  let s ← get
  let target ← MonadExcept.ofExcept (earliestFit s info v (info.idom.size + 1) b)
  modify (fun s => { s with deadCode := true })
  if target == s.current then pushOp c
  else onArena (modify (fun a => a.setOps target ((a.ops target).push c)))
  return c

/-- Puts a phi in front of the block that holds another one. -/
def insertFront (b : BlockId) (v : ValueId) : OptM Unit :=
  onArena (modify (fun a => a.setOps b (#[v] ++ a.ops b)))

def insertNewFront (v : ValueId) : OptM Unit := do
  if (← get).newOps.isNone then throw .internal
  modify (fun s => { s with newOps := s.newOps.map (#[v] ++ ·) })

/-- A machine integer that has the value of an integer. -/
def machineInt (wantConst : Bool) : Nat → Bool → ValueId → OptM ValueId
  | 0, _, _ => throw .internal
  | fuel + 1, recurse, v => do
    let x ← value v
    if let some info := (← get).ranges then
      if x.type == .int && (← rangeHere? v).any (·.fitsMachineInt) then
        return ← placeConversion info v (← get).current
    if x.type == .machineInt then return v
    match x with
    | .const (.int n) =>
      if !wantConst then noMatch
      if GraphM.fitsWord n then return ← newMachineInt n
    | .const (.default _) => return ← newConst (.default .machineInt)
    | .op o =>
      if (← builtinName o.name) == "int64_to_int" then
        let some y := o.args[0]? | throw .outOfRange
        return y
      if o.kind == .cast then throw .unfinished
    | _ => pure ()
    if let some y ← lookup (.op .call toMachineIntName (← operandKeys [v]) .machineInt) then
      return y
    let s ← get
    if s.newOps.isSome then
      if (s.anticipated.getD s.current #[]).contains (v, Ty.machineInt) then
        return ← toMachineInt v
    if let .phi p := x then
      if recurse then
        let deeper := !s.graph.hasLoop
        let values ← p.values.mapM (fun y => do machineInt wantConst fuel deeper (← current y))
        let phi ← onArena (GraphM.newValue (.phi ⟨p.preds, values, .machineInt⟩))
        modify (fun s => { s with deadCode := true })
        let a := (← get).arena
        if (a.ops s.current).contains v then
          insertNewFront phi
          return phi
        for pred in p.preds do
          if let .goto home _ := a.next pred then
            if (a.ops home).contains v then
              insertFront home phi
              return phi
    noMatch

/-- A machine integer that has the value of an integer, constants included. -/
def asMachineInt (v : ValueId) : OptM ValueId := do
  machineInt true ((← get).arena.values.size + 1) true v

/-- The number that a value is known to be. -/
def number (v : ValueId) : OptM (ValueId × Int) := do
  if let some (.machineInt n) ← const? v then return (v, n)
  let w ← asMachineInt v
  let some (.machineInt n) ← const? w | noMatch
  return (w, n)

/-- Converts to a machine integer, with an operation if need be. -/
def forceMachineInt (v : ValueId) : OptM ValueId := do
  let some w ← attempt (asMachineInt v) | toMachineInt v
  return w

/-- Whether a result is known to fit a machine integer. -/
def fitsMachineInt (v : ValueId) : OptM Bool := do
  if (← rangeHere? v).any (·.fitsMachineInt) then return true
  let s ← get
  return (s.anticipated.getD s.current #[]).contains (v, Ty.machineInt)

/-- An operation that never gives a negative number. -/
def isNonNegative (v : ValueId) : OptM Bool := do
  return (← op? v).any fun o =>
    ["@unsigned_bv_wrapped_res", "@unsigned_bv", "@length_unwrapped_res"].contains o.name

end OptM

def optimizerFor (g : Graph) (a : Arena) (bn : Builtins) (doubleCasts : Bool)
    (ranges : Option RangeInfo) : Result OptState := do
  let anticipated ← g.anticipatedCasts a
  let entry := g.entryMap a
  let followers := entry.order.foldl
    (fun (m : Std.HashMap BlockId (List BlockId)) b =>
      (entry.get b).foldl
        (fun m p =>
          let fs := m.getD p []
          if fs.contains b then m else m.insert p (fs ++ [b]))
        m)
    ∅
  return {
    arena := a, graph := g, builtins := bn, doubleCasts := doubleCasts, anticipated := anticipated,
    entry := entry, followers := followers, ranges := ranges, current := g.start }

section Walk

variable {m : Type → Type} [Monad m] [MonadLiftT OptM m]

def optimizeBlock (step : BlockId → Nat → ValueId → m Outcome) (b : BlockId) : m Unit := do
  liftM (modify (fun s => { s with current := b }) : OptM Unit)
  if ← liftM (OptM.isSkipped b) then return
  liftM (OptM.enterBlock b)
  let ops ← liftM (do return (← get).arena.ops b : OptM (Array ValueId))
  for (v, i) in ops.toList.zipIdx do
    let outcome ← step b i v
    liftM (OptM.settle v outcome)
  liftM (OptM.leaveBlock b)

/-- Carries out the substitutions and tidies up; says whether anything changed. -/
def finishOptimizer : OptM Bool := do
  let s ← get
  if !s.replaced.isEmpty then
    OptM.onArena (s.graph.replaceAll s.replaced)
    modify (fun s => { s with replaced := ∅, changed := true })
  if s.deadEdges then
    OptM.onArena s.graph.dropLostEntries
    modify (fun s => { s with changed := true })
  if (← get).deadCode then
    let _ ← OptM.onArena (s.graph.removeDead s.builtins)
  return (← get).changed

def runOptimizer (step : BlockId → Nat → ValueId → m Outcome) : m Bool := do
  let order ← liftM (do
    let g := (← get).graph
    OptM.onArena (GraphM.ofExcept g.bestTopoOrder) : OptM (Array BlockId))
  for b in order do
    optimizeBlock step b
  liftM finishOptimizer

end Walk

end Jib.Graph
