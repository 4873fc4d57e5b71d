import Jib.Graph.Cleanup

/-!
# Removal of allocations

A structure that is built, written and read inside one block need not exist.  It is kept as a table
of fields and built only where it escapes: into an operation, into another block or as the result.
-/

namespace Jib.Graph

/-- Structures not built yet, oldest first, with the fields known so far. -/
abbrev Virtuals := Array (ValueId × Array (String × ValueId))

structure AllocState where
  virtuals : Virtuals
  ops : Array ValueId
  replaced : Substitution

namespace AllocState

def fields? (s : AllocState) (v : ValueId) : Option (Array (String × ValueId)) :=
  (s.virtuals.find? (fun p => p.1 == v)).map (·.2)

def putField (fields : Array (String × ValueId)) (name : String) (x : ValueId) :
    Array (String × ValueId) :=
  if fields.any (fun p => p.1 == name) then
    fields.map (fun p => if p.1 == name then (name, x) else p)
  else fields.push (name, x)

def setFields (s : AllocState) (v : ValueId) (fields : Array (String × ValueId)) : AllocState :=
  if s.virtuals.any (fun p => p.1 == v) then
    { s with virtuals := s.virtuals.map (fun p => if p.1 == v then (v, fields) else p) }
  else { s with virtuals := s.virtuals.push (v, fields) }

/-- What a value has been replaced by in the end. -/
def representative (s : AllocState) : Nat → ValueId → ValueId
  | 0, v => v
  | fuel + 1, v =>
    match s.replaced[v]? with
    | some x => representative s fuel x
    | none => v

def finalValue (s : AllocState) (v : ValueId) : ValueId :=
  s.representative (s.replaced.size + 1) v

end AllocState

abbrev AllocM := StateT AllocState GraphM

def emitOp (x : Operation) : AllocM ValueId := do
  let v ← GraphM.newValue (.op x)
  modify (fun s => { s with ops := s.ops.push v })
  return v

mutual

/-- Builds a structure that has been kept back, and first those in its fields. -/
def escape : Nat → ValueId → AllocM ValueId
  | 0, _ => throw .internal
  | fuel + 1, v => do
    let some fields := (← get).fields? v | return v
    modify (fun s => { s with virtuals := s.virtuals.filter (fun p => p.1 != v) })
    let some o := (← getThe Arena).op? v | throw .internal
    let .struct name names _ tuple := o.type | throw .internal
    let nv ← if o.kind == .structConstruction || !tuple then
        let args ← escapeFields fuel o.type fields names
        emitOp ⟨.structConstruction, name, args.toArray, o.type, o.pos, none⟩
      else
        let nv ← emitOp ⟨.allocate, "$allocate", #[], o.type, o.pos, none⟩
        escapeWrites fuel nv fields names
        pure nv
    modify (fun s => { s with replaced := s.replaced.insert v nv })
    return nv

def escapeFields : Nat → Ty → Array (String × ValueId) → List String → AllocM (List ValueId)
  | 0, _, _, _ => throw .internal
  | _ + 1, _, _, [] => pure []
  | fuel + 1, t, fields, n :: ns => do
    let x ← match fields.find? (fun p => p.1 == n) with
      | some (_, x) => escape fuel x
      | none => (GraphM.newConst (.default ((t.field? n).getD .unknown)) : AllocM ValueId)
    return x :: (← escapeFields fuel t fields ns)

def escapeWrites : Nat → ValueId → Array (String × ValueId) → List String → AllocM Unit
  | 0, _, _, _ => throw .internal
  | _ + 1, _, _, [] => pure ()
  | fuel + 1, obj, fields, n :: ns => do
    if let some (_, x) := fields.find? (fun p => p.1 == n) then
      let x ← escape fuel x
      let _ ← emitOp ⟨.fieldWrite, n, #[obj, x], .unit, none, none⟩
    escapeWrites fuel obj fields ns

end

/-- The number of nested steps that building a structure can take. -/
def escapeBound (s : AllocState) : Nat :=
  s.virtuals.foldl (fun n p => n + p.2.size + 2) 2

def typeBound (a : Arena) (s : AllocState) : Nat :=
  s.virtuals.foldl
    (fun n p => match a.typeOf p.1 with
      | .struct _ ns _ _ => n + ns.length + 2
      | _ => n + 2)
    (escapeBound s)

def escapeValue (v : ValueId) : AllocM ValueId := do
  escape (typeBound (← getThe Arena) (← get)) v

def firstArg (o : Operation) : AllocM ValueId :=
  match o.args[0]? with
  | some x => pure x
  | none => throw .outOfRange

def keepBackOp (v : ValueId) : AllocM Unit := do
  let x := (← getThe Arena).value v
  if let .op o := x then
    if o.kind == .allocate then return ← modify (fun s => s.setFields v #[])
    if o.kind == .structConstruction then
      let .struct _ names _ _ := o.type | throw .internal
      let fields := (names.zip o.args.toList).foldl
        (fun fs (n, x) => AllocState.putField fs n x) #[]
      return ← modify (fun s => s.setFields v fields)
    if o.kind == .fieldWrite || o.kind == .fieldAccess then
      let obj := (← get).finalValue (← firstArg o)
      if let some fields := (← get).fields? obj then
        if o.kind == .fieldWrite then
          let some y := o.args[1]? | throw .outOfRange
          return ← modify (fun s => s.setFields obj (AllocState.putField fields o.name y))
        let some (_, y) := fields.find? (fun p => p.1 == o.name) | throw .missingKey
        return ← modify (fun s => { s with replaced := s.replaced.insert v y })
  for y in x.args do
    let _ ← escapeValue y
  modify (fun s => { s with ops := s.ops.push v })

def escapeAll : Nat → AllocM Unit
  | 0 => throw .internal
  | fuel + 1 => do
    if let some (v, _) := (← get).virtuals[0]? then
      let _ ← escapeValue v
      escapeAll fuel

def removeAllocationsIn (b : BlockId) : AllocM Bool := do
  modify (fun s => { s with virtuals := #[], ops := #[] })
  let old := (← getThe Arena).ops b
  for v in old do
    keepBackOp v
  match (← getThe Arena).next b with
  | .ret (some v) _ =>
    let _ ← escapeValue v
  | .ret none _ => pure ()
  | _ => escapeAll ((← get).virtuals.size + 1)
  let ops := (← get).ops
  modifyThe Arena (fun a => a.setOps b ops)
  return ops.size != old.size

def removeAllocationsOnce (g : Graph) : GraphM Bool := do
  let blocks := g.blocks (← get)
  let (changed, s) ← (blocks.foldlM
    (fun changed b => do
      let c ← removeAllocationsIn b
      return changed || c) false : AllocM Bool).run ⟨#[], #[], ∅⟩
  if !s.replaced.isEmpty then g.replaceAll s.replaced
  return changed

/-- Removes structures that live inside one block. -/
def removeAllocations (g : Graph) : GraphM Bool := repeated g.removeAllocationsOnce

end Jib.Graph
