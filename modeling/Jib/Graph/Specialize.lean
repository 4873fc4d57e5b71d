import Jib.Graph.Simplify

/-!
# Specialisation

A call whose arguments are known to be machine integers, narrow vectors or constants calls a version
of the function made for them.  The version takes its arguments unboxed and, where its result can be
unboxed too, returns it so; the caller boxes it again.
-/

namespace Jib

namespace Graph

/-- Whether versions of a function would gain anything. -/
def isUsefullySpecializable (g : Graph) (a : Arena) : Bool :=
  let blocks := g.blocks a
  let results := blocks.toList.filterMap (fun b => match a.next b with
    | .ret v _ => some (v.map a.typeOf)
    | _ => none)
  let argMatters := g.args.any (fun v => match a.typeOf v with
    | .int | .bits | .machineInt | .bool => true
    | _ => false)
  let resultMatters := match results.getLast? with
    | some (some .int) | some (some .bits) => true
    | _ => false
  results.all Option.isSome && (argMatters || resultMatters) && blocks.size < 100

def soleReturn? (g : Graph) (a : Arena) : Option BlockId :=
  match ((g.blocks a).filter (fun b => (a.next b).isRet)).toList with
  | [b] => some b
  | _ => none

end Graph

namespace Session

open Jib.Graph Jib.Graph.OptM

/-- Registers a function of which versions may be made. -/
def makeSpecializer (id : GraphId) : SessionM Specializer := do
  let s ← get
  let g := s.graph id
  let a := s.arena
  let results := (g.blocks a).toList.filterMap (fun b => match a.next b with
    | .ret (some v) _ => some (a.typeOf v)
    | _ => none)
  let opt ← onArena (GraphM.ofExcept fun a => optimizerFor g a s.builtin true none)
  let ahead := opt.anticipated.getD g.start #[]
  let demanded := g.args.toList.map fun v =>
    if a.typeOf v == .int && ahead.contains (v, Ty.machineInt) then some Ty.machineInt else none
  return {
    graph := id, resultType := results.getLast?, argTypes := g.args.toList.map a.typeOf,
    demanded := demanded, cache := #[], dependents := #[], resultTypes := {} }

def addSpecializer (name : String) (id : GraphId) : SessionM Nat := do
  let sp ← makeSpecializer id
  modifyGet fun s =>
    (s.specializers.size,
      { s with
        specializers := s.specializers.push sp
        specializable := s.specializable.insert name s.specializers.size })

def modifySpecializer (k : Nat) (f : Specializer → Specializer) : SessionM Unit :=
  modify (fun s => { s with specializers := s.specializers.modify k f })

/-- Puts a graph into the queue of graphs to optimise. -/
def enqueue (id : GraphId) : SessionM Unit :=
  modify fun s =>
    { s with
      queue := s.queue ++ [id]
      queued := if s.queued.contains id then s.queued else s.queued.push id }

def schedule (id : GraphId) : SessionM Unit := do
  modify fun s => { s with byName := s.byName.insert (s.graph id).name id }
  enqueue id

/-- Runs optimizer helpers on a graph outside of a walk. -/
def withOptimizer {α : Type} (id : GraphId) (x : OptM α) : SessionM α := do
  let s ← get
  let g := s.graph id
  let builtins := s.builtins
  onArena fun a =>
    match optimizerFor g a (fun n => builtins.getD n n) true none with
    | .error e => .error e a
    | .ok st =>
      match x st with
      | .ok r st => .ok r st.arena
      | .error e st => .error e st.arena

/-- The unboxed form of a result with the mark that it leaves in a version's name; structures are
taken apart field by field, and new structure types are collected. -/
def unboxResult (block : BlockId) :
    Nat → ValueId → Array Ty → OptM (Option (ValueId × String) × Array Ty)
  | 0, _, _ => throw .internal
  | fuel + 1, v, made => do
    let x ← value v
    match x.type with
    | .int => return ((← attempt (asMachineInt v)).map (·, "i"), made)
    | .bits => return ((← attempt (smallBits v)).map fun (w, t) => (w, s!"bv{t.width?.getD 0}"),
      made)
    | .struct origin _ _ true =>
      let .op o := x | return (none, made)
      if o.kind != .structConstruction then return (none, made)
      let mut made := made
      let mut fields := #[]
      let mut marks := #[]
      let mut useful := false
      for y in o.args do
        let (r, made') ← unboxResult block fuel y made
        made := made'
        let (w, mark) := r.getD (y, "o")
        useful := useful || r.isSome
        fields := fields.push w
        marks := marks.push mark
      if !useful then return (none, made)
      let types ← fields.mapM typeOf
      let names := marks.toList.zipIdx.map (fun (m, i) => s!"{m}_{i}")
      let name := "tup_" ++ origin ++ "_" ++ "_".intercalate marks.toList
      let t := Ty.struct name names types.toList true
      let nv ← OptM.onArena
        (GraphM.newValue (.op ⟨.structConstruction, name, fields, t, none, none⟩))
      OptM.onArena (modify (fun a => a.setOps block ((a.ops block).push nv)))
      return (some (nv, "_".intercalate (["tup"] ++ marks.toList ++ ["put"])), made.push t)
    | .unknown => throw .internal
    | _ => return (none, made)

/-- Makes a graph return its result unboxed where it can; gives the result type and the mark. -/
def unboxReturn (id : GraphId) (resultType : Ty) : SessionM (Ty × Option String) := do
  let s ← get
  let some b := (s.graph id).soleReturn? s.arena | return (resultType, none)
  let .ret (some v) pos := s.arena.next b | throw .internal
  let (r, made) ← withOptimizer id (unboxResult b (s.arena.values.size + 1) v #[])
  modify (fun s => { s with newStructs := s.newStructs ++ made })
  let some (w, mark) := r | return (resultType, none)
  onArena (modify (fun a => a.setNext b (.ret (some w) pos)))
  return ((← get).arena.typeOf w, some mark)

def keyText (t : Ty) (n : Int) : String :=
  if t == .bool then (if n == 0 then "False" else "True")
  else if n < 0 then "minus" ++ toString (-n) else toString n

/-- Arguments of a version and operands of the call in it. -/
structure StubParts where
  args : Array ValueId := #[]
  ops : Array ValueId := #[]
  callArgs : Array ValueId := #[]
  marks : Array String := #[]

def stubArgument (p : StubParts) (name : String) (old : Ty) (t : Ty) (fixed : Option Int) :
    GraphM StubParts := do
  let arg ← GraphM.newValue (.argument name t)
  let p := { p with args := p.args.push arg }
  if !(t == old) then
    match t with
    | .machineInt =>
      let (x, mark) ← match fixed with
        | some n => do pure (← GraphM.newMachineInt n, keyText t n)
        | none => pure (arg, "i")
      let c ← GraphM.newValue (.op ⟨.call, ofMachineIntName, #[x], .int, none, none⟩)
      return { p with
        ops := p.ops.push c, callArgs := p.callArgs.push c, marks := p.marks.push mark }
    | .smallBits w =>
      let c ← GraphM.newValue (.op ⟨.cast, "$cast", #[arg], old, none, none⟩)
      return { p with
        ops := p.ops.push c, callArgs := p.callArgs.push c, marks := p.marks.push s!"bv{w}" }
    | _ => throw .assertion
  else
    match fixed with
    | some n =>
      let x ← if t == .bool then pure (Arena.boolId (n != 0))
        else if t == .machineInt then GraphM.newMachineInt n
        else throw .assertion
      return { p with callArgs := p.callArgs.push x, marks := p.marks.push (keyText t n) }
    | none => return { p with callArgs := p.callArgs.push arg, marks := p.marks.push "o" }

def makeVersion (k : Nat) (key : SpecKey) : SessionM (GraphId × Ty) := do
  let s ← get
  let sp := s.specializers.getD k default
  let base := s.graph sp.graph
  let p ← onArena do
    let a ← get
    let mut p : StubParts := {}
    for (v, t, fixed) in base.args.toList.zip key do
      p ← stubArgument p (a.argumentName v) (a.typeOf v) t fixed
    return p
  let some resultType := sp.resultType | throw .internal
  let (g, call) ← onArena do
    let call ← GraphM.newValue (.op ⟨.call, base.name, p.callArgs, resultType, none, none⟩)
    let b ← GraphM.newBlock (p.ops.push call) (.ret (some call) none)
    return (Graph.mk (base.name ++ "_specialized_" ++ "_".intercalate p.marks.toList)
      p.args b false, p.ops.size)
  let id ← addGraph g
  onGraph id (fun g _ => g.inlineCall g.start call base false)
  modifyGraph id (fun g => { g with hasLoop := base.hasLoop })
  let _ ← simplify id
  let (t, mark) ← unboxReturn id resultType
  if let some m := mark then
    modifyGraph id (fun g => { g with name := g.name ++ "__" ++ m })
    let _ ← onGraph id (fun g bn => g.removeDead bn)
  let s ← get
  let g := s.graph id
  if g.shouldInline s.arena s.shouldInline then
    modify (fun s => { s with inlinable := s.inlinable.insert g.name id })
  schedule id
  modify (fun s => { s with specializable := s.specializable.insert g.name k })
  modifySpecializer k (fun sp => { sp with resultTypes := sp.resultTypes.insert g.name t })
  return (id, t)

/-! ### Replacing calls -/

structure SpecState where
  opt : OptState
  session : Session
  id : GraphId

abbrev SpecM := EStateM Fault SpecState

instance : MonadLift OptM SpecM where
  monadLift x := fun s =>
    let opt := s.opt
    let s := { s with opt := { opt with arena := default } }
    match x opt with
    | .ok r opt => .ok r { s with opt := opt }
    | .error e opt => .error e { s with opt := opt }

/-- Runs a computation of the session on the arena of the optimizer. -/
def inSession {α : Type} (x : SessionM α) : SpecM α := fun s =>
  let opt := s.opt
  let a := opt.arena
  let opt := { opt with arena := default }
  let session := { s.session with arena := a }
  match x session with
  | .ok r ses =>
    let a := ses.arena
    .ok r { s with opt := { opt with arena := a }, session := { ses with arena := default } }
  | .error e ses =>
    let a := ses.arena
    .error e { s with opt := { opt with arena := a }, session := { ses with arena := default } }

/-- The key entry of one operand, the operand to pass, and whether it gains anything. -/
def keyEntry (arg : ValueId) (t : Ty) (demanded : Option Ty) :
    OptM ((Ty × Option Int) × ValueId × Bool) := do
  let fallback : OptM ((Ty × Option Int) × ValueId × Bool) := do
    if demanded == some .machineInt then
      return ((.machineInt, none), ← toMachineInt arg, true)
    return ((← typeOf arg, none), arg, false)
  match t with
  | .int | .machineInt =>
    match ← attempt (asMachineInt arg) with
    | some w =>
      let fixed := match ← const? w with
        | some (.machineInt n) => if 0 ≤ n && n ≤ 64 then some n else none
        | _ => none
      return ((.machineInt, fixed), w, t == .int || fixed.isSome)
    | none => fallback
  | .bits =>
    match ← attempt (smallBits arg) with
    | some (w, u) => return ((u, none), w, true)
    | none => fallback
  | .bool =>
    match ← const? arg with
    | some (.bool b) => return ((.bool, some (if b then 1 else 0)), arg, true)
    | _ => fallback
  | _ => fallback

def keyEntries : List ValueId → List Ty → List (Option Ty) →
    OptM (List (Ty × Option Int) × List ValueId × Bool)
  | v :: vs, t :: ts, d :: ds => do
    let (k, w, useful) ← keyEntry v t d
    let (ks, ws, useful') ← keyEntries vs ts ds
    return (k :: ks, w :: ws, useful || useful')
  | _, _, _ => pure ([], [], false)

def specKey (sp : Specializer) (o : Operation) : OptM (Option (SpecKey × List ValueId)) := do
  let (key, args, useful) ← keyEntries o.args.toList sp.argTypes sp.demanded
  if !useful then
    match sp.resultType with
    | none => throw .internal
    | some .int | some .bits => pure ()
    | some _ => return none
  ensure (key.length == o.args.size)
  return some (key, args)

/-- Boxes the result of a version again. -/
def reboxResult : Nat → Ty → Ty → ValueId → OptM (Option ValueId)
  | 0, _, _, _ => throw .internal
  | fuel + 1, t, old, v => do
    if t == old then return some v
    match t with
    | .machineInt => return some (← toInt v)
    | .smallBits _ =>
      ensure (old == .bits)
      return some (← newCast v .bits)
    | .struct _ names types _ =>
      let .struct oldName _ oldTypes _ := old | throw .internal
      let mut fields := #[]
      for ((n, u), oldU) in (names.zip types).zip oldTypes do
        let f ← emit (.op ⟨.fieldAccess, n, #[v], u, none, none⟩)
        let some w ← reboxResult fuel u oldU f | throw .assertion
        fields := fields.push w
      return some (← emit (.op ⟨.structConstruction, oldName, fields, old, none, none⟩))
    | _ => return none

/-- How deep a structure type is nested. -/
def tyDepth : Ty → Nat
  | .struct _ _ ts _ => 1 + tyDepths ts
  | _ => 1
where
  tyDepths : List Ty → Nat
    | [] => 0
    | t :: ts => tyDepth t + tyDepths ts

def setCached (k : Nat) (key : SpecKey) (r : GraphId × Ty) : SessionM Unit :=
  modifySpecializer k fun sp =>
  { sp with cache := sp.cache.map (fun e => if e.1 == key then (key, some r) else e) }

/-- Finds or makes the version for a call. -/
def versionFor (k : Nat) (key : SpecKey) : SpecM (Option (GraphId × Ty)) := do
  let sp := (← get).session.specializers.getD k default
  if let some (_, r) := sp.cache.find? (fun e => e.1 == key) then return r
  if sp.cache.size > 64 then return none
  inSession (modifySpecializer k (fun sp => { sp with cache := sp.cache.push (key, none) }))
  let r ← inSession (makeVersion k key)
  inSession (setCached k key r)
  return some r

def specializeCall (k : Nat) (o : Operation) : SpecM (Option ValueId) := do
  let s ← get
  let sp := s.session.specializers.getD k default
  if sp.graph == s.id then return none
  let some (key, args) ← liftM (specKey sp o) | return none
  let some (version, t) ← versionFor k key | return none
  let id := s.id
  inSession (modifySpecializer k fun sp =>
    if sp.dependents.contains id then sp
    else { sp with dependents := sp.dependents.push id })
  let name := ((← get).session.graph version).name
  if o.name == name then return none
  let call ← liftM (newOp name args t o.pos o.hint)
  liftM (reboxResult (tyDepth t + 1) t o.type call)

def specStep (b : BlockId) (index : Nat) (v : ValueId) : SpecM Outcome := do
  let s ← get
  if let some o := s.opt.arena.op? v then
    if let some k := s.session.specializable.get? o.name then
      if let some x ← specializeCall k o then return .replace x
  liftM (reuseOrKeep b index v)

/-! ### Splitting calls on constant operands -/

def splittableBuiltins : List String := ["@zero_extend_o_i", "@undefined_bitvector_i", "@zeros_i"]

/-- Whether a phi has only small constants as entries; an entry without number is refused. -/
def isSmallConstPhi (a : Arena) : List ValueId → Result Bool
  | [] => .ok true
  | v :: vs =>
    match a.const? v with
    | some (.machineInt n) | some (.int n) =>
      if 0 ≤ n && n ≤ 64 then isSmallConstPhi a vs else .ok false
    | some _ => .error .internal
    | none => .ok false

/-- The first operand that is a machine integer phi of small constants. -/
def splitOperand? (a : Arena) : List ValueId → Result (Option (ValueId × Phi))
  | [] => .ok none
  | v :: vs => do
    if let some p := a.phi? v then
      if p.type == .machineInt then
        if ← isSmallConstPhi a p.values.toList then return some (v, p)
    splitOperand? a vs

/-- Copies the operations behind a split for one constant. -/
def copyForConst (ops : Array ValueId) (arg c : ValueId) (s : Substitution) :
    GraphM (Array ValueId × Substitution) := do
  let a ← get
  let s := ops.foldl
    (fun s v => (a.value v).args.foldl
      (fun (s : Substitution) x => if ops.contains x then s else s.insert x x) s) s
  let (copies, s, _) ← copyOps none ops.toList (s.insert arg c) #[] #[]
  return (copies, s)

/-- Replaces a call by one call for each constant that an operand can be. -/
def splitCall (g : Graph) (b : BlockId) (index : Nat) (arg : ValueId) (p : Phi) : GraphM Unit := do
  let nb ← Arena.split b index true
  let meet ← Arena.split nb ((← get).ops nb).size true
  let ops := (← get).ops nb
  let mut s : Substitution := ∅
  let mut results : Array (Array ValueId) := ops.map (fun _ => #[])
  let mut preds : Array BlockId := #[]
  let mut block := b
  let mut left := p.values.size
  for c in p.values do
    left := left - 1
    let mut callBlock := block
    if left != 0 then
      callBlock ← GraphM.newBlock #[] .unset
      let other ← GraphM.newBlock #[] .unset
      let cond ← GraphM.newValue (.op ⟨.call, "@eq", #[arg, c], .bool, none, none⟩)
      let here := block
      let taken := callBlock
      modify (fun a => (a.setOps here ((a.ops here).push cond)).setNext here
        (.branch cond taken other none))
      block := other
    let (copies, s') ← copyForConst ops arg c s
    s := s'
    results := (results.zip ops).map (fun (rs, v) => rs.push (s'.getD v Arena.missingId))
    let here := callBlock
    modify (fun a => (a.setOps here (a.ops here ++ copies)).setNext here (.goto meet none))
    preds := preds.push callBlock
  let mut replaced : Substitution := ∅
  for (v, rs) in ops.zip results do
    let t := (← get).typeOf v
    if !(t == .unit) then
      let phi ← GraphM.newValue (.phi ⟨preds, rs, t⟩)
      modify (fun a => a.setOps meet (#[phi] ++ a.ops meet))
      replaced := replaced.insert v phi
  let _ ← g.replaceValues replaced

def splitInBlock (names : String → Bool) (g : Graph) (b : BlockId) :
    List (ValueId × Nat) → GraphM Bool
  | [] => pure false
  | (v, i) :: rest => do
    if let some o := (← get).op? v then
      if names o.name then
        if let some (arg, p) ← GraphM.ofExcept (fun a => splitOperand? a o.args.toList) then
          splitCall g b i arg p
          return true
    splitInBlock names g b rest

/-- Splits calls on operands that are phis of constants, so that versions can be made for them. -/
def splitConstantCalls (id : GraphId) : SessionM Bool := repeated do
  let s ← get
  let names := s.specializable
  onGraph id fun g _ => do
    let r ← g.findBlock fun b => do
      if ← splitInBlock (fun n => names.contains n || splittableBuiltins.contains n) g b
          ((← get).ops b).toList.zipIdx then
        return some ()
      return none
    return r.isSome

def specializeCalls (id : GraphId) : SessionM Bool := do
  let _ ← splitConstantCalls id
  let s ← get
  let g := s.graph id
  let builtins := s.builtins
  match optimizerFor g s.arena (fun n => builtins.getD n n) true none with
  | .error e => throw e
  | .ok opt =>
    set { s with arena := default }
    fun session =>
      match (runOptimizer specStep : SpecM Bool) ⟨opt, session, id⟩ with
      | .ok r st => .ok r { st.session with arena := st.opt.arena }
      | .error e st => .error e { st.session with arena := st.opt.arena }

def optimizeLoop (id : GraphId) : Nat → Bool → SessionM Bool
  | 0, changed => pure changed
  | fuel + 1, changed => do
    if ← specializeCalls id then
      let c ← simplifyOnce id
      optimizeLoop id fuel (c || changed)
    else pure changed

/-- Simplifies a graph and makes versions of what it calls. -/
def optimize (id : GraphId) : SessionM Bool := do
  let mut changed ← simplifyAll id
  let s ← get
  if !s.inlinable.contains (s.graph id).name then
    changed ← optimizeLoop id 100 changed
    let c ← simplifyAll id
    changed := c || changed
  if changed then checkGraph id
  return changed

/-! ### Working through the queue -/

/-- Gives a version a new name after its result type changed. -/
def renameVersion (k : Nat) (id : GraphId) (old new : String) (oldType newType : Ty) :
    SessionM Unit := do
  let s ← get
  let some g := s.byName.get? old | throw .missingKey
  if g != id || old == new then throw .assertion
  let some owner := s.specializable.get? old | throw .missingKey
  modify (fun s =>
    { s with
      byName := (s.byName.erase old).insert new id
      specializable := s.specializable.insert new owner })
  let sp := (← get).specializers.getD k default
  if !sp.resultTypes.contains old then throw .missingKey
  modifySpecializer k (fun sp =>
    { sp with resultTypes := (sp.resultTypes.erase old).insert new newType })
  let mut found := false
  for (key, r) in sp.cache do
    if !found then
      let some (g, t) := r | throw .internal
      if g == id then
        if !(t == oldType) then throw .assertion
        setCached k key (g, newType)
        found := true
  if !found then throw .assertion

/-- What stands after the first double underscore of a reversed name. -/
def afterMark : List Char → Option (List Char)
  | '_' :: '_' :: cs => some cs
  | _ :: cs => afterMark cs
  | [] => none

/-- The name up to its last double underscore. -/
def dropLastMark (name : String) : String :=
  match afterMark name.toList.reverse with
  | some cs => String.ofList cs.reverse
  | none => name

/-- Looks whether a version can return its result unboxed by now. -/
def refreshResult (k : Nat) (id : GraphId) : SessionM Bool := do
  let s ← get
  let sp := s.specializers.getD k default
  let some b := (s.graph id).soleReturn? s.arena | return false
  let .ret (some v) _ := s.arena.next b | throw .internal
  let oldType := s.arena.typeOf v
  let some resultType := sp.resultType | throw .internal
  let (t, some m) ← unboxReturn id resultType | return false
  if t == oldType || t == resultType then return false
  let old := (s.graph id).name
  if !(oldType == resultType) then
    modifyGraph id (fun g => { g with name := dropLastMark g.name })
    let _ ← onGraph id (fun g bn => g.removeDead bn)
  modifyGraph id (fun g => { g with name := g.name ++ "__" ++ m })
  renameVersion k id old ((← get).graph id).name oldType t
  return true

/-- Graphs that have to be looked at again after a graph changed. -/
def dependentsAfter (id : GraphId) (changed : Bool) : SessionM (Array GraphId) := do
  let s ← get
  let g := s.graph id
  if !changed then return #[]
  match s.specializable.get? g.name with
  | some k =>
    let sp := s.specializers.getD k default
    if sp.graph == id then return #[]
    if g.shouldInline s.arena s.shouldInline then
      modify (fun s => { s with inlinable := s.inlinable.insert g.name id })
      return sp.dependents
    if ← refreshResult k id then return ((← get).specializers.getD k default).dependents
    return #[]
  | none =>
    if s.inlinable.contains g.name then return #[]
    if g.shouldInline s.arena s.shouldInline then
      modify (fun s => { s with inlinable := s.inlinable.insert g.name id })
      return s.callers.getD g.name #[]
    return #[]

def drainQueue : Nat → SessionM Unit
  | 0 => throw .internal
  | fuel + 1 => do
    match (← get).queue with
    | [] => pure ()
    | id :: rest =>
      modify (fun s => { s with queue := rest })
      if !(← get).queued.contains id then throw .missingKey
      modify (fun s => { s with queued := s.queued.erase id })
      let changed ← optimize id
      for other in ← dependentsAfter id changed do
        modify fun s =>
          if s.queued.contains other then s
          else { s with queue := s.queue ++ [other], queued := s.queued.push other }
      drainQueue fuel

/-- Enough steps to bring the queue to rest; versions are few, so the queue empties long before. -/
def queueFuel : Nat := 1000000

/-- Optimises all scheduled graphs and what that schedules in turn. -/
def optimizeQueue : SessionM Unit := drainQueue queueFuel

/-- Graphs that are called, directly or not, from some graphs and are not among them. -/
def neededLoop (s : Session) (starting : Array GraphId) :
    Nat → List GraphId → Array GraphId → Array GraphId
  | 0, _, acc => acc
  | _ + 1, [], acc => acc
  | fuel + 1, id :: todo, acc =>
    let a := s.arena
    let calls := ((s.graph id).blocks a).toList.flatMap (fun b => (a.ops b).toList.filterMap
      (fun v => match a.op? v with
        | some o => if o.kind == .call then s.byName.get? o.name else none
        | none => none))
    let (todo, acc) := calls.foldl
      (fun (todo, acc) c =>
        if starting.contains c || acc.contains c then (todo, acc)
        else (c :: todo, (acc : Array GraphId).push c))
      (todo, acc)
    neededLoop s starting fuel todo acc

/-- The versions that some graphs need, with their types where these are known. -/
def neededVersions (s : Session) (starting : Array GraphId) : Array (GraphId × Option Ty) :=
  let found := neededLoop s starting (2 * s.graphs.size + starting.size + 2)
    starting.toList.reverse #[]
  found.map fun id =>
    let g := s.graph id
    let t := do
      let k ← s.specializable.get? g.name
      let sp ← s.specializers[k]?
      let r ← sp.resultTypes.get? g.name
      return Ty.function (.tuple (g.args.toList.map s.arena.typeOf)) r
    (id, t)

end Session

end Jib
