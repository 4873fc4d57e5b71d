import Jib.Graph.Cleanup

/-!
# Copies of graphs

The body of a function is copied into its caller with the call's operands in the place of the
arguments.  All returns of the copy meet in one block whose phi is the result of the call.
-/

namespace Jib.Graph

/-- Phi operands that were not known when the phi was copied. -/
abbrev OpenEntries := Array (ValueId × Nat × ValueId)

def substituted (s : Substitution) (v : ValueId) : GraphM ValueId := do
  if (← get).isConst v then return v
  let some x := s[v]? | throw .missingKey
  return x

def copiedBlock (blocks : Std.HashMap BlockId BlockId) (b : BlockId) : GraphM BlockId := do
  let some x := blocks[b]? | throw .missingKey
  return x

/-- Copies operations; copies of phi entries that are not known yet are left open. -/
def copyOps (blocks : Option (Std.HashMap BlockId BlockId)) :
    List ValueId → Substitution → OpenEntries → Array ValueId →
      GraphM (Array ValueId × Substitution × OpenEntries)
  | [], s, opened, acc => pure (acc, s, opened)
  | v :: vs, s, opened, acc => do
    match (← get).value v with
    | .op o =>
      if o.kind == .assign then copyOps blocks vs s opened acc
      else
        let args ← o.args.mapM (substituted s)
        let nv ← GraphM.newValue (.op { o with args := args })
        copyOps blocks vs (s.insert v nv) opened (acc.push nv)
    | .phi p =>
      let some bs := blocks | throw .internal
      let preds ← p.preds.mapM (copiedBlock bs)
      let a ← get
      let values := p.values.map (fun x => if a.isConst x then x else s.getD x Arena.missingId)
      let nv ← GraphM.newValue (.phi ⟨preds, values, p.type⟩)
      let opened := (p.values.zip values).toList.zipIdx.foldl
        (fun (o : OpenEntries) ((old, new), i) =>
          if new == Arena.missingId then o.push (nv, i, old) else o)
        opened
      copyOps blocks vs (s.insert v nv) opened (acc.push nv)
    | _ => throw .internal

def argumentSubstitution (g : Graph) (args : Array ValueId) : Substitution :=
  (g.args.zip args).foldl (fun (s : Substitution) (x, y) => s.insert x y) ∅

/-- Copies a function that is one block; gives the copies and the result. -/
def copySingle (sub : Graph) (args : Array ValueId) (res : ValueId) :
    GraphM (Array ValueId × ValueId) := do
  let ops := ((← get).ops sub.start).toList
  let (ops, s, _) ← copyOps none ops (argumentSubstitution sub args) #[] #[]
  return (ops, s.getD res res)

def fillEntries (s : Substitution) (opened : OpenEntries) : GraphM Unit := do
  for (phi, i, old) in opened do
    let some x := s[old]? | throw .missingKey
    modify (fun a => a.modifyValue phi (fun v => match v with
      | .phi p => .phi { p with values := p.values.setIfInBounds i x }
      | v => v))

/-- Copies the end of a block; a return becomes a jump to the block where all returns meet. -/
def copyNext (s : Substitution) (blocks : Std.HashMap BlockId BlockId) (phi : ValueId)
    (meet : BlockId) (next : Next) (nb : BlockId) : GraphM Unit := do
  match next with
  | .ret none _ => throw .assertion
  | .ret (some v) _ =>
    let t := (← get).typeOf v
    modify (fun a => a.modifyValue phi (fun x => match x with
      | .phi p => .phi ⟨p.preds.push nb, p.values.push (s.getD v v), t⟩
      | x => x))
    modify (fun a => a.setNext nb (.goto meet none))
  | .goto t pos =>
    let t ← copiedBlock blocks t
    modify (fun a => a.setNext nb (.goto t pos))
  | .branch c t f pos =>
    let t ← copiedBlock blocks t
    let f ← copiedBlock blocks f
    modify (fun a => a.setNext nb (.branch (s.getD c c) t f pos))
  | .raise k pos => modify (fun a => a.setNext nb (.raise (s.getD k k) pos))
  | _ => throw (.assertion "unreachable")

/-- Copies a graph; gives the copy's start block and the block where its returns meet. -/
def copyGraph (sub : Graph) (args : Array ValueId) : GraphM (BlockId × BlockId) := do
  let phi ← GraphM.newValue (.phi ⟨#[], #[], .unknown⟩)
  let meet ← GraphM.newBlock #[phi] .unset
  let mut blocks : Std.HashMap BlockId BlockId := ∅
  for b in sub.blocks (← get) do
    blocks := blocks.insert b (← GraphM.newBlock #[] .unset)
  let mut s := argumentSubstitution sub args
  let mut opened : OpenEntries := #[]
  let mut ends : List (Next × BlockId) := []
  for b in ← GraphM.ofExcept sub.bestTopoOrder do
    let (ops, s', opened') ← copyOps (some blocks) ((← get).ops b).toList s opened #[]
    s := s'
    opened := opened'
    let nb ← copiedBlock blocks b
    modify (fun a => a.setOps nb ops)
    ends := ((← get).next b, nb) :: ends
  fillEntries s opened
  for (next, nb) in ends do
    copyNext s blocks phi meet next nb
  return (← copiedBlock blocks sub.start, meet)

/-- Replaces the call at an index of a block by a copy of the called graph. -/
def inlineCall (g : Graph) (b : BlockId) (index : Nat) (sub : Graph) (noted : Bool) :
    GraphM Unit := do
  let some call := ((← get).ops b)[index]? | throw .outOfRange
  let args := ((← get).value call).args
  let nb ← Arena.split b index false
  if noted then
    let c ← GraphM.comment ("inlined " ++ sub.name)
    modify (fun a => a.setOps b ((a.ops b).push c))
  let (start, meet) ← copyGraph sub args
  modify (fun a => (a.setNext b (.goto start none)).setNext meet (.goto nb none))
  let some phi := ((← get).ops meet)[0]? | throw .internal
  let _ ← g.replaceValue call phi
  g.dropLostEntries
  let _ ← g.simplifyPhis

end Jib.Graph
