import Jib.Graph.Order

/-!
# Graphs by names

A description names the arguments, operations and blocks of a graph, and building it gives the
graph. The operands of a phi may name values that come later; all other operands name earlier ones.
-/

namespace Jib

/-- A value by its name, or a constant. -/
inductive OperandName where
  | name (n : String)
  | const (c : Const)
  deriving Repr, Inhabited

inductive OperationText where
  | op (kind : OpKind) (name : String) (args : List OperandName) (type : Ty)
    (pos hint : Option String)
  | phi (preds : List Nat) (values : List OperandName) (type : Ty)
  deriving Repr, Inhabited

/-- How a block ends; blocks are counted from the start block. -/
inductive NextText where
  | ret (value : Option OperandName) (pos : Option String)
  | raise (kind : OperandName) (pos : Option String)
  | justStop
  | goto (target : Nat) (pos : Option String)
  | branch (cond : OperandName) (ifTrue ifFalse : Nat) (pos : Option String)
  deriving Repr, Inhabited

structure BlockText where
  ops : List (String × OperationText)
  next : NextText
  deriving Repr, Inhabited

structure GraphText where
  name : String
  args : List (String × Ty)
  blocks : List BlockText
  hasLoop : Bool
  deriving Repr, Inhabited

namespace GraphText

/-- What names stand for; of two entries for a name the later one counts. -/
abbrev Known := List (String × ValueId)

/-- The value of an operand.  Constants are new values, the unique ones apart. -/
def operand (known : Known) : OperandName → GraphM ValueId
  | .name n => (known.lookup n).elim (throw .missingKey) pure
  | .const (.bool b) => pure (Arena.boolId b)
  | .const .unit => pure Arena.unitId
  | .const c => GraphM.newConst c

def arguments : List (String × Ty) → GraphM (Known × Array ValueId)
  | [] => pure ([], #[])
  | (n, t) :: rest => do
    let v ← GraphM.newValue (.argument n t)
    let (known, vs) ← arguments rest
    return (known ++ [(n, v)], #[v] ++ vs)

/-- The values of the operations of a block; phis get their operands later. -/
def operations (base : Nat) (known : Known) :
    List (String × OperationText) → GraphM (Known × Array ValueId)
  | [] => pure (known, #[])
  | (n, o) :: rest => do
    let v ← match o with
      | .phi preds _ t => GraphM.newValue (.phi ⟨(preds.map (base + ·)).toArray, #[], t⟩)
      | .op k name args t pos hint => do
        let vs ← args.mapM (operand known)
        GraphM.newValue (.op ⟨k, name, vs.toArray, t, pos, hint⟩)
    let (known, vs) ← operations base ((n, v) :: known) rest
    return (known, #[v] ++ vs)

def fillPhis (known : Known) : List (ValueId × OperationText) → GraphM Unit
  | [] => pure ()
  | (v, .phi _ values _) :: rest => do
    let vs ← values.mapM (operand known)
    modify (fun a => a.modifyValue v fun
      | .phi p => .phi { p with values := vs.toArray }
      | x => x)
    fillPhis known rest
  | _ :: rest => fillPhis known rest

def next (base : Nat) (known : Known) : NextText → GraphM Next
  | .ret none pos => pure (.ret none pos)
  | .ret (some v) pos => do return .ret (some (← operand known v)) pos
  | .raise k pos => do return .raise (← operand known k) pos
  | .justStop => pure .justStop
  | .goto t pos => pure (.goto (base + t) pos)
  | .branch c t f pos => do return .branch (← operand known c) (base + t) (base + f) pos

/-- The graph that a description describes. -/
def build (g : GraphText) : GraphM Graph := do
  let (known, args) ← arguments g.args
  let base := (← get).blocks.size
  let blocks := g.blocks.zipIdx base
  for _ in blocks do let _ ← GraphM.newBlock #[] .unset
  let known ← blocks.foldlM (fun known (b, i) => do
    let (known, vs) ← operations base known b.ops
    modify (·.setOps i vs)
    return known) known
  for (b, i) in blocks do fillPhis known (((← get).ops i).toList.zip (b.ops.map (·.2)))
  for (b, i) in blocks do
    let n ← next base known b.next
    modify (·.setNext i n)
  return ⟨g.name, args, base, g.hasLoop⟩

end GraphText

end Jib
