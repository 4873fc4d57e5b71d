import Jib.Graph.Check

/-!
# The written form of a graph

A graph is written as the lines that build it: arguments, blocks, operations with their operands,
and the graph itself.  Values are named in the order in which they are first written; a phi that
uses a value before it is written gets a placeholder and a later line that fills it in.
-/

namespace Jib

/-- The digits of a vector: base sixteen when the width allows it, base two otherwise. -/
def wordText (w : Nat) (n : Nat) : String :=
  if w % 4 == 0 then "0x" ++ Text.hexDigits n else "0b" ++ Text.binDigits n

/-- The expression that builds a bit vector. -/
def Bits.construction : Bits → String
  | small w v | sparse w v => s!"bitvector.from_ruint({w}, r_uint({v.toNat}))"
  | wide w ws =>
    let digits := wordText w (joinWords ws)
    s!"bitvector.from_bigint({w}, rbigint.fromlong({digits}))"

namespace Const

/-- The written form of a constant. -/
def render : Const → String
  | bool true => "BooleanConstant.TRUE"
  | bool false => "BooleanConstant.FALSE"
  | unit => "UnitConstant.UNIT"
  | machineInt n => s!"MachineIntConstant({n})"
  | int n => s!"IntConstant({n})"
  | smallBits v t =>
    "SmallBitVectorConstant(" ++ wordText (t.width?.getD 0) v.toNat ++ ", " ++ t.text ++ ")"
  | bits b => "GenericBitVectorConstant(" ++ b.construction ++ ")"
  | default t => "DefaultValue(" ++ t.text ++ ")"
  | enum v t => "EnumConstant(" ++ Text.quoted v ++ ", " ++ t.text ++ ")"
  | text s => "StringConstant(" ++ Text.quoted s ++ ")"

end Const

namespace Arena

/-- The full form of a value, with its operands written out to the given depth. -/
def describe (a : Arena) : Nat → ValueId → String
  | 0, _ => "..."
  | fuel + 1, v =>
    match a.value v with
    | .missing => "None"
    | .const c => c.render
    | .argument n t => "Argument(" ++ Text.quoted n ++ ", " ++ t.text ++ ")"
    | .phi _ => "<Phi>"
    | .op o =>
      let args := Text.listText (o.args.toList.map (describe a fuel))
      let arg (i : Nat) := o.args[i]?.elim "" (describe a fuel)
      let pos := Text.quoted? o.pos
      match o.kind with
      | .cast => "Cast(" ++ arg 0 ++ ", " ++ o.type.text ++ ", " ++ pos ++ ")"
      | .allocate => "Allocate(" ++ o.type.text ++ ", " ++ pos ++ ")"
      | .fieldWrite => "FieldWrite(" ++ Text.quoted o.name ++ ", " ++ args ++ ")"
      | .globalRead => "GlobalRead(" ++ Text.quoted o.name ++ ", " ++ o.type.text ++ ")"
      | .refAssignment | .refOf | .vectorUpdate =>
        o.kind.text ++ "(" ++ args ++ ", " ++ o.type.text ++ ", " ++ pos ++ ")"
      | .vectorInit => "VectorInit(" ++ arg 0 ++ ", " ++ o.type.text ++ ", " ++ pos ++ ")"
      | .assign => "NonSSAAssignment(" ++ arg 0 ++ ", " ++ arg 1 ++ ")"
      | .structConstruction | .fieldAccess | .unionVariantCheck | .unionCast | .globalWrite =>
        o.kind.text ++ "(" ++ Text.quoted o.name ++ ", " ++ args ++ ", " ++ o.type.text ++ ")"
      | .call | .comment =>
        o.kind.text ++ "(" ++ Text.quoted o.name ++ ", " ++ args ++ ", " ++ pos ++ ")"

end Arena

/-- Names given to values so far. -/
abbrev Names := Std.HashMap ValueId String

namespace Names

def name (ns : Names) (v : ValueId) : String × Names :=
  match ns[v]? with
  | some s => (s, ns)
  | none =>
    let s := s!"i{ns.size}"
    (s, ns.insert v s)

end Names

namespace Graph

/-- State of the printer. -/
structure Page where
  lines : Array String
  names : Names
  /-- Lines that declare unions, in the order of their first mention. -/
  unions : Array String
  seenUnions : List String
  written : Std.HashSet ValueId
  /-- Phi operands that wait for a value to be written. -/
  pending : Std.HashMap ValueId (Array (String × Nat))
  deriving Inhabited

abbrev PageM := StateT Page (Result)

namespace Page

def line (s : String) : PageM Unit := modify (fun p => { p with lines := p.lines.push s })

def typeText (t : Ty) : PageM String := do
  match t with
  | .union n _ _ =>
    if !(← get).seenUnions.contains n then
      modify (fun p =>
        { p with
          unions := p.unions.push (n ++ " = " ++ t.text)
          seenUnions := n :: p.seenUnions })
    return n
  | _ => return t.text

def nameOf (v : ValueId) : PageM String :=
  modifyGet (fun p => let (s, ns) := p.names.name v; (s, { p with names := ns }))

/-- The short form of a value where it is used. -/
def use (a : Arena) (v : ValueId) : PageM String :=
  match a.value v with
  | .missing => throw .internal
  | .const c => pure c.render
  | .argument n _ => pure n
  | .op _ | .phi _ => nameOf v

end Page

open Page

def blockName (blocks : Std.HashMap BlockId Nat) (b : BlockId) : PageM String := do
  let some i := blocks[b]? | throw .missingKey
  return s!"block{i}"

/-- A phi operand: written if its value is, otherwise left open. -/
def phiOperand (a : Arena) (name : String) (index : Nat) (v : ValueId) : PageM String := do
  if (a.isOp v || a.isPhi v) && !(← get).written.contains v then
    modify (fun p =>
      { p with pending := p.pending.insert v ((p.pending.getD v #[]).push (name, index)) })
    return "None"
  else use a v

def writeValue (a : Arena) (builtin : String → String) (blocks : Std.HashMap BlockId Nat)
    (block : String) (v : ValueId) : PageM Unit := do
  let name ← nameOf v
  match a.value v with
  | .op o =>
    let args ← o.args.toList.mapM (use a)
    let type ← typeText o.type
    line (name ++ " = " ++ block ++ ".emit(" ++ o.kind.text ++ ", " ++ Text.quoted (builtin o.name)
      ++ ", " ++ Text.listText args ++ ", " ++ type ++ ", " ++ Text.quoted? o.pos ++ ", "
      ++ Text.quoted? o.hint ++ ")")
  | .phi p =>
    let preds ← p.preds.toList.mapM (blockName blocks)
    let args ← p.values.toList.zipIdx.mapM (fun (x, i) => phiOperand a name i x)
    let type ← typeText p.type
    line (name ++ " = " ++ block ++ ".emit_phi(" ++ Text.listText preds ++ ", "
      ++ Text.listText args ++ ", " ++ type ++ ")")
  | _ => throw .assertion
  for (phi, index) in (← get).pending.getD v #[] do
    line s!"{phi}.prevvalues[{index}] = {name}"
  modify (fun p => { p with written := p.written.insert v })

def nextText (a : Arena) (blocks : Std.HashMap BlockId Nat) : Next → PageM String
  | .unset => throw .internal
  | .ret none pos => return "Return(None, " ++ Text.quoted? pos ++ ")"
  | .ret (some v) pos => return "Return(" ++ (← use a v) ++ ", " ++ Text.quoted? pos ++ ")"
  | .raise k pos =>
    return "Raise(" ++ a.describe (a.values.size + 1) k ++ ", " ++ Text.quoted? pos ++ ")"
  | .justStop => return "JustStop(None)"
  | .goto t pos => return "Goto(" ++ (← blockName blocks t) ++ ", " ++ Text.quoted? pos ++ ")"
  | .branch c t f pos => do
    let cond ← use a c
    return "ConditionalGoto(" ++ cond ++ ", " ++ (← blockName blocks t) ++ ", "
      ++ (← blockName blocks f) ++ ", " ++ Text.quoted? pos ++ ")"

def writePage (g : Graph) (a : Arena) (builtin : String → String) : PageM Unit := do
  let blocks := g.blocks a
  let index := blocks.toList.zipIdx.foldl
    (fun (m : Std.HashMap BlockId Nat) (b, i) => m.insert b i) ∅
  for v in g.args do
    let name := a.argumentName v
    modify (fun p => { p with names := p.names.insert v name })
    let type ← typeText (a.typeOf v)
    line (name ++ " = Argument(" ++ Text.quoted name ++ ", " ++ type ++ ")")
  for b in blocks do
    line ((← blockName index b) ++ " = Block()")
  for b in blocks do
    let block ← blockName index b
    for v in a.ops b do
      writeValue a builtin index block v
    let next ← nextText a index (a.next b)
    line (block ++ ".next = " ++ next)
  line ("graph = Graph(" ++ Text.quoted g.name ++ ", ["
    ++ ", ".intercalate (g.args.toList.map a.argumentName) ++ "], block0"
    ++ (if g.hasLoop then ", True)" else ")"))

/-- The lines that build a graph, with the names of primitives looked up. -/
def textWith (g : Graph) (a : Arena) (builtin : String → String) : Result (Array String) := do
  let (_, p) ← (g.writePage a builtin).run default
  return p.unions ++ p.lines

/-- The lines that build a graph. -/
def text (g : Graph) (a : Arena) : Result (Array String) := g.textWith a id

/-- Names of arguments and operations as a reader of the graph would number them. -/
def valueNames (g : Graph) (a : Arena) : Names :=
  let ns := g.args.foldl (fun (ns : Names) v => ns.insert v (a.argumentName v)) ∅
  (g.blocks a).foldl (fun ns b => (a.ops b).foldl (fun ns v => (ns.name v).2) ns) ns

end Graph

end Jib
