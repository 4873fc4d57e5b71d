import Jib.Compile.Types
import Jib.Graph.Edges
import Jib.Graph.Printer

/-!
# Writing the code of a graph

Each operation becomes a line that sets a variable.  An operation without effects that is used once
is written in the place of its use instead.  A block that is entered from one place is written
there; all others are cases of a loop over the number of the block to run next.
-/

namespace Jib.Compile

open Code (Line)

/-- What is known while the code of one graph is written. -/
structure Emitter where
  uses : Std.HashMap ValueId Nat
  /-- Names of values; their count is part of the next name. -/
  names : Std.HashMap ValueId String := ∅
  /-- Values that are written where they are used, until that has happened. -/
  pending : Std.HashMap ValueId (Option Code.Expr) := ∅
  numbers : Std.HashMap BlockId Nat
  entry : EntryMap
  written : Std.HashSet BlockId := ∅

abbrev EmitM := StateT Emitter CompileM

def arena : EmitM Arena := do return (← getThe Compilation).session.arena

/-- The name of a value; numbered by its place, or by the names given so far. -/
def valueName (v : ValueId) (place : Option (Nat × Nat) := none) : EmitM String := do
  let a ← arena
  let s ← get
  if let .argument n _ := a.value v then return n
  if let some n := s.names[v]? then return n
  let hint := ((a.op? v).bind (·.hint)).getD ""
  let base := if hint == "" then "i" else hint
  let name := match place with
    | some (block, index) => s!"{base}_{block}_{index}"
    | none => s!"{base}_{s.names.size}"
  set { s with names := s.names.insert v name }
  return name

/-- Digits of a word at the full length of its width. -/
def paddedDigits (width value : Nat) : String :=
  let (mark, digits, length) :=
    if width % 4 == 0 then ("0x", Text.hexDigits value, width / 4)
    else ("0b", Text.binDigits value, width)
  mark ++ String.join (List.replicate (length - digits.length) "0") ++ digits

/-- The expression that makes a bit vector. -/
def bitsExpr (b : Bits) : Code.Expr :=
  match b with
  | .small w v | .sparse w v => .boxBits w (.word v (toString v.toNat))
  | .wide w _ => .longBits w b.toNat

def constant (c : Const) : CompileM Code.Expr := do
  match c with
  | .bool b => return .bool b
  | .machineInt n => return .int n
  | .int n =>
    let s := toString n
    let base := ("intconst" ++ s).replace "-" "_minus_"
    let name ← helper (.text s) base (fun name => emit (.define name (.longInt n)))
    return .global name
  | .smallBits v t => return .word v (paddedDigits (t.width?.getD 0) v.toNat)
  | .default t => defaultOf t
  | .enum v _ => nameText v
  | .unit => return .unit
  | .text s => return .text s
  | .bits b =>
    let e := bitsExpr b
    let base := s!"bitvectorconstant{b.width}_{b.toNat}"
    let name ← helper (.text e.render) base (fun name => emit (.define name e))
    return .global name

/-- The expression for a value where it is used. -/
def operand (v : ValueId) : EmitM Code.Expr := do
  match (← arena).value v with
  | .const c => constant c
  | .argument n _ => return .local n
  | .missing => throw .unfinished
  | .op _ | .phi _ =>
    let name ← valueName v
    match (← get).pending[v]? with
    | some (some e) =>
      modify (fun s => { s with pending := s.pending.insert v none })
      return e
    | some none => throw .assertion
    | none => return .local name

def operands : List ValueId → EmitM (List Code.Expr)
  | [] => pure []
  | v :: vs => do return (← operand v) :: (← operands vs)

/-- Whether an operation can be written at any place before its use. -/
def isMovable (builtin : String → String) (o : Operation) : Bool :=
  o.kind == .cast || o.kind == .unionCast || o.name == "@not"
    || (o.kind == .call && Primitive.isPure (stripAt (builtin o.name)))

/-- Notes whether an expression's text can be read. -/
def noted (e : Code.Expr) : CompileM Code.Expr := do
  if e.isMalformed then modify (fun c => { c with readable := false })
  return e

/-- Writes the line of an operation, or keeps its expression for the one place that uses it. -/
def result (v : ValueId) (o : Operation) (e : Code.Expr) : EmitM Unit := do
  let s ← get
  match s.uses.getD v 0 with
  | 0 => emit (.evaluate e o.pos)
  | count =>
    let name ← valueName v
    let session := (← getThe Compilation).session
    if count == 1 && isMovable session.builtin o then
      modify (fun s => { s with pending := s.pending.insert v (some e) })
    else emit (.assign name e o.pos)

/-! ### Conversions -/

/-- The conversion of an expression between two types. -/
def conversion (source target : Ty) (e : Code.Expr) : CompileM Code.Expr := do
  match source, target with
  | .smallBits w, .bits => return .boxBits w e
  | .smallBits v, .smallBits w =>
    if v == w then return e
    return .badCast s!"can not convert bv{v} to bv{w}"
  | .bits, .smallBits w => return .method e "touint" [.int w]
  | .bits, .bigBits w => return .method e "check_size_and_return" [.int w]
  | .bigBits w, .bits => return .method e "tell_jit_size_and_return" [.int w]
  | .int, .smallBits _ => return .method e "touint" []
  | .string, .int => return .readInt e
  | .machineInt, .int => return .boxInt e
  | .int, .machineInt => return .method e "toint" []
  | .vec _, .fvec .. | .fvec .., .vec _ => return e
  | .vec a, .vec b =>
    if a == b then return e
    return .each (← conversion a b (.local "x")) e
  | .tuple as, .tuple bs =>
    if source == target then return e
    let c ← get
    let a ← ofOption .internal c.classNames[source]?
    let b ← ofOption .internal c.classNames[target]?
    let name ← helper (.types source target) ("convert_" ++ a ++ "_" ++ b) (fun name =>
      underText ("def " ++ name ++ "(t1):") do
        emitText ("res = " ++ b ++ "()")
        for ((ta, tb), i) in (as.zip bs).zipIdx do
          let field : Expr := .field (.var "t1" none) s!"ztup{i}" none
          let inner ← conversionOfText ta tb field.text
          emitText (s!"res.ztup{i} = " ++ inner)
        emitText "return res")
    return .apply (.global name) [e]
  | _, _ =>
    if source == target then return e
    throw (.badType ("can't convert from " ++ source.text ++ " to " ++ target.text ++ ": " ++
      e.render))
where
  /-- Converts what a plain text stands for. -/
  conversionOfText (a b : Ty) (text : String) : CompileM String := do
    if a == b then return text
    match a, b with
    | .smallBits w, .bits => return s!"bitvector.from_ruint({w}, {text})"
    | .bits, .smallBits w => return s!"{text}.touint({w})"
    | .machineInt, .int => return s!"Integer.fromint({text})"
    | .int, .machineInt => return text ++ ".toint()"
    | _, _ =>
      throw (.badType ("can't convert from " ++ a.text ++ " to " ++ b.text ++ ": " ++ text))

/-! ### Operations with a written form of their own -/

def isBoolResult (t : Ty) : CompileM Unit := check (t == .bool)

/-- Machine integer operations take machine integers only. -/
def arithmetic (op : String) (args : List Code.Expr) (types : List Ty) : CompileM Code.Expr := do
  check (types.all (· == .machineInt))
  let [a, b] := args | throw .internal
  return .arith op a b

/-- The comparison of two operands of an operation. -/
def comparison (args : List Code.Expr) (types : List Ty) (result : Ty) : CompileM Code.Expr := do
  let some t := types.head? | throw .internal
  let a :: b :: rest := args | throw .internal
  match t with
  | .bool | .enum .. | .list _ => pure ()
  | _ => if !rest.isEmpty then throw .internal
  match t with
  | .real | .vec _ | .fvec .. | .function .. | .null | .unknown => pure ()
  | _ => isBoolResult result
  match t with
  | .smallBits w =>
    for u in types do
      check ((← ofOption .internal u.width?) == w)
  | .machineInt => check (types.all (· == .machineInt))
  | _ => pure ()
  noted (equality t a b)

/-- Operations that are written out by the type of their first operand; the rest are calls. -/
def special (name : String) (args : List Code.Expr) (types : List Ty) (result : Ty) :
    CompileM (Option Code.Expr) := do
  let truth (e : CompileM Code.Expr) : CompileM (Option Code.Expr) := do
    isBoolResult result
    return some (← e)
  let first : CompileM Code.Expr := ofOption .outOfRange args.head?
  match types.head?, name with
  | none, _ => throw .outOfRange
  | some _, "eq" => return some (← comparison args types result)
  | some _, "neq" => truth do return .negate (.parens (← comparison args types result))
  | some .machineInt, "gt" => truth (arithmetic ">" args types)
  | some .machineInt, "lt" => truth (arithmetic "<" args types)
  | some .machineInt, "gteq" => truth (arithmetic ">=" args types)
  | some .machineInt, "lteq" => truth (arithmetic "<=" args types)
  | some .machineInt, "iadd" => return some (← arithmetic "+" args types)
  | some .machineInt, "isub" => return some (← arithmetic "-" args types)
  | some .bool, "not" => truth do return .negate (← first)
  | some (.list (.tuple (t :: _))), "hd" =>
    return some (← conversion t result (.read .plain (← first) "head"))
  | some (.list _), "hd" => throw .internal
  | some (.list t), "tl" =>
    check (result == .list t)
    return some (.read .plain (← first) "tail")
  | some (.vec _), "vector_access_o_i" =>
    let [a, i] := args | throw .internal
    return some (.index a i)
  | some (.vec _), "vector_update_o_i_o" =>
    return some (.call (.support "vector_update_list") args)
  | some _, _ => return none

/-! ### Operations -/

def writtenName (name : String) : CompileM String := do
  let some i := (← get).names.get? name | return name
  if (name.splitOn "eq_string").length > 1 then return "@eq"
  if name == "znot_bool" then return "@not"
  return if i.read matches .support "eq_anything" then "@eq" else name

/-- A call that is written as such. -/
def plainCall (name : String) (args : List Code.Expr) (types : List Ty) : CompileM Code.Expr := do
  let i ← info name
  let isSupport := i.read matches .support _
  match i.type with
  | some (.function ..) => return .call i.read args
  | some (.union ..) =>
    if isSupport then return .call i.read args
    let .union := i.origin | throw .internal
    match types with
    | [.enum ..] => return .construct i.read args
    | [.unit] => return .singleton i.read
    | _ => return .apply i.read args
  | _ => return if isSupport then .call i.read args else .apply i.read args

def callOp (v : ValueId) (o : Operation) : EmitM Unit := do
  let a ← arena
  let types := o.args.toList.map a.typeOf
  let name ← writtenName o.name
  if name.startsWith "@" then
    let kind := String.ofList (name.toList.drop 1)
    if hasSpecial kind types then
      let args ← operands o.args.toList
      let some e ← special kind args types o.type | throw .internal
      return ← result v o e
  let args ← operands o.args.toList
  result v o (← plainCall name args types)
where
  /-- Whether an operation is written out for the type of its first operand. -/
  hasSpecial (kind : String) (types : List Ty) : Bool :=
    match types.head?, kind with
    | none, _ => true
    | _, "eq" | _, "neq" => true
    | some .machineInt, k => ["gt", "lt", "gteq", "lteq", "iadd", "isub"].contains k
    | some .bool, "not" => true
    | some (.list _), k => k == "hd" || k == "tl"
    | some (.vec _), k => k == "vector_access_o_i" || k == "vector_update_o_i_o"
    | _, _ => false

def firstArg (o : Operation) : EmitM ValueId := ofOption .outOfRange o.args[0]?

def twoArgs (o : Operation) : EmitM (ValueId × ValueId) := do
  let [x, y] := o.args.toList | throw .outOfRange
  return (x, y)

def castOp (v : ValueId) (o : Operation) : EmitM Unit := do
  let x ← firstArg o
  let a ← arena
  match a.value x, o.type with
  | .const (.smallBits w (.smallBits width)), .bits =>
    let name ← helper (.type (.smallBits width)) s!"bitvectorconstant{w.toNat}" (fun name =>
      emit (.define name (.boxBits width (.word w (toString w.toNat)))))
    result v o (.global name)
  | _, _ =>
    let e ← operand x
    result v o (← conversion (a.typeOf x) o.type e)

/-- A write to a place of the machine. -/
def globalWrite (o : Operation) : EmitM Unit := do
  let i ← info o.name
  let e ← operand (← firstArg o)
  match i.write with
  | none => throw .internal
  | some (.field p object f) => emit (.store p object f e)
  | some (.variable n) => emit (.assign n e none)

/-- A reference to a structure is the structure; other references name a register. -/
def refOf (v : ValueId) (o : Operation) : EmitM Unit := do
  match o.type with
  | .ref (.struct ..) => result v o (← operand (← firstArg o))
  | .ref t =>
    check (t == .smallBits 64 && o.args.size == 1)
    let some r := (← arena).op? (← firstArg o) | throw .assertion
    check (r.kind == .globalRead)
    if !(← getThe Compilation).registers.contains r.name then throw .missingKey
    let slot := "_reg_" ++ r.name
    let name ← helper (.text r.name) ("ref_" ++ r.name) (fun name => do
      under (.cls (.reference name slot)) do
        underText "def deref(self, machine):" (emitText ("return machine." ++ slot))
      emit (.reference name))
    result v o (.global name)
  | _ => throw .internal

def elementType : Ty → EmitM Ty
  | .vec t | .fvec _ t | .ref t | .list t => pure t
  | _ => throw .internal

def operation (v : ValueId) (o : Operation) : EmitM Unit := do
  match o.kind with
  | .call => callOp v o
  | .cast => castOp v o
  | .allocate => result v o (← defaultOf o.type)
  | .structConstruction =>
    match o.type with
    | .struct n .. | .union n .. | .enum n _ =>
      let (cls, _) ← namedType n
      result v o (.apply (.global cls) (← operands o.args.toList))
    | _ => throw .internal
  | .fieldAccess => result v o (.read o.type.packing (← operand (← firstArg o)) o.name)
  | .fieldWrite =>
    let (x, y) ← twoArgs o
    let object ← operand x
    let value ← operand y
    emit (.store ((← arena).typeOf y).packing object o.name value)
  | .unionVariantCheck => result v o (.isOther (← nameText o.name) (← operand (← firstArg o)))
  | .unionCast => result v o (.convert (← nameText o.name) (← operand (← firstArg o)))
  | .globalRead => result v o (← nameText o.name)
  | .globalWrite => globalWrite o
  | .refAssignment =>
    match o.args.toList with
    | [x, y] =>
      let target ← operand x
      let value ← operand y
      emit (.evaluate (.method target "copy_into" [value]) none)
    | _ => throw .outOfRange
  | .refOf => refOf v o
  | .vectorInit =>
    let unset ← defaultOf (← elementType o.type)
    result v o (.replicate unset (← operand (← firstArg o)))
  | .vectorUpdate =>
    let _ ← elementType o.type
    let _ ← valueName v
    result v o (.call (.support "vector_update_list") (← operands o.args.toList))
  | .assign =>
    let (x, y) ← twoArgs o
    let name ← valueName x
    emit (.assign name (← operand y) none)
  | .comment => emit (.comment o.name)

def blockOps (b : BlockId) : EmitM Unit := do
  for v in (← arena).ops b do
    match (← arena).value v with
    | .op o => operation v o
    | .phi _ => pure ()
    | _ => throw .unfinished

/-! ### Blocks -/

/-- Writes a block and those that are written inside it. -/
def block : Nat → BlockId → EmitM Unit
  | 0, _ => throw .internal
  | fuel + 1, b => do
    modify (fun s => { s with written := s.written.insert b })
    blockOps b
    match (← arena).next b with
    | .ret (some v) pos => emit (.ret (← operand v) pos)
    | .ret none pos => emit (.fail (.text "unreachable") pos)
    | .raise k pos => emit (.fail (← operand k) pos)
    | .goto t pos => jump fuel t pos
    | .branch c t f pos =>
      emit (.branch (← operand c) pos)
      level (· + 1)
      jump fuel t none
      level (· - 1)
      jump fuel f none
    | .justStop => pure ()
    | .unset => throw .unfinished
where
  /-- Goes on with a block: inside if nothing else leads to it, by its number otherwise. -/
  jump (fuel : Nat) (b : BlockId) (pos : Option String) : EmitM Unit := do
    let s ← get
    let n := s.numbers.getD b 0
    if s.entry.single b then
      emit (.inlined n pos)
      block fuel b
    else
      emit (.setBlock n pos)
      emit .again

def graphComments (id : GraphId) : CompileM (Array String) := do
  let s := (← get).session
  MonadExcept.ofExcept ((s.graph id).textWith s.arena s.builtin)

def structArguments (g : Graph) (a : Arena) : List String :=
  g.args.toList.filterMap fun v =>
    match a.value v with
    | .argument n (.struct _ _ _ false) => some n
    | _ => none

/-- Writes blocks as the cases of a loop over their numbers. -/
def numberedBlocks (a : Arena) (blocks : Array BlockId) : EmitM Unit := do
  for (b, i) in blocks.toList.zipIdx do
    for (v, j) in (a.ops b).toList.zipIdx do
      let _ ← valueName v (some (i, j))
  emit (.assign "pc" (.int 0) none)
  emit .forever
  level (· + 1)
  for (b, i) in blocks.toList.zipIdx do
    if !(← get).written.contains b then
      emit (.inBlock i)
      level (· + 1)
      block (blocks.size + 1) b
      level (· - 1)
  level (· - 1)

/-- Writes the blocks of a graph; before several of them the structures among the arguments are
copied. -/
def bodyCode (g : Graph) (a : Arena) : EmitM Unit := do
  let blocks := g.blocks a
  if blocks.size == 1 then block 2 g.start
  else
    (structArguments g a).forM fun n => emit (.assign n (.method (.local n) "copy_into" []) none)
    numberedBlocks a blocks

/-- Writes the code of a graph; the type is that of its function. -/
def graphCode (id : GraphId) (type : Option Ty) : CompileM Unit := do
  let comments ← graphComments id
  inSession (Session.onGraph id (fun g _ => g.splitCriticalEdges))
  let s := (← get).session
  let uses := (s.graph id).countUses s.arena
  inSession (Session.onGraph id (fun g _ => g.phisToCopies))
  let s := (← get).session
  let g := s.graph id
  let a := s.arena
  if let some (.function _ r) := type then
    emit (.comment ("return type " ++ r.text ++ (if g.hasLoop then " has loop" else "")))
  for c in comments do emit (.comment c)
  let numbers := (g.blocks a).toList.zipIdx.foldl (fun m (b, i) => m.insert b i) ∅
  let start : Emitter := { uses := uses, numbers := numbers, entry := g.entryMap a }
  let _ ← (bodyCode g a).run start

end Jib.Compile
