import Jib.Code.Tree
import Jib.Primitive.Method

/-!
# What a running program can name

The classes, functions and constants of a program, and the services of the platform that it runs on.
Evaluation does not call functions itself: it asks for calls, so that the depth of calls is the only
bound that it needs.
-/

namespace Jib

open scoped Jib.Power

abbrev Locals := Std.HashMap String Datum

structure Function where
  params : List String
  body : List Code.Tree
  deriving Inhabited

structure ClassInfo where
  shape : Code.ClassDef
  /-- The class and those above it, itself first. -/
  lineage : List String
  /-- What objects of the class have before it is set. -/
  attributes : Std.HashMap String Datum := ∅
  methods : Std.HashMap String Function := ∅
  deriving Inhabited

inductive Global where
  | value (d : Datum)
  | function (f : Function)
  /-- A function without a body. -/
  | hook
  | cls (c : ClassInfo)
  deriving Inhabited

/-- What evaluation asks for. -/
inductive Request where
  | function (name : String) (args : List Datum)
  /-- The function of the program, even if the platform puts another in its place. -/
  | own (name : String) (args : List Datum)
  /-- A method that was given to a class. -/
  | attached (name : String) (args : List Datum)
  /-- A comparison or a copy of objects. -/
  | builtin (name : String) (args : List Datum)
  /-- What a variant carries. -/
  | convert (cls : String) (value : Datum)
  deriving Inhabited

abbrev Answers := Request → RunM Datum

/-- A primitive of a platform, which may ask for calls. -/
abbrev Service := Answers → List Datum → RunM Datum

structure Platform where
  primitive? : String → Option Service
  /-- Functions of the program that the platform replaces. -/
  replacement? : String → Option Service := fun _ => none
  /-- The settings that a new machine gets together with its memory. -/
  settings : List (String × Datum) := []

instance : Inhabited Platform := ⟨⟨fun _ => none, fun _ => none, []⟩⟩

structure Scope where
  platform : Platform
  globals : Std.HashMap String Global := ∅
  /-- How many turns a loop may take. -/
  turns : Nat := 2 ^ (60 : Nat)
  deriving Inhabited

namespace Scope

def class? (s : Scope) (name : String) : Option ClassInfo :=
  match s.globals[name]? with
  | some (.cls c) => some c
  | _ => none

def function? (s : Scope) (name : String) : Option Function :=
  match s.globals[name]? with
  | some (.function f) => some f
  | _ => none

def classInfo (s : Scope) (name : String) : RunM ClassInfo := RunM.ofOption (s.class? name)

/-- The first answer that a class or one above it gives. -/
def inherited? {α : Type} (s : Scope) (cls : String) (f : ClassInfo → Option α) : Option α := do
  (← s.class? cls).lineage.findSome? (fun n => (s.class? n).bind f)

/-- What a class or one above it has under a name. -/
def classAttribute (s : Scope) (cls name : String) : RunM Datum :=
  RunM.ofOption (s.inherited? cls (·.attributes[name]?))

def method (s : Scope) (cls name : String) : RunM Function :=
  RunM.ofOption (s.inherited? cls (·.methods[name]?))

/-- The class of an object, if the value is one. -/
def classOf? (d : Datum) : RunM (Option String) := do
  match d with
  | .object _ => return some (← RunM.object d).1
  | _ => return none

/-- Whether a value is an object of a class or of one below it. -/
def isInstance (s : Scope) (d : Datum) (cls : String) : RunM Bool := do
  return ((← classOf? d).bind s.class?).any (·.lineage.contains cls)

/-- A field of an object, or what its class has in its place. -/
def field (s : Scope) (d : Datum) (name : String) : RunM Datum := do
  let (cls, fields) ← RunM.object d
  match fields.find? (fun f => f.1 == name) with
  | some (_, v) => return v
  | none => s.classAttribute cls name

/-! ### Packed fields -/

/-- The parts of a value. -/
def pack (p : Packing) (d : Datum) : RunM (List Datum) := do
  match p with
  | .plain => return [d]
  | _ =>
    let parts ← match d with
      | .bits b => Primitive.packBits b
      | .integer z => Primitive.packInteger z
      | _ => throw .internal
    let parts := match p with
      | .wideBits _ => parts.drop 1
      | _ => parts
    if parts.length == (Code.Expr.partNames "" p).length then return parts
    throw .badValue

/-- The value that some parts make. -/
def unpack (p : Packing) (parts : List Datum) : RunM Datum := do
  match p, parts with
  | .plain, [d] => return d
  | .bits, [w, v, data] =>
    return .bits (← Primitive.unpackBits (← Primitive.operand w) (← Primitive.operand v) data)
  | .wideBits w, [v, data] => return .bits (← Primitive.unpackBits w (← Primitive.operand v) data)
  | .integer, [v, data] =>
    return .integer (← Primitive.unpackInteger (← Primitive.operand v) data)
  | _, _ => throw .internal

/-- Writes the parts of a value into fields of an object. -/
def setFields (d : Datum) : List (String × Datum) → RunM Unit
  | [] => pure ()
  | (n, v) :: rest => do
    RunM.setField d n v
    setFields d rest

def setSlots : List (String × Datum) → RunM Unit
  | [] => pure ()
  | (n, v) :: rest => do
    RunM.setSlot n v
    setSlots rest

/-- Copies fields between objects, part by part. -/
def copyFields (s : Scope) (target source : Datum) : List String → RunM Unit
  | [] => pure ()
  | n :: rest => do
    RunM.setField target n (← s.field source n)
    copyFields s target source rest

def partsOf (fields : List (String × Packing)) : List String :=
  fields.flatMap (fun (f, p) => Code.Expr.partNames f p)

/-! ### Objects -/

/-- Makes an object of a class from the values that are given for it. -/
def construct (s : Scope) (name : String) (c : ClassInfo) (args : List Datum) : RunM Datum := do
  match c.shape, args with
  | .struct _ fields _, _ =>
    if args.length != fields.length then throw .internal
    let parts ← (fields.zip args).mapM (fun ((f, p), d) => do
      return (Code.Expr.partNames f p).zip (← pack p d))
    RunM.newObject name parts.flatten.toArray
  | .variant _ _ .unit _ _, [_] => RunM.newObject name #[]
  | .variant _ _ .whole _ _, [d] => RunM.newObject name #[("a", d)]
  | .variant _ _ (.fields fs _) _ _, [d] => do
    let o ← RunM.newObject name #[]
    s.copyFields o d (partsOf fs)
    return o
  | .variant _ _ (.elements _) _ _, [] => RunM.newObject name #[]
  | .elementCase .., [] | .union _, [] | .enum _, [] | .tuple .., [] => RunM.newObject name #[]
  | _, _ => throw .internal

/-- Makes an element of a list. -/
def constructList (name : String) (c : ClassInfo) (args : List Datum) : RunM Datum :=
  match c.shape, args with
  | .list .., [head, tail] => RunM.newObject name #[("head", head), ("tail", tail)]
  | _, _ => throw .internal

end Scope

end Jib
