import Jib.Syntax.Tree
import Jib.Table
import Jib.Text.Numeral

/-!
# Typing

Typing walks over the declarations in order, keeps the types of all names seen so far, and fills the
type slots of the tree.  A name has to be declared before it is used.
-/

namespace Jib

structure TypingContext where
  globals : Table String Ty
  /-- The types that are declared under a name. -/
  types : Table String Ty
  /-- Structures that are declared as tuples. -/
  tuples : List String
  /-- The names of the body that is being typed, if there is one. -/
  locals : Option (Table String Ty)
  deriving Inhabited

abbrev TypingM := StateT TypingContext (Result)

namespace TypingContext

/-- The names that are known from the start. -/
def initial : TypingContext where
  globals := Table.ofList
    [("false", .bool), ("true", .bool), ("bitzero", .smallBits 1), ("bitone", .smallBits 1),
      ("have_exception", .bool), ("NULL", .null), ("throw_location", .string)]
  types := {}
  tuples := []
  locals := none

end TypingContext

namespace Typing

def check (c : Bool) : TypingM Unit := if c then pure () else throw .assertion

/-- A type that has to be there. -/
def found (t : Option Ty) : TypingM Ty := t.elim (throw .missingKey) pure

def lookUp (t : Table String Ty) (name : String) : TypingM Ty := found (t.get? name)

def addGlobal (name : String) (t : Ty) : TypingM Unit :=
  modify (fun c => { c with globals := c.globals.insert name t })

def addLocal (name : String) (t : Ty) : TypingM Unit :=
  modify (fun c => { c with locals := c.locals.map (·.insert name t) })

/-- Declares a type; a name can be declared once. -/
def addType (name : String) (t : Ty) : TypingM Unit := do
  check (!(← get).types.contains name)
  modify (fun c => { c with types := c.types.insert name t })

/-- The type of a variable; a local name hides a global one. -/
def typeOf (name : String) : TypingM Ty := do
  let c ← get
  found (c.locals.bind (·.get? name) <|> c.globals.get? name)

def bitsOfWidth (n : Nat) : Ty := if n ≤ 64 then .smallBits n else .bigBits n

/-- The field type of a structure; other types have no fields. -/
def fieldType (t : Ty) (name : String) : TypingM Ty :=
  if t matches .struct .. then found (t.field? name) else throw .internal

/-- The payload type of a union; other types have no variants. -/
def payloadType (t : Ty) (variant : String) : TypingM Ty :=
  if t matches .union .. then found (t.variant? variant) else throw .internal

/-- The type of what a reference, vector or list holds. -/
def heldType : Ty → TypingM Ty
  | .ref t | .vec t | .fvec _ t | .list t => pure t
  | _ => throw .internal

def primitiveType (name : String) : TypingM Ty :=
  match name with
  | "%bool" => pure .bool
  | "%i" => pure .int
  | "%bv" => pure .bits
  | "%unit" => pure .unit
  | "%i64" => pure .machineInt
  | "%bit" => pure (.smallBits 1)
  | "%string" => pure .string
  | "%real" => pure .real
  | _ =>
    match name.toList with
    | '%' :: 'b' :: 'v' :: digits =>
      (Text.readInt? (String.ofList digits)).elim (throw .badValue) (pure <| bitsOfWidth ·.toNat)
    | _ => throw (.assertion "unknown type")

mutual

def type : TypeExpr → TypingM Ty
  | .named n => primitiveType n
  | .tuple ts => do return .tuple (← types ts)
  | .enum n | .union n | .struct n => do lookUp (← get).types n
  | .list t => do return .list (← type t)
  | .function a r => do return .function (← type a) (← type r)
  | .ref t => do return .ref (← type t)
  | .vec t => do return .vec (← type t)
  | .fvec n t => do return .fvec n (← type t)

def types : List TypeExpr → TypingM (List Ty)
  | [] => pure []
  | t :: ts => do return (← type t) :: (← types ts)

end

def literalWidth (digits : String) : Nat :=
  if digits.startsWith "0b" then digits.length - 2 else (digits.length - 2) * 4

mutual

/-- Fills the slots of an expression and gives its type.  Of a structure that is built only to take
one field from it, only that field is typed. -/
def expr : Expr → TypingM (Expr × Ty)
  | .var n _ => do
    let t ← typeOf n
    return (.var n t, t)
  | .number n _ => return (.number n (some .machineInt), .machineInt)
  | .bits s _ =>
    let t := bitsOfWidth (literalWidth s)
    return (.bits s t, t)
  | .string s _ => return (.string s (some .string), .string)
  | .unit _ => return (.unit (some .unit), .unit)
  | .field (.struct n fs vs st) f _ => do
    let some i := fs.idxOf? f | throw .badValue
    let (vs, t) ← exprAt i vs
    return (.field (.struct n fs vs st) f t, t)
  | .field o f _ => do
    let (o, ot) ← expr o
    let t ← fieldType ot f
    return (.field o f t, t)
  | .cast e v _ => do
    let (e, et) ← expr e
    let t ← payloadType et v
    return (.cast e v t, t)
  | .refOf e _ => do
    let (e, et) ← expr e
    return (.refOf e (some (.ref et)), .ref et)
  | .struct n fs vs _ => do
    let vs ← exprs vs
    let t ← lookUp (← get).types n
    return (.struct n fs vs t, t)
  | .undefined _ | .call .. => throw .unfinished

def exprs : List Expr → TypingM (List Expr)
  | [] => pure []
  | e :: es => do
    let (e, _) ← expr e
    return e :: (← exprs es)

def exprAt : Nat → List Expr → TypingM (List Expr × Ty)
  | _, [] => throw .outOfRange
  | 0, e :: es => do
    let (e, t) ← expr e
    return (e :: es, t)
  | i + 1, e :: es => do
    let (es, t) ← exprAt i es
    return (e :: es, t)

end

def fieldsType : Ty → List String → TypingM Ty
  | t, [] => pure t
  | t, f :: fs => do fieldsType (← fieldType t f) fs

def condition : Condition → TypingM Condition
  | .expr e => do return .expr (← expr e).1
  | .comparison op as => do return .comparison op (← exprs as)
  | .isVariant e v => do return .isVariant (← expr e).1 v

def statement : Statement → TypingM Statement
  | .declare n w v _ p => do
    let t ← type w
    addLocal n t
    return .declare n w v t p
  | .assign r v _ p => do
    let (v, _) ← expr v
    return .assign r v (← typeOf r) p
  | .operation r n as _ p => do
    let as ← exprs as
    return .operation r n as (← typeOf r) p
  | .setField o fs v _ p => do
    let (o, ot) ← expr o
    let (v, _) ← expr v
    return .setField o fs v (← fieldsType ot fs) p
  | .setRef r v m p => do
    let (r, _) ← expr r
    let (v, _) ← expr v
    return .setRef r v m p
  | .setTarget (.field o fs _) n as _ p => do
    let (o, ot) ← expr o
    let t ← fieldsType ot fs
    return .setTarget (.field o fs t) n (← exprs as) t p
  | .setTarget (.ref r _) n as _ p => do
    let (r, rt) ← expr r
    let t ← heldType rt
    return .setTarget (.ref r (some (.type t))) n (← exprs as) t p
  | .jump c n p => do return .jump (← condition c) n p
  | s => pure s

def global (name : String) (w : TypeExpr) : TypingM Ty := do
  let t ← type w
  addGlobal name t
  return t

def inScope (enter : TypingM Unit) (body : List Statement) : TypingM (List Statement) := do
  let outer := (← get).locals
  modify (fun c => { c with locals := some {} })
  enter
  let body ← body.mapM statement
  modify (fun c => { c with locals := outer })
  return body

def declaration : Declaration → TypingM Declaration
  | .enum n ns => do
    let t := Ty.enum n ns
    for x in ns do addGlobal x t
    addType n t
    return .enum n ns
  | .union n ns ts => do
    let t := Ty.union n ns (← types ts)
    addType n t
    if n == "zexception" then addGlobal "current_exception" t
    return .union n ns ts
  | .struct n ns ts => do
    let isTuple := (← get).tuples.contains n
    addType n (.struct n ns (← types ts) isTuple)
    return .struct n ns ts
  | .value n d w _ => return .value n d w (← global n w)
  | .abstract n d w _ => return .abstract n d w (← global n w)
  | .register n w b _ => do
    let t ← global n w
    return .register n w (← b.mapM (inScope (pure ()))) t
  | .constant n w b _ => do
    let t ← global n w
    return .constant n w (← inScope (pure ()) b) t
  | .function n as b _ => do
    let t ← lookUp (← get).globals n
    let .function (.tuple argTypes) result := t | throw .internal
    let enter : TypingM Unit := do
      for (a, at_) in as.zip argTypes do addLocal a at_
      addLocal "return" result
    return .function n as (← inScope enter b) t
  | .pragma n c => do
    if n == "tuplestruct" then modify (fun s => { s with tuples := s.tuples ++ c.take 1 })
    return .pragma n c
  | .files ns => return .files ns

def program (ds : List Declaration) : Result (List Declaration × TypingContext) :=
  (ds.mapM declaration).run TypingContext.initial

end Typing

end Jib
