import Jib.Compile.Basic
import Jib.Syntax.Parser
import Jib.Typing

/-!
# Classes for types

Written types become types, and list and tuple types get a class when they are first met.
Structures, unions and enumerations get their classes from their declarations.
-/

namespace Jib.Compile

open Code (Line ClassDef Payload)

/-- The tests whether two objects differ in some field. -/
def differenceLines (tests : List (Code.Expr × String)) : CompileM Unit := do
  for (e, note) in tests do
    emitText ("if " ++ e.render ++ ": return False" ++ note)

/-- The test whether `self` and `other` differ in a field. -/
def differenceIn (t : Ty) (p : Packing) (field : String) : Code.Expr :=
  difference t (.read p (.local "self") field) (.read p (.local "other") field)

/-- The method that compares the fields of two objects of a class. -/
def equalityMethod (cls : String) (tests : List (Code.Expr × String)) : CompileM Unit := do
  emitText "@objectmodel.always_inline"
  underText "def eq(self, other):" do
    emitText ("assert isinstance(other, " ++ cls ++ ")")
    differenceLines tests
    emitText "return True"

def tupleClass (t : Ty) (written : TypeExpr) (elements : List (TypeExpr × Ty)) (name : String) :
    CompileM Unit := do
  let tests := elements.zipIdx.map fun ((w, e), i) =>
    (differenceIn e .plain s!"utup{i}", " # " ++ w.text)
  under (.cls (.tuple name written.text (tests.map (·.1)))) (equalityMethod name tests)
  modify (fun c => { c with classNames := c.classNames.insert t name })

def listClass (t : Ty) (written : TypeExpr) (name : String) : CompileM Unit := do
  under (.cls (.list name written.text)) do
    emitText "_immutable_fields_ = ['head', 'tail']"
    emitText "def __init__(self, machine, head, tail): self.head, self.tail = head, tail"
  modify (fun c => { c with classNames := c.classNames.insert t name })

mutual

/-- The type that a written type stands for. -/
def resolve : TypeExpr → CompileM Ty
  | .named n => fun c =>
    match (Typing.primitiveType n).run TypingContext.initial with
    | .ok (t, _) => .ok t c
    | .error e => .error e c
  | .enum n | .union n | .struct n => do return (← namedType n).2
  | .function a r => do return .function (← resolve a) (← resolve r)
  | .ref t => do return .ref (← resolve t)
  | .vec t => do return .vec (← resolve t)
  | .fvec n t => do return .fvec n (← resolve t)
  | .list w => do
    let t := Ty.list (← resolve w)
    let _ ← helper (.type t) "List" (listClass t (.list w))
    return t
  | .tuple ws => do
    let ts ← resolveAll ws
    let t := Ty.tuple ts
    let name ← helper (.type t) "Tuple" (tupleClass t (.tuple ws) (ws.zip ts))
    setDefault t (.apply (.global name) [])
    return t

def resolveAll : List TypeExpr → CompileM (List Ty)
  | [] => pure []
  | w :: ws => do return (← resolve w) :: (← resolveAll ws)

end

/-- Declares the class of a structure type, once. -/
def addStruct (name cls : String) (t : Ty) : CompileM Unit := do
  let .struct _ names types _ := t | return
  if (← get).seenTypes.contains t then return
  modify (fun c => { c with seenTypes := t :: c.seenTypes })
  addNamedType name cls t
  let fields := names.zip types
  let tests := fields.map fun (f, ft) => (differenceIn ft ft.packing f, "")
  let packed := fields.map (fun (f, ft) => (f, ft.packing))
  let unset ← fields.mapM (fun (_, ft) => defaultOf ft)
  inPart .declarations <| under (.cls (.struct cls packed (tests.map (·.1)))) do
    underText ("def __init__(self, " ++ ", ".intercalate names ++ "):") do
      for (f, p) in packed do emitText (Line.storeText ("self." ++ f) p f)
    underText "def copy_into(self, res=None):" do
      emitText "if res is None: res = objectmodel.instantiate(self.__class__)"
      for (f, p) in packed do emitText (Line.copyText ("res." ++ f) ("self." ++ f) p)
      emitText "return res"
    equalityMethod cls tests
  setDefault t (.apply (.global cls) unset)

/-- Declares the class of an enumeration; its elements are numbered on from the last enumeration. -/
def addEnum (name : String) (elements : List String) : CompileM Unit := do
  let cls := "Enum_" ++ name
  let t := Ty.enum name elements
  inPart .declarations <| under (.cls (.enum cls)) do
    for (n, i) in elements.zipIdx do
      let value := (← get).nextElement + i
      addName n ⟨.element cls n, some t, .other, none⟩
      emit (.element n value)
    modify (fun c => { c with nextElement := c.nextElement + elements.length + 1 })
    addNamedType name cls t

/-! ### Unions -/

/-- The fields of a structure sorted by name; of two fields of one name the last counts. -/
def sortedFields (names : List String) (types : List Ty) : List (String × Ty) :=
  (Table.ofList (names.zip types)).toList.mergeSort (fun a b => decide (a.1 ≤ b.1))

/-- What the objects of a variant carry. -/
def payloadOf (cls : String) (t : Ty) : CompileM Payload := do
  match t with
  | .unit => return .unit
  | .struct _ names types _ =>
    return .fields ((sortedFields names types).map (fun (f, ft) => (f, ft.packing))) (← defaultOf t)
  | .enum _ elements =>
    return .elements (← elements.mapM (fun e => do return (← nameText e, cls ++ "_" ++ e)))
  | _ => return .whole

/-- The values that an object of a variant has before it is set. -/
def variantDefaults (t : Ty) : CompileM (List (String × Packing × Code.Expr)) := do
  match t with
  | .unit => return []
  | .struct _ names types _ =>
    (sortedFields names types).mapM (fun (f, ft) => do return (f, ft.packing, ← defaultOf ft))
  | _ => return [("a", .plain, ← defaultOf t)]

/-- The tests whether two objects of a variant differ; fields of a structure are read unpacked. -/
def variantDifferences (t : Ty) : List Code.Expr :=
  match t with
  | .unit => []
  | .struct _ names types _ =>
    (sortedFields names types).map fun (f, ft) => differenceIn ft .plain f
  | _ => [differenceIn t .plain "a"]

def variantInit (p : Payload) (note : String) : CompileM Unit := do
  match p with
  | .elements cases => do
    emitText "@staticmethod"
    emitText "@objectmodel.specialize.arg_or_var(0)"
    underText "def construct(a):" do
      for (e, cls) in cases do
        emitText ("if a == " ++ e.render ++ ": return " ++ cls ++ ".singleton")
      emitText "raise ValueError"
  | .unit => underText "def __init__(self, a):" (emitText "pass")
  | .fields names _ =>
    underText "def __init__(self, a):" do
      emit (.comment note)
      for (f, k) in names do emitText (Line.copyText ("self." ++ f) ("a." ++ f) k)
  | .whole => underText "def __init__(self, a):" (emitText ("self.a = a # " ++ note))

def variantEq (p : Payload) (note : String) (tests : List Code.Expr) : CompileM Unit := do
  emitText "@objectmodel.always_inline"
  underText "def eq(self, other):" do
    emitText "if type(self) is not type(other): return False"
    match p with
    | .unit => pure ()
    | .fields .. =>
      emit (.comment note)
      differenceLines (tests.map (·, ""))
    | _ => differenceLines (tests.map (·, " # " ++ note))
    emitText "return True"

def variantConvert (cls : String) (p : Payload) : CompileM Unit := do
  emitText "@staticmethod"
  emitText "@objectmodel.always_inline"
  underText "def convert(inst):" do
    underText ("if isinstance(inst, " ++ cls ++ "):") do
      match p with
      | .unit => emitText "return ()"
      | .fields names empty => do
        emitText ("res = " ++ empty.render)
        for (f, k) in names do emitText (Line.copyText ("res." ++ f) ("inst." ++ f) k)
        emitText "return res"
      | _ => emitText "return inst.a"
    underText "else:" (emitText "raise TypeError")

/-- The class of a variant, and the objects that exist once. -/
def variantClass (base name : String) (unionType : Ty) (written : TypeExpr) : CompileM Unit := do
  let t ← resolve written
  let cls := base ++ "_" ++ name
  addName name ⟨.global cls, some unionType, .union, none⟩
  let payload ← payloadOf cls t
  let defaults ← variantDefaults t
  let tests := variantDifferences t
  under (.cls (.variant cls base payload defaults tests)) do
    for (f, k, e) in defaults do emitText (Line.storeText f k e.render)
    variantInit payload written.text
    variantEq payload written.text tests
    variantConvert cls payload
  match payload with
  | .unit => emit (.singleton cls true)
  | .elements cases =>
    for (e, sub) in cases do
      under (.cls (.elementCase sub cls e)) (emitText ("a = " ++ e.render))
      emit (.singleton sub false)
  | _ => pure ()

/-- Declares the classes of a union. -/
def addUnion (name : String) (names : List String) (written : List TypeExpr) : CompileM Unit := do
  let cls := "Union_" ++ name
  let types ← resolveAll written
  let t := Ty.union name names types
  inPart .declarations do
    under (.cls (.union cls)) do
      emitText "@objectmodel.always_inline"
      underText "def eq(self, other):" (emitText "return False")
    emit (.singleton cls false)
    setDefault t (.singleton (.global cls))
    addNamedType name cls t
    for (n, w) in names.zip written do variantClass cls n t w
  if name == "zexception" then
    addName "current_exception"
      ⟨machineField "current_exception", some t, .union,
        some (.field .plain .machine "current_exception")⟩

end Jib.Compile
