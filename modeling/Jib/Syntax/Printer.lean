import Jib.Syntax.Tree

/-!
# The written form of syntax trees

Every node is written as its name and, between parentheses, its fields in alphabetical order.  A
type slot that typing has not filled is left out where the node need not have one, and written as
`None` where it must.
-/

namespace Jib.Text

/-- A node with named fields, which are sorted by their written form. -/
def node (name : String) (fields : List (String × String)) : String :=
  let texts := fields.map (fun (key, value) => key ++ "=" ++ value)
  name ++ "(" ++ ", ".intercalate (texts.mergeSort (fun a b => decide (a ≤ b))) ++ ")"

def quotedList (xs : List String) : String := listText (xs.map quoted)

end Jib.Text

namespace Jib

open Text (node quoted quoted? quotedList listText)

/-- A type slot that is always written. -/
def slotText : Option Ty → String
  | none => "None"
  | some t => t.text

/-- A type slot that is written only when it is filled. -/
def slotFields : Option Ty → List (String × String)
  | none => []
  | some t => [("resolved_type", t.text)]

namespace TypeExpr

mutual

def text : TypeExpr → String
  | named n => "NamedType(" ++ quoted n ++ ")"
  | tuple ts => node "TupleType" [("elements", listText (texts ts))]
  | enum n => node "EnumType" [("name", quoted n)]
  | union n => node "UnionType" [("name", quoted n)]
  | struct n => node "StructType" [("name", quoted n)]
  | list t => node "ListType" [("typ", t.text)]
  | function a r => node "FunctionType" [("argtype", a.text), ("restype", r.text)]
  | ref t => node "RefType" [("refto", t.text)]
  | vec t => node "VecType" [("of", t.text)]
  | fvec n t => node "FVecType" [("number", toString n), ("of", t.text)]

def texts : List TypeExpr → List String
  | [] => []
  | t :: ts => t.text :: texts ts

end

end TypeExpr

namespace Expr

mutual

def text : Expr → String
  | var n t => node "Var" [("name", quoted n), ("resolved_type", slotText t)]
  | number n t => node "Number" (("number", toString n) :: slotFields t)
  | bits s t => node "BitVectorConstant" (("constant", quoted s) :: slotFields t)
  | string s t => node "String" (("string", quoted s) :: slotFields t)
  | unit t => node "Unit" (slotFields t)
  | undefined w => node "Undefined" [("typ", w.text)]
  | field o f t =>
    node "FieldAccess" [("element", quoted f), ("obj", o.text), ("resolved_type", slotText t)]
  | cast e v t =>
    node "Cast" [("expr", e.text), ("resolved_type", slotText t), ("variant", quoted v)]
  | refOf e t => node "RefOf" (("expr", e.text) :: slotFields t)
  | struct n fs vs t =>
    node "StructConstruction"
      ([("fieldnames", quotedList fs), ("fieldvalues", listText (texts vs)), ("name", quoted n)]
        ++ slotFields t)
  | call n as t p =>
    node "OperationExpr"
      [("args", listText (texts as)), ("name", quoted n), ("resolved_type", t.text),
        ("sourcepos", quoted? p)]

def texts : List Expr → List String
  | [] => []
  | e :: es => e.text :: texts es

end

end Expr

namespace Condition

def text : Condition → String
  | expr e => node "ExprCondition" [("expr", e.text)]
  | comparison op as =>
    node "Comparison" [("args", listText (Expr.texts as)), ("operation", quoted op)]
  | isVariant e v =>
    node "UnionVariantCheck" [("resolved_type", "None"), ("var", e.text), ("variant", quoted v)]

end Condition

namespace Mark

def text : Mark → String
  | type t => t.text
  | position p => quoted p

end Mark

namespace Target

def fieldText (object : Expr) (fields : List String) (value : Option Expr) (type : Option Ty)
    (pos : Option String) : String :=
  node "StructElementAssignment"
    [("fields", quotedList fields), ("obj", object.text), ("resolved_type", slotText type),
      ("sourcepos", quoted? pos), ("value", (value.map Expr.text).getD "None")]

def refText (reference : Expr) (value : Option Expr) (mark : Option Mark) (pos : Option String) :
    String :=
  node "RefAssignment"
    [("ref", reference.text), ("resolved_type", (mark.map Mark.text).getD "None"),
      ("sourcepos", quoted? pos), ("value", (value.map Expr.text).getD "None")]

def text : Target → String
  | field o fs t => fieldText o fs none t none
  | ref r m => refText r none m none

end Target

namespace Statement

/-- The text of an operation; its result is missing where the target is not a variable. -/
def operationText (result : Option String) (name : String) (args : List Expr) (type : Option Ty)
    (pos : Option String) : String :=
  node "Operation"
    [("args", listText (Expr.texts args)), ("name", quoted name), ("resolved_type", slotText type),
      ("result", quoted? result), ("sourcepos", quoted? pos)]

def text : Statement → String
  | declare n w v t p =>
    node "LocalVarDeclaration"
      ([("name", quoted n), ("sourcepos", quoted? p), ("typ", w.text),
        ("value", (v.map Expr.text).getD "None")] ++ slotFields t)
  | assign r v t p =>
    node "Assignment"
      [("resolved_type", slotText t), ("result", quoted r), ("sourcepos", quoted? p),
        ("value", v.text)]
  | operation r n as t p => operationText (some r) n as t p
  | setField o fs v t p => Target.fieldText o fs (some v) t p
  | setRef r v m p => Target.refText r (some v) m p
  | setTarget g n as t p =>
    node "GeneralAssignment"
      [("lhs", g.text), ("resolved_type", "None"), ("rhs", operationText none n as t none),
        ("sourcepos", quoted? p)]
  | goto n => node "Goto" [("target", toString n)]
  | jump c n p =>
    node "ConditionalJump"
      [("condition", c.text), ("sourcepos", quoted? p), ("target", toString n)]
  | exit k p => node "Exit" [("kind", quoted k), ("sourcepos", quoted? p)]
  | finish => "End()"
  | arbitrary => "Arbitrary()"

def listTexts (ss : List Statement) : String := listText (ss.map text)

end Statement

namespace Declaration

def text : Declaration → String
  | enum n ns => node "Enum" [("name", quoted n), ("names", quotedList ns)]
  | union n ns ts =>
    node "Union"
      [("name", quoted n), ("names", quotedList ns), ("types", listText (TypeExpr.texts ts))]
  | struct n ns ts =>
    node "Struct"
      [("name", quoted n), ("names", quotedList ns), ("types", listText (TypeExpr.texts ts))]
  | value n d w t =>
    node "GlobalVal"
      ([("definition", quoted? d), ("name", quoted n), ("typ", w.text)] ++ slotFields t)
  | abstract n d w t =>
    node "Abstract"
      ([("definition", quoted d), ("name", quoted n), ("typ", w.text)] ++ slotFields t)
  | register n w b t =>
    node "Register"
      ([("body", (b.map Statement.listTexts).getD "None"), ("name", quoted n), ("typ", w.text)]
        ++ slotFields t)
  | constant n w b t =>
    node "Let"
      ([("body", Statement.listTexts b), ("name", quoted n), ("typ", w.text)] ++ slotFields t)
  | function n as b t =>
    node "Function"
      ([("args", quotedList as), ("body", Statement.listTexts b), ("localtypes", "None"),
        ("name", quoted n)] ++ slotFields t)
  | pragma n c => node "Pragma" [("content", quotedList c), ("name", quoted n)]
  | files ns => node "Files" [("filenames", quotedList ns)]

end Declaration

end Jib
