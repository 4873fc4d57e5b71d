import Jib.Code.Expr

/-!
# Lines of generated code

A generated program is a sequence of lines with indentation.  A line holds what it does together
with its written form; the body of a class is described by the line that opens it, and the lines of
that body are only written.
-/

namespace Jib.Code

/-- What the objects of a variant carry. -/
inductive Payload where
  | unit
  /-- The fields of a structure, one by one, and the expression that makes an empty structure. -/
  | fields (names : List (String × Packing)) (empty : Expr)
  /-- One object for each element of an enumeration. -/
  | elements (cases : List (Expr × String))
  | whole
  deriving Repr, Inhabited

inductive ClassDef where
  /-- Elements follow one by one. -/
  | enum (name : String)
  | struct (name : String) (fields : List (String × Packing)) (differences : List Expr)
  | union (name : String)
  | variant (name base : String) (payload : Payload) (defaults : List (String × Packing × Expr))
    (differences : List Expr)
  /-- The one object of a variant that carries an element. -/
  | elementCase (name base : String) (value : Expr)
  | tuple (name note : String) (differences : List Expr)
  | list (name note : String)
  | reference (name slot : String)
  deriving Repr, Inhabited

namespace ClassDef

def render : ClassDef → String
  | enum n | struct n _ _ | union n => "class " ++ n ++ "(supportcode.ObjectBase):"
  | variant n b _ _ _ | elementCase n b _ => "class " ++ n ++ "(" ++ b ++ "):"
  | tuple n note _ | list n note => "class " ++ n ++ "(supportcode.ObjectBase): # " ++ note
  | reference n _ => "class " ++ n ++ "(supportcode.RegRef):"

end ClassDef

inductive Line where
  | blank
  | comment (text : String)
  /-- The comment that opens the lines of a constant. -/
  | heading (text : String)
  /-- A line that does nothing by itself. -/
  | inert (text : String)
  | cls (d : ClassDef)
  | element (name : String) (value : Nat)
  | singleton (cls : String) (withUnit : Bool)
  | reference (name : String)
  | define (name : String) (value : Expr)
  | register (slot : String) (value : Expr)
  | function (name : String) (params : List String)
  /-- A function that is also a method; its first parameter comes before the machine. -/
  | methodFunction (name : String) (params : List String)
  | hook (name : String)
  | attach (cls method function : String)
  | assign (name : String) (value : Expr) (pos : Option String)
  | evaluate (e : Expr) (pos : Option String)
  | store (packing : Packing) (object : Expr) (field : String) (value : Expr)
  /-- Control goes on at another block. -/
  | setBlock (pc : Nat) (pos : Option String)
  | inlined (pc : Nat) (pos : Option String)
  | again
  | branch (cond : Expr) (pos : Option String)
  | inBlock (pc : Nat)
  | forever
  | ret (value : Expr) (pos : Option String)
  /-- A call of a method of the first parameter. -/
  | dispatch (method : String) (params : List String)
  | fail (message : Expr) (pos : Option String)
  deriving Repr, Inhabited

namespace Line

def withPos (s : String) : Option String → String
  | none => s
  | some "" => s
  | some p => s ++ " # " ++ p

def storeText (place : String) (p : Packing) (value : String) : String :=
  match p with
  | .plain => place ++ " = " ++ value
  | .wideBits _ => Expr.tupleOf (Expr.partNames place p) ++ " = " ++ value ++ ".pack()[1:]"
  | _ => Expr.tupleOf (Expr.partNames place p) ++ " = " ++ value ++ ".pack()"

def copyText (target source : String) (p : Packing) : String :=
  match p with
  | .plain => target ++ " = " ++ source
  | _ => Expr.tupleOf (Expr.partNames target p) ++ " = " ++ Expr.tupleOf (Expr.partNames source p)

def render : Line → String
  | blank => ""
  | comment t => "# " ++ t
  | heading t => " # " ++ t
  | inert t => t
  | cls d => d.render
  | element n v => n ++ " = " ++ toString v
  | singleton c true => c ++ ".singleton = " ++ c ++ "(())"
  | singleton c false => c ++ ".singleton = " ++ c ++ "()"
  | reference n => n ++ " = " ++ n ++ "() # singleton"
  | define n e => n ++ " = " ++ e.render
  | register s e => "Machine." ++ s ++ " = " ++ e.render
  | function n ps => "def " ++ n ++ "(machine, " ++ ", ".intercalate ps ++ "):"
  | methodFunction n ps =>
    "def " ++ n ++ "(" ++ ps.headD "" ++ ", machine, " ++ ", ".intercalate (ps.drop 1) ++ "):"
  | hook n => "def " ++ n ++ "(*args): return ()"
  | attach c m f => c ++ ".meth_" ++ m ++ " = " ++ f
  | assign n e p => withPos (n ++ " = " ++ e.render) p
  | evaluate e p => withPos e.render p
  | store k o f e => storeText (o.render ++ "." ++ f) k e.render
  | setBlock n p => withPos ("pc = " ++ toString n) p
  | inlined n p => withPos ("# pc = " ++ toString n ++ ", inlined") p
  | again => "continue"
  | branch c p => withPos ("if " ++ c.render ++ ":") p
  | inBlock n => "if pc == " ++ toString n ++ ":"
  | forever => "while 1:"
  | ret e p => withPos ("return " ++ e.render) p
  | dispatch m ps =>
    "return " ++ ps.headD "" ++ ".meth_" ++ m ++ "(machine, " ++ ", ".intercalate (ps.drop 1) ++ ")"
  | fail e p => withPos ("assert 0, " ++ e.render) p

/-- Whether a blank line goes before this one at the outermost level. -/
def startsDefinition : Line → Bool
  | cls _ | function .. | methodFunction .. | hook _ => true
  | inert t => t.startsWith "def " || t.startsWith "class "
  | _ => false

/-- Whether the line does nothing at all. -/
def isSilent : Line → Bool
  | blank | comment _ | heading _ | inlined .. => true
  | _ => false

end Line

structure Placed where
  level : Nat
  line : Line
  deriving Repr, Inhabited

namespace Placed

def render (p : Placed) : String :=
  match p.line with
  | .blank => ""
  | l => String.join (List.replicate p.level "    ") ++ l.render

end Placed

end Jib.Code
