import Jib.Ty

/-!
# Syntax trees

Declarations, statements and expressions as they are written.  Where the meaning of a place depends
on a type, the tree has a slot for it that is empty after reading and filled by typing.
-/

namespace Jib

/-- A type as it is written. -/
inductive TypeExpr where
  | named (name : String)
  | tuple (elements : List TypeExpr)
  | enum (name : String)
  | union (name : String)
  | struct (name : String)
  | list (elem : TypeExpr)
  | function (arg result : TypeExpr)
  | ref (target : TypeExpr)
  | vec (elem : TypeExpr)
  | fvec (size : Int) (elem : TypeExpr)
  deriving Repr, Inhabited

inductive Expr where
  | var (name : String) (type : Option Ty)
  | number (value : Int) (type : Option Ty)
  /-- A bit vector literal with the mark of its base. -/
  | bits (digits : String) (type : Option Ty)
  /-- A text literal with its quotes. -/
  | string (literal : String) (type : Option Ty)
  | unit (type : Option Ty)
  | undefined (written : TypeExpr)
  | field (object : Expr) (element : String) (type : Option Ty)
  /-- The payload of a variant of a union. -/
  | cast (union : Expr) (variant : String) (type : Option Ty)
  | refOf (target : Expr) (type : Option Ty)
  | struct (name : String) (fields : List String) (values : List Expr) (type : Option Ty)
  | call (name : String) (args : List Expr) (type : Ty) (pos : Option String)
  deriving Repr, Inhabited

inductive Condition where
  | expr (e : Expr)
  | comparison (operation : String) (args : List Expr)
  | isVariant (union : Expr) (variant : String)
  deriving Repr, Inhabited

/-- What the type slot of a write through a reference holds: a type, or the position that moved
there when a variable of the statement was replaced. -/
inductive Mark where
  | type (t : Ty)
  | position (p : String)
  deriving Repr, Inhabited

/-- A place other than a variable that takes the result of an operation. -/
inductive Target where
  | field (object : Expr) (fields : List String) (type : Option Ty)
  | ref (reference : Expr) (mark : Option Mark)
  deriving Repr, Inhabited

inductive Statement where
  | declare (name : String) (written : TypeExpr) (value : Option Expr) (type : Option Ty)
    (pos : Option String)
  | assign (result : String) (value : Expr) (type : Option Ty) (pos : Option String)
  | operation (result name : String) (args : List Expr) (type : Option Ty) (pos : Option String)
  | setField (object : Expr) (fields : List String) (value : Expr) (type : Option Ty)
    (pos : Option String)
  | setRef (reference : Expr) (value : Expr) (mark : Option Mark) (pos : Option String)
  | setTarget (target : Target) (name : String) (args : List Expr) (type : Option Ty)
    (pos : Option String)
  | goto (target : Int)
  | jump (cond : Condition) (target : Int) (pos : Option String)
  | exit (kind : String) (pos : Option String)
  | finish
  | arbitrary
  deriving Repr, Inhabited

inductive Declaration where
  | enum (name : String) (names : List String)
  | union (name : String) (names : List String) (types : List TypeExpr)
  | struct (name : String) (names : List String) (types : List TypeExpr)
  | value (name : String) (definition : Option String) (written : TypeExpr) (type : Option Ty)
  | abstract (name definition : String) (written : TypeExpr) (type : Option Ty)
  | register (name : String) (written : TypeExpr) (body : Option (List Statement))
    (type : Option Ty)
  | constant (name : String) (written : TypeExpr) (body : List Statement) (type : Option Ty)
  | function (name : String) (args : List String) (body : List Statement) (type : Option Ty)
  | pragma (name : String) (content : List String)
  | files (names : List String)
  deriving Repr, Inhabited

namespace Expr

/-- What the type slot holds. -/
def type? : Expr → Option Ty
  | var _ t | number _ t | bits _ t | string _ t | unit t | field _ _ t | cast _ _ t | refOf _ t
  | struct _ _ _ t => t
  | call _ _ t _ => some t
  | undefined _ => none

end Expr

namespace Statement

/-- Whether control never runs on to the statement behind this one. -/
def endsBlock : Statement → Bool
  | goto _ | finish | exit .. | arbitrary => true
  | _ => false

/-- Gives a statement its position; jumps without condition and ends have none. -/
def withPosition (pos : String) : Statement → Statement
  | declare n w v t _ => declare n w v t pos
  | assign r v t _ => assign r v t pos
  | operation r n as t _ => operation r n as t pos
  | setField o fs v t _ => setField o fs v t pos
  | setRef r v m _ => setRef r v m pos
  | setTarget g n as t _ => setTarget g n as t pos
  | jump c t _ => jump c t pos
  | exit k _ => exit k pos
  | s => s

end Statement

namespace Declaration

def body? : Declaration → Option (List Statement)
  | register _ _ b _ => b
  | constant _ _ b _ => some b
  | function _ _ b _ => some b
  | _ => none

end Declaration

end Jib
