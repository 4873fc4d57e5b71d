import Jib.Ty

/-!
# Expressions of the target language

The expressions that generated code is made of, and their written form.  The written form puts no
parentheses around operands, so an expression is built by functions that give it the shape its text
has: a comparison of comparisons is one chain, and a negation on the left of a comparison negates
the whole of it.  A negation on the right of a comparison has no reading at all.
-/

namespace Jib

/-- How a value of a type is kept in a field: as it is, or in parts under several names. -/
inductive Packing where
  | plain
  | bits
  /-- A bit vector of known width; the width is not stored. -/
  | wideBits (width : Nat)
  | integer
  deriving BEq, DecidableEq, Repr, Inhabited

namespace Ty

def packing : Ty → Packing
  | bits => .bits
  | bigBits w => .wideBits w
  | int => .integer
  | _ => .plain

end Ty

namespace Code

inductive Relation where
  | equal
  | same
  deriving BEq, DecidableEq, Repr, Inhabited

inductive Expr where
  | local (name : String)
  /-- A name of the program: a constant, a function or a class. -/
  | global (name : String)
  /-- A primitive as such. -/
  | support (name : String)
  | machine
  | bool (b : Bool)
  | int (n : Int)
  | unit
  | none
  | text (s : String)
  /-- The text that stands for a value that was never set. -/
  | unsetText
  | word (value : UInt64) (digits : String)
  | unsetMachineInt
  | unsetInt
  | unsetBits
  | zeroBits (width : Nat)
  | longInt (value : Int)
  | longBits (width value : Nat)
  | element (enum name : String)
  | read (packing : Packing) (object : Expr) (field : String)
  | promote (e : Expr)
  | apply (callee : Expr) (args : List Expr)
  /-- A call that passes the machine. -/
  | call (callee : Expr) (args : List Expr)
  | singleton (cls : Expr)
  | construct (cls : Expr) (args : List Expr)
  | convert (cls : Expr) (e : Expr)
  | isOther (cls : Expr) (e : Expr)
  | method (e : Expr) (name : String) (args : List Expr)
  | boxBits (width : Nat) (e : Expr)
  | boxInt (e : Expr)
  | readInt (e : Expr)
  /-- A chain of comparisons, all of which have to hold. -/
  | compare (first : Expr) (rest : List (Relation × Expr))
  | negate (e : Expr)
  | parens (e : Expr)
  | arith (op : String) (a b : Expr)
  | index (e i : Expr)
  | replicate (e count : Expr)
  /-- A list of what an expression gives for each element `x` of a list. -/
  | each (body list : Expr)
  /-- Comparing values of a type that has no comparison. -/
  | mismatch (notes : List String)
  | badCast (message : String)
  /-- A text that cannot be read as an expression. -/
  | malformed (text : String)
  deriving Repr, Inhabited

namespace Expr

def relationText : Relation → String
  | .equal => " == "
  | .same => " is "

/-- Digits in base sixteen when the width allows it, in base two otherwise. -/
def marked (width value : Nat) : String :=
  if width % 4 == 0 then "0x" ++ Text.hexDigits value else "0b" ++ Text.binDigits value

/-- The names of the parts of a packed field. -/
def partNames (place : String) : Packing → List String
  | .plain => [place]
  | .bits => [place ++ "_width", place ++ "_val", place ++ "_data"]
  | .wideBits _ => [place ++ "_val", place ++ "_data"]
  | .integer => [place ++ "_val_or_sign", place ++ "_data"]

/-- Names between parentheses, with commas. -/
def tupleOf (names : List String) : String := "(" ++ ", ".intercalate names ++ ")"

/-- The text of a read of a field at a place. -/
def readText (place : String) (p : Packing) : String :=
  match p with
  | .plain => place
  | .bits => "bitvector.BitVector.unpack" ++ tupleOf (partNames place p)
  | .wideBits w => "bitvector.BitVector.unpack" ++ tupleOf (toString w :: partNames place p)
  | .integer => "bitvector.Integer.unpack" ++ tupleOf (partNames place p)

mutual

def render : Expr → String
  | .local n => n
  | .global n => n
  | .support n => "supportcode." ++ n
  | .machine => "machine"
  | .bool b => if b then "True" else "False"
  | .int n => toString n
  | .unit => "()"
  | .none => "None"
  | .text s => Text.quoted s
  | .unsetText => "\"uninitialized_value\""
  | .word _ ds => "r_uint(" ++ ds ++ ")"
  | .unsetMachineInt => "-0xfefe"
  | .unsetInt => "UninitInt"
  | .unsetBits => "bitvector.UNITIALIZED_BV"
  | .zeroBits w => s!"bitvector.SparseBitVector({w}, r_uint(0))"
  | .longInt n => s!"bitvector.Integer.fromlong({n})"
  | .longBits w n =>
    "bitvector.from_bigint(" ++ toString w ++ ", rbigint.fromlong(" ++ marked w n ++ "))"
  | .element c n => c ++ "." ++ n
  | .read p o f => readText (o.render ++ "." ++ f) p
  | .promote e => "jit.promote(" ++ e.render ++ ")"
  | .apply c as => c.render ++ "(" ++ renderList as ++ ")"
  | .call c as => c.render ++ "(machine, " ++ renderList as ++ ")"
  | .singleton c => c.render ++ ".singleton"
  | .construct c as => c.render ++ ".construct(" ++ renderList as ++ ")"
  | .convert c e => c.render ++ ".convert(" ++ e.render ++ ")"
  | .isOther c e => "not isinstance(" ++ e.render ++ ", " ++ c.render ++ ")"
  | .method e n as => e.render ++ "." ++ n ++ "(" ++ renderList as ++ ")"
  | .boxBits w e => "bitvector.from_ruint(" ++ toString w ++ ", " ++ e.render ++ ")"
  | .boxInt e => "Integer.fromint(" ++ e.render ++ ")"
  | .readInt e => "Integer.fromstr(" ++ e.render ++ ")"
  | .compare e rest => e.render ++ renderRest rest
  | .negate e => "not " ++ e.render
  | .parens e => "(" ++ e.render ++ ")"
  | .arith op a b => "(" ++ a.render ++ " " ++ op ++ " " ++ b.render ++ ")"
  | .index e i => e.render ++ "[" ++ i.render ++ "]"
  | .replicate e n => "[" ++ e.render ++ "] * " ++ n.render
  | .each b l => "[" ++ b.render ++ " for x in " ++ l.render ++ "]"
  | .mismatch notes =>
    "supportcode.raise_type_error()" ++ String.join (notes.map (fun n => " + " ++ Text.quoted n))
  | .badCast m => "supportcode.raise_type_error(" ++ Text.quoted m ++ ")"
  | .malformed t => t

def renderList : List Expr → String
  | [] => ""
  | [e] => e.render
  | e :: es => e.render ++ ", " ++ renderList es

def renderRest : List (Relation × Expr) → String
  | [] => ""
  | (r, e) :: es => relationText r ++ e.render ++ renderRest es

end

def relate (r : Relation) : Expr → Expr → Expr
  | .negate a, b => .negate (relate r a b)
  | a, .negate b => .malformed (a.render ++ relationText r ++ "not " ++ b.render)
  | .compare a rest, .compare b more => .compare a (rest ++ (r, b) :: more)
  | .compare a rest, b => .compare a (rest ++ [(r, b)])
  | a, .compare b more => .compare a ((r, b) :: more)
  | a, b => .compare a [(r, b)]

def equal (a b : Expr) : Expr := relate .equal a b

/-- Whether an expression's text cannot be read. -/
def isMalformed : Expr → Bool
  | .malformed _ => true
  | _ => false

end Expr

end Code

end Jib
