import Jib.Fault
import Jib.Text.Quoted

/-!
# Types

The types of values in the instruction language.  Two types are the same when they are built in the
same way; structures, unions and enumerations carry their declarations with them.
-/

namespace Jib

inductive Ty where
  | bool
  | int
  | machineInt
  | unit
  | string
  | real
  /-- A bit vector whose width is known only while running. -/
  | bits
  | null
  /-- A bit vector of a known width of at most 64. -/
  | smallBits (width : Nat)
  /-- A bit vector of a known width above 64. -/
  | bigBits (width : Nat)
  | struct (name : String) (names : List String) (types : List Ty) (tuple : Bool)
  | union (name : String) (names : List String) (types : List Ty)
  | enum (name : String) (elements : List String)
  | vec (elem : Ty)
  | fvec (size : Int) (elem : Ty)
  | ref (target : Ty)
  | list (elem : Ty)
  | tuple (elements : List Ty)
  | function (arg : Ty) (result : Ty)
  /-- Stands where no type has been given yet. -/
  | unknown
  deriving Repr, Inhabited

namespace Ty

mutual

def beq : Ty → Ty → Bool
  | bool, bool => true
  | int, int => true
  | machineInt, machineInt => true
  | unit, unit => true
  | string, string => true
  | real, real => true
  | bits, bits => true
  | null, null => true
  | unknown, unknown => true
  | smallBits v, smallBits w => v == w
  | bigBits v, bigBits w => v == w
  | struct n ns ts b, struct n' ns' ts' b' => n == n' && ns == ns' && b == b' && beqList ts ts'
  | union n ns ts, union n' ns' ts' => n == n' && ns == ns' && beqList ts ts'
  | enum n es, enum n' es' => n == n' && es == es'
  | vec t, vec t' => beq t t'
  | fvec k t, fvec k' t' => k == k' && beq t t'
  | ref t, ref t' => beq t t'
  | list t, list t' => beq t t'
  | tuple ts, tuple ts' => beqList ts ts'
  | function a r, function a' r' => beq a a' && beq r r'
  | _, _ => false

def beqList : List Ty → List Ty → Bool
  | [], [] => true
  | t :: ts, u :: us => beq t u && beqList ts us
  | _, _ => false

end

instance : BEq Ty := ⟨beq⟩

/-- A digest that agrees on equal types. -/
protected def hash : Ty → UInt64
  | bool => 1
  | int => 2
  | machineInt => 3
  | unit => 4
  | string => 5
  | real => 6
  | bits => 7
  | null => 8
  | unknown => 9
  | smallBits w => mixHash 10 (hash w)
  | bigBits w => mixHash 11 (hash w)
  | struct n .. => mixHash 12 (hash n)
  | union n .. => mixHash 13 (hash n)
  | enum n _ => mixHash 14 (hash n)
  | vec t => mixHash 15 t.hash
  | fvec k t => mixHash (hash k) t.hash
  | ref t => mixHash 16 t.hash
  | list t => mixHash 17 t.hash
  | tuple _ => 18
  | function _ r => mixHash 19 r.hash

instance : Hashable Ty := ⟨Ty.hash⟩

mutual

/-- The written form of a type. -/
def text : Ty → String
  | bool => "Bool()"
  | int => "Int()"
  | machineInt => "MachineInt()"
  | unit => "Unit()"
  | string => "String()"
  | real => "Real()"
  | bits => "GenericBitVector()"
  | null => "NullType()"
  | unknown => "None"
  | smallBits w => s!"SmallFixedBitVector({w})"
  | bigBits w => s!"BigFixedBitVector({w})"
  | struct n ns ts b =>
    "Struct(" ++ Text.quoted n ++ ", " ++ Text.tupleText (ns.map Text.quoted) ++ ", "
      ++ Text.tupleText (textList ts) ++ (if b then ", True)" else ")")
  | union n ns ts =>
    "Union(" ++ Text.quoted n ++ ", " ++ Text.tupleText (ns.map Text.quoted) ++ ", "
      ++ Text.tupleText (textList ts) ++ ")"
  | enum n es => "Enum(" ++ Text.quoted n ++ ", " ++ Text.tupleText (es.map Text.quoted) ++ ")"
  | vec t => "Vec(" ++ t.text ++ ")"
  | fvec k t => "FVec(" ++ toString k ++ ", " ++ t.text ++ ")"
  | ref t => "Ref(" ++ t.text ++ ")"
  | list t => "List(" ++ t.text ++ ")"
  | tuple ts => "Tuple(" ++ Text.tupleText (textList ts) ++ ")"
  | function a r => "Function(" ++ a.text ++ ", " ++ r.text ++ ")"

def textList : List Ty → List String
  | [] => []
  | t :: ts => t.text :: textList ts

end

/-- The type of bit vectors of a width from 0 to 64. -/
def ofSmallWidth (w : Int) : Result Ty :=
  if 0 ≤ w && w ≤ 64 then .ok (smallBits w.toNat) else .error .assertion

/-- The type of bit vectors of a width above 64. -/
def ofBigWidth (w : Int) : Result Ty :=
  if w > 64 then .ok (bigBits w.toNat) else .error .assertion

def mkStruct (name : String) (names : List String) (types : List Ty) (tuple : Bool) :
    Result Ty :=
  if names.length == types.length then .ok (struct name names types tuple)
  else .error .assertion

def mkUnion (name : String) (names : List String) (types : List Ty) : Result Ty :=
  if names.length == types.length then .ok (union name names types) else .error .assertion

def isUnion : Ty → Bool
  | union .. => true
  | _ => false

def isEnum : Ty → Bool
  | enum .. => true
  | _ => false

def isStruct : Ty → Bool
  | struct .. => true
  | _ => false

/-- A structure whose fields are never written after construction. -/
def isTupleStruct : Ty → Bool
  | struct _ _ _ b => b
  | _ => false

def isVec : Ty → Bool
  | vec _ => true
  | _ => false

def isSmallBits : Ty → Bool
  | smallBits _ => true
  | _ => false

/-- The width of a bit vector type of known width. -/
def width? : Ty → Option Nat
  | smallBits w => some w
  | bigBits w => some w
  | _ => none

def lookupLast (name : String) : List String → List Ty → Option Ty
  | n :: ns, t :: ts =>
    match lookupLast name ns ts with
    | some r => some r
    | none => if n == name then some t else none
  | _, _ => none

def field? (name : String) : Ty → Option Ty
  | struct _ ns ts _ => lookupLast name ns ts
  | _ => none

/-- The payload type of a union's variant. -/
def variant? (name : String) : Ty → Option Ty
  | union _ ns ts => lookupLast name ns ts
  | _ => none

def hasVariant (name : String) : Ty → Bool
  | union _ ns _ => ns.contains name
  | _ => false

end Ty

end Jib
