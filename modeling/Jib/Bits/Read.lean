import Jib.Bits.Make
import Jib.Integer.Arithmetic
import Jib.Text.Quoted

/-!
# Reading bit vectors

The value of a vector as a number, as an integer with or without sign and as text, and its single
bits.  A position in a word list that is negative counts from the end of the list.
-/

namespace Jib.Bits

/-- The value as a machine integer; it has to be one. -/
def toWord : Bits → Result Int
  | small w v =>
    if w == 64 && v &&& 0x8000000000000000 != 0 then .error (.badValue (some ""))
    else .ok (Word.toInt v)
  | sparse _ v =>
    if v &&& 0x8000000000000000 != 0 then .error (.badValue (some "")) else .ok (Word.toInt v)
  | wide _ [] => .error .outOfRange
  | wide _ (w :: ws) =>
    if ws.any (· != 0) || w &&& 0x8000000000000000 != 0 then .error (.badValue (some ""))
    else .ok (Word.toInt w)

/-- The value as a word, with a check of the width unless that is zero. -/
def toUnsigned (b : Bits) (expected : Int) : Result UInt64 :=
  if expected != 0 && expected != b.width then .error .assertion
  else
    match b with
    | small _ v => .ok v
    | sparse _ v => .ok v
    | wide _ [] => .error .outOfRange
    | wide _ (w :: ws) => if ws.any (· != 0) then .error (.badValue (some "")) else .ok w

/-- The value without sign as an integer. -/
def unsigned : Bits → Result Integer
  | small _ v => .ok (Integer.ofUnsigned v)
  | sparse _ v => .ok (Integer.ofUnsigned v)
  | wide _ ws => Integer.ofDigits 1 ws

def modifyLast (f : UInt64 → UInt64) : List UInt64 → List UInt64
  | [] => []
  | [w] => [f w]
  | w :: ws => w :: modifyLast f ws

/-- The value in two's complement as an integer. -/
def signed : Bits → Result Integer
  | small w v =>
    if w == 64 then Integer.ofWord (Word.toInt v)
    else if w == 0 then .error .assertion
    else
      let m := Word.shl 1 (w - 1)
      Integer.ofWord (Word.toInt ((v ^^^ m) - m))
  | sparse _ v => .ok (Integer.ofUnsigned v)
  | wide w ws => do
    if w == 0 then throw .assertion
    let m := Word.shl 1 ((w - 1) % 64)
    let flipped := modifyLast (· ^^^ m) ws
    let bias := modifyLast (fun _ => m) (List.replicate ws.length 0)
    let (ds, s) ← Digits.sub flipped bias
    Integer.ofDigits s ds

def readBit (b : Bits) (pos : Int) : Result Bool :=
  match b with
  | small w v => do
    if pos ≥ w then throw .assertion
    return v &&& (← Word.shiftLeft 1 pos) != 0
  | sparse w v => do
    if pos ≥ w then throw .assertion
    if pos ≥ 64 then return false
    return v &&& (← Word.shiftLeft 1 pos) != 0
  | wide _ ws => do
    return Word.shr (← Digits.get ws (pos / 64)) (pos % 64).toNat &&& 1 != 0

/-- Equality of vectors of one width; the word form compares only with itself. -/
def eq (a b : Bits) : Result Bool :=
  if a.width != b.width then .error .assertion
  else
    match a, b with
    | small _ v, small _ w => .ok (v == w)
    | sparse _ v, sparse _ w => .ok (v == w)
    | wide _ vs, wide _ ws => .ok (vs == ws)
    | sparse _ v, wide _ ws => .ok (words (sparse a.width v) == ws)
    | wide _ (v :: vs), sparse _ w => .ok (vs.all (· == 0) && w == v)
    | wide _ [], sparse .. => .error .outOfRange
    | _, _ => .error .assertion

def upperHex (n : Nat) : String :=
  String.ofList ((Nat.toDigits 16 n).map Char.toUpper)

def padded (places : Nat) (s : String) : String :=
  String.ofList (List.replicate (places - s.length) '0') ++ s

/-- The digits of a vector: base sixteen where the width allows it, base two otherwise. -/
def text (b : Bits) : String :=
  if b.width % 4 == 0 then "0x" ++ padded (b.width / 4) (upperHex b.toNat)
  else "0b" ++ padded b.width (Text.binDigits b.toNat)

/-- The text that names the form, the width and the value. -/
def describe : Bits → String
  | small w v => s!"<SmallBitVector {w} 0x" ++ Text.hexDigits v.toNat ++ ">"
  | sparse w v => s!"<SparseBitVector {w} " ++ toString v.toNat ++ ">"
  | wide w ws => s!"<GenericBitVector {w} 0x" ++ Text.hexDigits (joinWords ws) ++ ">"

end Jib.Bits
