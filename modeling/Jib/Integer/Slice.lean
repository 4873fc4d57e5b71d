import Jib.Bits.Make
import Jib.Integer.Arithmetic

/-!
# Shifts and slices of integers

An integer shifts, gives slices and takes slices as if it were written in two's complement with
infinitely many sign bits.
-/

namespace Jib.Integer

open scoped Jib.Power

/-- A number times a power of two. -/
def scaleUp (n : Int) (i : Int) : Result Int :=
  if i < 0 then .error .badValue else if n == 0 then .ok 0 else .ok (n * 2 ^ i.toNat)

/-- A number divided by a power of two, rounded down. -/
def scaleDown (n : Int) (i : Int) : Result Int :=
  if i < 0 then .error .badValue
  else if i > n.natAbs.log2 + 1 then .ok (if n < 0 then -1 else 0)
  else .ok (n.fdiv (2 ^ i.toNat))

/-- A machine integer times a power of two. -/
def shiftWordLeft (n : Int) (i : Int) : Result Integer := do
  if n == 0 then return zero
  if i < 64 then
    match ofWord? (← scaleUp n i) with
    | some z => return z
    | none => pure ()
  let (ds, s) := digitsAndSign n
  shiftDigits s ds i.toNat

def shiftLeft (z : Integer) (i : Int) : Result Integer :=
  if i < 0 then .error .assertion
  else
    match z with
    | small n => shiftWordLeft n.toInt i
    | big s ds => if i == 0 || s == 0 then .ok z else shiftDigits s ds i.toNat

def shiftRight (z : Integer) (i : Int) : Result Integer :=
  if i < 0 then .error .assertion
  else
    match z with
    | small n => do ofWord (← scaleDown n.toInt i)
    | big s ds =>
      if i == 0 || s == 0 then .ok z
      else if s < 0 then do return ofInt (← scaleDown z.spelled i)
      else shiftDown ds i.toNat

/-- Bits of a non-negative integer in digit form. -/
def sliceDigits (ds : List UInt64) (start : Int) : Result UInt64 := do
  let i := start / 64
  let k := (start % 64).toNat
  if i ≥ ds.length then return 0
  let r := Word.shr (← Digits.get ds i) k
  if k != 0 && i + 1 < ds.length then
    return r ||| Word.shl (← Digits.get ds (i + 1)) (64 - k)
  return r

/-- Bits of an integer that is not negative. -/
def slicePositive (z : Integer) (len start : Int) : Result UInt64 :=
  match z with
  | small n =>
    if start ≥ 64 then
      if n.toInt ≥ 0 then .ok 0 else Word.mask len (0 - 1)
    else do Word.mask len (Word.ofInt (← scaleDown n.toInt start))
  | big s ds => if s == 0 then .ok 0 else do Word.mask len (← sliceDigits ds start)

def sliceWord (z : Integer) (len start : Int) : Result UInt64 :=
  match z with
  | big (-1) ds => do
    let inverse ← neg (← addWord (big (-1) ds) 1)
    Word.mask len (~~~(← slicePositive inverse len start))
  | z => slicePositive z len start

/-- The bits from a position on as a vector of a length. -/
def slice (z : Integer) (len start : Int) : Result Bits :=
  match z with
  | small n =>
    if len ≤ 64 then do Bits.ofWord len (← sliceWord z len start)
    else if start ≥ 64 then
      if n.toInt ≥ 0 then Bits.mkSparse len 0 else Bits.ofInt len (-1)
    else do
      let m ← scaleDown n.toInt start
      if m > 0 then Bits.mkSparse len (Word.ofInt m) else Bits.ofInt len m
  | big .. =>
    if len ≤ 64 then do Bits.mkSmall len (← sliceWord z len start)
    else if start == 0 then Bits.ofInt len z.spelled
    else do Bits.ofInt len (← shiftRight z start).spelled

/-- Bitwise operations on integers in two's complement, by their words. -/
def bitwise (f : UInt64 → UInt64 → UInt64) (m n : Int) : Int :=
  let width := 64 * (max m.natAbs.log2 n.natAbs.log2 / 64 + 2)
  let r : Int := wordsToNat (List.zipWith f (toWords width m) (toWords width n))
  if r ≥ 2 ^ (width - 1) then r - 2 ^ width else r

def land (m n : Int) : Int := bitwise (· &&& ·) m n

def lor (m n : Int) : Int := bitwise (· ||| ·) m n

/-- Replaces bits of a number by a vector. -/
def setSliceWide (n : Int) (len start : Int) (b : Bits) : Result Integer := do
  if len != b.width then throw .assertion
  let hole ← scaleUp (2 ^ b.width - 1) start
  let value ← scaleUp b.toNat start
  return ofInt (lor (land n (-hole - 1)) value)

/-- The value of a vector as a machine integer, if it is one. -/
def bitsToWord (b : Bits) : Result Int :=
  if b.toNat < 2 ^ (63 : Nat) then .ok b.toNat else .error (.badValue (some ""))

/-- Replaces the bits from a position on by a vector of the given length. -/
def setSlice (z : Integer) (len start : Int) (b : Bits) : Result Integer :=
  match z with
  | small n =>
    if len > 64 || start + len ≥ 64 then setSliceWide n.toInt len start b
    else do
      if len != b.width then throw .assertion
      let hole ← scaleUp (2 ^ b.width - 1) start
      let value ← scaleUp (← bitsToWord b) start
      let room ← scaleUp 1 (start + b.width)
      ofWord (lor (land n.toInt (-hole - 1)) (land value (room - 1)))
  | big .. => setSliceWide z.spelled len start b

end Jib.Integer
