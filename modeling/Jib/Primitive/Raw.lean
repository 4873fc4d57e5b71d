import Jib.Integer.Slice

/-!
# Operations on raw words

A bit vector of a known width of at most 64 is handled as a bare word.  These are the operations on
such words; the width is an operand where the result depends on it.  Bounded arithmetic on machine
integers is here too.
-/

namespace Jib.Raw

/-- Two's complement reading of the lowest `n` bits. -/
def signed (w : UInt64) (n : Int) : Result Int := do
  if n == 64 then return Word.toInt w
  if n ≤ 0 then throw .assertion
  let m ← Word.shiftLeft 1 (n - 1)
  let low := w &&& ((← Word.shiftLeft 1 n) - 1)
  return Word.toInt ((low ^^^ m) - m)

/-- The value as a machine integer; at full width the top bit has to be clear. -/
def unsigned (w : UInt64) (n : Int) : Result Int :=
  if n == 64 && w &&& 0x8000000000000000 != 0 then .error (.badValue (some ""))
  else .ok (Word.toInt w)

/-- The upper bits of a word as a machine integer. -/
def unsignedAfterShift (w : UInt64) (n : Int) : Result Int :=
  if 0 < n && n < 64 then .ok (Word.toInt (Word.shr w n.toNat)) else .error .assertion

def addInt (a : UInt64) (width b : Int) : Result UInt64 := Word.mask width (a + Word.ofInt b)

def add (a b : UInt64) (width : Int) : Result UInt64 := Word.mask width (a + b)

def subInt (a : UInt64) (width b : Int) : Result UInt64 := Word.mask width (a - Word.ofInt b)

def sub (a b : UInt64) (width : Int) : Result UInt64 := Word.mask width (a - b)

def not (a : UInt64) (width : Int) : Result UInt64 := Word.mask width (~~~a)

def signExtend (a : UInt64) (width target : Int) : Result UInt64 := do
  let m ← Word.shiftLeft 1 (width - 1)
  Word.mask target ((a ^^^ m) - m)

def shiftLeft (a : UInt64) (width i : Int) : Result UInt64 := do
  Word.mask width (← Word.shiftLeft a i)

def shiftRight (a : UInt64) (width i : Int) : Result UInt64 := do
  Word.mask width (← Word.shiftRight a i)

def arithShiftRight (a : UInt64) (width i : Int) : Result UInt64 := do
  let n ← signed a width
  Word.mask width (Word.ofInt (← Integer.scaleDown n i))

def append (a : UInt64) (width : Int) (b : UInt64) : Result UInt64 := do
  return (← Word.shiftLeft a width) ||| b

/-- Right shift by a non-negative amount; all bits are gone from 64 on. -/
def safeShiftRight (a : UInt64) (i : Int) : Result UInt64 :=
  if i < 0 then .error .assertion else .ok (Word.shr a i.toNat)

/-- Left shift by a non-negative amount; all bits are gone from 64 on. -/
def safeShiftLeft (a : UInt64) (i : Int) : Result UInt64 :=
  if i < 0 then .error .assertion else .ok (Word.shl a i.toNat)

def readBit (a : UInt64) (i : Int) : Result UInt64 := do
  if i == 0 then return a &&& 1
  return 1 &&& (← safeShiftRight a i)

def updateBit (a : UInt64) (i : Int) (bit : Bool) : Result UInt64 :=
  if 0 ≤ i && i < 64 then
    let m := Word.shl 1 i.toNat
    .ok (if bit then a ||| m else a &&& ~~~m)
  else .error .assertion

def updateSubrange (a : UInt64) (n m : Int) (s : UInt64) : Result UInt64 := do
  let ones ← Word.mask (n - m + 1) (0 - 1)
  return (a &&& ~~~(← Word.shiftLeft ones m)) ||| (← Word.shiftLeft s m)

def subrange (a : UInt64) (n m : Int) : Result UInt64 := do
  Word.mask (n - m + 1) (← safeShiftRight a m)

def slice (a : UInt64) (start len : Int) : Result UInt64 := subrange a (start + len - 1) start

/-- A slice of a machine integer. -/
def sliceInt (len i start : Int) : Result UInt64 := do
  Word.mask len (Word.ofInt (← Integer.scaleDown i start))

/-- The result of an operation that is known to stay in the machine range. -/
def mustFit (n : Int) : Result Int :=
  if Integer.fitsWord n then .ok n else .error (.assertion "must not happen")

/-- Division toward zero by a number other than zero and minus one. -/
def tdiv (a b : Int) : Result Int :=
  if b == 0 then .error (.divisionByZero (some ""))
  else if b == -1 then .error .assertion
  else .ok (a.tdiv b)

/-- Division toward minus infinity by a number of at least two. -/
def edivPositive (a b : Int) : Result Int :=
  if b ≥ 2 then .ok (a.fdiv b) else .error .assertion

end Jib.Raw
