import Jib.Bits.Basic
import Jib.Word

/-!
# Digit lists

Arithmetic on lists of 64-bit digits, lowest digit first, one digit at a time with an explicit
carry.  A list denotes the number `wordsToNat`; the functions here do not drop leading zeros, and
the ones that need the longer list to denote the larger number check that nothing is left over.
-/

namespace Jib.Digits

/-- Adds two lists and a carry; the result has one digit more than the longer list. -/
def addCarry : List UInt64 → List UInt64 → UInt64 → List UInt64
  | [], [], c => [c]
  | x :: xs, [], c =>
    let r := x + c
    r :: addCarry xs [] (Word.carry (r < c))
  | [], y :: ys, c =>
    let r := y + c
    r :: addCarry [] ys (Word.carry (r < c))
  | x :: xs, y :: ys, c =>
    let r := x + c
    let s := r + y
    s :: addCarry xs ys (Word.carry (r < c) + Word.carry (s < y))

def add (xs ys : List UInt64) : Result (List UInt64) :=
  if xs.isEmpty || ys.isEmpty then .error .assertion else .ok (addCarry xs ys 0)

def addDigit (xs : List UInt64) (d : UInt64) : Result (List UInt64) :=
  match xs with
  | [] => .error .assertion
  | x :: rest =>
    let r := x + d
    .ok (r :: addCarry rest [] (Word.carry (r < d)))

/-- Subtracts the second list and a borrow from the first, which is at least as long; gives the
digits and the borrow that is left. -/
def subBorrow : List UInt64 → List UInt64 → UInt64 → List UInt64 × UInt64
  | [], _, c => ([], c)
  | x :: xs, [], c =>
    let (r, c') := subBorrow xs [] (Word.carry (x < c))
    ((x - c) :: r, c')
  | x :: xs, y :: ys, c =>
    let v := y + c
    let (r, c') := subBorrow xs ys (Word.carry (v < c) + Word.carry (x < v))
    ((x - v) :: r, c')

/-- Compares two lists by their highest digits first; the shorter list counts as smaller. -/
def compare : List UInt64 → List UInt64 → Ordering
  | [], [] => .eq
  | [], _ :: _ => .lt
  | _ :: _, [] => .gt
  | x :: xs, y :: ys =>
    match compare xs ys with
    | .eq => if x < y then .lt else if y < x then .gt else .eq
    | o => o

/-- Digits that are left when nothing may be borrowed from above. -/
def withoutBorrow (r : List UInt64 × UInt64) : Result (List UInt64) :=
  if r.2 == 0 then .ok r.1 else .error .assertion

/-- The difference as digits and a sign. -/
def sub (xs ys : List UInt64) : Result (List UInt64 × Int) :=
  match compare xs ys with
  | .eq => .ok ([], 0)
  | .gt => do return (← withoutBorrow (subBorrow xs ys 0), 1)
  | .lt => do return (← withoutBorrow (subBorrow ys xs 0), -1)

def subDigit (xs : List UInt64) (d : UInt64) : Result (List UInt64 × Int) :=
  match xs with
  | [] => .error .assertion
  | [x] =>
    if x == d then .ok ([], 0)
    else if x < d then .ok ([d - x], -1)
    else .ok ([x - d], 1)
  | x :: rest => do
    return ((x - d) :: (← withoutBorrow (subBorrow rest [] (Word.carry (x < d)))), 1)

def mulDigit : List UInt64 → UInt64 → UInt64 → List UInt64
  | [], _, c => [c]
  | x :: xs, d, c =>
    let r := x * d + c
    r :: mulDigit xs d (Word.carry (r < c) + Word.mulHigh x d)

/-- Shifts left by less than a digit; the bits that leave at the top make a digit of their own. -/
def shiftLeftBits (k : Nat) : List UInt64 → UInt64 → List UInt64
  | [], c => [c]
  | x :: xs, c => (c ||| Word.shl x k) :: shiftLeftBits k xs (Word.shr x (64 - k))

def shiftLeft (xs : List UInt64) (i : Nat) : List UInt64 :=
  List.replicate (i / 64) 0 ++ (if i % 64 == 0 then xs else shiftLeftBits (i % 64) xs 0)

def shiftRightBits (k : Nat) : List UInt64 → List UInt64
  | [] => []
  | [x] => [Word.shr x k]
  | x :: y :: xs => (Word.shl y (64 - k) ||| Word.shr x k) :: shiftRightBits k (y :: xs)

/-- Shifts right; the digits that are shifted out are dropped. -/
def shiftRight (xs : List UInt64) (i : Nat) : List UInt64 :=
  let ys := xs.drop (i / 64)
  if i % 64 == 0 then ys else shiftRightBits (i % 64) ys

/-- Drops leading zeros. -/
def strip : List UInt64 → List UInt64
  | [] => []
  | x :: xs =>
    match strip xs with
    | [] => if x == 0 then [] else [x]
    | ys => x :: ys

/-- Combines the digits of the second list into the first, which has to be long enough. -/
def combine (f : UInt64 → UInt64 → UInt64) : List UInt64 → List UInt64 → Result (List UInt64)
  | xs, [] => .ok xs
  | [], _ :: _ => .error .outOfRange
  | x :: xs, y :: ys => do return f x y :: (← combine f xs ys)

/-- A place in a list; a negative index counts from the end. -/
def position (xs : List UInt64) (i : Int) : Result Nat :=
  let j := if i < 0 then i + xs.length else i
  if 0 ≤ j && j < xs.length then .ok j.toNat else .error .outOfRange

def get (xs : List UInt64) (i : Int) : Result UInt64 := do
  return xs.getD (← position xs i) 0

def set (xs : List UInt64) (i : Int) (d : UInt64) : Result (List UInt64) := do
  return xs.set (← position xs i) d

end Jib.Digits
