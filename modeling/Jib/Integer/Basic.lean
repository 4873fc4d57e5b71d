import Jib.Digits

/-!
# Integers: the two forms

An unbounded integer is either one machine word or a sign with a list of 64-bit digits, lowest
first.  A value that fits a word may be held in either form, and answers tell the forms apart.  An
integer in digit form is normal if its sign is one or minus one and its highest digit is not zero;
every operation makes zero the word zero.
-/

namespace Jib

open scoped Jib.Power

inductive Integer where
  | small (n : Int64)
  | big (sign : Int) (digits : List UInt64)
  deriving Repr, BEq, DecidableEq

namespace Integer

instance : Inhabited Integer := ⟨small 0⟩

def toInt : Integer → Int
  | small n => n.toInt
  | big s ds => s * (wordsToNat ds : Int)

/-- The integer as the digit form spells it: only a negative sign counts. -/
def spelled : Integer → Int
  | small n => n.toInt
  | big s ds => if s < 0 then -(joinWords ds : Int) else joinWords ds

def zero : Integer := small 0

def minWord : Int := -(2 ^ (63 : Nat))

def maxWord : Int := 2 ^ (63 : Nat) - 1

def fitsWord (n : Int) : Bool := decide (minWord ≤ n) && decide (n ≤ maxWord)

/-- An integer in word form; the number has to fit. -/
def ofWord (n : Int) : Result Integer :=
  if fitsWord n then .ok (small (Int64.ofInt n)) else .error .assertion

/-- The word form if the number fits. -/
def ofWord? (n : Int) : Option Integer :=
  if fitsWord n then some (small (Int64.ofInt n)) else none

/-- An integer from a sign and digits; leading zeros are dropped, and zero gets the word form. -/
def ofDigits (sign : Int) (digits : List UInt64) : Result Integer :=
  if sign == 0 || sign == 1 || sign == -1 then
    match Digits.strip digits with
    | [] => .ok zero
    | ds => .ok (big sign ds)
  else .error .assertion

/-! ### Numbers and digits

A number is taken apart through digits of 63 bits, which is how it is stored; words of 64 bits are
put together from two neighbouring digits. -/

/-- The digit of 63 bits with the given index. -/
def digit63 (n : Nat) (i : Nat) : UInt64 := ((n >>> (63 * i)) % 2 ^ (63 : Nat)).toUInt64

/-- How many digits of 63 bits a number has; zero has one. -/
def digitCount63 (n : Nat) : Nat := if n == 0 then 1 else n.log2 / 63 + 1

/-- The 64 bits of a number from an offset on. -/
def extractNat (n : Nat) (offset : Nat) : UInt64 :=
  let i := offset / 63
  let k := offset - i * 63
  if i ≥ digitCount63 n then 0
  else
    let r := Word.shr (digit63 n i) k
    if i + 1 ≥ digitCount63 n then r else r ||| Word.shl (digit63 n (i + 1)) (63 - k)

/-- The 64 bits from an offset on of a number in two's complement. -/
def extractWord (n : Int) (offset : Nat) : UInt64 :=
  if n < 0 then ~~~extractNat (-n - 1).toNat offset else extractNat n.toNat offset

def wordsFrom (n : Int) (offset : Nat) : Nat → List UInt64
  | 0 => []
  | k + 1 => extractWord n offset :: wordsFrom n (offset + 64) k

/-- Masks the last word of a list to a width below 64. -/
def maskLast (width : Nat) : List UInt64 → List UInt64
  | [] => []
  | [w] => [Word.low width w]
  | w :: ws => w :: maskLast width ws

def toWords (width : Nat) (n : Int) : List UInt64 :=
  let ws := wordsFrom n 0 ((width + 63) / 64)
  if width % 64 == 0 then ws else maskLast (width % 64) ws

/-- The words of a number modulo two to the width, which has to be non-negative. -/
def toWordsChecked (width : Int) (n : Int) : Result (List UInt64) :=
  if width < 0 then .error .outOfRange else .ok (toWords width.toNat n)

/-- The digits of a natural number, without leading zeros. -/
def natDigits (n : Nat) : List UInt64 :=
  if h : n = 0 then [] else extractNat n 0 :: natDigits (n / 2 ^ (64 : Nat))
termination_by n
decreasing_by exact Nat.div_lt_self (Nat.pos_of_ne_zero h) (by decide)

/-- The sign and the digits of a number; the sign is zero if there are no digits. -/
def signAndDigits (n : Int) : Int × List UInt64 :=
  let digits := natDigits n.natAbs
  (if digits.isEmpty then 0 else if n < 0 then -1 else 1, digits)

/-- An integer in digit form, whatever its size; zero gets the word form. -/
def ofInt (n : Int) : Integer :=
  if n == 0 then zero else big (signAndDigits n).1 (signAndDigits n).2

/-- An integer in word form if it fits and in digit form otherwise. -/
def ofIntShort (n : Int) : Integer := (ofWord? n).getD (ofInt n)

/-- The integer that a word denotes without sign. -/
def ofUnsigned (w : UInt64) : Integer :=
  if w &&& 0x8000000000000000 != 0 then big 1 [w] else small w.toInt64

/-- The digit and the sign of a machine integer. -/
def digitAndSign (n : Int) : UInt64 × Int :=
  if n == 0 then (0, 0) else if n > 0 then (Word.ofInt n, 1) else (Word.ofInt (-n), -1)

/-- The digits and the sign of a machine integer; zero has no digits. -/
def digitsAndSign (n : Int) : List UInt64 × Int :=
  if n == 0 then ([], 0) else ([(digitAndSign n).1], (digitAndSign n).2)

/-- The machine integer with this value, if there is one. -/
def toWord : Integer → Result Int
  | small n => .ok n.toInt
  | big s ds =>
    if s == 0 then .ok 0
    else
      match ds with
      | [] => .error .outOfRange
      | [d] =>
        if s == -1 then
          if d == 0x8000000000000000 then .ok minWord
          else if d &&& 0x8000000000000000 != 0 then .error (.badValue (some ""))
          else .ok (Word.toInt (-d))
        else if d &&& 0x8000000000000000 != 0 then .error (.badValue (some ""))
        else .ok (Word.toInt d)
      | _ => .error (.badValue (some ""))

/-- The value modulo two to the 64. -/
def toUnsigned (z : Integer) : UInt64 := Word.ofInt z.spelled

end Integer

end Jib
