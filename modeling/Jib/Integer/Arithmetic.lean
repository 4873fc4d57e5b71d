import Jib.Integer.Basic

/-!
# Integer arithmetic

Addition, subtraction, multiplication, powers and division for every mix of the two forms.  Two
machine integers give a machine integer where the result fits; otherwise the digits are worked on.
-/

namespace Jib.Integer

open scoped Jib.Power

def neg : Integer → Result Integer
  | small n =>
    if n.toInt == minWord then .ok (big 1 [0x8000000000000000]) else ofWord (-n.toInt)
  | big s ds => ofDigits (-s) ds

def abs : Integer → Result Integer
  | small n => if n.toInt < 0 then neg (small n) else .ok (small n)
  | big s ds => .ok (if s == -1 then big 1 ds else big s ds)

def addWordTo (digits : List UInt64) (sign : Int) (n : Int) : Result Integer := do
  if n == 0 then throw .assertion
  let (d, s) := digitAndSign n
  if sign == s then ofDigits s (← Digits.addDigit digits d)
  else
    let (ds, t) ← Digits.subDigit digits d
    ofDigits (-t * s) ds

def subWordFrom (digits : List UInt64) (sign : Int) (n : Int) : Result Integer := do
  if sign == 0 || n == 0 then throw .assertion
  let (d, s) := digitAndSign n
  if sign == s then
    let (ds, t) ← Digits.subDigit digits d
    ofDigits (t * sign) ds
  else ofDigits sign (← Digits.addDigit digits d)

/-- The sum of two machine integers. -/
def addWords (m n : Int) : Result Integer :=
  match ofWord? (m + n) with
  | some z => .ok z
  | none =>
    let (ds, s) := digitsAndSign m
    if s == 0 || n == 0 then .error .assertion else addWordTo ds s n

/-- The difference of two machine integers. -/
def subWords (m n : Int) : Result Integer :=
  match ofWord? (m - n) with
  | some z => .ok z
  | none => do
    if m == 0 then neg (← ofWord n)
    else
      let (ds, s) := digitsAndSign m
      if s == 0 || n == 0 then throw .assertion
      subWordFrom ds s n

/-- The product of two machine integers. -/
def mulWords (m n : Int) : Result Integer :=
  match ofWord? (m * n) with
  | some z => .ok z
  | none =>
    let (d, s) := digitAndSign m
    let (e, t) := digitAndSign n
    ofDigits (s * t) [d * e, Word.mulHigh d e]

def addWord (z : Integer) (n : Int) : Result Integer :=
  match z with
  | small m => addWords m.toInt n
  | big s ds =>
    if n == 0 then .ok z else if s == 0 then ofWord n else addWordTo ds s n

/-- Subtracts a machine integer. -/
def subWord (z : Integer) (n : Int) : Result Integer :=
  match z with
  | small m => subWords m.toInt n
  | big s ds =>
    if n == 0 then .ok z
    else if s == 0 then do neg (← ofWord n)
    else subWordFrom ds s n

def add (y z : Integer) : Result Integer :=
  match y, z with
  | small m, z => addWord z m.toInt
  | big 0 _, z => .ok z
  | y, small n => addWord y n.toInt
  | y, big 0 _ => .ok y
  | big s xs, big t ys => do
    if s == t then ofDigits t (← Digits.add xs ys)
    else
      let (ds, u) ← Digits.sub ys xs
      ofDigits (u * t) ds

def sub (y z : Integer) : Result Integer :=
  match y, z with
  | small m, small n => subWords m.toInt n.toInt
  | small m, z => do
    if m.toInt == 0 then neg z else neg (← subWord z m.toInt)
  | y, small n => subWord y n.toInt
  | y, big 0 _ => .ok y
  | big s xs, big t ys => do
    if s == 0 then ofDigits (-t) ys
    else if s == t then
      let (ds, u) ← Digits.sub xs ys
      ofDigits (u * s) ds
    else ofDigits s (← Digits.add xs ys)

/-- The exponent of a positive power of two. -/
def powerOfTwo? (n : Int) : Option Nat :=
  if n > 0 && n.toNat == 2 ^ n.toNat.log2 then some n.toNat.log2 else none

/-- Shifts digits with a sign to the left. -/
def shiftDigits (s : Int) (ds : List UInt64) (i : Nat) : Result Integer :=
  ofDigits s (Digits.shiftLeft ds i)

/-- Multiplies by a machine integer. -/
def mulWord (z : Integer) (n : Int) : Result Integer :=
  match z with
  | small m => mulWords m.toInt n
  | big s ds =>
    if n == 0 || s == 0 then .ok zero
    else if n == 1 then .ok z
    else
      match powerOfTwo? n with
      | some k => shiftDigits s ds k
      | none =>
        let (d, t) := digitAndSign n
        ofDigits (s * t) (Digits.mulDigit ds d 0)

def mul (y z : Integer) : Result Integer :=
  match y, z with
  | small m, z => mulWord z m.toInt
  | y, small n => mulWord y n.toInt
  | y, z => .ok (ofInt (y.spelled * z.spelled))

/-- The power with an exponent that has to be non-negative; two words give a word if it fits. -/
def pow (y z : Integer) : Result Integer :=
  let e := z.spelled
  if e < 0 then .error (.badValue (some ""))
  else
    let r := y.spelled ^ e.toNat
    match y, z with
    | small _, small _ => .ok (ofIntShort r)
    | _, _ => .ok (ofInt r)

/-! ### Division -/

def isZero : Integer → Bool
  | small n => n.toInt == 0
  | big s _ => s == 0

def byZero : Fault := .divisionByZero (some "")

/-- Shifts a non-negative integer in digit form to the right. -/
def shiftDown (ds : List UInt64) (i : Nat) : Result Integer :=
  ofDigits 1 (Digits.shiftRight ds i)

/-- Quotient and remainder by a machine integer other than the smallest one.  The sizes are divided;
then the quotient gets its sign from both operands and the remainder from the dividend. -/
def divideByWord (a n : Int) : Result (Int × Int) :=
  if n == minWord then .error .assertion
  else
    let q : Int := a.natAbs / n.natAbs
    let r : Int := a.natAbs % n.natAbs
    .ok (if a.sign != n.sign then -q else q, if a < 0 && r > 0 then -r else r)

/-- Whether the size of a machine integer is a digit; that of the smallest one is not. -/
def fitsDigit (k : Int) : Bool := k != minWord

/-- The quotient rounded toward zero; `direct` are the machine integers that digits are divided by
as they stand. -/
def tdivBy (direct : Int → Bool) (y z : Integer) : Result Integer :=
  match y, z with
  | small m, small n =>
    if n.toInt == 0 then .error byZero
    else if m.toInt == minWord && n.toInt == -1 then abs y
    else ofWord (m.toInt.tdiv n.toInt)
  | small m, z =>
    if z.spelled == 0 then .error (.divisionByZero none) else .ok (ofInt (m.toInt.tdiv z.spelled))
  | big s ds, small n =>
    let k := n.toInt
    if k == 0 then .error byZero
    else if direct k then
      match powerOfTwo? k with
      | some 0 => if s ≥ 0 then .ok y else do return ofInt (← divideByWord y.spelled k).1
      | some i =>
        if s == 0 then .ok y
        else if s > 0 then shiftDown ds i
        else do return ofInt (← divideByWord y.spelled k).1
      | none => do return ofInt (← divideByWord y.spelled k).1
    else if s == 0 then .ok zero
    else .ok (ofInt (y.spelled.tdiv k))
  | big s _, z =>
    if isZero z then .error byZero
    else if s == 0 then .ok zero
    else if z.spelled == 0 then .error (.divisionByZero none)
    else .ok (ofInt (y.spelled.tdiv z.spelled))

/-- The remainder with the sign of the dividend. -/
def tmodBy (direct : Int → Bool) (y z : Integer) : Result Integer :=
  match y, z with
  | small m, small n =>
    if n.toInt == 0 then .error byZero
    else if m.toInt == minWord && n.toInt == -1 then .ok zero
    else ofWord (m.toInt.tmod n.toInt)
  | small m, z =>
    if z.spelled == 0 then .error byZero else .ok (ofInt (m.toInt.tmod z.spelled))
  | y, small n =>
    if n.toInt == 0 then .error byZero
    else if direct n.toInt then do ofWord (← divideByWord y.spelled n.toInt).2
    else .ok (ofInt (y.spelled.tmod n.toInt))
  | y, z =>
    if z.spelled == 0 then .error byZero else .ok (ofInt (y.spelled.tmod z.spelled))

def tdiv : Integer → Integer → Result Integer := tdivBy fitsDigit

def tmod : Integer → Integer → Result Integer := tmodBy fitsDigit

/-- The quotient that leaves a non-negative remainder.  Rounding down does so for a positive
divisor; a negative one is divided by as if it were positive, and the quotient changes its sign. -/
def floorQuotient (a b : Int) : Int := if b > 0 then a.fdiv b else -(a.fdiv (-b))

/-- The non-negative remainder.  Rounding down leaves one with the sign of the divisor, so a
negative one is moved up by the size of the divisor. -/
def floorRemainder (a b : Int) : Int := if a.fmod b < 0 then a.fmod b - b else a.fmod b

/-- The quotient that leaves a non-negative remainder, on digits. -/
def edivWide (y z : Integer) : Result Integer :=
  if z.spelled == 0 then .error byZero else .ok (ofInt (floorQuotient y.spelled z.spelled))

/-- The non-negative remainder, on digits. -/
def emodWide (y z : Integer) : Result Integer :=
  if z.spelled == 0 then .error byZero else .ok (ofInt (floorRemainder y.spelled z.spelled))

/-- Whether an integer is equal to a machine integer. -/
def eqWord (z : Integer) (n : Int) : Bool :=
  match z with
  | small m => m.toInt == n
  | big s ds =>
    if s != n.sign then false
    else if s == 0 then true
    else ds == [if s < 0 then Word.ofInt (-n) else Word.ofInt n]

/-- The quotient that leaves a non-negative remainder. -/
def ediv (y z : Integer) : Result Integer :=
  match y with
  | small m =>
    if eqWord z 0 then .error byZero
    else if m.toInt == 0 then .ok zero
    else
      match z with
      | small n =>
        if n.toInt == minWord || m.toInt == minWord then edivWide y z
        else ofWord (floorQuotient m.toInt n.toInt)
      | z => edivWide y z
  | y => edivWide y z

/-- The non-negative remainder. -/
def emod (y z : Integer) : Result Integer :=
  match y with
  | small m =>
    if eqWord z 0 then .error byZero
    else if m.toInt == 0 then .ok zero
    else
      match z with
      | small n =>
        if n.toInt == minWord || m.toInt == minWord then emodWide y z
        else if floorRemainder m.toInt n.toInt < 0 then .error .assertion
        else ofWord (floorRemainder m.toInt n.toInt)
      | z => emodWide y z
  | y => emodWide y z

/-! ### Order -/

/-- Whether digits with a sign denote less than others. -/
def digitsLt (xs : List UInt64) (s : Int) (ys : List UInt64) (t : Int) : Bool :=
  if s != t then s < t
  else
    match Digits.compare xs ys with
    | .gt => t ≤ 0
    | .lt => t > 0
    | .eq => false

def lt (y z : Integer) : Result Bool :=
  match y, z with
  | small m, small n => .ok (m.toInt < n.toInt)
  | small m, big t ys =>
    let (xs, s) := digitsAndSign m.toInt
    .ok (digitsLt xs s ys t)
  | big s xs, small n =>
    let (d, t) := if n.toInt > 0 then (Word.ofInt n.toInt, 1) else (Word.ofInt (-n.toInt), -1)
    if s == t && xs.isEmpty then .error .assertion else .ok (digitsLt xs s [d] t)
  | big s xs, big t ys => .ok (digitsLt xs s ys t)

def le (y z : Integer) : Result Bool :=
  match y, z with
  | small m, small n => .ok (m.toInt ≤ n.toInt)
  | y, z => do return !(← lt z y)

def gt (y z : Integer) : Result Bool :=
  match y, z with
  | small m, small n => .ok (m.toInt > n.toInt)
  | y, z => lt z y

def ge (y z : Integer) : Result Bool :=
  match y, z with
  | small m, small n => .ok (m.toInt ≥ n.toInt)
  | y, z => do return !(← lt y z)

def eq (y z : Integer) : Bool :=
  match y, z with
  | small m, z => eqWord z m.toInt
  | y, small n => eqWord y n.toInt
  | big s xs, big t ys => s == t && xs == ys

end Jib.Integer
