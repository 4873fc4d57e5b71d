import Jib.Power
import Jib.Text.Numeral

/-!
# Rational numbers

Fractions of unbounded integers.  The operations keep a fraction in lowest terms with a positive
denominator if their operands are; only `make` reduces.  The square root is a Newton iteration that
stops when two steps differ by at most the argument divided by ten to the thirty.
-/

namespace Jib

open scoped Jib.Power

structure Rational where
  num : Int
  den : Int
  deriving Repr, BEq, DecidableEq, Inhabited

namespace Rational

/-- The greatest common divisor, at least one. -/
def gcd (m n : Int) : Int := if Int.gcd m n == 0 then 1 else Int.gcd m n

/-- Divides numerator and denominator by what they share; signs stay as they are. -/
def make (num den : Int) : Rational := ⟨num.fdiv (gcd num den), den.fdiv (gcd num den)⟩

def ofInt (n : Int) : Rational := ⟨n, 1⟩

def minWord : Int := -(2 ^ (63 : Nat))

def maxWord : Int := 2 ^ (63 : Nat) - 1

def isWord (n : Int) : Bool := minWord ≤ n && n ≤ maxWord

/-- The fraction of two machine integers. -/
def ofWords (num den : Int) : Result Rational :=
  if den == 0 then .error (.assertion "denominator cannot be 0")
  else if num == minWord || den == minWord then
    .ok (make (num.natAbs * (num.sign * den.sign)) den.natAbs)
  else if !isWord num || !isWord den then .error (.assertion "input is out of range of INT")
  else if num == 0 then .error (.divisionByZero none)
  else
    let sign := (num.fdiv num.natAbs * den).fdiv den.natAbs
    .ok (make (num.natAbs * sign) den.natAbs)

/-- Reads a decimal numeral: digits with an optional sign and at most one point. -/
def ofText (s : String) : Result Rational :=
  let cs := Text.strip s.toList
  let whole := cs.takeWhile (· != '.')
  let digits := if whole.length == cs.length then cs else whole ++ cs.drop (whole.length + 1)
  let places := if whole.length == cs.length then 0 else cs.length - 1 - whole.length
  match Text.readInt? (String.ofList digits) with
  | some n => .ok (make n (10 ^ places))
  | none => .error .badNumeral

/-- Sum or difference by the given operation on numerators. -/
def combine (f : Int → Int → Int) (a b : Rational) : Rational :=
  let g := gcd a.den b.den
  if g == 1 then ⟨f (a.num * b.den) (b.num * a.den), a.den * b.den⟩
  else
    let s := a.den.fdiv g
    let t := f (a.num * b.den.fdiv g) (b.num * s)
    let h := gcd t g
    if h == 1 then ⟨t, s * b.den⟩ else ⟨t.fdiv h, s * b.den.fdiv h⟩

def add (a b : Rational) : Rational := combine (· + ·) a b

def sub (a b : Rational) : Rational := combine (· - ·) a b

/-- Divides two numbers by what they share. -/
def reduce (m n : Int) : Int × Int :=
  let g := gcd m n
  if g > 1 then (m.fdiv g, n.fdiv g) else (m, n)

def mul (a b : Rational) : Rational :=
  let (n1, d2) := reduce a.num b.den
  let (n2, d1) := reduce b.num a.den
  ⟨n1 * n2, d1 * d2⟩

def div (a b : Rational) : Result Rational :=
  if b.num == 0 then .error (.divisionByZero (some (toString b.den ++ "/0")))
  else
    let (n1, n2) := reduce a.num b.num
    let (d1, d2) := reduce a.den b.den
    let n := n1 * d2
    let d := n2 * d1
    .ok (if d < 0 then ⟨-n, -d⟩ else ⟨n, d⟩)

def neg (a : Rational) : Rational := ⟨-a.num, a.den⟩

def abs (a : Rational) : Rational := ⟨a.num.natAbs, a.den⟩

/-- The power with a machine integer as exponent. -/
def pow (a : Rational) (n : Int) : Result Rational :=
  if n == 0 then .ok (make 1 1)
  else if !isWord n then .error (.assertion "exponent is out of range of INT")
  else if n > 0 then .ok ⟨a.num ^ n.toNat, a.den ^ n.toNat⟩
  else if a.num == 0 then .error (.divisionByZero (some "0 doesn't have negative power"))
  else
    let k := (-n).toNat
    let num := a.den ^ k
    let den := a.num ^ k
    .ok (if den < 0 then ⟨-num, -den⟩ else ⟨num, den⟩)

/-- Floor division with the check that it needs. -/
def floorDiv (m n : Int) : Result Int :=
  if n == 0 then .error (.divisionByZero none) else .ok (m.fdiv n)

def floor (a : Rational) : Result Int :=
  if a.den == 1 then .ok a.num else floorDiv a.num a.den

def ceil (a : Rational) : Result Int :=
  if a.den == 1 then .ok a.num else do return (← floorDiv a.num a.den) + 1

def eq (a b : Rational) : Bool := a.num == b.num && a.den == b.den

def lt (a b : Rational) : Bool := a.num * b.den < a.den * b.num

def gt (a b : Rational) : Bool := lt b a

def le (a b : Rational) : Bool := !gt a b

def ge (a b : Rational) : Bool := !lt a b

/-- A number as a machine integer. -/
def word (n : Int) : Result Int := if isWord n then .ok n else .error (.overflow (some ""))

/-- The value of a fraction that is a whole number, as a machine integer. -/
def toWord (a : Rational) : Result Int :=
  if a.den.natAbs == 1 then word (a.num * a.den) else .error .assertion

/-! ### Square root -/

def sqrtLoop (n x : Nat) : Nat :=
  if (x + n / x) / 2 < x then sqrtLoop n ((x + n / x) / 2) else x

/-- The integer square root: the largest number whose square is at most `n`. -/
def isqrt (n : Nat) : Nat := if n == 0 then 0 else sqrtLoop n (2 ^ (n.log2 / 2 + 1))

/-- The integer square root of a number, which may not be negative. -/
def isqrtInt (n : Int) : Result Int :=
  if n < 0 then .error (.badValue (some "")) else .ok (isqrt n.toNat)

/-- One Newton step: the mean of the guess and the quotient by it. -/
def newtonStep (x guess : Rational) : Result Rational := do
  ((guess.add (← x.div guess)).div (make 2 1))

def newton (x bound : Rational) : Nat → Rational → Result Rational
  | 0, _ => .error .internal
  | fuel + 1, guess => do
    let next ← newtonStep x guess
    if le (abs (sub next guess)) bound then return next else newton x bound fuel next

/-- Enough steps: each is at most half as long as the one before. -/
def newtonFuel (x : Rational) : Nat := x.num.natAbs.log2 + x.den.natAbs.log2 + 200

/-- The square root to thirty decimals relative to the argument. -/
def sqrt (x : Rational) : Result Rational := do
  if x.num < 0 then throw (.assertion "sqrt(x), x cannot be negative")
  if x.num == 0 then return make 0 1
  let guess := make (← isqrtInt x.num) (← isqrtInt x.den)
  if eq (mul guess guess) x then return guess
  newton x (mul ⟨1, 10 ^ (30 : Nat)⟩ x) (newtonFuel x) guess

end Rational

end Jib
