import Jib.Ieee.Rounding

/-!
# Arithmetic and comparison of bit patterns

Each operation reads its operands, computes the exact result on integers and rounds it.  Quotients
and roots are computed with more bits than the format has, and what is left of them is kept as one
more set bit, which rounds like the exact value.
-/

namespace Jib.Ieee

open scoped Jib.Power

/-- What an operation answers when an operand is not a number. -/
def Format.propagate (f : Format) (operands : List Reading) : Nat × Flags :=
  (f.nan, { invalid := operands.any Reading.isSignaling })

/-- Adds two finite numbers; an exact zero is negative only when rounding down, or when both
operands are negative zeros. -/
def Format.addFinite (f : Format) (mode : Rounding) (n₁ : Bool) (m₁ : Nat) (e₁ : Int)
    (n₂ : Bool) (m₂ : Nat) (e₂ : Int) : Nat × Flags :=
  let e := min e₁ e₂
  let signed (n : Bool) (m : Nat) (x : Int) : Int :=
    let v : Int := m * 2 ^ (x - e).toNat
    if n then -v else v
  let sum := signed n₁ m₁ e₁ + signed n₂ m₂ e₂
  if sum == 0 then
    (f.zero (if n₁ == n₂ && m₁ == 0 && m₂ == 0 then n₁ else mode == .down), .none)
  else f.round mode (sum < 0) sum.natAbs e

def Format.addReadings (f : Format) (mode : Rounding) : Reading → Reading → Nat × Flags
  | .finite n₁ m₁ e₁, .finite n₂ m₂ e₂ => f.addFinite mode n₁ m₁ e₁ n₂ m₂ e₂
  | .infinite n₁, .infinite n₂ => if n₁ == n₂ then (f.infinity n₁, .none) else (f.nan, .bad)
  | .infinite n, .finite .. => (f.infinity n, .none)
  | .finite .., .infinite n => (f.infinity n, .none)
  | a, b => f.propagate [a, b]

def Format.add (f : Format) (mode : Rounding) (a b : Nat) : Nat × Flags :=
  f.addReadings mode (f.read a) (f.read b)

def Format.sub (f : Format) (mode : Rounding) (a b : Nat) : Nat × Flags :=
  f.addReadings mode (f.read a) (f.read b).negate

def Format.mul (f : Format) (mode : Rounding) (a b : Nat) : Nat × Flags :=
  match f.read a, f.read b with
  | .finite n₁ m₁ e₁, .finite n₂ m₂ e₂ => f.round mode (n₁ != n₂) (m₁ * m₂) (e₁ + e₂)
  | .infinite n₁, .infinite n₂ => (f.infinity (n₁ != n₂), .none)
  | .infinite n₁, .finite n₂ m _ | .finite n₂ m _, .infinite n₁ =>
    if m == 0 then (f.nan, .bad) else (f.infinity (n₁ != n₂), .none)
  | x, y => f.propagate [x, y]

/-- Computes `a * b + c` with one rounding. -/
def Format.mulAdd (f : Format) (mode : Rounding) (a b c : Nat) : Nat × Flags :=
  let z := f.read c
  match f.read a, f.read b with
  | .finite n₁ m₁ e₁, .finite n₂ m₂ e₂ =>
    f.addReadings mode (.finite (n₁ != n₂) (m₁ * m₂) (e₁ + e₂)) z
  | .infinite n₁, .infinite n₂ => f.addReadings mode (.infinite (n₁ != n₂)) z
  | .infinite n₁, .finite n₂ m _ | .finite n₂ m _, .infinite n₁ =>
    if m == 0 then (f.nan, .bad) else f.addReadings mode (.infinite (n₁ != n₂)) z
  | x, y => f.propagate [x, y, z]

/-- A quotient with `bits` bits behind the integral part of the shifted numerator, whose last bit
says whether something is left. -/
def stickyQuotient (m₁ m₂ bits : Nat) : Nat :=
  let scaled := m₁ * 2 ^ bits
  2 * (scaled / m₂) + (if scaled % m₂ == 0 then 0 else 1)

def Format.div (f : Format) (mode : Rounding) (a b : Nat) : Nat × Flags :=
  match f.read a, f.read b with
  | .finite n₁ m₁ e₁, .finite n₂ m₂ e₂ =>
    if m₂ == 0 then
      if m₁ == 0 then (f.nan, .bad) else (f.infinity (n₁ != n₂), { divideByZero := true })
    else
      let bits := 2 * f.fractionBits + 4
      f.round mode (n₁ != n₂) (stickyQuotient m₁ m₂ bits) (e₁ - e₂ - bits - 1)
  | .infinite _, .infinite _ => (f.nan, .bad)
  | .infinite n₁, .finite n₂ _ _ => (f.infinity (n₁ != n₂), .none)
  | .finite n₁ _ _, .infinite n₂ => (f.zero (n₁ != n₂), .none)
  | x, y => f.propagate [x, y]

/-- One step of Newton's iteration for the integral root. -/
def rootStep (n x : Nat) : Nat := (x + n / x) / 2

/-- Goes down from `x` to the largest number whose square is at most `n`; each step at least halves
the distance, so `fuel` steps of the size of the operand's bit length suffice. -/
def rootFrom (n : Nat) : Nat → Nat → Nat
  | 0, x => x
  | fuel + 1, x => if x * x ≤ n then x else rootFrom n fuel (rootStep n x)

/-- The integral square root. -/
def floorRoot (n : Nat) : Nat :=
  if n == 0 then 0 else rootFrom n (2 * n.log2 + 4) (2 ^ (n.log2 / 2 + 1))

def Format.sqrt (f : Format) (mode : Rounding) (a : Nat) : Nat × Flags :=
  match f.read a with
  | .nan s => f.propagate [.nan s]
  | .infinite n => if n then (f.nan, .bad) else (f.infinity false, .none)
  | .finite n m e =>
    if m == 0 then (f.zero n, .none)
    else if n then (f.nan, .bad)
    else
      let bits := 2 * f.fractionBits + 6
      let shift := if (e - bits) % 2 == 0 then bits else bits + 1
      let scaled := m * 2 ^ shift
      let r := floorRoot scaled
      f.round mode false (2 * r + (if r * r == scaled then 0 else 1)) ((e - shift) / 2 - 1)

/-- Order of two readings that are numbers. -/
def Reading.lt : Reading → Reading → Bool
  | .finite n₁ m₁ e₁, .finite n₂ m₂ e₂ =>
    let e := min e₁ e₂
    let signed (n : Bool) (m : Nat) (x : Int) : Int :=
      let v : Int := m * 2 ^ (x - e).toNat
      if n then -v else v
    signed n₁ m₁ e₁ < signed n₂ m₂ e₂
  | .infinite n₁, .infinite n₂ => n₁ && !n₂
  | .infinite n, .finite .. => n
  | .finite .., .infinite n => !n
  | _, _ => false

/-- Answers a comparison; with an operand that is not a number it fails, and reports that always or
only for a signaling one. -/
def Format.compare (f : Format) (quiet : Bool) (holds : Reading → Reading → Bool) (a b : Nat) :
    Nat × Flags :=
  let x := f.read a
  let y := f.read b
  if x.isNan || y.isNan then
    (0, { invalid := !quiet || x.isSignaling || y.isSignaling })
  else (if holds x y then 1 else 0, .none)

def Format.eq (f : Format) : Nat → Nat → Nat × Flags :=
  f.compare true (fun x y => !x.lt y && !y.lt x)

def Format.le (f : Format) (quiet : Bool) : Nat → Nat → Nat × Flags :=
  f.compare quiet (fun x y => !y.lt x)

def Format.lt (f : Format) (quiet : Bool) : Nat → Nat → Nat × Flags :=
  f.compare quiet (fun x y => x.lt y)

end Jib.Ieee
