import Jib.Ieee.Format

/-!
# Rounding

An exact result is rounded once.  `roundAt` brings a scaled integer to a coarser scale;
`Format.round` chooses the scale for a format, packs the result and says which conditions arose.  A
result is tiny when rounding it with an unbounded exponent still leaves it below the normal numbers.
-/

namespace Jib.Ieee

open scoped Jib.Power

inductive Rounding where
  | nearestEven
  | towardZero
  | down
  | up
  | nearestAway
  /-- An inexact result gets a set last bit. -/
  | toOdd
  deriving Repr, BEq, DecidableEq

/-- The rounding that a mode number selects; unassigned numbers truncate. -/
def Rounding.ofCode : Nat → Rounding
  | 0 => .nearestEven
  | 2 => .down
  | 3 => .up
  | 4 => .nearestAway
  | 6 => .toOdd
  | _ => .towardZero

/-- The conditions that an operation reports. -/
structure Flags where
  invalid : Bool := false
  divideByZero : Bool := false
  overflow : Bool := false
  underflow : Bool := false
  inexact : Bool := false
  deriving Repr, BEq, DecidableEq

namespace Flags

def none : Flags := {}

def bad : Flags := { invalid := true }

def code (f : Flags) : Nat :=
  (if f.inexact then 1 else 0) + (if f.underflow then 2 else 0) + (if f.overflow then 4 else 0)
    + (if f.divideByZero then 8 else 0) + (if f.invalid then 16 else 0)

end Flags

/-- Rounds `mantissa / 2 ^ shift` to an integer and says whether anything was lost. -/
def roundAt (mode : Rounding) (negative : Bool) (mantissa shift : Nat) : Nat × Bool :=
  let q := mantissa / 2 ^ shift
  let rest := mantissa % 2 ^ shift
  let up : Bool :=
    match mode with
    | .nearestEven => 2 * rest > 2 ^ shift || (2 * rest == 2 ^ shift && q % 2 == 1)
    | .nearestAway => 2 * rest ≥ 2 ^ shift
    | .towardZero => false
    | .down => negative && rest != 0
    | .up => !negative && rest != 0
    | .toOdd => rest != 0 && q % 2 == 0
  (if up && rest != 0 then q + 1 else q, rest != 0)

/-- Rounds `mantissa * 2 ^ exponent` to a multiple of `2 ^ target`, counted in that unit. -/
def roundTo (mode : Rounding) (negative : Bool) (mantissa : Nat) (exponent target : Int) :
    Nat × Bool :=
  if target ≤ exponent then (mantissa * 2 ^ (exponent - target).toNat, false)
  else roundAt mode negative mantissa (target - exponent).toNat

/-- Whether a result too large for the format becomes an infinity. -/
def Rounding.overflowsToInfinity (mode : Rounding) (negative : Bool) : Bool :=
  match mode with
  | .nearestEven | .nearestAway => true
  | .towardZero | .toOdd => false
  | .down => negative
  | .up => !negative

/-- The pattern nearest to `mantissa * 2 ^ exponent` in the direction of the mode. -/
def Format.round (f : Format) (mode : Rounding) (negative : Bool) (mantissa : Nat)
    (exponent : Int) : Nat × Flags :=
  if mantissa == 0 then (f.zero negative, .none)
  else
    let top : Int := exponent + mantissa.log2
    let fine := top - f.fractionBits
    let (n, lost) := roundTo mode negative mantissa exponent (max fine f.leastExponent)
    let unbounded := (roundTo mode negative mantissa exponent fine).1
    let tiny : Bool :=
      fine < f.leastExponent
        && !(fine == f.leastExponent - 1 && unbounded ≥ 2 ^ (f.fractionBits + 1))
    -- A carry out of the fraction moves into the exponent field by itself.
    let field := (max fine f.leastExponent - f.leastExponent).toNat * 2 ^ f.fractionBits + n
    if field ≥ f.topExponent * 2 ^ f.fractionBits then
      (if mode.overflowsToInfinity negative then f.infinity negative else f.largest negative,
        { overflow := true, inexact := true })
    else
      (f.pack negative 0 field, { underflow := tiny && lost, inexact := lost })

end Jib.Ieee
