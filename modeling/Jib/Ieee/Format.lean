import Jib.Power

/-!
# Binary interchange formats

A floating-point number is a bit pattern read through a format.  Reading gives a `Reading`: not a
number, an infinity, or a finite number `mantissa * 2 ^ exponent` with its sign.  The arithmetic of
this library works on readings with exact integers and rounds once, at the end.
-/

namespace Jib.Ieee

open scoped Jib.Power

/-- A format is given by the number of its exponent bits and of its stored fraction bits. -/
structure Format where
  exponentBits : Nat
  fractionBits : Nat
  deriving Repr, BEq, DecidableEq

namespace Format

def half : Format := ⟨5, 10⟩

def single : Format := ⟨8, 23⟩

def double : Format := ⟨11, 52⟩

def width (f : Format) : Nat := f.exponentBits + f.fractionBits + 1

def bias (f : Format) : Nat := 2 ^ (f.exponentBits - 1) - 1

/-- The exponent field of infinities and of what is not a number. -/
def topExponent (f : Format) : Nat := 2 ^ f.exponentBits - 1

/-- The exponent of the last fraction bit of the smallest numbers. -/
def leastExponent (f : Format) : Int := 1 - (f.bias : Int) - f.fractionBits

def pack (f : Format) (negative : Bool) (exponent fraction : Nat) : Nat :=
  (if negative then 2 ^ (f.width - 1) else 0) + exponent * 2 ^ f.fractionBits + fraction

/-- The one pattern that stands for every result that is not a number. -/
def nan (f : Format) : Nat := f.pack false f.topExponent (2 ^ (f.fractionBits - 1))

def infinity (f : Format) (negative : Bool) : Nat := f.pack negative f.topExponent 0

def zero (f : Format) (negative : Bool) : Nat := f.pack negative 0 0

/-- The finite number of the largest magnitude. -/
def largest (f : Format) (negative : Bool) : Nat :=
  f.pack negative (f.topExponent - 1) (2 ^ f.fractionBits - 1)

end Format

/-- What a bit pattern stands for. -/
inductive Reading where
  | nan (signaling : Bool)
  | infinite (negative : Bool)
  | finite (negative : Bool) (mantissa : Nat) (exponent : Int)
  deriving Repr, BEq, DecidableEq

namespace Reading

def isSignaling : Reading → Bool
  | nan s => s
  | _ => false

def isNan : Reading → Bool
  | nan _ => true
  | _ => false

def negate : Reading → Reading
  | nan s => nan s
  | infinite n => infinite !n
  | finite n m e => finite (!n) m e

end Reading

/-- Reads the lowest bits of a pattern; a number that is not one is signaling if the first bit of
its fraction is clear. -/
def Format.read (f : Format) (pattern : Nat) : Reading :=
  let p := pattern % 2 ^ f.width
  let negative := p.testBit (f.width - 1)
  let exponent := p / 2 ^ f.fractionBits % 2 ^ f.exponentBits
  let fraction := p % 2 ^ f.fractionBits
  if exponent == f.topExponent then
    if fraction == 0 then .infinite negative else .nan (!fraction.testBit (f.fractionBits - 1))
  else if exponent == 0 then .finite negative fraction f.leastExponent
  else .finite negative (2 ^ f.fractionBits + fraction) (f.leastExponent + (exponent - 1 : Nat))

end Jib.Ieee
