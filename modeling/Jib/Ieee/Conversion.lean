import Jib.Ieee.Arithmetic

/-!
# Conversions between formats and integers

An integer target is given by its width and whether it is signed.  What does not fit is answered by
the end of the range on its side, and what is not a number by the upper end; both are invalid and
not reported as inexact.
-/

namespace Jib.Ieee

open scoped Jib.Power

/-- Brings a pattern of one format into another. -/
def Format.convert (source target : Format) (mode : Rounding) (a : Nat) : Nat × Flags :=
  match source.read a with
  | .nan s => target.propagate [.nan s]
  | .infinite n => (target.infinity n, .none)
  | .finite n m e => target.round mode n m e

/-- An integer type of the machine. -/
structure IntegerType where
  width : Nat
  isSigned : Bool
  deriving Repr, BEq, DecidableEq

namespace IntegerType

def least (t : IntegerType) : Int := if t.isSigned then -(2 ^ (t.width - 1) : Int) else 0

def greatest (t : IntegerType) : Int :=
  if t.isSigned then 2 ^ (t.width - 1) - 1 else 2 ^ t.width - 1

def pattern (t : IntegerType) (n : Int) : Nat := (n % (2 ^ t.width : Int)).toNat

/-- The number that the lowest bits of a word stand for. -/
def read (t : IntegerType) (w : Nat) : Int :=
  let p := w % 2 ^ t.width
  if t.isSigned && p.testBit (t.width - 1) then (p : Int) - 2 ^ t.width else p

end IntegerType

/-- Rounds a number to an integer of the machine. -/
def Format.toInteger (f : Format) (t : IntegerType) (mode : Rounding) (a : Nat) : Nat × Flags :=
  match f.read a with
  | .nan _ => (t.pattern t.greatest, .bad)
  | .infinite n => (t.pattern (if n then t.least else t.greatest), .bad)
  | .finite n m e =>
    let (q, lost) := roundTo mode n m e 0
    let v : Int := if n then -(q : Int) else q
    if v < t.least then (t.pattern t.least, .bad)
    else if v > t.greatest then (t.pattern t.greatest, .bad)
    else (t.pattern v, { inexact := lost })

/-- The number of the format for an integer of the machine. -/
def Format.ofInteger (f : Format) (t : IntegerType) (mode : Rounding) (w : Nat) : Nat × Flags :=
  let v := t.read w
  f.round mode (v < 0) v.natAbs 0

end Jib.Ieee
