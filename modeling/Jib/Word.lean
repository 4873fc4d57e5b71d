import Jib.Fault
import Jib.Power

/-!
# Machine words

Unsigned 64-bit words with the operations that the word level of the language needs: shifts whose
amount is not reduced, masks to a width, and the signed reading.  Shifting by a negative amount is
refused.
-/

namespace Jib.Word

open scoped Jib.Power

/-- The word that a number leaves modulo two to the 64. -/
def ofInt (n : Int) : UInt64 := (n % (2 ^ (64 : Nat) : Int)).toNat.toUInt64

/-- The signed reading of a word. -/
def toInt (w : UInt64) : Int := w.toInt64.toInt

def carry (b : Bool) : UInt64 := if b then 1 else 0

def shl (w : UInt64) (i : Nat) : UInt64 := if i < 64 then w <<< i.toUInt64 else 0

def shr (w : UInt64) (i : Nat) : UInt64 := if i < 64 then w >>> i.toUInt64 else 0

def negativeShift : Fault := .badValue

/-- Left shift by an amount that has to be non-negative. -/
def shiftLeft (w : UInt64) (i : Int) : Result UInt64 :=
  if i < 0 then .error negativeShift else .ok (shl w i.toNat)

/-- Right shift by an amount that has to be non-negative. -/
def shiftRight (w : UInt64) (i : Int) : Result UInt64 :=
  if i < 0 then .error negativeShift else .ok (shr w i.toNat)

/-- The lowest `width` bits of a word. -/
def low (width : Nat) (w : UInt64) : UInt64 := if width < 64 then w &&& (shl 1 width - 1) else w

/-- The lowest bits of a word; the width has to lie between zero and 64. -/
def mask (width : Int) (w : UInt64) : Result UInt64 :=
  if width == 64 then .ok w
  else if width > 64 then .error .assertion
  else if width < 0 then .error negativeShift
  else .ok (low width.toNat w)

/-- The upper half of the double-width product. -/
def mulHigh (a b : UInt64) : UInt64 := (a.toNat * b.toNat / 2 ^ (64 : Nat)).toUInt64

end Jib.Word
