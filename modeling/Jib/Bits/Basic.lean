import Jib.Power

/-!
# Bit vectors: the three forms

A bit vector of width at most 64 is one word.  A wider one is either *sparse*, one word with all
higher bits clear, or a list of words with the lowest first.  The forms are told apart in answers,
so the form of a result is part of each operation.
-/

namespace Jib

open scoped Jib.Power

/-- The number that a list of 64-bit words spells, lowest word first. -/
def wordsToNat : List UInt64 → Nat
  | [] => 0
  | w :: ws => w.toNat + 2 ^ (64 : Nat) * wordsToNat ws

/-- Puts words above the lowest bits of a number. -/
def joinAbove (n shift : Nat) : List UInt64 → Nat
  | [] => n
  | w :: ws => joinAbove (n ||| w.toNat <<< shift) (shift + 64) ws

def joinWords : List UInt64 → Nat := joinAbove 0 0

inductive Bits where
  | small (width : Nat) (word : UInt64)
  | sparse (width : Nat) (word : UInt64)
  | wide (width : Nat) (words : List UInt64)
  deriving Repr, BEq, DecidableEq, Inhabited

namespace Bits

def width : Bits → Nat
  | small w _ => w
  | sparse w _ => w
  | wide w _ => w

/-- The unsigned number that the vector denotes. -/
def toNat : Bits → Nat
  | small _ v => v.toNat
  | sparse _ v => v.toNat
  | wide _ ws => joinWords ws

/-- How many words a vector of a width takes. -/
def wordCount (width : Nat) : Nat := (width + 63) / 64

protected def hash (b : Bits) : UInt64 := mixHash (Hashable.hash b.width) (Hashable.hash b.toNat)

instance : Hashable Bits := ⟨Bits.hash⟩

end Bits

end Jib
