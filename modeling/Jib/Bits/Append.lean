import Jib.Bits.Parts

/-!
# Concatenation of bit vectors

The first vector is extended and shifted, and the bits of the second are put into the vector that
this gives, in place.  Extension and shift give the vector itself where they have nothing to do, so
vectors stand in cells here, and a change in place is seen by all that hold the cell.
-/

namespace Jib.Bits

def appendWord (a : Bits) (v : UInt64) : Result Bits :=
  match a with
  | small w u => if u == 0 then ofWord (w + 64) v else mkWide (w + 64) [v, u]
  | sparse w u =>
    if u == 0 then mkSparse (w + 64) v
    else mkWide (w + 64) (v :: u :: List.replicate (wordCount (w + 64) - 2) 0)
  | wide w ws => mkWide (w + 64) (v :: ws)

/-- Vectors that can be changed in place, by the numbers of their cells. -/
abbrev Cells := List Bits

/-- The vector in a cell. -/
def Cells.read (s : Cells) (p : Nat) : Bits := s.getD p (small 0 0)

/-- Puts a vector into a new cell. -/
def Cells.add (s : Cells) (b : Bits) : Nat × Cells := (s.length, s ++ [b])

/-- Extension with zeros; a vector of the same width stays in its cell. -/
def zeroExtendAt (s : Cells) (p : Nat) (i : Int) : Result (Nat × Cells) :=
  if i == (s.read p).width then .ok (p, s) else do return s.add (← zeroExtend (s.read p) i)

/-- Shift to the left; a vector of more than 64 bits that is not moved stays in its cell. -/
def shiftLeftAt (s : Cells) (p : Nat) (i : Int) : Result (Nat × Cells) :=
  match s.read p with
  | small w v => do return s.add (← shiftLeft (small w v) i)
  | a => if i == 0 then .ok (p, s) else do return s.add (← shiftLeft a i)

def heldWords : Bits → List UInt64
  | small _ v => [v]
  | sparse _ v => [v]
  | wide _ ws => ws

/-- Puts the bits of a vector into the one in a cell, which has zeros there.  Into a sparse vector
only those of a single word can go. -/
def orInto (s : Cells) (p : Nat) (b : Bits) : Result Cells :=
  match s.read p, b with
  | small .., _ => .error .assertion
  | sparse w v, small _ u => .ok (s.set p (sparse w (v ||| u)))
  | sparse .., _ => .error .assertion
  | wide w ws, b => do return s.set p (wide w (← Digits.combine (· ||| ·) ws (heldWords b)))

def appendShifted (s : Cells) (p q : Nat) : Result (Nat × Cells) := do
  let b := s.read q
  let (x, s) ← zeroExtendAt s p ((s.read p).width + b.width)
  let (y, s) ← shiftLeftAt s x b.width
  return (y, ← orInto s y b)

/-- Puts the bits of the vector in the second cell below those of the vector in the first; gives the
cell of the result. -/
def appendAt (s : Cells) (p q : Nat) : Result (Nat × Cells) :=
  match s.read p, s.read q with
  | small w v, small u x =>
    if w + u ≤ 64 then do return s.add (← ofWord (w + u) (Word.shl v u ||| x))
    else if u == 64 then do return s.add (← appendWord (small w v) x)
    else appendShifted s p q
  | a, small u x => if u == 64 then do return s.add (← appendWord a x) else appendShifted s p q
  | _, _ => appendShifted s p q

/-- Puts the bits of the second vector below those of the first. -/
def append (a b : Bits) : Result Bits := do
  let (r, s) ← appendAt [a, b] 0 1
  return s.read r

end Jib.Bits
