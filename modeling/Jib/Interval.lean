import Jib.Fault
import Jib.Power

/-!
# Intervals of integers

An interval has a lower and an upper bound, either of which may be missing.  An interval whose
lower bound lies above its upper bound does not exist: making one fails.
-/

namespace Jib

open scoped Jib.Power

structure Interval where
  low : Option Int
  high : Option Int
  deriving BEq, DecidableEq, Repr, Inhabited

namespace Interval

/-- Makes an interval; the bounds have to be in order. -/
def make (low high : Option Int) : Result Interval :=
  match low, high with
  | some l, some h => if l ≤ h then .ok ⟨low, high⟩ else .error .assertion
  | _, _ => .ok ⟨low, high⟩

def unbounded : Interval := ⟨none, none⟩

def machineInt : Interval := ⟨some (-(2 ^ (63 : Nat))), some (2 ^ (63 : Nat) - 1)⟩

/-- Both truth values, as numbers. -/
def bool : Interval := ⟨some 0, some 1⟩

def yes : Interval := ⟨some 1, some 1⟩

def no : Interval := ⟨some 0, some 0⟩

def ofConst (n : Int) : Interval := ⟨some n, some n⟩

def isBounded (r : Interval) : Bool := r.low.isSome && r.high.isSome

def contains (r : Interval) (n : Int) : Bool :=
  (match r.low with | some l => decide (l ≤ n) | none => true)
    && (match r.high with | some h => decide (n ≤ h) | none => true)

/-- The only member, if there is just one. -/
def const? (r : Interval) : Option Int :=
  match r.low, r.high with
  | some l, some h => if l == h then some l else none
  | _, _ => none

def isConst (r : Interval) : Bool := r.const?.isSome

def fitsMachineInt (r : Interval) : Bool :=
  match r.low, r.high with
  | some l, some h => decide (-(2 ^ (63 : Nat)) ≤ l) && decide (h ≤ 2 ^ (63 : Nat) - 1)
  | _, _ => false

/-- Combines two bounds that are both present. -/
def both (f : Int → Int → Int) : Option Int → Option Int → Option Int
  | some x, some y => some (f x y)
  | _, _ => none

def add (r s : Interval) : Result Interval :=
  make (both (· + ·) r.low s.low) (both (· + ·) r.high s.high)

def neg (r : Interval) : Result Interval := make (r.high.map (- ·)) (r.low.map (- ·))

def sub (r s : Interval) : Result Interval := do r.add (← s.neg)

/-- The hull of four numbers. -/
def hull (w x y z : Int) : Interval :=
  ⟨some (min (min w x) (min y z)), some (max (max w x) (max y z))⟩

def mul (r s : Interval) : Interval :=
  match r.low, r.high, s.low, s.high with
  | some a, some b, some c, some d => hull (a * c) (b * c) (a * d) (b * d)
  | _, _, _, _ =>
    match both (· * ·) (r.low.filter (0 ≤ ·)) (s.low.filter (0 ≤ ·)) with
    | some l => ⟨some l, none⟩
    | none =>
      match both (· * ·) (r.high.filter (· < 0)) (s.high.filter (· < 0)) with
      | some l => ⟨some l, none⟩
      | none => unbounded

/-- Whether all members are at least one. -/
def isPositive (r : Interval) : Bool :=
  match r.low with
  | some l => decide (1 ≤ l)
  | none => false

/-- A quotient rounded down, and one more where the signs differ and something is left. -/
def quotient (x y : Int) : Int :=
  let q := x.fdiv y
  if (decide (x < 0) != decide (y < 0)) && x.fmod y != 0 then q + 1 else q

/-- Division that rounds toward zero; only divisors known to be positive are looked at. -/
def tdiv (r s : Interval) : Result Interval :=
  if s.isPositive then
    match r.low, r.high, s.low, s.high with
    | some a, some b, some c, some d =>
      .ok (hull (quotient a c) (quotient b c) (quotient a d) (quotient b d))
    | _, _, _, _ =>
      if r.low.any (0 ≤ ·) then make (some 0) r.high
      else if r.high.any (· ≤ 0) then make r.low (some 0)
      else .ok unbounded
  else .ok unbounded

def ediv (r s : Interval) : Result Interval :=
  if s.isPositive && r.low.any (0 ≤ ·) then make (some 0) r.high else .ok unbounded

def shiftLeft (x : Int) (k : Int) : Int := x * 2 ^ k.toNat

/-- Arithmetic shift to the right; beyond the highest bit only the sign is left. -/
def shiftRight (x : Int) (k : Int) : Int :=
  if x.natAbs.log2 + 1 < k.toNat then (if x < 0 then -1 else 0) else x.fdiv (2 ^ k.toNat)

def lshift (r s : Interval) : Interval :=
  let halfOpen : Interval :=
    match r.low.filter (0 ≤ ·), s.low with
    | some a, some c =>
      if 0 ≤ c && c ≤ 64 then ⟨some (shiftLeft a c), none⟩ else ⟨some a, none⟩
    | _, _ => unbounded
  match r.low, r.high, s.low, s.high with
  | some a, some b, some c, some d =>
    if 0 ≤ c && d ≤ 64 then
      hull (shiftLeft a c) (shiftLeft b c) (shiftLeft a d) (shiftLeft b d)
    else halfOpen
  | _, _, _, _ => halfOpen

def rshift (r s : Interval) : Interval :=
  match r.low, r.high, s.low, s.high with
  | some a, some b, some c, some d =>
    if 0 ≤ c && d ≤ 2 ^ (63 : Nat) - 1 then
      hull (shiftRight a c) (shiftRight b c) (shiftRight a d) (shiftRight b d)
    else unbounded
  | _, _, _, _ => unbounded

def union (r s : Interval) : Result Interval :=
  make (both min r.low s.low) (both max r.high s.high)

/-- Whether two bounds are both present and related. -/
def related (p : Int → Int → Bool) : Option Int → Option Int → Bool
  | some x, some y => p x y
  | _, _ => false

/-- A comparison: surely true, surely false, or either. -/
def decided (surelyTrue surelyFalse : Bool) : Interval :=
  if surelyTrue then yes else if surelyFalse then no else bool

def le (r s : Interval) : Interval :=
  decided (related (fun x y => x ≤ y) r.high s.low) (related (fun x y => x < y) s.high r.low)

def lt (r s : Interval) : Interval :=
  decided (related (fun x y => x < y) r.high s.low) (related (fun x y => x ≤ y) s.high r.low)

def ge (r s : Interval) : Interval :=
  decided (related (fun x y => x ≥ y) r.low s.high) (related (fun x y => x > y) s.low r.high)

def gt (r s : Interval) : Interval :=
  decided (related (fun x y => x > y) r.low s.high) (related (fun x y => x ≥ y) s.low r.high)

/-- Keeps the members up to a number. -/
def atMost (r : Interval) (n : Int) : Result Interval :=
  if r.high.all (n < ·) then make r.low (some n) else .ok r

/-- Keeps the members from a number on. -/
def atLeast (r : Interval) (n : Int) : Result Interval :=
  if r.low.all (n > ·) then make (some n) r.high else .ok r

/-- Keeps the members that lie below a member of the other interval, by a gap or more. -/
def below (gap : Int) (r s : Interval) : Result Interval :=
  match s.high with
  | some h => r.atMost (h - gap)
  | none => .ok r

/-- Keeps the members that lie above a member of the other interval, by a gap or more. -/
def above (gap : Int) (r s : Interval) : Result Interval :=
  match s.low with
  | some l => r.atLeast (l + gap)
  | none => .ok r

def makeLe := below 0

def makeLt := below 1

def makeGe := above 0

def makeGt := above 1

def boundText : Option Int → String
  | some n => toString n
  | none => "None"

def text (r : Interval) : String := "Range(" ++ boundText r.low ++ ", " ++ boundText r.high ++ ")"

end Interval

end Jib
