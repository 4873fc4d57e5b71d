import Jib.Bits.Read
import Jib.Integer.Slice

/-!
# Arithmetic and logic on bit vectors

Addition and subtraction modulo the width, bitwise operations and shifts in each form.  A sparse
result is given where one word suffices and the operands show it; otherwise the words are worked on.
-/

namespace Jib.Bits

/-- The word form with the same width as another vector. -/
def remade (b : Bits) (v : UInt64) : Result Bits := mkMasked b.width v

/-- Adds a word to a word list. -/
def addToWords (w : Nat) (ws : List UInt64) (v : UInt64) : Result Bits :=
  match ws with
  | [] => mkWideMasked w []
  | x :: xs =>
    mkWideMasked w (((x + v) :: Digits.addCarry xs [] (Word.carry (x + v < x))).take ws.length)

def subFromWords (w : Nat) (ws : List UInt64) (v : UInt64) : Result Bits :=
  mkWideMasked w (Digits.subBorrow ws (if ws.isEmpty then [] else [v]) 0).1

/-- Adds two word lists, of which the second is not the longer. -/
def addWordLists (w : Nat) (xs ys : List UInt64) : Result Bits :=
  if ys.length > xs.length then .error .outOfRange
  else
    let sum := (Digits.addCarry (xs.take ys.length) ys 0).take ys.length
    mkWideMasked w (sum ++ List.replicate (xs.length - ys.length) 0)

/-- Subtracts the second word list, which is not the longer, from the first. -/
def subWordLists (w : Nat) (xs ys : List UInt64) : Result Bits :=
  if ys.length > xs.length then .error .outOfRange
  else
    let difference := (Digits.subBorrow (xs.take ys.length) ys 0).1
    mkWideMasked w (difference ++ List.replicate (xs.length - ys.length) 0)

/-- Addition with a vector in word-list form on the left. -/
def addWide (w : Nat) (xs : List UInt64) (b : Bits) : Result Bits :=
  if w != b.width then .error .assertion
  else
    match b with
    | wide _ ys => addWordLists w xs ys
    | sparse _ v => addToWords w xs v
    | small .. => .error .assertion

/-- Subtraction with a vector in word-list form on the left. -/
def subWide (w : Nat) (xs : List UInt64) (b : Bits) : Result Bits :=
  if w != b.width then .error .assertion
  else
    match b with
    | wide _ ys => subWordLists w xs ys
    | sparse _ v => subFromWords w xs v
    | small .. => .error .assertion

def add (a b : Bits) : Result Bits :=
  if a.width != b.width then .error .assertion
  else
    match a, b with
    | small _ v, small _ w => remade a (v + w)
    | small .., _ => .error .assertion
    | sparse w v, sparse _ u =>
      let r := v + u
      if r < v then addWide w (words b) a else .ok (sparse w r)
    | sparse w _, wide _ ys => addWide w ys a
    | sparse .., small .. => .error .assertion
    | wide w xs, b => addWide w xs b

def sub (a b : Bits) : Result Bits :=
  if a.width != b.width then .error .assertion
  else
    match a, b with
    | small _ v, small _ w => remade a (v - w)
    | small .., _ => .error .assertion
    | sparse w v, sparse _ u =>
      if u ≤ v then .ok (sparse w (v - u)) else subWide w (words a) b
    | sparse w _, b => subWide w (words a) b
    | wide w xs, b => subWide w xs b

def addIntWide (w : Nat) (xs : List UInt64) (z : Integer) : Result Bits :=
  match z with
  | .small n =>
    if n.toInt ≥ 0 then addToWords w xs (Word.ofInt n.toInt)
    else subFromWords w xs (Word.ofInt (-n.toInt))
  | .big s ds =>
    if s == 0 then .ok (wide w xs)
    else if s ≥ 0 then do mkWideMasked w ((← Digits.add xs ds).take xs.length)
    else do subWide w xs (← wideOfInt w z.spelled.natAbs)

/-- Subtracts an integer from a vector in word-list form. -/
def subIntWide (w : Nat) (xs : List UInt64) (z : Integer) : Result Bits :=
  match z with
  | .small n =>
    if n.toInt ≥ 0 then subFromWords w xs (Word.ofInt n.toInt)
    else addToWords w xs (Word.ofInt (-n.toInt))
  | .big s _ =>
    if s == 0 then .ok (wide w xs)
    else if s ≥ 0 then do subWide w xs (← wideOfInt w z.spelled)
    else do addWide w xs (← wideOfInt w z.spelled.natAbs)

def lowestWord (z : Integer) : Result UInt64 :=
  match z with
  | .small n => .ok (Word.ofInt n.toInt)
  | z => Integer.sliceWord z 64 0

def addInt (a : Bits) (z : Integer) : Result Bits :=
  match a with
  | small _ v => do remade a (v + (← lowestWord z))
  | sparse w v =>
    match z with
    | .small n =>
      let r := v + Word.ofInt n.toInt
      if n.toInt > 0 && !(r < v) then .ok (sparse w r) else addIntWide w (words a) z
    | z => addIntWide w (words a) z
  | wide w xs => addIntWide w xs z

def subInt (a : Bits) (z : Integer) : Result Bits :=
  match a with
  | small _ v => do remade a (v - (← lowestWord z))
  | sparse w v =>
    match z with
    | .small n =>
      if 0 ≤ n.toInt && n.toInt ≤ v.toNat then .ok (sparse w (v - Word.ofInt n.toInt))
      else subIntWide w (words a) z
    | z => subIntWide w (words a) z
  | wide w xs => subIntWide w xs z

/-! ### Bitwise operations -/

/-- A bitwise operation with a vector in word-list form on the left. -/
def bitwiseWide (f : UInt64 → UInt64 → UInt64) (w : Nat) (xs : List UInt64) (b : Bits) :
    Result Bits := do
  match b with
  | wide _ ys => mkWide w (← Digits.combine f xs ys)
  | sparse _ v => mkWide w (← Digits.combine f xs [v])
  | small .. => throw .assertion

/-- A bitwise operation that keeps two zero bits zero. -/
def bitwise (f : UInt64 → UInt64 → UInt64) (a b : Bits) : Result Bits :=
  match a, b with
  | small w v, b =>
    if w != b.width then .error .assertion
    else
      match b with
      | small _ u => remade a (f v u)
      | _ => .error .assertion
  | sparse w v, sparse _ u => .ok (sparse w (f v u))
  | sparse w _, b => bitwiseWide f w (words a) b
  | wide w xs, b => bitwiseWide f w xs b

def xor (a b : Bits) : Result Bits := bitwise (· ^^^ ·) a b

def or (a b : Bits) : Result Bits := bitwise (· ||| ·) a b

/-- Conjunction with a sparse vector is sparse. -/
def andSparse (a : Bits) (v : UInt64) : Result Bits :=
  match a with
  | small .. => .error .assertion
  | sparse w u => .ok (sparse w (u &&& v))
  | wide w ws => do mkSparse w ((← Digits.get ws 0) &&& v)

def and (a b : Bits) : Result Bits :=
  match a, b with
  | sparse w v, sparse _ u => .ok (sparse w (v &&& u))
  | sparse _ v, b => andSparse b v
  | wide _ _, sparse _ u => andSparse a u
  | a, b => bitwise (· &&& ·) a b

def not (a : Bits) : Result Bits :=
  match a with
  | small _ v => remade a (~~~v)
  | sparse w _ => mkWideMasked w ((words a).map (~~~ ·))
  | wide w ws => mkWideMasked w (ws.map (~~~ ·))

/-! ### Shifts -/

def shiftLeftWide (w : Nat) (ws : List UInt64) (i : Int) : Result Bits :=
  if i < 0 then .error Word.negativeShift
  else if i == 0 then .ok (wide w ws)
  else if i ≥ w then mkSparse w 0
  else mkWideMasked w ((Digits.shiftLeft ws i.toNat).take ws.length)

def shiftLeft (a : Bits) (i : Int) : Result Bits :=
  match a with
  | small w v =>
    if i < 0 then .error Word.negativeShift
    else if i ≥ 64 then mkSmall w 0
    else remade a (Word.shl v i.toNat)
  | sparse w v =>
    if i < 0 then .error (.badValue (some ""))
    else if i == 0 then .ok a
    else if i < 64 && Word.shr v (64 - i.toNat) == 0 then .ok (sparse w (Word.shl v i.toNat))
    else shiftLeftWide w (words a) i
  | wide w ws => shiftLeftWide w ws i

/-- Fills a list up with zero words. -/
def extended (n : Nat) (ws : List UInt64) : List UInt64 := ws ++ List.replicate (n - ws.length) 0

def shiftRight (a : Bits) (i : Int) : Result Bits :=
  match a with
  | small w v =>
    if i < 0 then .error Word.negativeShift
    else if i ≥ w then mkSmall w 0
    else mkSmall w (Word.shr v i.toNat)
  | sparse w v =>
    if i < 0 then .error .assertion
    else .ok (sparse w (if i ≥ 64 then 0 else Word.shr v i.toNat))
  | wide w ws =>
    if i < 0 then .error Word.negativeShift
    else if i ≥ w then mkSparse w 0
    else if i == 0 then .ok a
    else mkWide w (extended ws.length (Digits.shiftRight ws i.toNat))

/-- Shift to the right that fills with the highest bit. -/
def arithShiftRight (a : Bits) (i : Int) : Result Bits :=
  match a with
  | small w v => do
    if i < 0 then throw Word.negativeShift
    let k := if i ≥ w then w else i.toNat
    let r := Word.shr v k
    if ← readBit a (w - 1) then mkSmall w (r ||| Word.shl (Word.shl 1 k - 1) (w - k))
    else mkSmall w r
  | sparse w v =>
    if i < 0 then .error .assertion
    else .ok (sparse w (if i ≥ 64 then 0 else Word.shr v i.toNat))
  | wide w ws => do
    if i < 0 then throw Word.negativeShift
    let top ← readBit a (w - 1)
    if i ≥ w then
      if top then mkWideMasked w (ws.map (fun _ => 0 - 1)) else mkSparse w 0
    else Integer.slice (← Integer.shiftRight (← signed a) i) w 0

/-- Shift by the value of another vector. -/
def shiftLeftBy (a b : Bits) : Result Bits := do shiftLeft a (← toWord b)

def shiftRightBy (a b : Bits) : Result Bits := do shiftRight a (← toWord b)

end Jib.Bits
