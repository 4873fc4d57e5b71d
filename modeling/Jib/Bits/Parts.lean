import Jib.Bits.Arithmetic

/-!
# Parts of bit vectors

Extension, truncation, replication, and reading and updating parts of a vector.
-/

namespace Jib.Bits

open scoped Jib.Power

/-- Cuts off the higher bits. -/
def truncate (a : Bits) (i : Int) : Result Bits :=
  match a with
  | small w v =>
    if i > w then .error .assertion else if i < w then mkMasked i v else mkSmall i v
  | sparse w v =>
    if i > w then .error .assertion
    else if i ≤ 64 then do mkMasked i (← Word.mask i v)
    else mkSparse i v
  | wide w ws =>
    if i < 0 || i > w then .error .assertion
    else if i ≤ 64 then do mkMasked i (← Digits.get ws 0)
    else if i == w then .ok a
    else mkWideMasked i (ws.take (wordCount i.toNat))

def subrangeWord (a : Bits) (n m : Int) : Result UInt64 :=
  let width := n - m + 1
  match a with
  | small w v =>
    if !(0 ≤ m && m ≤ n && n < w) || !(0 < width && width ≤ 64) then .error .assertion
    else Word.mask width (Word.shr v m.toNat)
  | sparse w v =>
    if !(0 ≤ m && m ≤ n && n < w) || !(0 < width && width ≤ 64) then .error .assertion
    else if m ≥ 64 then .ok 0
    else Word.mask width (Word.shr v m.toNat)
  | wide _ ws => do
    if !(0 < width && width ≤ 64) then throw .assertion
    let i := m / 64
    let k := (m % 64).toNat
    let r ← Digits.get ws i
    if k == 0 then Word.mask width r
    else if i + 1 < ws.length then
      Word.mask width (Word.shr r k ||| Word.shl (← Digits.get ws (i + 1)) (64 - k))
    else Word.mask width (Word.shr r k)

def subrange (a : Bits) (n m : Int) : Result Bits :=
  let width := n - m + 1
  match a with
  | small w _ => do
    if !(0 ≤ m && m ≤ n && n < w) then throw .assertion
    mkSmall width (← subrangeWord a n m)
  | sparse w v => do
    if !(0 ≤ m && m ≤ n && n < w) then throw .assertion
    if width ≤ 64 then mkSmall width (← subrangeWord a n m)
    else mkSparse width (if m ≥ 64 then 0 else Word.shr v m.toNat)
  | wide .. => do
    if width ≤ 64 then mkSmall width (← subrangeWord a n m)
    else if m == 0 then truncate a width
    else truncate (← shiftRight a m) width

def zeroExtend (a : Bits) (i : Int) : Result Bits :=
  if i == a.width then .ok a
  else if i < a.width then .error .assertion
  else
    match a with
    | small _ v => ofWord i v
    | sparse _ v => mkSparse i v
    | wide _ ws => mkWide i (extended (wordCount i.toNat) ws)

/-- Extension of a word list by its highest bit. -/
def signExtendWords (w : Nat) (ws : List UInt64) (i : Int) : Result Bits := do
  if i ≤ w then throw .assertion
  let top := Word.shr (← Digits.get ws ((w - 1 : Int) / 64)) ((w - 1 : Int) % 64).toNat &&& 1
  let fill := 0 - top
  let whole := ws.take (w / 64)
  let last ← if w % 64 == 0 then pure [] else do
    pure [(← Digits.get ws (w / 64)) ||| Word.shl fill (w % 64)]
  let low := whole ++ last
  mkWideMasked i (low ++ List.replicate (wordCount i.toNat - low.length) fill)

def signExtend (a : Bits) (i : Int) : Result Bits :=
  if i == a.width then .ok a
  else
    match a with
    | small w v => do
      if i > 64 then
        if ← readBit a (w - 1) then signExtendWords w [v] i else mkSparse i v
      else
        let m ← Word.shiftLeft 1 (w - 1)
        mkMasked i ((v ^^^ m) - m)
    | sparse w v => if i > w then mkSparse i v else .error .assertion
    | wide w ws => signExtendWords w ws i

/-- Sets or clears one bit. -/
def updateBit (a : Bits) (pos : Int) (bit : Bool) : Result Bits :=
  match a with
  | small w v => do
    if pos ≥ w then throw .assertion
    let m ← Word.shiftLeft 1 pos
    if bit then mkSmall w (v ||| m) else mkMasked w (v &&& ~~~m)
  | sparse w v => do
    if pos ≥ w then throw .assertion
    if pos ≥ 64 then updateWords w (words a) pos bit
    else
      let m ← Word.shiftLeft 1 pos
      return sparse w (if bit then v ||| m else v &&& ~~~m)
  | wide w ws => updateWords w ws pos bit
where
  updateWords (w : Nat) (ws : List UInt64) (pos : Int) (bit : Bool) : Result Bits := do
    let d ← Digits.get ws (pos / 64)
    let m := Word.shl 1 (pos % 64).toNat
    mkWide w (← Digits.set ws (pos / 64) (if bit then d ||| m else d &&& ~~~m))

/-- Writes whole words of a source into a list, from an index up to another; gives the rest of the
source. -/
def writeWords : Nat → Int → List UInt64 → List UInt64 → Result (List UInt64 × List UInt64)
  | 0, _, source, ws => .ok (source, ws)
  | k + 1, i, source, ws =>
    match source with
    | [] => .error .outOfRange
    | d :: rest => do writeWords k (i + 1) rest (← Digits.set ws i d)

/-- Writes the words of a source shifted by some bits; gives the bits that are carried over too. -/
def writeShifted (shift : Nat) :
    Nat → Int → UInt64 → List UInt64 → List UInt64 → Result (UInt64 × List UInt64 × List UInt64)
  | 0, _, c, source, ws => .ok (c, source, ws)
  | k + 1, i, c, source, ws =>
    match source with
    | [] => .error .outOfRange
    | d :: rest => do
      writeShifted shift k (i + 1) (Word.shr d (64 - shift)) rest
        (← Digits.set ws i (c ||| Word.shl d shift))

/-- The words of a vector that is written into a list; up to 64 bits it has to be one word. -/
def sourceWords (s : Bits) : Result (List UInt64) :=
  match s with
  | small w v => if w ≤ 64 then .ok [v] else .error .assertion
  | sparse w _ => if w ≤ 64 then .error .assertion else .ok (words s)
  | wide w ds => if w ≤ 64 then .error .assertion else .ok ds

/-- Writes the words of a range that are filled to their end; gives the bits that are carried over
and the rest of the source too. -/
def writeFilled (low count : Nat) (first : Int) (source ws : List UInt64) :
    Result (UInt64 × List UInt64 × List UInt64) :=
  if low == 0 then do
    let (rest, out) ← writeWords count first source ws
    return (0, rest, out)
  else do
    let c := (← Digits.get ws first) &&& (Word.shl 1 low - 1)
    writeShifted low count first c source ws

/-- Writes the word in which a range ends and keeps its bits from `high` on. -/
def writeEnd (low high : Nat) (last : Int) (c : UInt64) (rest ws : List UInt64) :
    Result (List UInt64) := do
  let d := ((← Digits.get ws last) &&& ~~~(Word.shl 1 high - 1)) ||| c
  if low < high then
    match rest with
    | [] => throw .outOfRange
    | e :: _ => Digits.set ws last (d ||| Word.shl e low)
  else Digits.set ws last d

def updateWordRange (w : Nat) (ws : List UInt64) (n m : Int) (s : Bits) : Result Bits := do
  if (s.width : Int) != n - m + 1 then throw .assertion
  let source ← sourceWords s
  let first := m / 64
  let low := (m % 64).toNat
  let last := (n + 1) / 64
  let high := ((n + 1) % 64).toNat
  let (c, rest, out) ← writeFilled low (last - first).toNat first source ws
  if high == 0 then mkWide w out else mkWide w (← writeEnd low high last c rest out)

/-- Replaces the bits from `m` to `n`; a vector as wide as the whole is the result itself. -/
def updateSubrange (a : Bits) (n m : Int) (s : Bits) : Result Bits :=
  let width := s.width
  match a with
  | small w v => do
    if width > w then throw .assertion
    if width == w then return s
    if (width : Int) != n - m + 1 then throw .assertion
    let hole ← Word.shiftLeft (Word.shl 1 width - 1) m
    let value ← Word.shiftLeft (← toUnsigned s 0) m
    mkMasked w ((v &&& ~~~hole) ||| value)
  | sparse w v => do
    if width > w then throw .assertion
    if width == w then return s
    if (width : Int) != n - m + 1 then throw .assertion
    if width > 64 || m > 63 then updateWordRange w (words a) n m s
    else
      let value ← toUnsigned s 0
      let room : Int := if n ≥ 64 then 64 - m else width
      if n ≥ 64 && (← Word.shiftRight value room) != 0 then updateWordRange w (words a) n m s
      else
        let hole ← Word.shiftLeft (← Word.mask room (0 - 1)) m
        return sparse w ((v &&& ~~~hole) ||| (← Word.shiftLeft value m))
  | wide w ws => updateWordRange w ws n m s

/-! ### Repetition -/

def repeatWord (v : UInt64) (size : Int) : Nat → UInt64 → Result UInt64
  | 0, acc => .ok acc
  | k + 1, acc => do repeatWord v size k ((← Word.shiftLeft acc size) ||| v)

/-- Repeats the bits of a number. -/
def repeatNat (n : Nat) (size : Nat) : Nat → Nat → Nat
  | 0, acc => acc
  | k + 1, acc => repeatNat n size k (acc * 2 ^ size + n)

/-- Repeats the bits of a vector through its number. -/
def replicateWide (w : Nat) (n : Nat) (i : Int) : Result Bits :=
  wideOfInt (w * i) (repeatNat n w (i - 1).toNat n)

/-- A number of copies of a vector. -/
def replicate (a : Bits) (i : Int) : Result Bits :=
  match a with
  | small w v =>
    if w * i ≤ 64 then do mkSmall (w * i) (← repeatWord v w (i - 1).toNat v)
    else replicateWide w v.toNat i
  | sparse w v => replicateWide w v.toNat i
  | wide w ws => replicateWide w (joinWords ws) i

end Jib.Bits
