import Jib.Integer.Basic

/-!
# Making bit vectors

Each form has conditions on its width and its words, which are checked where a vector is made.
-/

namespace Jib.Bits

/-- The word form; the value has to fit the width. -/
def mkSmall (width : Int) (w : UInt64) : Result Bits :=
  if width < 0 then .error .assertion
  else if width < 64 && Word.shr w width.toNat != 0 then .error .assertion
  else .ok (small width.toNat w)

/-- The word form with the value cut to the width. -/
def mkMasked (width : Int) (w : UInt64) : Result Bits :=
  if width < 0 then .error .assertion else do return small width.toNat (← Word.mask width w)

/-- The sparse form, for widths above 64. -/
def mkSparse (width : Int) (w : UInt64) : Result Bits :=
  if width > 64 then .ok (sparse width.toNat w) else .error .assertion

/-- Whether a word list has the right length for a width and no bit above it. -/
def fits (width : Nat) (ws : List UInt64) : Bool :=
  ws.length == wordCount width
    && (width % 64 == 0 || Word.shr (ws.getLastD 0) (width % 64) == 0)

/-- The form with a word list; no bit above the width may be set. -/
def mkWide (width : Int) (ws : List UInt64) : Result Bits :=
  if width < 0 then .error .assertion
  else if fits width.toNat ws then .ok (wide width.toNat ws) else .error .assertion

/-- The form with a word list, whose highest word is cut to the width. -/
def mkWideMasked (width : Int) (ws : List UInt64) : Result Bits := do
  if width < 0 then throw .assertion
  let i := (width - 1) / 64
  let top ← Digits.get ws i
  let cut := Word.low ((width - 1) % 64 + 1).toNat top
  mkWide width (← Digits.set ws i cut)

/-- A vector whose value is one word. -/
def ofWord (width : Int) (w : UInt64) : Result Bits :=
  if width ≤ 64 then mkMasked width w else mkSparse width w

/-- The word-list form of a number modulo two to the width. -/
def wideOfInt (width : Int) (n : Int) : Result Bits := do
  mkWide width (← Integer.toWordsChecked width n)

/-- A vector from a number: one word up to 64 bits, a word list above. -/
def ofInt (width : Int) (n : Int) : Result Bits :=
  if width ≤ 64 then mkMasked width (Integer.extractWord n 0) else wideOfInt width n

/-- The words of a vector, as many as its width takes. -/
def words : Bits → List UInt64
  | small _ v => [v]
  | sparse w v => v :: List.replicate (wordCount w - 1) 0
  | wide _ ws => ws

end Jib.Bits
