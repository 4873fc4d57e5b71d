/-!
# Byte sequences

Numbers as bytes in both orders, texts with one character for each byte, and hexadecimal text.
-/

namespace Jib

abbrev Bytes := List UInt8

namespace Bytes

/-- The number that bytes spell, lowest byte first. -/
def toNatLow : Bytes → Nat
  | [] => 0
  | b :: bs => b.toNat + 256 * toNatLow bs

/-- The lowest `n` bytes of a number, lowest first. -/
def ofNatLow : Nat → Nat → Bytes
  | 0, _ => []
  | n + 1, v => (v % 256).toUInt8 :: ofNatLow n (v / 256)

/-- The lowest `n` bytes of a number, highest first. -/
def ofNatHigh (n v : Nat) : Bytes := (ofNatLow n v).reverse

/-- The text with one character for each byte. -/
def text (bs : Bytes) : String := String.ofList (bs.map (fun b => Char.ofNat b.toNat))

/-- The bytes of a text whose characters are all below 256. -/
def ofText (s : String) : Bytes := s.toList.map (fun c => c.toNat.toUInt8)

def hexDigit (n : Nat) : Char := if n < 10 then Char.ofNat (48 + n) else Char.ofNat (87 + n)

def hex (bs : Bytes) : String :=
  String.ofList (bs.flatMap (fun b => [hexDigit (b.toNat / 16), hexDigit (b.toNat % 16)]))

def digitOf? (c : Char) : Option Nat :=
  if '0' ≤ c && c ≤ '9' then some (c.toNat - 48)
  else if 'a' ≤ c && c ≤ 'f' then some (c.toNat - 87)
  else if 'A' ≤ c && c ≤ 'F' then some (c.toNat - 55)
  else none

def ofHexChars? : List Char → Option Bytes
  | [] => some []
  | c :: d :: cs => do
    let hi ← digitOf? c
    let lo ← digitOf? d
    return (16 * hi + lo).toUInt8 :: (← ofHexChars? cs)
  | _ => none

def ofHex? (s : String) : Option Bytes := ofHexChars? s.toList

/-- Zeros that bring a length to a multiple of four. -/
def padding (length : Nat) : Bytes := List.replicate ((4 - length % 4) % 4) 0

/-- The offset at which `needle` first occurs, counted from `start`. -/
def find? (needle : Bytes) (start : Nat) : Bytes → Option Nat
  | [] => if needle.isEmpty then some start else none
  | b :: bs => if needle.isPrefixOf (b :: bs) then some start else find? needle (start + 1) bs

/-- The bytes from an offset up to the next zero byte, if there is one. -/
def cString? (bs : Bytes) (offset : Nat) : Option Bytes :=
  let rest := bs.drop offset
  if rest.contains 0 then some (rest.takeWhile (· != 0)) else none

end Bytes

end Jib
