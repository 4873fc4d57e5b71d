import Jib.Fault

/-!
# Name encoding

Arbitrary names are written with letters, digits and underscores only.  A name starts with `z`; a
character that may not stand for itself is written as `z` and a code character.
-/

namespace Jib.Mangle

def mark : Char := 'z'

/-- The code of one character. -/
def encodeChar (c : Char) : List Char :=
  let n := c.toNat
  if n ≤ 41 then [mark, Char.ofNat (n + 16)]
  else if n ≤ 47 then [mark, Char.ofNat (n + 23)]
  else if 57 < n && n ≤ 64 then [mark, Char.ofNat (n + 13)]
  else if (90 < n && n ≤ 94) || n == 96 then [mark, Char.ofNat (n - 13)]
  else if n == 122 then [mark, mark]
  else if 122 < n && n ≤ 126 then [mark, Char.ofNat (n - 39)]
  else [c]

def encodeChars (cs : List Char) : List Char := mark :: cs.flatMap encodeChar

def encode (s : String) : String := String.ofList (encodeChars s.toList)

/-- The character with a number, which has to be that of a byte. -/
def byteChar (n : Int) : Result Char :=
  if 0 ≤ n && n < 256 then .ok (Char.ofNat n.toNat)
  else .error (.badValue (some "chr() arg not in range(256)"))

/-- The character that a code character behind a mark stands for. -/
def decodeChar (c : Char) : Result Char :=
  let n : Int := c.toNat
  if n ≤ 57 then byteChar (n - 16)
  else if n ≤ 70 then byteChar (n - 23)
  else if n ≤ 77 then byteChar (n - 13)
  else if n ≤ 83 then byteChar (n + 13)
  else if n == 122 then .ok mark
  else byteChar (n + 39)

/-- Decodes what follows the first character; a mark at the end is dropped. -/
def decodeChars : List Char → Result (List Char)
  | [] => .ok []
  | [c] => .ok (if c == mark then [] else [c])
  | c :: d :: cs =>
    if c == mark then do return (← decodeChar d) :: (← decodeChars cs)
    else do return c :: (← decodeChars (d :: cs))

def decode (s : String) : Result String := do
  return String.ofList (← decodeChars (s.toList.drop 1))

end Jib.Mangle
