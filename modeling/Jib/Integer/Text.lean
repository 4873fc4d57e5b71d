import Jib.Integer.Basic
import Jib.Text.Quoted

/-!
# Integers as text

Decimal and hexadecimal numerals of integers, and the reading of decimal numerals.
-/

namespace Jib.Integer

def decimal (z : Integer) : String := toString z.spelled

/-- Hexadecimal digits of a word, lowest first; a fixed number of them. -/
def nibbles : Nat → UInt64 → List Char
  | 0, _ => []
  | k + 1, d => Nat.digitChar (d.toNat % 16) :: nibbles k (Word.shr d 4)

/-- Hexadecimal digits of a word, lowest first, without leading zeros but at least one. -/
def topNibbles : Nat → UInt64 → List Char
  | 0, _ => []
  | k + 1, d =>
    let rest := Word.shr d 4
    Nat.digitChar (d.toNat % 16) :: (if rest == 0 then [] else topNibbles k rest)

/-- Hexadecimal digits of a digit list, lowest first. -/
def hexChars : List UInt64 → List Char
  | [] => []
  | [d] => topNibbles 16 d
  | d :: ds => nibbles 16 d ++ hexChars ds

/-- The hexadecimal numeral of digits with a sign.  It is written from its end into a buffer with
room for sixteen places a digit, the base mark and a sign; running out of room is refused. -/
def hexOfDigits (sign : Int) (ds : List UInt64) : Result String :=
  let room := ds.length * 16 + (if sign == -1 then 1 else 0) + 2
  let chars := hexChars ds ++ ['x', '0'] ++ (if sign == -1 then ['-'] else [])
  if chars.length ≤ room then .ok (String.ofList chars.reverse) else .error .assertion

/-- The hexadecimal numeral of a machine integer. -/
def hexOfWord (n : Int) : String :=
  (if n < 0 then "-0x" else "0x") ++ Text.hexDigits n.natAbs

/-- The hexadecimal numeral. -/
def hex : Integer → Result String
  | small n => .ok (hexOfWord n.toInt)
  | big s ds => hexOfDigits s ds

/-- The text that names the form and the value. -/
def describe : Integer → String
  | small n => "<SmallInteger " ++ toString n.toInt ++ ">"
  | z => "<BigInteger " ++ z.decimal ++ ">"

end Jib.Integer
