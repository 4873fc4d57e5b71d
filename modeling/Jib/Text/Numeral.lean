import Jib.Fault

/-!
# Reading numerals

A numeral is an optional sign and digits, with blanks around it and single underscores between
digits.  Blanks are the blank characters of the first 256 code points.
-/

namespace Jib.Text

def isBlank (c : Char) : Bool :=
  let n := c.toNat
  (9 ≤ n && n ≤ 13) || (28 ≤ n && n ≤ 32) || n == 0x85 || n == 0xa0

/-- The text without blanks at its ends. -/
def strip (cs : List Char) : List Char :=
  ((cs.dropWhile isBlank).reverse.dropWhile isBlank).reverse

def digitValue (c : Char) : Option Nat :=
  if '0' ≤ c && c ≤ '9' then some (c.toNat - 48)
  else if 'a' ≤ c && c ≤ 'z' then some (c.toNat - 87)
  else if 'A' ≤ c && c ≤ 'Z' then some (c.toNat - 55)
  else none

/-- Digits in a base with single underscores between them; `before` says that a digit came last. -/
def readDigits (base : Nat) : List Char → Bool → Nat → Option Nat
  | [], before, n => if before then some n else none
  | '_' :: cs, before, n => if before then readDigits base cs false n else none
  | c :: cs, _, n =>
    match digitValue c with
    | some d => if d < base then readDigits base cs true (n * base + d) else none
    | none => none

/-- A signed numeral in base ten. -/
def readInt? (s : String) : Option Int :=
  match strip s.toList with
  | '-' :: cs => (readDigits 10 cs false 0).map (fun n => -(n : Int))
  | '+' :: cs => (readDigits 10 cs false 0).map (fun n => (n : Int))
  | cs => (readDigits 10 cs false 0).map (fun n => (n : Int))

def isZeros (cs : List Char) : Bool := cs.all (fun c => c == '0' || c == '_')

/-- Digits whose base is told by a mark: `0x`, `0o`, `0b`, or none for base ten.  Without a mark
only zero may start with a zero digit. -/
def readMarked : List Char → Option Nat
  | '0' :: m :: cs =>
    let base := if m == 'x' || m == 'X' then some 16
      else if m == 'o' || m == 'O' then some 8
      else if m == 'b' || m == 'B' then some 2
      else none
    match base with
    | some b =>
      match cs with
      | '_' :: ds => readDigits b ds false 0
      | ds => readDigits b ds false 0
    | none => if isZeros (m :: cs) then readDigits 10 ('0' :: m :: cs) false 0 else none
  | cs => readDigits 10 cs false 0

/-- A signed numeral in the base that its mark tells. -/
def readMarkedInt? (s : String) : Option Int :=
  match strip s.toList with
  | '-' :: cs => (readMarked cs).map (fun n => -(n : Int))
  | '+' :: cs => (readMarked cs).map (fun n => (n : Int))
  | cs => (readMarked cs).map (fun n => (n : Int))

end Jib.Text
