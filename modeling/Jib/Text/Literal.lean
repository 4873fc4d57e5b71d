import Jib.Text.Numeral

/-!
# Text literals

What a literal between double quotes stands for.  A backslash starts an escape; before a character
that needs none it stands for itself.  A literal ends on the line on which it starts, unless a
backslash stands at the end of that line.
-/

namespace Jib.Text

/-- The number that a fixed count of digits spells at the start of a text. -/
def fixedDigits (base : Nat) : Nat → List Char → Nat → Option (Nat × List Char)
  | 0, cs, n => some (n, cs)
  | count + 1, c :: cs, n =>
    match digitValue c with
    | some d => if d < base then fixedDigits base count cs (n * base + d) else none
    | none => none
  | _ + 1, [], _ => none

/-- The number that at most a count of octal digits spells at the start of a text. -/
def octalDigits : Nat → List Char → Nat → Nat × List Char
  | count + 1, c :: cs, n =>
    if '0' ≤ c && c ≤ '7' then octalDigits count cs (n * 8 + (c.toNat - 48)) else (n, c :: cs)
  | _, cs, n => (n, cs)

/-- What an escape stands for and what follows it; the text starts behind the backslash. -/
def escape : List Char → Option (List Char × List Char)
  | '\n' :: cs => some ([], cs)
  | '\\' :: cs => some (['\\'], cs)
  | '\'' :: cs => some (['\''], cs)
  | '"' :: cs => some (['"'], cs)
  | 'a' :: cs => some ([Char.ofNat 7], cs)
  | 'b' :: cs => some ([Char.ofNat 8], cs)
  | 'f' :: cs => some ([Char.ofNat 12], cs)
  | 'n' :: cs => some (['\n'], cs)
  | 'r' :: cs => some (['\r'], cs)
  | 't' :: cs => some (['\t'], cs)
  | 'v' :: cs => some ([Char.ofNat 11], cs)
  | 'x' :: cs => (fixedDigits 16 2 cs 0).map (fun (n, rest) => ([Char.ofNat n], rest))
  | 'u' :: cs => (fixedDigits 16 4 cs 0).map (fun (n, rest) => ([Char.ofNat n], rest))
  | 'U' :: cs => (fixedDigits 16 8 cs 0).map (fun (n, rest) => ([Char.ofNat n], rest))
  | 'N' :: _ => none
  | c :: cs =>
    if '0' ≤ c && c ≤ '7' then
      let (n, rest) := octalDigits 3 (c :: cs) 0
      some ([Char.ofNat n], rest)
    else some (['\\', c], cs)
  | [] => none

/-- Replaces escapes; every step takes at least one character. -/
def unescape : Nat → List Char → Option (List Char)
  | 0, _ => none
  | _ + 1, [] => some []
  | steps + 1, '\\' :: cs => do
    let (first, rest) ← escape cs
    return first ++ (← unescape steps rest)
  | steps + 1, c :: cs =>
    if c == '\n' || c == '\r' || c == Char.ofNat 0 then none
    else do return c :: (← unescape steps cs)

/-- The text that a literal with its quotes stands for. -/
def literal? (s : String) : Option String :=
  let cs := (s.toList.drop 1).dropLast
  (unescape (cs.length + 1) cs).map String.ofList

/-- The number that a marked literal in base two or sixteen stands for. -/
def bitsLiteral (s : String) : Nat :=
  let digits := s.toList.drop 2
  let base := if s.startsWith "0b" then 2 else 16
  digits.foldl (fun n c => n * base + (digitValue c).getD 0) 0

end Jib.Text
