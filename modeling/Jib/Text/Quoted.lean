/-!
# Quoted text

The written form of a byte string: single quotes unless the text holds a single quote and no double
quote, a backslash before the quote in use and before a backslash, short escapes for tab, newline
and return, and two hexadecimal digits for any other character that does not print.
-/

namespace Jib.Text

def hexDigit (n : Nat) : Char :=
  if n < 10 then Char.ofNat (48 + n) else Char.ofNat (87 + n)

/-- Characters below 256 that a quoted text shows as they are. -/
def isPrinting (c : Char) : Bool :=
  let n := c.toNat
  (32 ≤ n && n < 127) || (161 ≤ n && n != 173)

def escapeChar (quote : Char) (c : Char) : List Char :=
  if c == quote || c == '\\' then ['\\', c]
  else if c == '\n' then ['\\', 'n']
  else if c == '\r' then ['\\', 'r']
  else if c == '\t' then ['\\', 't']
  else if isPrinting c then [c]
  else ['\\', 'x', hexDigit (c.toNat / 16 % 16), hexDigit (c.toNat % 16)]

def quoteFor (cs : List Char) : Char :=
  if cs.contains '\'' && !cs.contains '"' then '"' else '\''

/-- The quoted form of a text. -/
def quoted (s : String) : String :=
  let cs := s.toList
  let q := quoteFor cs
  String.ofList (q :: cs.flatMap (escapeChar q) ++ [q])

/-- The quoted form, or `None` where there is no text. -/
def quoted? : Option String → String
  | none => "None"
  | some s => quoted s

/-- A parenthesised sequence; a single element keeps a comma. -/
def tupleText : List String → String
  | [] => "()"
  | [x] => "(" ++ x ++ ",)"
  | xs => "(" ++ ", ".intercalate xs ++ ")"

/-- A bracketed sequence. -/
def listText (xs : List String) : String :=
  "[" ++ ", ".intercalate xs ++ "]"

/-- Lowercase digits of a number in base sixteen, without leading zeros. -/
def hexDigits (n : Nat) : String := String.ofList (Nat.toDigits 16 n)

def binDigits (n : Nat) : String := String.ofList (Nat.toDigits 2 n)

/-- Removes every leading character for which the test holds. -/
def dropLeading (p : Char → Bool) (s : String) : String :=
  String.ofList (s.toList.dropWhile p)

end Jib.Text
