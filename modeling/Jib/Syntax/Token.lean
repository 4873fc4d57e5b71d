import Jib.Fault

/-!
# Tokens

A text is cut into tokens from left to right.  At each place the kinds of tokens are tried in one
fixed order and the first kind that fits is taken, even where a later kind would fit a longer piece;
so a word that starts with a keyword is cut behind that keyword.  Spaces and newlines between tokens
are skipped.
-/

namespace Jib

inductive TokenKind where
  /-- A keyword of the language, in lower case. -/
  | keyword (word : String)
  /-- A type keyword, without the percent sign that starts it. -/
  | typeKeyword (word : String)
  | binary
  | hexadecimal
  | number
  | name
  | string
  | arrow
  /-- A position in the source, from a backquote up to the next semicolon. -/
  | position
  /-- A single character that stands for itself, with the name of its kind. -/
  | symbol (c : Char) (label : String)
  deriving BEq, DecidableEq, Repr, Inhabited

structure Token where
  kind : TokenKind
  text : String
  offset : Nat
  deriving BEq, DecidableEq, Repr, Inhabited

namespace TokenKind

def keywords : List String :=
  ["enum", "union", "struct", "val", "abstract", "fn", "end", "arbitrary", "exit", "goto", "jump",
    "register", "is", "as", "let", "undefined", "files"]

def typeKeywords : List String := ["enum", "union", "struct", "vec", "fvec", "list"]

def openParen : TokenKind := symbol '(' "LPAREN"
def closeParen : TokenKind := symbol ')' "RPAREN"
def openBrace : TokenKind := symbol '\x7b' "LBRACE"
def closeBrace : TokenKind := symbol '\x7d' "RBRACE"
def comma : TokenKind := symbol ',' "COMMA"
def colon : TokenKind := symbol ':' "COLON"
def equal : TokenKind := symbol '=' "EQUAL"
def semicolon : TokenKind := symbol ';' "SEMICOLON"
def less : TokenKind := symbol '<' "LT"
def greater : TokenKind := symbol '>' "GT"
def dot : TokenKind := symbol '.' "DOT"
def ampersand : TokenKind := symbol '&' "AMPERSAND"
def star : TokenKind := symbol '*' "STAR"
def hashMark : TokenKind := symbol '#' "HASH"

/-- All kinds, in the order in which they are tried. -/
def all : List TokenKind :=
  keywords.map keyword ++ typeKeywords.map typeKeyword
    ++ [binary, hexadecimal, number, name, string, arrow, position, openParen, closeParen,
      openBrace,
      closeBrace, comma, colon, equal, semicolon, less, greater, dot, ampersand, star, hashMark]

def label : TokenKind → String
  | keyword w => w.toUpper
  | typeKeyword w => "PERCENT" ++ w.toUpper
  | binary => "BINBITVECTOR"
  | hexadecimal => "HEXBITVECTOR"
  | number => "NUMBER"
  | name => "NAME"
  | string => "STRING"
  | arrow => "ARROW"
  | position => "SOURCEPOS"
  | symbol _ l => l

def backquote : Char := '\x60'

def isBinaryDigit (c : Char) : Bool := c == '0' || c == '1'

def isHexDigit (c : Char) : Bool :=
  c.isDigit || ('a' ≤ c && c ≤ 'f') || ('A' ≤ c && c ≤ 'F')

def isNameStart (c : Char) : Bool :=
  c.isAlpha || c == '_' || c == '%' || c == '@' || c == '$'

def isNameRest (c : Char) : Bool := c.isAlpha || c.isDigit || c == '_'

/-- The length of the run at the start of a text, counted behind `before` characters, unless the
run is empty. -/
def runLength? (before : Nat) (p : Char → Bool) (cs : List Char) : Option Nat :=
  match (cs.takeWhile p).length with
  | 0 => none
  | n => some (before + n)

def wordLength? (word : String) (cs : List Char) : Option Nat :=
  if word.toList.isPrefixOf cs then some word.length else none

/-- How long the token of this kind at the start of a text is, if there is one. -/
def length? (kind : TokenKind) (cs : List Char) : Option Nat :=
  match kind, cs with
  | keyword w, _ => wordLength? w cs
  | typeKeyword w, _ => wordLength? ("%" ++ w) cs
  | binary, '0' :: 'b' :: ds => runLength? 2 isBinaryDigit ds
  | hexadecimal, '0' :: 'x' :: ds => runLength? 2 isHexDigit ds
  | number, '-' :: ds => runLength? 1 Char.isDigit ds
  | number, ds => runLength? 0 Char.isDigit ds
  | name, c :: rest => if isNameStart c then some (1 + (rest.takeWhile isNameRest).length) else none
  | string, '"' :: rest =>
    let n := (rest.takeWhile (· != '"')).length
    if n < rest.length then some (n + 2) else none
  | arrow, _ => wordLength? "->" cs
  | position, c :: rest => if c == backquote then runLength? 1 (· != ';') rest else none
  | symbol c _, d :: _ => if c == d then some 1 else none
  | _, _ => none

end TokenKind

namespace Token

def isBlank (c : Char) : Bool := c == ' ' || c == '\n'

/-- The kind and length of the token at the start of a text. -/
def first? (cs : List Char) : Option (TokenKind × Nat) :=
  TokenKind.all.findSome? (fun k => (k.length? cs).map (fun n => (k, n)))

/-- The tokens of a text, and where cutting stopped if a piece fits no kind.  The first number
bounds the count of steps. -/
def scanFrom : Nat → List Char → Nat → List Token × Option Nat
  | 0, _, _ => ([], none)
  | _ + 1, [], _ => ([], none)
  | steps + 1, c :: cs, offset =>
    if isBlank c then scanFrom steps cs (offset + 1)
    else
      (first? (c :: cs)).elim ([], some offset) fun (kind, n) =>
        let text := String.ofList ((c :: cs).take n)
        let (tokens, stop) := scanFrom steps ((c :: cs).drop n) (offset + n)
        (⟨kind, text, offset⟩ :: tokens, stop)

/-- Cuts a text into tokens; every step takes at least one character. -/
def scan (s : String) : List Token × Option Nat :=
  let cs := s.toList
  scanFrom (cs.length + 1) cs 0

end Token

end Jib
