import Jib.Syntax.Token
import Jib.Syntax.Tree
import Jib.Text.Numeral

/-!
# Reading syntax trees

A reader takes tokens from the front of the text that is left.  The first token that cannot continue
any text of the grammar is the one a fault names, and a piece that is no token at all counts only
when the reader gets there.  The readers of nested forms take a bound on the nesting; the number of
tokens is always enough, since every level uses up a token.
-/

namespace Jib

structure TokenSource where
  rest : List Token
  /-- Where cutting into tokens stopped early. -/
  stop : Option Nat

abbrev Reader := StateT TokenSource (Result)

namespace Reader

variable {α : Type}

/-- The kind of the next token, or nothing at the end of the text. -/
def peek : Reader (Option TokenKind) := do
  let s ← get
  match s.rest, s.stop with
  | t :: _, _ => pure (some t.kind)
  | [], some offset => throw (.lexical offset)
  | [], none => pure none

/-- The fault of a next token that does not fit. -/
def misfit : Reader α := do
  let _ ← peek
  throw (.grammar ((← get).rest.head?.map (·.offset)))

/-- Takes the next token, whatever it is. -/
def next : Reader Token := do
  let _ ← peek
  let s ← get
  let t :: ts := s.rest | misfit
  set { s with rest := ts }
  return t

/-- Goes on behind the next token. -/
def advance : Reader Unit := do let _ ← next

/-- Takes a token of the given kind and gives its text. -/
def take (kind : TokenKind) : Reader String := do
  if (← peek) == some kind then return (← next).text
  misfit

def expect (kind : TokenKind) : Reader Unit := do let _ ← take kind

/-- Takes the next token if it has the given kind. -/
def skip (kind : TokenKind) : Reader Bool := do
  if (← peek) != some kind then return false
  advance
  return true

def name : Reader String := take .name

def number : Reader Int := do
  let some n := Text.readInt? (← take .number) | throw .badValue
  return n

def separated (separator : TokenKind) (item : Reader α) : Nat → Reader (List α)
  | 0 => throw .internal
  | bound + 1 => do
    let x ← item
    if ← skip separator then return x :: (← separated separator item bound)
    return [x]

def many (kind : TokenKind) : Nat → Reader (List String)
  | 0 => throw .internal
  | bound + 1 => do
    let x ← take kind
    if (← peek) == some kind then return x :: (← many kind bound)
    return [x]

/-- A type, or a function type whose two sides the given reader reads. -/
def withArrow (side : Reader TypeExpr) : Reader TypeExpr := do
  let t ← side
  if ← skip .arrow then return .function t (← side)
  return t

def parenthesised (inner : Reader α) : Reader α := do
  expect .openParen
  let x ← inner
  expect .closeParen
  return x

def braced (inner : Reader α) : Reader α := do
  expect .openBrace
  let x ← inner
  expect .closeBrace
  return x

def simpleType : Nat → Reader TypeExpr
  | 0 => throw .internal
  | bound + 1 => do
    match ← peek with
    | some .name => return .named (← name)
    | some (.symbol '(' _) =>
      return .tuple (← parenthesised (separated .comma (withArrow (simpleType bound)) bound))
    | some (.typeKeyword "enum") =>
      advance
      return .enum (← name)
    | some (.typeKeyword "union") =>
      advance
      return .union (← name)
    | some (.typeKeyword "struct") =>
      advance
      return .struct (← name)
    | some (.typeKeyword "list") =>
      advance
      return .list (← simpleType bound)
    | some (.typeKeyword "vec") =>
      advance
      return .vec (← parenthesised (simpleType bound))
    | some (.typeKeyword "fvec") =>
      advance
      parenthesised do
        let n ← number
        expect .comma
        return .fvec n (← simpleType bound)
    | some (.symbol '&' _) =>
      advance
      return .ref (← parenthesised (simpleType bound))
    | _ => misfit

def type (bound : Nat) : Reader TypeExpr := withArrow (simpleType bound)

/-- Field accesses and payload accesses behind an expression. -/
def accesses : Nat → Expr → Reader Expr
  | 0, _ => throw .internal
  | bound + 1, e => do
    if ← skip .dot then accesses bound (.field e (← name) none)
    else if ← skip (.keyword "as") then accesses bound (.cast e (← name) none)
    else return e

def expr : Nat → Reader Expr
  | 0 => throw .internal
  | bound + 1 => do
    let head ← (do
      match ← peek with
      | some .name => return .var (← name) none
      | some .string => return .string (← take .string) none
      | some .number => return .number (← number) none
      | some .binary => return .bits (← take .binary) none
      | some .hexadecimal => return .bits (← take .hexadecimal) none
      | some (.keyword "undefined") =>
        advance
        expect .colon
        return .undefined (← type bound)
      | some (.symbol '(' _) =>
        advance
        expect .closeParen
        return .unit none
      | some (.symbol '&' _) =>
        advance
        return .refOf (.var (← name) none) none
      | some (.keyword "struct") =>
        advance
        let n ← name
        let field : Reader (String × Expr) := do
          let f ← name
          expect .equal
          return (f, ← expr bound)
        let (fs, es) := (← braced (separated .comma field bound)).unzip
        return .struct n fs es none
      | _ => misfit : Reader Expr)
    accesses (bound + 1) head

/-- Operands between parentheses. -/
def operands (bound : Nat) : Reader (List Expr) :=
  parenthesised (separated .comma (expr bound) bound)

/-- What may stand on the right of an assignment. -/
inductive Source where
  | expr (e : Expr)
  | operation (name : String) (args : List Expr)

/-- An expression, or an operation with its operands; operations with a type parameter are known and
left open. -/
def source (bound : Nat) : Reader Source := do
  match ← peek with
  | some .name =>
    let n ← name
    match ← peek with
    | some (.symbol '(' _) => return .operation n (← operands bound)
    | some (.symbol '<' _) =>
      advance
      let _ ← type bound
      expect .greater
      let _ ← operands bound
      throw .unfinished
    | _ => return .expr (← accesses bound (.var n none))
  | _ => return .expr (← expr bound)

/-- The initial value of a local variable; the one operation allowed makes a machine word. -/
def initial (bound : Nat) : Reader Expr := do
  match ← peek with
  | some .name =>
    let n ← name
    match ← peek with
    | some (.symbol '(' _) =>
      let value ← parenthesised number
      if n == "UINT64_C" then return .call n [.number value none] .bits none
      throw .assertion
    | _ => accesses bound (.var n none)
  | _ => expr bound

def condition (bound : Nat) : Reader Condition := do
  let behind (e : Expr) : Reader Condition := do
    if ← skip (.keyword "is") then return .isVariant e (← name)
    return .expr e
  match ← peek with
  | some .name =>
    let n ← name
    match ← peek with
    | some (.symbol '(' _) => return .comparison n (← operands bound)
    | _ => behind (← accesses bound (.var n none))
  | _ => behind (← expr bound)

/-- A statement that starts with a name: a declaration or some form of assignment. -/
def named (bound : Nat) : Reader Statement := do
  let n ← name
  match ← peek with
  | some (.symbol ':' _) =>
    advance
    let t ← type bound
    if ← skip .equal then return .declare n t (some (← initial bound)) none none
    return .declare n t none none none
  | some (.symbol '*' _) =>
    advance
    expect .equal
    match ← source bound with
    | .expr e => return .setRef (.var n none) e none none
    | .operation f args => return .setTarget (.ref (.var n none) none) f args none none
  | some (.symbol '.' _) =>
    advance
    let fields ← separated .dot name bound
    expect .equal
    match ← source bound with
    | .expr e => return .setField (.var n none) fields e none none
    | .operation f args => return .setTarget (.field (.var n none) fields none) f args none none
  | _ =>
    expect .equal
    match ← source bound with
    | .expr e => return .assign n e none none
    | .operation f args => return .operation n f args none none

def positioned (inner : Reader Statement) : Reader Statement := do
  let s ← inner
  return s.withPosition (← take .position)

def statement (bound : Nat) : Reader Statement := do
  match ← peek with
  | some .name => positioned (named bound)
  | some (.keyword "jump") =>
    positioned do
      advance
      let c ← condition bound
      expect (.keyword "goto")
      return .jump c (← number) none
  | some (.keyword "exit") =>
    positioned do
      advance
      return .exit (← name) none
  | some (.keyword "end") =>
    advance
    return .finish
  | some (.keyword "arbitrary") =>
    advance
    return .arbitrary
  | some (.keyword "goto") =>
    advance
    return .goto (← number)
  | _ => misfit

/-- Statements with a semicolon behind each, up to and with the closing brace. -/
def statements (depth : Nat) : Nat → Reader (List Statement)
  | 0 => throw .internal
  | bound + 1 => do
    let s ← statement depth
    expect .semicolon
    if ← skip .closeBrace then return [s]
    return s :: (← statements depth bound)

def body (bound : Nat) : Reader (List Statement) := do
  expect .openBrace
  statements bound bound

def member (bound : Nat) : Reader (String × TypeExpr) := do
  let n ← name
  expect .colon
  return (n, ← type bound)

/-- Names with types, between braces. -/
def members (bound : Nat) : Reader (List String × List TypeExpr) := do
  return (← braced (separated .comma (member bound) bound)).unzip

def declaration (bound : Nat) : Reader Declaration := do
  match ← peek with
  | some (.keyword "enum") =>
    advance
    let n ← name
    return .enum n (← braced (separated .comma name bound))
  | some (.keyword "union") =>
    advance
    let n ← name
    let (ns, ts) ← members bound
    return .union n ns ts
  | some (.keyword "struct") =>
    advance
    let n ← name
    let (ns, ts) ← members bound
    return .struct n ns ts
  | some (.keyword "val") =>
    advance
    let n ← name
    if ← skip .equal then
      let definition ← take .string
      expect .colon
      return .value n (some definition) (← type bound) none
    expect .colon
    return .value n none (← type bound) none
  | some (.keyword "abstract") =>
    advance
    let n ← name
    expect .equal
    let definition ← take .string
    expect .colon
    return .abstract n definition (← type bound) none
  | some (.keyword "fn") =>
    advance
    let n ← name
    let args ← parenthesised (separated .comma name bound)
    return .function n args (← body bound) none
  | some (.keyword "register") =>
    advance
    let (n, t) ← member bound
    if (← peek) == some .openBrace then return .register n t (some (← body bound)) none
    return .register n t none none
  | some (.keyword "let") =>
    advance
    let (n, t) ← parenthesised (member bound)
    return .constant n t (← body bound) none
  | some (.symbol '#' _) =>
    advance
    let n ← name
    return .pragma n (← many .name bound)
  | some (.keyword "files") =>
    advance
    return .files (← many .string bound)
  | _ => misfit

/-- One or more declarations, up to the end of the text. -/
def declarations (depth : Nat) : Nat → Reader (List Declaration)
  | 0 => throw .internal
  | bound + 1 => do
    let d ← declaration depth
    if (← peek).isNone then return [d]
    return d :: (← declarations depth bound)

end Reader

def readText {α : Type} (reader : Nat → Reader α) (s : String) : Result α := do
  let (tokens, stop) := Token.scan s
  let (x, _) ← (reader (tokens.length + 1)).run ⟨tokens, stop⟩
  return x

namespace Declaration

def readAll (s : String) : Result (List Declaration) :=
  readText (fun bound => Reader.declarations bound bound) s

end Declaration

namespace Expr

/-- Reads a text that is a single expression. -/
def read (s : String) : Result Expr :=
  readText (fun bound => do
    let e ← Reader.expr bound
    if (← Reader.peek).isSome then Reader.misfit
    return e) s

end Expr

end Jib
