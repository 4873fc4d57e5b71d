import Jib.Code.Line
import Jib.Graph.Construction
import Jib.Graph.Split
import Jib.Syntax.Printer

/-!
# The state of a compilation

Compiling walks over the declarations and writes lines into three parts of the program:
declarations, the code that sets constants, and functions.  A declaration that fails leaves what it
has written so far, and the part that it was writing to stays the current one.
-/

namespace Jib

/-- The parts of a program; lines written while nothing is kept are lost. -/
inductive ProgramPart where
  | declarations
  | constants
  | functions
  | nothing
  deriving BEq, DecidableEq, Repr, Inhabited

/-- Where a written value goes. -/
inductive WriteTarget where
  | field (packing : Packing) (object : Code.Expr) (name : String)
  | variable (name : String)
  deriving Repr, Inhabited

/-- What declared a name. -/
inductive Origin where
  | builtin
  | value (definition : Option String) (written : TypeExpr) (type : Option Ty)
  | abstract
  | union
  | other
  deriving Repr, Inhabited

structure NameInfo where
  /-- How the name is written where it is read or called. -/
  read : Code.Expr
  type : Option Ty
  origin : Origin
  write : Option WriteTarget
  deriving Repr, Inhabited

/-- What a helper declaration was made for. -/
inductive HelperKey where
  | type (t : Ty)
  | types (a b : Ty)
  | text (s : String)
  deriving BEq, Repr, Inhabited

/-- What a graph is written as. -/
inductive Job where
  | function (name : String) (args : List String) (type : Ty) (target : String)
  | method (name : String) (args : List String) (type : Ty) (target cls : String)
  | version (target : String) (args : List String)
  deriving Repr, Inhabited

structure Compilation where
  session : Session := {}
  names : Table String NameInfo := {}
  /-- Classes and types by the name of their declaration. -/
  types : Table String (String × Ty) := {}
  tuples : List String := []
  seenTypes : List Ty := []
  /-- Values that stand for unset values of declared types. -/
  defaults : Std.HashMap Ty Code.Expr := ∅
  /-- The classes of list and tuple types. -/
  classNames : Std.HashMap Ty String := ∅
  helpers : Std.HashMap String (List (HelperKey × String)) := ∅
  counters : Std.HashMap String Nat := ∅
  /-- The names of the function that is being written. -/
  locals : Option (Table String Ty) := none
  declarations : Array Code.Placed := #[]
  constants : Array Code.Placed := #[]
  functions : Array Code.Placed := #[]
  level : Nat := 0
  part : ProgramPart := .functions
  nextElement : Nat := 0
  promoted : List String := []
  registers : List String := []
  /-- Constants with a known value. -/
  known : Table String ValueId := {}
  jobs : Array (GraphId × Job) := #[]
  entryPoints : Option (List String) := none
  /-- Whether all text written so far can be read back. -/
  readable : Bool := true
  deriving Inhabited

/-- Steps of a compilation; a failure keeps what was written before it. -/
abbrev CompileM := EStateM Fault Compilation

namespace Compile

def check (c : Bool) : CompileM Unit := if c then pure () else throw .assertion

def ofOption {α : Type} (e : Fault) : Option α → CompileM α
  | some a => pure a
  | none => throw e

def inSession {α : Type} (x : SessionM α) : CompileM α := fun c =>
  let s := c.session
  let c := { c with session := default }
  match x s with
  | .ok r s => .ok r { c with session := s }
  | .error e s => .error e { c with session := s }

/-! ### Writing lines -/

def push (p : Code.Placed) : CompileM Unit :=
  modify fun c =>
    match c.part with
    | .declarations => { c with declarations := c.declarations.push p }
    | .constants => { c with constants := c.constants.push p }
    | .functions => { c with functions := c.functions.push p }
    | .nothing => c

/-- Writes a line; definitions at the outermost level have a blank line before them. -/
def emit (l : Code.Line) : CompileM Unit := do
  let level := (← get).level
  if level == 0 && l.startsDefinition then push ⟨0, .blank⟩
  push ⟨level, l⟩

def emitText (s : String) : CompileM Unit := emit (.inert s)

/-- Changes how deep lines are indented. -/
def level (f : Nat → Nat) : CompileM Unit := modify (fun c => { c with level := f c.level })

/-- Writes lines one level deeper. -/
def indented {α : Type} (x : CompileM α) : CompileM α := do
  level (· + 1)
  let r ← x
  level (· - 1)
  return r

/-- A line and the lines below it. -/
def under {α : Type} (l : Code.Line) (x : CompileM α) : CompileM α := do
  emit l
  indented x

def underText {α : Type} (s : String) (x : CompileM α) : CompileM α := under (.inert s) x

/-- Writes lines to another part of the program. -/
def inPart {α : Type} (part : ProgramPart) (x : CompileM α) : CompileM α := do
  let level := (← get).level
  let outer := (← get).part
  modify (fun c => { c with level := 0, part := part })
  let r ← x
  check ((← get).level == 0)
  modify (fun c => { c with level := level, part := outer })
  return r

/-- The name of a helper declaration, which is written when it is needed first. -/
def helper (key : HelperKey) (base : String) (body : String → CompileM Unit) : CompileM String := do
  let c ← get
  let known := c.helpers.getD base []
  if let some (_, name) := known.find? (fun e => e.1 == key) then
    inPart .nothing (body name)
    return name
  let n := c.counters.getD base 0 + 1
  let name := base ++ "_" ++ toString n
  modify (fun c => { c with
    counters := c.counters.insert base n
    helpers := c.helpers.insert base ((key, name) :: known) })
  inPart .declarations (body name)
  return name

/-! ### Names -/

/-- Runs in a scope with no local names. -/
def inScope {α : Type} (x : CompileM α) : CompileM α := do
  let outer := (← get).locals
  modify (fun c => { c with locals := some {} })
  let r ← x
  modify (fun c => { c with locals := outer })
  return r

def addLocal (name : String) (t : Ty) : CompileM Unit :=
  modify (fun c => { c with locals := c.locals.map (·.insert name t) })

/-- Whether a declaration repeats one that is known. -/
def repeats (new old : Origin) : Bool :=
  match new, old with
  | .value d w _, .value d' w' _ => d == d' && w.text == w'.text
  | _, _ => false

/-- Adds a name; only a repetition of the same declaration may name it again. -/
def addName (name : String) (info : NameInfo) : CompileM Unit := do
  match (← get).names.get? name with
  | some old => check (repeats info.origin old.origin)
  | none => modify (fun c => { c with names := c.names.insert name info })

def addNamedType (name cls : String) (t : Ty) : CompileM Unit := do
  check (!(← get).types.contains name)
  modify (fun c => { c with types := c.types.insert name (cls, t) })

def namedType (name : String) : CompileM (String × Ty) := do
  ofOption .missingKey ((← get).types.get? name)

def globalInfo (name : String) : CompileM NameInfo := do
  ofOption .missingKey ((← get).names.get? name)

/-- How a name is known where it is used; local names come first. -/
def info (name : String) : CompileM NameInfo := do
  let some t := (← get).locals.bind (·.get? name) | globalInfo name
  return ⟨.local name, some t, .other,
    some (.variable (if name == "return" then "return_" else name))⟩

/-- How a name is written where it is used. -/
def nameText (name : String) : CompileM Code.Expr := do return (← info name).read

/-! ### Values of types -/

end Compile

/-- The expression for an unset value of a type. -/
def Compilation.defaultOf (c : Compilation) : Ty → Code.Expr
  | .bool => .bool false
  | .int => .unsetInt
  | .machineInt => .unsetMachineInt
  | .unit => .unit
  | .string | .real | .null | .fvec .. | .list _ => .none
  | .bits => .unsetBits
  | .smallBits _ => .word 0 "0"
  | .bigBits w => .zeroBits w
  | .enum .. => .int (-1)
  | .vec _ | .ref _ | .function .. | .unknown => .unsetText
  | t => c.defaults.getD t .unsetText

namespace Compile

def defaultOf (t : Ty) : CompileM Code.Expr := return (← get).defaultOf t

def setDefault (t : Ty) (e : Code.Expr) : CompileM Unit :=
  modify (fun c => { c with defaults := c.defaults.insert t e })

/-- The comparison of two values of a type. -/
def equality (t : Ty) (a b : Code.Expr) : Code.Expr :=
  match t with
  | .smallBits _ | .bool | .enum .. | .string => .equal a b
  | .bits | .bigBits _ | .int | .union .. | .struct .. | .tuple _ => .method a "eq" [b]
  | .machineInt => .arith "==" a b
  | .unit => .bool true
  | .ref _ => .mismatch []
  | .real => .call (.support "eq_real") [a, b]
  | .list _ => match b with
    | .none => .relate .same a .none
    | _ => .mismatch []
  | t => .mismatch [a.render, b.render, t.text]

/-- The test whether two values of a type differ. -/
def difference (t : Ty) (a b : Code.Expr) : Code.Expr := .negate (.parens (equality t a b))

end Compile

/-- Operations that are known by a name of their own. -/
def builtinForms : List String := [
  "vector_subrange_fixed_bv_i_i", "vector_update_subrange_fixed_bv_i_i_bv", "slice_fixed_bv_i_i",
  "vector_subrange_o_i_i_unwrapped_res", "vector_slice_o_i_i_unwrapped_res",
  "helper_vector_update_inplace_o_i_o", "eq_bits", "eq_bits_bv_bv", "neq_bits_bv_bv", "eq_int_o_i",
  "eq_int_i_i", "add_i_i_wrapped_res", "add_i_i_must_fit", "add_o_i_wrapped_res",
  "sub_i_i_wrapped_res", "sub_i_i_must_fit", "sub_o_i_wrapped_res", "sub_i_o_wrapped_res",
  "mult_i_i_wrapped_res", "mult_i_i_must_fit", "mult_o_i_wrapped_res", "ediv_int_i_ipos",
  "tdiv_int_i_i", "unsigned_bv64_rshift_int_result", "shl_int_i_i_wrapped_res",
  "shl_int_i_i_must_fit", "get_slice_int_i_o_i_unwrapped_res", "get_slice_int_i_i_i",
  "xor_vec_bv_bv", "or_vec_bv_bv", "and_vec_bv_bv", "not_vec_bv", "bitvector_concat_bv_bv",
  "signed_bv", "unsigned_bv_wrapped_res", "unsigned_bv", "zero_extend_bv_i_i",
  "zero_extend_o_i_unwrapped_res", "sign_extend_bv_i_i", "sign_extend_o_i_unwrapped_res",
  "vector_access_bv_i", "add_bits_bv_bv", "add_bits_int_bv_i", "sub_bits_bv_bv",
  "sub_bits_int_bv_i", "shiftl_bv_i", "shiftr_bv_i", "arith_shiftr_bv_i", "length_unwrapped_res",
  "truncate_bv_i", "replicate_bv_i_i", "platform_read_mem_o_i_bv_i"]

def machineField (name : String) : Code.Expr := .read .plain .machine name

/-- The names that are known before the first declaration. -/
def initialNames : List (String × NameInfo) :=
  let builtin (name : String) (e : Code.Expr) (t : Option Ty) : String × NameInfo :=
    (name, ⟨e, t, .builtin, none⟩)
  let forms := Primitive.wordForms.filterMap (fun (n, _) => (Primitive.wordForm? n).map (·.2))
  let slot (name : String) (t : Ty) : String × NameInfo :=
    (name, ⟨machineField name, some t, .builtin, some (.field .plain .machine name)⟩)
  (forms ++ builtinForms).map (fun n => builtin ("@" ++ n) (.support n) none)
    ++ [builtin "false" (.bool false) (some .bool), builtin "true" (.bool true) (some .bool),
      builtin "bitzero" (.word 0 "0") (some (.smallBits 1)),
      builtin "bitone" (.word 1 "1") (some (.smallBits 1)),
      builtin "$zupdate_fbits" (.support "zupdate_fbits") none,
      builtin "zsail_assert" (.support "sail_assert") none,
      builtin "UINT64_C" (.support "uint64c") none, builtin "NULL" .none none,
      slot "have_exception" .bool, slot "throw_location" .string]

end Jib
