import Jib.Exec.Scope

/-!
# Running code

Expressions and lines are evaluated by their structure.  A function, a comparison of objects and the
like are asked for, and `Scope.answer` answers such a request with one level of depth less.
-/

namespace Jib

/-- The text of a failed assertion about a value. -/
def Datum.message : Datum → String
  | .text s => s
  | .int n | .bignum n => toString n
  | .word w => toString w.toNat
  | .bool b => if b then "True" else "False"
  | .unit => "()"
  | .none => "None"
  | .integer z => z.describe
  | .bits b => b.describe
  | _ => ""

namespace Exec

def truth (d : Datum) : RunM Bool := do
  match d with
  | .list _ => return !(← RunM.items d).isEmpty
  | d => return d.truth

/-- Arithmetic on plain numbers; it wraps around if a word takes part. -/
def arithmetic (op : String) (a b : Datum) : RunM Datum := do
  if op == "==" then return .bool (a.same b)
  match a.number?, b.number? with
  | some m, some n =>
    let give (r : Int) : Datum := match a, b with
      | .word _, _ | _, .word _ => .word (Word.ofInt r)
      | _, _ => .int r
    match op with
    | "+" => return give (m + n)
    | "-" => return give (m - n)
    | "<" => return .bool (m < n)
    | ">" => return .bool (m > n)
    | "<=" => return .bool (m ≤ n)
    | ">=" => return .bool (m ≥ n)
    | _ => throw .internal
  | _, _ => throw .internal

def related (r : Code.Relation) (a b : Datum) : Bool :=
  match r with
  | .equal => a.same b
  | .same => a == b

/-- The object of a variant that stands for an element. -/
def elementObject (s : Scope) (d : Datum) : List (Code.Expr × String) → RunM Datum
  | [] => throw (.badValue (some ""))
  | (e, cls) :: rest => do
    match e with
    | .element c n =>
      if d.same (← s.classAttribute c n) then s.classAttribute cls "singleton"
      else elementObject s d rest
    | _ => throw .internal

/-- The first class of a lineage with a shape that answers. -/
def firstShape? {α : Type} (s : Scope) (cls : String) (f : Code.ClassDef → Option α) : Option α :=
  s.inherited? cls (f ·.shape)

/-- A name of the program that stands for a class. -/
def className (s : Scope) : Code.Expr → RunM String
  | .global n => if (s.class? n).isSome then pure n else throw .internal
  | _ => throw .internal

def elementsOf? : Code.ClassDef → Option (List (Code.Expr × String))
  | .variant _ _ (.elements cases) _ _ => some cases
  | _ => none

def isVariant : Code.ClassDef → Option Unit
  | .variant .. => some ()
  | _ => none

/-- A list of equal values; a negative length is none. -/
def replicated (d count : Datum) : RunM Datum :=
  match count with
  | .int n => RunM.newList (Array.replicate n.toNat d)
  | .bool b => RunM.newList (if b then #[d] else #[])
  | _ => throw .internal

def indexed (l i : Datum) : RunM Datum := do
  let xs ← RunM.items l
  return xs.getD (← RunM.ofExcept (listPosition xs.size (← RunM.number i))) .none

mutual

/-- The value of an expression. -/
def eval (s : Scope) (ask : Answers) (env : Locals) : Code.Expr → RunM Datum
  | .local n => RunM.ofOption env[n]?
  | .global n =>
    match s.globals[n]? with
    | some (.value d) => pure d
    | _ => throw .internal
  | .support _ | .machine | .malformed _ => throw .internal
  | .bool b => pure (.bool b)
  | .int n => pure (.int n)
  | .unit => pure .unit
  | .none => pure .none
  | .text t => pure (.text t)
  | .unsetText => pure (.text "uninitialized_value")
  | .word v _ => pure (.word v)
  | .unsetMachineInt => pure (.int (-0xfefe))
  | .unsetInt => do return .integer (← RunM.ofExcept (Integer.ofWord (-0xfefee)))
  | .unsetBits => do return .bits (← RunM.ofExcept (Bits.mkSmall 42 0x42))
  | .zeroBits w => do return .bits (← RunM.ofExcept (Bits.mkSparse w 0))
  | .longInt n => pure (.integer (Integer.ofIntShort n))
  | .longBits w n => do return .bits (← RunM.ofExcept (Bits.ofInt w n))
  | .element c n => s.classAttribute c n
  | .read p o f =>
    match o with
    | .machine => do Scope.unpack p (← (Code.Expr.partNames f p).mapM RunM.slot)
    | .read .plain .machine "l" => RunM.slot ("l." ++ f)
    | _ => do
      let d ← eval s ask env o
      Scope.unpack p (← (Code.Expr.partNames f p).mapM (s.field d))
  | .promote e => eval s ask env e
  | .apply c args =>
    match c with
    | .global n =>
      match s.globals[n]? with
      | some (.cls i) => do s.construct n i (← evalList s ask env args)
      | _ => throw .internal
    | c => do
      let _ ← eval s ask env c
      let _ ← evalList s ask env args
      throw .internal
  | .call c args =>
    match c with
    | .support n => do (← RunM.ofOption (s.platform.primitive? n)) ask (← evalList s ask env args)
    | .global n =>
      match s.globals[n]? with
      | some (.function _) | some .hook => do ask (.function n (← evalList s ask env args))
      | some (.cls i) => do Scope.constructList n i (← evalList s ask env args)
      | _ => throw .internal
    | c => do
      let _ ← eval s ask env c
      let _ ← evalList s ask env args
      throw .internal
  | .singleton c => do s.classAttribute (← className s c) "singleton"
  | .construct c args => do
    match firstShape? s (← className s c) elementsOf?, ← evalList s ask env args with
    | some cases, [d] => elementObject s d cases
    | _, _ => throw .internal
  | .convert c e => do
    let n ← className s c
    if (firstShape? s n isVariant).isNone then throw .internal
    ask (.convert n (← eval s ask env e))
  | .isOther c e => do
    let d ← eval s ask env e
    return .bool (!(← s.isInstance d (← className s c)))
  | .method e n args => do
    let d ← eval s ask env e
    let ds ← evalList s ask env args
    match d with
    | .object _ => ask (.builtin n (d :: ds))
    | _ => Primitive.callMethod n (d :: ds)
  | .boxBits w e => do
    RunM.ofExcept (Primitive.fn2 Bits.ofWord [.int w, ← eval s ask env e])
  | .boxInt e => do RunM.ofExcept (Primitive.fn1 Integer.ofWord [← eval s ask env e])
  | .readInt e => do Primitive.call "string_to_int" [← eval s ask env e]
  | .compare a rest => do evalChain s ask env (← eval s ask env a) rest
  | .negate e => do return .bool (!(← truth (← eval s ask env e)))
  | .parens e => eval s ask env e
  | .arith op a b => do
    let x ← eval s ask env a
    arithmetic op x (← eval s ask env b)
  | .index l i => do
    let d ← eval s ask env l
    indexed d (← eval s ask env i)
  | .replicate e n => do
    let d ← eval s ask env e
    replicated d (← eval s ask env n)
  | .each body l => do
    let xs ← RunM.items (← eval s ask env l)
    RunM.newList (← xs.mapM (fun x => eval s ask (env.insert "x" x) body))
  | .mismatch _ => throw (.badType "")
  | .badCast m => do
    RunM.print ("INTERNAL ERROR " ++ m ++ "\n")
    throw (.badType "")

def evalList (s : Scope) (ask : Answers) (env : Locals) : List Code.Expr → RunM (List Datum)
  | [] => pure []
  | e :: es => do
    let d ← eval s ask env e
    return d :: (← evalList s ask env es)

/-- Whether each value of a chain stands in its relation to the one before it. -/
def evalChain (s : Scope) (ask : Answers) (env : Locals) (d : Datum) :
    List (Code.Relation × Code.Expr) → RunM Datum
  | [] => pure (.bool true)
  | (r, e) :: rest => do
    let x ← eval s ask env e
    if related r d x then evalChain s ask env x rest else return .bool false

end

/-! ### Lines -/

/-- How a line ended. -/
inductive Outcome where
  | next
  /-- The innermost loop goes on. -/
  | again
  | done (d : Datum)
  deriving Inhabited

/-- Repeats a body until it ends with a value. -/
def iterate (body : Locals → RunM (Locals × Outcome)) : Nat → Locals → RunM (Locals × Outcome)
  | 0, _ => throw .internal
  | n + 1, env => do
    match ← body env with
    | (env, .done d) => return (env, .done d)
    | (env, _) => iterate body n env

/-- Writes a value to a place. -/
def storeValue (s : Scope) (ask : Answers) (env : Locals) (p : Packing) (o : Code.Expr) (f : String)
    (d : Datum) : RunM Unit := do
  let parts := (Code.Expr.partNames f p).zip (← Scope.pack p d)
  match o with
  | .machine => Scope.setSlots parts
  | .read .plain .machine "l" => RunM.setSlot ("l." ++ f) d
  | o => do Scope.setFields (← eval s ask env o) parts

mutual

def exec (s : Scope) (ask : Answers) : Code.Tree → Locals → RunM (Locals × Outcome)
  | .node line body, env =>
    match line with
    | .assign n e _ => do return (env.insert n (← eval s ask env e), .next)
    | .evaluate e _ => do
      let _ ← eval s ask env e
      return (env, .next)
    | .store p o f e => do
      storeValue s ask env p o f (← eval s ask env e)
      return (env, .next)
    | .setBlock n _ => pure (env.insert "pc" (.int n), .next)
    | .again => pure (env, .again)
    | .branch c _ => do
      if ← truth (← eval s ask env c) then execAll s ask body env else return (env, .next)
    | .inBlock n => do
      if (← RunM.ofOption env["pc"]?).same (.int n) then execAll s ask body env
      else return (env, .next)
    | .forever => iterate (fun env => execAll s ask body env) s.turns env
    | .ret e _ => do return (env, .done (← eval s ask env e))
    | .dispatch m ps => do
      return (env, .done (← ask (.attached m (← ps.mapM (RunM.ofOption env[·]?)))))
    | .fail e _ => do throw (.assertion (← eval s ask env e).message)
    | _ => pure (env, .next)

def execAll (s : Scope) (ask : Answers) : List Code.Tree → Locals → RunM (Locals × Outcome)
  | [], env => pure (env, .next)
  | t :: ts, env => do
    match ← exec s ask t env with
    | (env, .next) => execAll s ask ts env
    | r => return r

end

/-! ### Answers -/

def runFunction (s : Scope) (ask : Answers) (f : Function) (args : List Datum) : RunM Datum := do
  if f.params.length != args.length then throw .internal
  match ← execAll s ask f.body (Std.HashMap.ofList (f.params.zip args)) with
  | (_, .done d) => return d
  | _ => return .none

def runOwn (s : Scope) (ask : Answers) (name : String) (args : List Datum) : RunM Datum :=
  match s.globals[name]? with
  | some (.function f) => runFunction s ask f args
  | some .hook => pure .unit
  | _ => throw .missingKey

/-- Whether none of the tests finds a difference. -/
def noDifference (s : Scope) (ask : Answers) (env : Locals) : List Code.Expr → RunM Bool
  | [] => pure true
  | e :: es => do
    if ← truth (← eval s ask env e) then return false
    noDifference s ask env es

inductive Comparison where
  | never
  /-- The other object has to be of the class. -/
  | checked (cls : String) (differences : List Code.Expr)
  /-- Objects of other classes are different. -/
  | variant (differences : List Code.Expr)

def comparisonOf? : Code.ClassDef → Option Comparison
  | .struct n _ ds | .tuple n _ ds => some (.checked n ds)
  | .union _ => some .never
  | .variant _ _ _ _ ds => some (.variant ds)
  | _ => none

def equalObjects (s : Scope) (ask : Answers) (cls : String) (self other : Datum) : RunM Datum := do
  let env : Locals := Std.HashMap.ofList [("self", self), ("other", other)]
  match firstShape? s cls comparisonOf? with
  | some .never => return .bool false
  | some (.checked c ds) =>
    if !(← s.isInstance other c) then throw .assertion
    return .bool (← noDifference s ask env ds)
  | some (.variant ds) =>
    if (← Scope.classOf? other) != some cls then return .bool false
    return .bool (← noDifference s ask env ds)
  | none => throw .internal

def structFields? : Code.ClassDef → Option (List (String × Packing))
  | .struct _ fs _ => some fs
  | _ => none

/-- Copies the fields of an object into another one, or into a new one. -/
def copyObject (s : Scope) (cls : String) (self : Datum) (target : Option Datum) : RunM Datum := do
  match firstShape? s cls structFields? with
  | some fs =>
    let object ← match target with
      | some d => pure d
      | none => RunM.newObject cls #[]
    s.copyFields object self (Scope.partsOf fs)
    return object
  | none => throw .internal

def objectMethod (s : Scope) (ask : Answers) (name : String) (args : List Datum) : RunM Datum := do
  match args with
  | [] => throw .internal
  | self :: rest =>
    let (cls, _) ← RunM.object self
    match name, rest with
    | "eq", [other] => equalObjects s ask cls self other
    | "copy_into", [] | "copy_into", [.none] => copyObject s cls self none
    | "copy_into", [d] => copyObject s cls self (some d)
    | _, _ => throw .internal

def payload? : Code.ClassDef → Option (String × Code.Payload)
  | .variant n _ p _ _ => some (n, p)
  | _ => none

/-- What an object of a variant carries. -/
def convertObject (s : Scope) (ask : Answers) (cls : String) (d : Datum) : RunM Datum := do
  let (n, p) ← RunM.ofOption (firstShape? s cls payload?)
  if !(← s.isInstance d n) then throw (.badType "")
  match p with
  | .unit => return .unit
  | .fields fs empty =>
    let r ← eval s ask ∅ empty
    s.copyFields r d (Scope.partsOf fs)
    return r
  | _ => s.field d "a"

/-- Answers one request; what it needs in turn is asked for. -/
def respond (s : Scope) (ask : Answers) : Answers
  | .function n args =>
    match s.platform.replacement? n with
    | some f => f ask args
    | none => runOwn s ask n args
  | .own n args => runOwn s ask n args
  | .attached n args => do
    let (cls, _) ← RunM.object (← RunM.ofOption args.head?)
    runFunction s ask (← s.method cls n) args
  | .builtin n args => objectMethod s ask n args
  | .convert c d => convertObject s ask c d

end Exec

def Scope.answer (s : Scope) : Nat → Answers
  | 0 => fun _ => throw .internal
  | depth + 1 => Exec.respond s (s.answer depth)

/-- How deep calls may go. -/
def Scope.depth : Nat := 990

/-- Calls a function of the program. -/
def Scope.callFunction (s : Scope) (name : String) (args : List Datum) : RunM Datum :=
  s.answer Scope.depth (.function name args)

end Jib
