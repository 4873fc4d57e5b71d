import Jib.Graph.Construction
import Jib.Proofs.Simulation
import Jib.Proofs.TypeEquality

/-!
# What bodies and graphs mean

A body is executed statement by statement on a store of variables that change; a graph is evaluated
block by block, and on every edge all phis of the block that is entered take their values at once.
Both are machines over the same interpretation of constants and operations.  Whatever an operation
reads or writes outside the variables, registers above all, is part of the machine's memory.
-/

namespace Jib

/-- What constants and operations mean.  An operation may fail and may change the memory; whatever
has unit type is the unit value. -/
structure Interpretation (V E M : Type) where
  constant : Const → V
  apply : OpKind → String → Ty → List V → EStateM E M V
  isTrue : V → Bool
  /-- The failure of an access to something that has no value. -/
  unbound : E
  constant_unit : ∀ c, c.type = .unit → constant c = constant .unit
  apply_unit : ∀ kind name args m y m',
    apply kind name .unit args m = .ok y m' → y = constant .unit

/-- How a function ends if nothing fails. -/
inductive Halt (V : Type) where
  | returned (v : V)
  | raised (v : V)

/-- The values of variables; one that is not declared yet has none. -/
abbrev Store (V : Type) := String → Option V

/-- The values of the values of a graph. -/
abbrev Valuation (V : Type) := ValueId → Option V

def Phi.entry? (p : Phi) (b : BlockId) : Option ValueId :=
  (p.preds.toList.idxOf? b).bind (fun k => p.values[k]?)

namespace Interpretation

variable {V E M : Type} (I : Interpretation V E M) (known : String → Option Const)

/-! ### Bodies -/

/-- What a name means that is no variable. -/
def evalName (n : String) (t : Ty) : EStateM E M V :=
  match BuildM.constantNamed? n with
  | some c => pure (I.constant c)
  | none =>
    match known n with
    | some c => pure (I.constant c)
    | none =>
      if BuildM.isElement n t then pure (I.constant (.enum n t))
      else I.apply .globalRead n t []

/-- Converts a value if its type is not the wanted one. -/
def convert (source target : Ty) (y : V) : EStateM E M V :=
  if source = target then pure y else I.apply .cast "$cast" target [y]

/-- Converts the entries of a structure to the types of its fields. -/
def convertFields (t : Ty) : List String → List (Ty × V) → EStateM E M (List V)
  | f :: fs, (source, y) :: ys => do
    match t.field? f with
    | some target => do
      let z ← I.convert source target y
      return z :: (← convertFields t fs ys)
    | none => throw I.unbound
  | _, _ => pure []

mutual

def evalExpr (σ : Store V) : Expr → EStateM E M V
  | .var n t =>
    match σ n with
    | some y => pure y
    | none => I.evalName known n (t.getD .unknown)
  | .struct n fields values t => do
    let t := t.getD .unknown
    let ys ← evalExprs σ values
    let ys ← I.convertFields t fields ((values.map BuildM.slot).zip ys)
    I.apply .structConstruction n t ys
  | .field (.struct _ fields values _) f _ =>
    match fields.idxOf? f with
    | some i => evalAt σ i values
    | none => throw I.unbound
  | .field o f t => do
    let y ← evalExpr σ o
    I.apply .fieldAccess f (t.getD .unknown) [y]
  | .cast e v t => do
    let y ← evalExpr σ e
    I.apply .unionCast v (t.getD .unknown) [y]
  | .refOf e t => do
    let y ← evalExpr σ e
    I.apply .refOf "$ref-of" (t.getD .unknown) [y]
  | .number n _ => pure (I.constant (.machineInt n))
  | .bits s t => pure (I.constant (.smallBits (Text.bitsLiteral s).toUInt64 (t.getD .unknown)))
  | .string s _ =>
    match Text.literal? s with
    | some text => pure (I.constant (.text text))
    | none => throw I.unbound
  | .unit _ => pure (I.constant .unit)
  | .undefined _ | .call .. => throw I.unbound

def evalExprs (σ : Store V) : List Expr → EStateM E M (List V)
  | [] => pure []
  | e :: es => do
    let y ← evalExpr σ e
    return y :: (← evalExprs σ es)

/-- The value of an expression in a list. -/
def evalAt (σ : Store V) : Nat → List Expr → EStateM E M V
  | _, [] => throw I.unbound
  | 0, e :: _ => evalExpr σ e
  | i + 1, _ :: es => evalAt σ i es

end

def evalCondition (σ : Store V) : Condition → EStateM E M V
  | .comparison op as => do
    let ys ← I.evalExprs known σ as
    I.apply .call op .bool ys
  | .expr e => I.evalExpr known σ e
  | .isVariant e v => do
    let y ← I.evalExpr known σ e
    I.apply .unionVariantCheck v .bool [y]

/-- Gives a variable a value; a name that is not declared is a place in the machine. -/
def assign (σ : Store V) (name : String) (t : Ty) (y : V) : EStateM E M (Store V) :=
  if (σ name).isSome && name != "current_exception" then pure (Function.update σ name (some y))
  else do
    let _ ← I.apply .globalWrite name t [y]
    return σ

/-- Follows a chain of fields from a value of a given type. -/
def evalPath : Ty → V → List String → EStateM E M (Ty × V)
  | t, y, [] => pure (t, y)
  | t, y, f :: fs => do
    match t.field? f with
    | some target => do
      let z ← I.apply .fieldAccess f target [y]
      evalPath target z fs
    | none => throw I.unbound

/-- Applies the operation that a statement names. -/
def applyNamed (name : String) (t : Ty) (ys : List V) : EStateM E M V :=
  if name = "$zinternal_vector_init" then I.apply .vectorInit name t (ys.take 1)
  else if name = "$zinternal_vector_update" then I.apply .vectorUpdate name t ys
  else I.apply .call name t ys

/-- Writes a field at the end of a chain of fields; the new value comes after the chain has been
followed and depends on the type of the field. -/
def writeField (σ : Store V) (o : Expr) (fields : List String) (new : Ty → EStateM E M V) :
    EStateM E M (Store V) :=
  match fields.getLast? with
  | none => throw I.unbound
  | some last => do
    let y ← I.evalExpr known σ o
    let (t, y) ← I.evalPath (BuildM.slot o) y fields.dropLast
    match t.field? last with
    | none => throw I.unbound
    | some target => do
      let z ← new target
      let _ ← I.apply .fieldWrite last .unit [y, z]
      return σ

/-- Executes a statement that control runs on from. -/
def exec (σ : Store V) : Statement → EStateM E M (Store V)
  | .declare n _ v t _ =>
    match v with
    | some (.call f args rt _) => do
      let ys ← I.evalExprs known σ args
      let y ← I.apply .call f rt ys
      return Function.update σ n (some y)
    | some _ => throw I.unbound
    | none => pure (Function.update σ n (some (I.constant (.default (t.getD .unknown)))))
  | .operation r n args t _ => do
    let ys ← I.evalExprs known σ args
    let y ← I.applyNamed n (t.getD .unknown) ys
    I.assign σ r (t.getD .unknown) y
  | .assign r e t _ => do
    let y ← I.evalExpr known σ e
    let y ← I.convert (BuildM.slot e) (t.getD .unknown) y
    I.assign σ r (t.getD .unknown) y
  | .setField o fields e _ _ =>
    I.writeField known σ o fields fun target => do
      let z ← I.evalExpr known σ e
      I.convert (BuildM.slot e) target z
  | .setTarget g n args t _ => do
    let ys ← I.evalExprs known σ args
    let z ← I.apply .call n (t.getD .unknown) ys
    match g with
    | .ref r _ => do
      let x ← I.evalExpr known σ r
      let _ ← I.apply .refAssignment "$ref-assign" .unit [x, z]
      return σ
    | .field o fields _ => I.writeField known σ o fields (fun _ => pure z)
  | .setRef .. | .goto _ | .jump .. | .exit .. | .finish | .arbitrary => throw I.unbound

/-- One statement of a body whose result has a given type, at a given place. -/
def bodyStep (body : List Statement) (result : Ty) :
    Machine E M (Halt V) (Store V × Nat) := fun (σ, i) =>
  match body[i]? with
  | none => throw I.unbound
  | some .finish =>
    match σ "return" with
    | some y => pure (.inl (.returned y))
    | none => throw I.unbound
  | some .arbitrary => pure (.inl (.returned (I.constant (.default result))))
  | some (.exit kind _) => pure (.inl (.raised (I.constant (.text kind))))
  | some (.goto t) => pure (.inr (σ, t.toNat))
  | some (.jump c t _) => do
    let y ← I.evalCondition known σ c
    return .inr (σ, if I.isTrue y then t.toNat else i + 1)
  | some s => do
    let σ' ← I.exec known σ s
    return .inr (σ', i + 1)

/-- The store in which a body starts: its arguments, and a result that is not set yet. -/
def startStore (args : List (String × V)) (result : Ty) : Store V := fun n =>
  if n = "return" then some (I.constant (.default result)) else args.lookup n

/-! ### Graphs -/

variable (a : Arena)

/-- The value of a value. -/
def look (ρ : Valuation V) (v : ValueId) : Option V :=
  match a.value v with
  | .const c => some (I.constant c)
  | _ => ρ v

/-- Evaluates the operations of a block; phis have their values already. -/
def evalOps : List ValueId → Valuation V → EStateM E M (Valuation V)
  | [], ρ => pure ρ
  | v :: vs, ρ =>
    match a.value v with
    | .op o =>
      match o.args.toList.mapM (I.look a ρ) with
      | some ys => do
        let y ← I.apply o.kind o.name o.type ys
        evalOps vs (Function.update ρ v (some y))
      | none => throw I.unbound
    | _ => evalOps vs ρ

/-- On an edge all phis of the block that is entered take their values at once. -/
def enter (source target : BlockId) (ρ : Valuation V) : Valuation V := fun v =>
  match a.value v with
  | .phi p => if v ∈ a.ops target then (p.entry? source).bind (I.look a ρ) else ρ v
  | _ => ρ v

/-- Leaves a block whose operations have been evaluated. -/
def leave (b : BlockId) (ρ : Valuation V) : EStateM E M (Halt V ⊕ Valuation V × BlockId) :=
  match a.next b with
  | .ret (some v) _ =>
    match I.look a ρ v with
    | some y => pure (.inl (.returned y))
    | none => throw I.unbound
  | .raise k _ =>
    match I.look a ρ k with
    | some y => pure (.inl (.raised y))
    | none => throw I.unbound
  | .goto t _ => pure (.inr (I.enter a b t ρ, t))
  | .branch c t f _ =>
    match I.look a ρ c with
    | some y =>
      let target := if I.isTrue y then t else f
      pure (.inr (I.enter a b target ρ, target))
    | none => throw I.unbound
  | _ => throw I.unbound

def graphStep : Machine E M (Halt V) (Valuation V × BlockId) := fun (ρ, b) => do
  I.leave a b (← I.evalOps a (a.ops b).toList ρ)

/-- The valuation in which a graph starts: that of its arguments. -/
def startValuation (args : List (ValueId × V)) : Valuation V := fun v => args.lookup v

end Interpretation

end Jib
