import Jib.Proofs.Construction.Meaning

/-!
# Well-formed bodies

The promises under which a body is built: its statements have the types that their slots say, its
jumps stay inside it, and on every way to a statement the variables of that statement have been
declared.  The places that jumps lead to must be met in order, each for the first time from an
earlier place.
-/

namespace Jib

/-! ### Names and edges -/

mutual

/-- The names that an expression mentions. -/
def Expr.names : Expr → List String
  | .var n _ => [n]
  | .struct _ _ values _ => namesAll values
  | .field o _ _ => o.names
  | .cast e _ _ => e.names
  | .refOf e _ => e.names
  | .call _ args _ _ => namesAll args
  | .number .. | .bits .. | .string .. | .unit _ | .undefined _ => []

def Expr.namesAll : List Expr → List String
  | [] => []
  | e :: es => e.names ++ namesAll es

end

def Condition.names : Condition → List String
  | .comparison _ as => Expr.namesAll as
  | .expr e => e.names
  | .isVariant e _ => e.names

namespace Statement

/-- The names that a statement uses, those that it writes included. -/
def names : Statement → List String
  | .declare _ _ v _ _ => (v.map Expr.names).getD []
  | .operation r _ args _ _ => r :: Expr.namesAll args
  | .assign r e _ _ => r :: e.names
  | .setField o _ e _ _ => o.names ++ e.names
  | .setRef r e _ _ => r.names ++ e.names
  | .setTarget g _ args _ _ =>
    Expr.namesAll args ++
      match g with
      | .field o _ _ => o.names
      | .ref r _ => r.names
  | .jump c _ _ => c.names
  | .finish => ["return"]
  | .goto _ | .exit .. | .arbitrary => []

def declared : Statement → List String
  | .declare n .. => [n]
  | _ => []

/-- A statement that neither jumps nor ends the body. -/
def isPlain : Statement → Bool
  | .goto _ | .jump .. | .exit .. | .finish | .arbitrary => false
  | _ => true

def target? (s : Statement) : Option Int := Step.target? (.statement s)

/-- Whether control goes from a statement at one place to another place. -/
def LeadsTo (i : Nat) : Statement → Nat → Prop
  | .goto t, j => t = j
  | .jump _ t _, j => t = j ∨ j = i + 1
  | .exit .., _ | .finish, _ | .arbitrary, _ => False
  | _, j => j = i + 1

end Statement

/-- A function as it is built: its arguments, the type of its result, and its statements. -/
structure FunctionBody where
  args : List (String × Ty)
  result : Ty
  statements : List Statement

namespace FunctionBody

def argNames (f : FunctionBody) : List String := f.args.map Prod.fst

def type (f : FunctionBody) : Ty := .function (.tuple (f.args.map Prod.snd)) f.result

def locals (f : FunctionBody) : List String :=
  "return" :: f.argNames ++ f.statements.flatMap Statement.declared

def Edge (f : FunctionBody) (i j : Nat) : Prop :=
  ∃ s, f.statements[i]? = some s ∧ s.LeadsTo i j

/-- A way from the start to a place, with the variables that have been declared on it. -/
inductive Reaches (f : FunctionBody) : Nat → List String → Prop
  | start : Reaches f 0 ("return" :: f.argNames)
  | step {i j : Nat} {declared : List String} {s : Statement} (hreaches : Reaches f i declared)
      (hstatement : f.statements[i]? = some s) (hleads : s.LeadsTo i j) :
      Reaches f j (s.declared ++ declared)

/-- The variables that have been declared on every way to a place. -/
def Declared (f : FunctionBody) (i : Nat) (n : String) : Prop :=
  ∀ declared, f.Reaches i declared → n ∈ declared

/-- A place that a loop leads back to. -/
def IsLoop (f : FunctionBody) (j : Nat) : Prop := ∃ i, j ≤ i ∧ f.Edge i j

end FunctionBody

/-! ### Types -/

/-- The type at the end of a chain of fields. -/
def Ty.path? : Ty → List String → Option Ty
  | t, [] => some t
  | t, f :: fs => (t.field? f).bind (fun u => u.path? fs)

section Typing

variable (locals : List String) (types : String → Ty) (known : String → Option Const)

/-- Expressions whose slots say what type their value has. -/
inductive TypedExpr : Expr → Prop
  | local {n : String} (hlocal : n ∈ locals) : TypedExpr (.var n (some (types n)))
  | constant {n : String} {c : Const} (hlocal : n ∉ locals)
      (hconstant : BuildM.constantNamed? n = some c) : TypedExpr (.var n (some c.type))
  | known {n : String} {c : Const} (hlocal : n ∉ locals)
      (hconstant : BuildM.constantNamed? n = none) (hknown : known n = some c) :
      TypedExpr (.var n (some c.type))
  | global {n : String} {t : Option Ty} (hlocal : n ∉ locals)
      (hconstant : BuildM.constantNamed? n = none) (hknown : known n = none) :
      TypedExpr (.var n t)
  | struct {n m : String} {fields : List String} {values : List Expr} {entries : List Ty}
      {tuple : Bool} (hlength : values.length = fields.length)
      (hfields : ∀ f ∈ fields, ((Ty.struct m fields entries tuple).field? f).isSome)
      (hvalues : ∀ e ∈ values, TypedExpr e) :
      TypedExpr (.struct n fields values (some (.struct m fields entries tuple)))
  | entry {n f : String} {fields : List String} {values : List Expr} {t t' : Option Ty} {i : Nat}
      {e : Expr} (hindex : fields.idxOf? f = some i) (hentry : values[i]? = some e)
      (htyped : TypedExpr e) (hslot : BuildM.slot e = t.getD .unknown) :
      TypedExpr (.field (.struct n fields values t') f t)
  | field {o : Expr} {f : String} {t : Option Ty} (hobject : TypedExpr o)
      (hno : ∀ n fields values t', o ≠ .struct n fields values t') : TypedExpr (.field o f t)
  | cast {e : Expr} {v : String} {t : Option Ty} (he : TypedExpr e) : TypedExpr (.cast e v t)
  | refOf {e : Expr} {t : Option Ty} (he : TypedExpr e) : TypedExpr (.refOf e t)
  | number {n : Int} (hfits : GraphM.fitsWord n = true) :
      TypedExpr (.number n (some .machineInt))
  | bits {s : String} {w : Nat} : TypedExpr (.bits s (some (.smallBits w)))
  | string {s text : String} (hliteral : Text.literal? s = some text) :
      TypedExpr (.string s (some .string))
  | unit : TypedExpr (.unit (some .unit))

def TypedCondition : Condition → Prop
  | .comparison _ as => ∀ e ∈ as, TypedExpr locals types known e
  | .expr e | .isVariant e _ => TypedExpr locals types known e

/-- Statements that keep the types of variables and of fields. -/
def TypedStatement : Statement → Prop
  | .declare n _ (some (.call _ args t _)) _ _ =>
    (∀ e ∈ args, TypedExpr locals types known e) ∧ types n = t
  | .declare _ _ (some _) _ _ => False
  | .declare n _ none t _ => types n = t.getD .unknown ∧ (t.getD .unknown).isStruct = false
  | .operation r n args t _ =>
    (∀ e ∈ args, TypedExpr locals types known e) ∧
      (n = "$zinternal_vector_init" → args ≠ []) ∧ (r ∈ locals → types r = t.getD .unknown)
  | .assign r e t _ => TypedExpr locals types known e ∧ (r ∈ locals → types r = t.getD .unknown)
  | .setField o fields e _ _ =>
    TypedExpr locals types known o ∧ TypedExpr locals types known e ∧ fields ≠ [] ∧
      ((BuildM.slot o).path? fields).isSome
  | .setTarget g _ args t _ =>
    (∀ e ∈ args, TypedExpr locals types known e) ∧
      match g with
      | .ref r _ => TypedExpr locals types known r
      | .field o fields _ =>
        TypedExpr locals types known o ∧ fields ≠ [] ∧
          (BuildM.slot o).path? fields = some (t.getD .unknown)
  | .jump c _ _ => TypedCondition locals types known c
  | .setRef .. => False
  | .goto _ | .exit .. | .finish | .arbitrary => True

end Typing

/-- What a function has to promise so that its graph can be built. -/
structure FunctionBody.WellFormed (f : FunctionBody) (types : String → Ty)
    (known : String → Option Const) : Prop where
  nodup : f.argNames.Nodup
  return_not_arg : "return" ∉ f.argNames
  exception_not_local : "current_exception" ∉ f.locals
  arg_types : ∀ p ∈ f.args, types p.1 = p.2
  result_type : types "return" = f.result
  typed : ∀ s ∈ f.statements, TypedStatement f.locals types known s
  /-- Control never runs out of the body. -/
  ends : ∃ s, f.statements.getLast? = some s ∧ s.endsBlock
  /-- Not all statements jump. -/
  no_jump : ∃ s ∈ f.statements, s.target? = none
  /-- Jumps lead into the body, and not to its start. -/
  target : ∀ s ∈ f.statements, ∀ t, s.target? = some t → 0 < t ∧ t < f.statements.length
  /-- A statement behind one that control does not run on from is the target of a jump. -/
  behind_end : ∀ i s, f.statements[i]? = some s → s.endsBlock → i + 1 < f.statements.length →
    ∃ s' ∈ f.statements, s'.target? = some ((i + 1 : Nat) : Int)
  /-- Variables are declared before they are used. -/
  declared : ∀ i s, f.statements[i]? = some s → ∀ n ∈ s.names, n ∈ f.locals → f.Declared i n
  /-- The target of a jump is also reached from an earlier place. -/
  entered : ∀ s ∈ f.statements, ∀ j : Nat, s.target? = some (j : Int) → ∃ i, i < j ∧ f.Edge i j
  /-- A loop is entered from one earlier place only. -/
  loop_entered_once : ∀ i i' j, f.IsLoop j → i < j → i' < j → f.Edge i j → f.Edge i' j → i = i'
  /-- A jump to the place behind it stands behind the start of a loop and does not lead to one. -/
  idle_jump : ∀ i c p, f.statements[i]? = some (.jump c ((i + 1 : Nat) : Int) p) →
    (∃ h, h ≤ i ∧ f.IsLoop h) ∧ ¬ f.IsLoop (i + 1)

end Jib
