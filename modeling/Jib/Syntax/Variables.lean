import Jib.Syntax.Tree

/-!
# Variables of statements

The variables that a statement uses, and the replacement of a variable by an expression.  A write
through a reference keeps its value as it is, and its position moves into the place of its type.
-/

namespace Jib

namespace Expr

mutual

/-- The names of all variables, in order of appearance and with repetitions. -/
def vars : Expr → List String
  | var n _ => [n]
  | field o _ _ => o.vars
  | cast e _ _ => e.vars
  | refOf e _ => e.vars
  | struct _ _ vs _ => varsList vs
  | call _ as _ _ => varsList as
  | number .. | bits .. | string .. | unit _ | undefined _ => []

def varsList : List Expr → List String
  | [] => []
  | e :: es => e.vars ++ varsList es

end

mutual

/-- Puts an expression in the place of a variable. -/
def replace (name : String) (new : Expr) : Expr → Expr
  | var n t => if n == name then new else var n t
  | field o f t => field (Expr.replace name new o) f t
  | cast e v t => cast (Expr.replace name new e) v t
  | refOf e _ => refOf (Expr.replace name new e) none
  | struct n fs vs _ => struct n fs (replaceList name new vs) none
  | call n as t p => call n (replaceList name new as) t p
  | e => e

def replaceList (name : String) (new : Expr) : List Expr → List Expr
  | [] => []
  | e :: es => Expr.replace name new e :: replaceList name new es

end

end Expr

namespace Condition

def vars : Condition → List String
  | expr e => e.vars
  | comparison _ as => Expr.varsList as
  | isVariant e _ => e.vars

def replace (name : String) (new : Expr) : Condition → Condition
  | expr e => expr (Expr.replace name new e)
  | comparison op as => comparison op (Expr.replaceList name new as)
  | isVariant e v => isVariant (Expr.replace name new e) v

end Condition

namespace Target

def vars : Target → List String
  | field o _ _ => o.vars
  | ref r _ => r.vars

def replace (name : String) (new : Expr) : Target → Target
  | field o fs t => field (Expr.replace name new o) fs t
  | ref r _ => ref (Expr.replace name new r) none

end Target

namespace Statement

/-- The variables that a statement uses; for a write through a reference they are not defined. -/
def vars : Statement → Result (List String)
  | declare _ _ v _ _ => pure ((v.map Expr.vars).getD [])
  | assign _ v _ _ => pure v.vars
  | operation _ _ as _ _ => pure (Expr.varsList as)
  | setField o _ v _ _ => pure (o.vars ++ v.vars)
  | setRef .. => throw .internal
  | setTarget g _ as _ _ => pure (g.vars ++ Expr.varsList as)
  | jump c _ _ => pure c.vars
  | goto _ | exit .. | finish | arbitrary => pure []

/-- The used variables without repetitions, in alphabetical order. -/
def usedVars (s : Statement) : Result (List String) := do
  return (← s.vars).eraseDups.mergeSort (fun a b => decide (a ≤ b))

/-- Puts an expression in the place of a variable that a statement uses. -/
def replace (name : String) (new : Expr) : Statement → Result Statement
  | assign r v t p => pure (assign r (Expr.replace name new v) t p)
  | operation r n as t p => pure (operation r n (Expr.replaceList name new as) t p)
  | setField o fs v t p =>
    pure (setField (Expr.replace name new o) fs (Expr.replace name new v) t p)
  | setRef r v _ p => pure (setRef (Expr.replace name new r) v (p.map Mark.position) none)
  | setTarget g n as t p =>
    pure (setTarget (g.replace name new) n (Expr.replaceList name new as) t p)
  | jump c n p => pure (jump (c.replace name new) n p)
  | goto _ => throw .abstractOperation
  | declare .. | exit .. | finish | arbitrary => throw .internal

end Statement

end Jib
