import Jib.Graph.Optimizer.Basic

/-!
# Sums and comparisons

Nested additions and subtractions are taken apart into what is added, what is subtracted and one
constant; equal terms on both sides cancel.  If that gained anything the sum is put together again,
and a comparison of two sums with at most one term left compares that term with a number.
-/

namespace Jib.Graph

open OptM

def addNames : List String :=
  ["add_int", "@add_o_i_wrapped_res", "@add_i_i_wrapped_res", "@add_i_i_must_fit"]

def subNames : List String :=
  ["sub_int", "@sub_o_i_wrapped_res", "@sub_i_o_wrapped_res", "@sub_i_i_wrapped_res",
    "@sub_i_i_must_fit"]

/-- The terms of a sum, in the order in which they were met. -/
structure Terms where
  added : List ValueId := []
  subtracted : List ValueId := []
  constant : Option Int := none
  /-- How many steps of the taking apart gained something. -/
  gains : Nat := 0

namespace Terms

def count (t : Terms) : Nat := t.added.length + t.subtracted.length

def addConst (t : Terms) (n : Int) : Terms :=
  match t.constant with
  | none => { t with constant := some n }
  | some m => { t with constant := some (m + n), gains := t.gains + 1 }

def addTerm (t : Terms) (negated : Bool) (v : ValueId) : Terms :=
  if negated then { t with subtracted := t.subtracted ++ [v] }
  else { t with added := t.added ++ [v] }

/-- Keeps an added term, or cancels it against an equal one that is subtracted. -/
def cancelOne (t : Terms) (v : ValueId) : Terms :=
  if t.subtracted.contains v then
    { t with subtracted := t.subtracted.erase v, gains := t.gains + 1 }
  else { t with added := t.added ++ [v] }

/-- Removes terms that are both added and subtracted. -/
def cancel (t : Terms) : Terms := t.added.foldl cancelOne { t with added := [] }

/-- Leaves the values on a stack as they are. -/
def leave (t : Terms) (todo : List (ValueId × Bool)) : Terms :=
  todo.foldl (fun t e => t.addTerm e.2 e.1) t

/-- After a leaf: with more than fifty terms the rest of the stack is left as it is. -/
def cutOff (t : Terms) (todo : List (ValueId × Bool)) : Terms × List (ValueId × Bool) :=
  if t.count > 50 then (t.leave todo, []) else (t, todo)

/-- Adds a leaf, which is a number or a term. -/
def addLeaf (t : Terms) (negated : Bool) (v : ValueId) : Option Int → Terms
  | some n => t.addConst (if negated then -n else n)
  | none => t.addTerm negated v

/-- The number that is left, if something was gained and at most one term is left beside it. -/
def remainder? (t : Terms) : Option Int :=
  if t.gains == 0 || t.count > 1 then none else t.constant.filter GraphM.fitsWord

/-- The number as a term of its own. -/
def number? (t : Terms) : Option Const :=
  (t.constant.filter (· ≠ 0)).map (fun n => if GraphM.fitsWord n then .machineInt n else .int n)

end Terms

/-- The number that a value is by itself. -/
def numeral? : Value → Option Int
  | .const (.machineInt n) | .const (.int n) => some n
  | _ => none

/-- An operation that adds or subtracts, and whether it subtracts. -/
def sumOp? (o : Operation) : Option Bool :=
  if o.kind != .call then none
  else if subNames.contains o.name then some true
  else if addNames.contains o.name then some false
  else none

/-- What an addition or subtraction adds or subtracts, and whether it subtracts. -/
def sumOperands? (v : ValueId) : OptM (Option (Bool × ValueId × ValueId)) := do
  match ← value v with
  | .op o =>
    match sumOp? o with
    | some isSub => return some (isSub, ← arg2 o)
    | none => return none
  | _ => return none

/-- Takes apart the values on a stack, in at most a given number of steps; a sum of very many terms
is left as it is. -/
def takeApart : Nat → List (ValueId × Bool) → Terms → OptM Terms
  | 0, todo, t => pure (t.leave todo)
  | _ + 1, [], t => pure t
  | steps + 1, (v, negated) :: todo, t => do
    match ← sumOperands? v with
    | some (isSub, x, y) => takeApart steps ((y, negated != isSub) :: (x, negated) :: todo) t
    | none =>
      let rest := (t.addLeaf negated v (numeral? (← value v))).cutOff todo
      takeApart steps rest.2 rest.1

/-- The terms of a value, less those of a second one.  Two trees over `n` values have fewer than
`2 ^ (n + 1)` nodes. -/
def termsOf (v : ValueId) (less : Option ValueId) : OptM Terms := do
  let todo := less.toList.map (fun w => (w, true)) ++ [(v, false)]
  let t ← takeApart (1 <<< ((← get).arena.values.size + 1)) todo {}
  return t.cancel

/-- The addition of operands of given types; for two unbounded operands it is the one chosen
before. -/
def addition (last : Option String) (x y : ValueId) : Ty → Ty → OptM (String × ValueId × ValueId)
  | .machineInt, .machineInt => pure ("@add_i_i_wrapped_res", x, y)
  | .machineInt, .int => pure ("@add_o_i_wrapped_res", y, x)
  | .int, .machineInt => pure ("@add_o_i_wrapped_res", x, y)
  | .int, .int =>
    match last with
    | some name => pure (name, x, y)
    | none => throw .internal
  | _, _ => throw .assertion

def addUp : Option String → List ValueId → OptM (Option ValueId)
  | _, [] => pure none
  | _, [v] => pure (some v)
  | last, y :: x :: rest => do
    let (name, left, right) ← addition last x y (← typeOf x) (← typeOf y)
    let v ← newOp name [left, right] .int
    addUp (some name) (v :: rest)
termination_by _ vs => vs.length

/-- The operation that subtracts operands of given types. -/
def subtractName : Ty → Ty → OptM String
  | .machineInt, .machineInt => pure "@sub_i_i_wrapped_res"
  | .machineInt, .int => pure "@sub_i_o_wrapped_res"
  | .int, .machineInt => pure "@sub_o_i_wrapped_res"
  | .int, .int => throw .internal
  | _, _ => throw .assertion

/-- Gives a sum the type that its place asks for. -/
def convertSum (o : Operation) (res : ValueId) : OptM ValueId := do
  let t ← typeOf res
  if t == o.type then return res
  if t == .machineInt then return ← toInt res
  match ← value res with
  | .op r =>
    if r.name == "@add_i_i_wrapped_res" then
      modify (fun s => { s with deadCode := true })
      newOp "@add_i_i_must_fit" r.args.toList o.type
    else if r.name == "@sub_i_i_wrapped_res" then
      modify (fun s => { s with deadCode := true })
      newOp "@sub_i_i_must_fit" r.args.toList o.type
    else toMachineInt res
  | .argument .. => toMachineInt res
  | _ => throw .internal

/-- The terms that are added, with the number as the last of them. -/
def addends (t : Terms) : OptM (List ValueId) :=
  match t.number? with
  | some c => do return t.added ++ [← newConst c]
  | none => pure t.added

/-- What is subtracted from; zero if nothing is added. -/
def minuend : Option ValueId → OptM ValueId
  | some x => pure x
  | none => newMachineInt 0

def subtractFrom (x : ValueId) : Option ValueId → OptM ValueId
  | none => pure x
  | some y => do
    let name ← subtractName (← typeOf x) (← typeOf y)
    newOp name [x, y] .int

def rebuildSum (o : Operation) (t : Terms) : OptM ValueId := do
  let added ← addends t
  let plus ← addUp none added.reverse
  let minus ← addUp none t.subtracted.reverse
  let x ← minuend plus
  convertSum o (← subtractFrom x minus)

/-- Rebuilds a sum if taking it apart gained something. -/
def simplifySum (v : ValueId) (o : Operation) : OptM (Option ValueId) := do
  let name ← builtinName o.name
  ensure (addNames.contains name || subNames.contains name)
  let t ← termsOf v none
  if t.gains == 0 then return none
  if t.gains > 4 then throw .unfinished
  return some (← rebuildSum o t)

/-- A number of the type that a term has. -/
def numberLike (v : ValueId) (n : Int) : OptM ValueId := do
  if (← typeOf v) == .machineInt then newMachineInt n
  else
    ensure ((← typeOf v) == .int)
    newConst (.int n)

/-- What is left to be compared: a term and a number, or two numbers. -/
def comparands (t : Terms) (n : Int) : OptM (ValueId × ValueId) :=
  match t.subtracted, t.added with
  | r :: _, _ => do return (← numberLike r n, r)
  | [], l :: _ => do return (l, ← numberLike l (-n))
  | [], [] => do
    let l ← newMachineInt n
    return (l, ← numberLike l 0)

/-- The name of a comparison for operands of a given type. -/
def comparisonName (o : Operation) (type : Ty) : OptM String := do
  if type == .machineInt && !o.name.startsWith "@" then return "@" ++ (← builtinName o.name)
  else return o.name

/-- The comparison that is left, in the place of a given one. -/
def compareRest (o : Operation) (t : Terms) (n : Int) : OptM ValueId := do
  let (l, r) ← comparands t n
  ensure ((← typeOf r) == (← typeOf l))
  newOp (← comparisonName o (← typeOf r)) [l, r] o.type o.pos o.hint

/-- Compares what is left of two sums, if that is at most one term. -/
def compareTerms (o : Operation) (x y : ValueId) : OptM (Option ValueId) := do
  ensure ((← typeOf x) == (← typeOf y))
  let t ← termsOf x (some y)
  t.remainder?.mapM (compareRest o t)

/-- A comparison: decided for equal operands and for numbers, on machine integers where possible. -/
def compareRule (name : String) (onSame : Bool) (rel : Int → Int → Bool) (o : Operation) :
    OptM ValueId := do
  let (x, y) ← arg2 o
  if x == y then return Arena.boolId onSame
  if name == "@lt" then
    if let some (_, n) ← attempt (number y) then
      if n == 0 && (← isNonNegative x) then return Arena.falseId
  if !((← typeOf x) == .int) then
    if let some (m, n) ← attempt (do return ((← number x).2, (← number y).2)) then
      return Arena.boolId (rel m n)
  else
    if let some (m, n) ← attempt (do return (← asMachineInt x, ← asMachineInt y)) then
      return ← newOp name [m, n] o.type o.pos o.hint
  let some r ← compareTerms o x y | noMatch
  return r

end Jib.Graph
