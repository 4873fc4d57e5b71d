import Jib.Graph.Optimizer.Sums

/-!
# Rules for integers

Operations on unbounded integers become operations on machine integers wherever their operands are
known to fit.
-/

namespace Jib.Graph

open scoped Jib.Power
open OptM

/-- What stands for the result of an operation; a rule that does not apply fails without a match. -/
abbrev Rule := ValueId → Operation → OptM ValueId

/-- Tries a rule on both orders of two operands. -/
def symmetric (rule : ValueId → Operation → ValueId → ValueId → OptM ValueId) : Rule :=
  fun v o => do
  let (x, y) ← arg2 o
  if let some r ← attempt (rule v o x y) then return r
  rule v o y x

/-- An operation in the place of another one. -/
def instead (o : Operation) (name : String) (args : List ValueId) : OptM ValueId :=
  newOp name args o.type o.pos o.hint

/-- A machine integer operation in the place of one on unbounded integers. -/
def boxed (o : Operation) (name : String) (args : List ValueId) : OptM ValueId := do
  toInt (← newOp name args .machineInt o.pos o.hint)

def isPowerOfTwo (n : Int) : Bool := 0 < n && (2 : Int) ^ n.toNat.log2 == n

def exponentOf (n : Int) : OptM ValueId := newMachineInt n.toNat.log2

/-- Runs a rule on a sum that cannot be simplified. -/
def unlessSum (v : ValueId) (o : Operation) (rule : OptM ValueId) : OptM ValueId := do
  if let some r ← simplifySum v o then return r
  rule

def addIntRule : Rule := symmetric fun v o x y => unlessSum v o do
  instead o "@add_o_i_wrapped_res" [x, ← asMachineInt y]

/-- Adding what was subtracted before gives the first operand back. -/
def undoSubtraction (o : Operation) (x n : ValueId) : OptM (Option ValueId) := do
  let some s ← op? x | return none
  if s.name != "@sub_i_i_wrapped_res" && s.name != "@sub_o_i_wrapped_res" then return none
  let a :: b :: _ ← operands s | throw .outOfRange
  if b != n then return none
  if s.name == "@sub_o_i_wrapped_res" then return some a
  return some (← toInt a o.pos)

def addMixedRule : Rule := fun v o => unlessSum v o do
  let (x, y) ← arg2 o
  if let some (w, n) ← attempt (number y) then
    if n == 0 then return x
    if let some r ← undoSubtraction o x w then return r
  instead o "@add_i_i_wrapped_res" [← asMachineInt x, y]

def addWordsRule : Rule := symmetric fun v o x y => unlessSum v o do
  if let some (_, n) ← attempt (number y) then
    if n == 0 then return ← toInt x o.pos
    noMatch
  if ← fitsMachineInt v then boxed o "@add_i_i_must_fit" o.args.toList else noMatch

def addFittingRule : Rule := symmetric fun v o x y => unlessSum v o do
  ensure ((← typeOf x) == .machineInt)
  let (_, n) ← number y
  if n == 0 then return x else noMatch

def subIntRule : Rule := fun v o => unlessSum v o do
  let (x, y) ← arg2 o
  if let some y ← attempt (asMachineInt y) then return ← instead o "@sub_o_i_wrapped_res" [x, y]
  instead o "@sub_i_o_wrapped_res" [← asMachineInt x, y]

/-- The machine integer that an operand is known to be, or the operand itself. -/
def numberOr (x : ValueId) : OptM (ValueId × Option Int) := do
  let some (w, n) ← attempt (number x) | return (x, none)
  return (w, some n)

def subMixedRule : Rule := fun v o => unlessSum v o do
  let (x, y) ← arg2 o
  let (y, n) ← numberOr y
  if n == some 0 then return x
  instead o "@sub_i_i_wrapped_res" [← asMachineInt x, y]

def subFromWordRule : Rule := fun v o => unlessSum v o do
  let (x, y) ← arg2 o
  instead o "@sub_i_i_wrapped_res" [x, ← asMachineInt y]

def subWordsRule : Rule := fun v o => unlessSum v o do
  if ← fitsMachineInt v then return ← boxed o "@sub_i_i_must_fit" o.args.toList
  let (x, y) ← arg2 o
  let (_, n) ← number y
  if n == 0 then toInt x o.pos else noMatch

def subFittingRule : Rule := fun v o => unlessSum v o do
  let (x, y) ← arg2 o
  let (_, n) ← number y
  if n == 0 then return x else noMatch

def negIntRule : Rule := fun _ o => do
  let x ← asMachineInt (← arg1 o)
  instead o "@sub_i_i_wrapped_res" [← newMachineInt 0, x]

def multIntRule : Rule := symmetric fun _ o x y => do
  instead o "@mult_o_i_wrapped_res" [x, ← asMachineInt y]

def multMixedRule : Rule := fun v o => do
  let (x, y) ← arg2 o
  let some (w, n) ← attempt (number y) | instead o "@mult_i_i_wrapped_res" [← asMachineInt x, y]
  if n == 1 then return x
  if n == 0 then return ← newConst (.int 0)
  if isPowerOfTwo n then return ← instead o "@shl_int_o_i" [x, ← exponentOf n]
  if 0 ≤ n && (← fitsMachineInt v) then instead o "@mult_i_i_wrapped_res" [← toMachineInt x, w]
  else noMatch

def multWordsRule : Rule := symmetric fun v o x y => do
  if let some (_, n) ← attempt (number y) then
    if n == 1 then return ← toInt x
    if n == 0 then return ← newConst (.int 0)
    if isPowerOfTwo n then return ← instead o "@shl_int_i_i_wrapped_res" [x, ← exponentOf n]
  if ← fitsMachineInt v then boxed o "@mult_i_i_must_fit" o.args.toList else noMatch

def multFittingRule : Rule := symmetric fun _ o x y => do
  let (_, n) ← number y
  if n == 1 then return x
  if n == 0 then return ← newMachineInt 0
  if isPowerOfTwo n then instead o "@shl_int_i_i_must_fit" [x, ← exponentOf n] else noMatch

/-- Division by a number that is known; gives the quotient or the operands. -/
def divisionByNumber (o : Operation) : OptM (ValueId ⊕ ValueId × Int) := do
  let (x, y) ← arg2 o
  let (_, n) ← number y
  if n == 1 then return .inl x
  let (x, m) ← numberOr x
  if let some m := m then
    if 0 ≤ m && 0 < n then return .inl (← newConst (.int (m.fdiv n)))
  return .inr (x, n)

def edivIntRule : Rule := fun _ o => do
  match ← divisionByNumber o with
  | .inl r => return r
  | .inr (x, n) =>
    if n ≤ 1 then noMatch
    let x ← asMachineInt x
    boxed o "@ediv_int_i_ipos" [x, ← newMachineInt n]

/-- Division that rounds toward zero by a positive machine integer, known from intervals. -/
def tdivIntRangeRule : Rule := fun _ o => do
  let (x, y) ← arg2 o
  let x ← asMachineInt x
  let r := (← rangeHere? y).getD .unbounded
  if r.fitsMachineInt && r.isPositive then boxed o "@tdiv_int_i_i" [x, ← toMachineInt y]
    else noMatch

def tdivIntRule : Rule := fun v o => do
  if (← get).ranges.isSome then return ← tdivIntRangeRule v o
  match ← divisionByNumber o with
  | .inl r => return r
  | .inr (x, n) =>
    if let some u ← op? x then
      if u.name == "@unsigned_bv_wrapped_res" && n ≥ 2 && isPowerOfTwo n then
        let some b := u.args[0]? | throw .outOfRange
        let b ← current b
        return ← toInt (← newOp "@unsigned_bv64_rshift_int_result" [b, ← exponentOf n] .machineInt)
    if n == 0 || n == -1 then noMatch
    let x ← asMachineInt x
    boxed o "@tdiv_int_i_i" [x, ← newMachineInt n]

def shlIntRule : Rule := fun _ o => do
  let (x, y) ← arg2 o
  instead o "@shl_int_i_i_wrapped_res" [← asMachineInt x, y]

def shlWordsRule : Rule := fun v o => do
  if !(← fitsMachineInt v) then noMatch
  let (x, y) ← arg2 o
  boxed o "@shl_int_i_i_must_fit" [x, y]

def pow2Rule : Rule := fun v o => do
  if !(← fitsMachineInt v) then noMatch
  let x ← arg1 o
  boxed o "@shl_int_i_i_must_fit" [← newMachineInt 1, x]

/-- The operand of a conversion that is undone. -/
def undone (conversion : String) (x : ValueId) : OptM ValueId := do
  let some c ← op? x | noMatch
  if (← builtinName c.name) != conversion then noMatch
  let some y := c.args[0]? | throw .outOfRange
  return y

def ofMachineIntRule : Rule := fun _ o => do
  let x ← arg1 o
  if let some (.machineInt n) ← const? x then return ← newConst (.int n)
  if (← get).doubleCasts then undone "int_to_int64" x else noMatch

def toMachineIntRule : Rule := fun _ o => do
  let x ← arg1 o
  if let some (.int n) ← const? x then
    ensure (GraphM.fitsWord n)
    return ← newMachineInt n
  undone "int64_to_int" x

def eqIntRule : Rule := symmetric fun _ o x y => do instead o "@eq_int_o_i" [x, ← asMachineInt y]

def eqMixedRule : Rule := fun _ o => do
  let (x, y) ← arg2 o
  instead o "@eq" [← asMachineInt x, y]

/-! ### Truth values -/

def negated (o : Operation) (inner : String) (x y : ValueId) : OptM ValueId := do
  newOp "@not" [← instead o inner [x, y]] o.type

def neqBitsRule : Rule := symmetric fun _ o x y => negated o "@eq_bits" x y

def neqRule : Rule := symmetric fun _ o x y => negated o "@eq" x y

def eqBoolRule : Rule := symmetric fun _ o x y => do
  match ← const? x with
  | some (.bool true) => return y
  | some (.bool false) => newOp "@not" [y] .bool o.pos o.hint
  | _ => noMatch

def eqRule : Rule := fun _ o => do
  let (x, y) ← arg2 o
  if x == y then return Arena.trueId
  match ← const? x, ← const? y with
  | some (.machineInt m), some (.machineInt n) => return Arena.boolId (m == n)
  | some (.enum e _), some (.enum f _) => return Arena.boolId (e == f)
  | some _, some _ => throw .unfinished
  | _, _ => noMatch

def notRule : Rule := fun _ o => do
  let x ← arg1 o
  match ← value x with
  | .const (.bool b) => return Arena.boolId (!b)
  | .op p =>
    if p.name == "@not" then
      let y :: _ ← operands p | throw .outOfRange
      return y
  | _ => pure ()
  if o.name == "@not" then noMatch
  newOp "@not" [x] .bool o.pos o.hint

end Jib.Graph
