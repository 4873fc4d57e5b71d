import Jib.Interval
import Jib.Graph.Cleanup

/-!
# Interval analysis

A forward walk over a graph without loops that finds, at the end of every block that can be
reached, an interval for each integer and each truth value.  Branches on comparisons narrow the
intervals of the compared values on either side.
-/

namespace Jib.Graph

open scoped Jib.Power

abbrev RangeMap := Std.HashMap ValueId Interval

abbrev RangeTable := Std.HashMap BlockId RangeMap

def isRangeType : Ty → Bool
  | .machineInt | .int | .bool => true
  | _ => false

def isIntType : Ty → Bool
  | .machineInt | .int => true
  | _ => false

/-- What is known of a type alone. -/
def typeRange : Ty → Interval
  | .bool => .bool
  | .machineInt => .machineInt
  | _ => .unbounded

/-- The interval of a value that needs no table. -/
def constRange? (a : Arena) (v : ValueId) : Option (Option Interval) :=
  match a.value v with
  | .const (.bool true) => some (some .yes)
  | .const (.bool false) => some (some .no)
  | .const (.machineInt n) | .const (.int n) => some (some (.ofConst n))
  | x =>
    if !isRangeType x.type then some none
    else
      match x with
      | .const (.default t) => some (some (typeRange t))
      | _ => none

/-- The interval of a value, which must be known if it is an integer or a truth value. -/
def rangeOf (a : Arena) (here : RangeMap) (v : ValueId) : Result (Option Interval) :=
  match constRange? a v with
  | some r => .ok r
  | none =>
    match here[v]? with
    | some r => .ok (some r)
    | none => .error .missingKey

def entryRange (a : Arena) (t : RangeTable) (pred : BlockId) (v : ValueId) : Option Interval :=
  match constRange? a v with
  | some r => r
  | none => (t.getD pred ∅)[v]?

def joinEntry (a : Arena) (t : RangeTable) (acc : Option Interval) :
    BlockId × ValueId → Result (Option Interval)
  | (pred, v) =>
    match acc, entryRange a t pred v with
    | none, r => .ok r
    | some x, some y => do return some (← x.union y)
    | some x, none => .ok (some x)

def phiRange (a : Arena) (t : RangeTable) (p : Phi) : Result (Option Interval) :=
  (p.preds.zip p.values).toList.foldlM (joinEntry a t) none

/-- How an operation's interval follows from those of its operands. -/
inductive Transfer where
  | one (f : Interval → Result Interval)
  | two (f : Interval → Interval → Result Interval)
  /-- The operand is known to fit a machine integer afterwards. -/
  | narrowing
  /-- A vector read as a number; the second operand is its width. -/
  | unsignedBits
  | signedBits
  | assertRange
  | nonNegative

def transfer? : String → Option Transfer
  | "lteq" => some (.two fun x y => .ok (x.le y))
  | "gteq" => some (.two fun x y => .ok (x.ge y))
  | "lt" => some (.two fun x y => .ok (x.lt y))
  | "gt" => some (.two fun x y => .ok (x.gt y))
  | "add" | "add_int" | "add_i_i_must_fit" | "add_i_i_wrapped_res" | "add_o_i_wrapped_res" =>
    some (.two Interval.add)
  | "sub" | "sub_int" | "sub_i_i_must_fit" | "sub_i_i_wrapped_res" | "sub_o_i_wrapped_res"
  | "sub_i_o_wrapped_res" => some (.two Interval.sub)
  | "int_to_int64" => some .narrowing
  | "int64_to_int" => some (.one .ok)
  | "unsigned_bv" => some .unsignedBits
  | "signed_bv" => some .signedBits
  | "mult_int" | "mult_i_i_wrapped_res" | "mult_i_i_must_fit" =>
    some (.two fun x y => .ok (x.mul y))
  | "tdiv_int" | "tdiv_int_i_i" => some (.two Interval.tdiv)
  | "ediv_int" | "ediv_int_i_ipos" => some (.two Interval.ediv)
  | "lshift" | "shl_mach_int" | "shl_int_o_i" | "shl_int_i_i_wrapped_res"
  | "shl_int_i_i_must_fit" => some (.two fun x y => .ok (x.lshift y))
  | "pow2_i" => some (.one fun x => .ok (Interval.yes.lshift x))
  | "rshift" | "shr_mach_int" | "shr_int_o_i" => some (.two fun x y => .ok (x.rshift y))
  | "assert_in_range" => some .assertRange
  | "length_unwrapped_res" => some .nonNegative
  | _ => none

/-- The interval has to be there. -/
def present : Option Interval → Result Interval
  | some r => .ok r
  | none => .error .internal

/-- The width that a vector is read with, if it is known. -/
def knownWidth (r : Option Interval) : Result Int := do
  match (← present r).const? with
  | some w => .ok w
  | none => .error .assertion

/-- The numbers of an interval that fit a machine integer. -/
def machinePart (s : Interval) : Result Interval :=
  Interval.make
    (some (match s.low with | some l => max l (-(2 ^ (63 : Nat))) | none => -(2 ^ (63 : Nat))))
    (some (match s.high with | some h => min h (2 ^ (63 : Nat) - 1) | none => 2 ^ (63 : Nat) - 1))

/-- The interval of the numbers of a width, with or without sign.  With sign and no bits it is made
of the whole numbers next to minus one half. -/
def Transfer.ofWidth (w : Int) : Transfer → Result Interval
  | .signedBits => Interval.make (some (-(2 ^ (w.toNat - 1)))) (some (2 ^ (w.toNat - 1) - 1))
  | _ => Interval.make (some 0) (some (2 ^ w.toNat - 1))

def applyTransfer (a : Arena) (here : RangeMap) (o : Operation) (t : Transfer) :
    Result (Interval × RangeMap) := do
  match t with
  | .nonNegative => return (⟨some 0, none⟩, here)
  | .narrowing | .one _ =>
    match o.args[0]? with
    | none => throw .outOfRange
    | some x =>
      let r ← present (← rangeOf a here x)
      match t with
      | .one f => return (← f r, here)
      | _ =>
        let r ← machinePart r
        return (r, here.insert x r)
  | .two f =>
    let rs ← o.args.toList.mapM (rangeOf a here)
    match rs with
    | [r, s] => return (← f (← present r) (← present s), here)
    | _ => throw .badValue
  | .unsignedBits | .signedBits =>
    let rs ← o.args.toList.mapM (rangeOf a here)
    match rs with
    | [_, s] =>
      let w ← knownWidth s
      if w < 0 then throw .assertion
      return (← t.ofWidth w, here)
    | _ => throw .badValue
  | .assertRange =>
    let rs ← o.args.toList.mapM (rangeOf a here)
    match rs, o.args[0]? with
    | [_, s, t], some x =>
      let s ← present s
      let t ← present t
      if !(s.isConst && t.isConst) then throw .assertion
      let r ← Interval.make s.low t.high
      return (r, here.insert x r)
    | _, _ => throw .badValue

/-- The interval of an operation, and what else it teaches. -/
def analyzeValue (a : Arena) (bn : Builtins) (t : RangeTable) (here : RangeMap) (v : ValueId) :
    Result RangeMap := do
  let x := a.value v
  if !isRangeType x.type then return here
  match x with
  | .phi p =>
    match ← phiRange a t p with
    | some r => return here.insert v r
    | none => throw .assertion
  | .op o =>
    if o.kind != .call then return here.insert v (typeRange o.type)
    match transfer? (bn (stripMarks o.name)) with
    | none => return here.insert v (typeRange o.type)
    | some tr =>
      let (r, here) ← applyTransfer a here o tr
      return here.insert v r
  | _ => return here.insert v (typeRange x.type)

/-- The facts that a branch on the order of two operands adds on the side of an outcome. -/
def orderFacts (here : RangeMap) (x y : ValueId) (r s : Interval) (orEqual truth : Bool) :
    Result RangeMap := do
  let gap := if orEqual == truth then 0 else 1
  if truth then return (here.insert x (← r.below gap s)).insert y (← s.above gap r)
  else return (here.insert x (← r.above gap s)).insert y (← s.below gap r)

def greaterFirst (name : String) : Bool := name == "gteq" || name == "gt"

/-- The comparison holds of equal operands. -/
def orEqual (name : String) : Bool := name == "gteq" || name == "lteq"

/-- The comparisons for equality. -/
def equalityNames : List String := ["eq", "eq_int", "eq_int_o_i", "eq_int_i_i"]

/-- What holds where a condition is true and where it is false. -/
def analyzeCondition (a : Arena) (bn : Builtins) (here : RangeMap) (cond : ValueId) :
    Result (RangeMap × RangeMap) := do
  match a.value cond with
  | .op o =>
    let name := stripAt (bn o.name)
    if greaterFirst name || name == "lteq" || name == "lt" then
      let args ← match o.args.toList with
        | x :: y :: rest => pure (if greaterFirst name then [y, x] else x :: y :: rest)
        | _ => throw (if greaterFirst name then .outOfRange else .badValue)
      let rs ← args.mapM (rangeOf a here)
      match args, rs with
      | [x, y], [r, s] =>
        let sides := orderFacts here x y (← present r) (← present s) (orEqual name)
        return (← sides true, ← sides false)
      | _, _ => throw .badValue
    else if equalityNames.contains name then
      match o.args.toList with
      | [] => throw .outOfRange
      | x :: rest =>
        if !isIntType (a.typeOf x) then return (here, here)
        let rs ← (x :: rest).mapM (rangeOf a here)
        match rest, rs with
        | [y], [r, s] =>
          let r ← present r
          let s ← present s
          let yes := if r.isConst then here.insert y r else here
          let yes := if s.isConst then yes.insert x s else yes
          return (yes, here)
        | _, _ => throw .badValue
    else return (here, here)
  | _ => return (here, here)

def joinRange (acc : RangeMap) : ValueId × Interval → Result RangeMap
  | (v, r) =>
    match acc[v]? with
    | some s => do return acc.insert v (← r.union s)
    | none => .ok (acc.insert v r)

/-- Joins what holds on an edge into what is known of its target. -/
def mergeRanges (t : RangeTable) : BlockId × RangeMap → Result RangeTable
  | (b, m) =>
    match t[b]? with
    | none => .ok (t.insert b m)
    | some old => do return t.insert b (← m.toList.foldlM joinRange old)

/-- The ways out of a block that may be taken, with what holds on them. -/
def exitRanges (a : Arena) (bn : Builtins) (here : RangeMap) :
    Next → Result (List (BlockId × RangeMap))
  | .goto s _ => .ok [(s, here)]
  | .branch cond yes no _ => do
    let r ← present (← rangeOf a here cond)
    if r == .yes then return [(yes, here)]
    else if r == .no then return [(no, here)]
    else
      let (ifTrue, ifFalse) ← analyzeCondition a bn here cond
      return [(yes, ifTrue.insert cond .yes), (no, ifFalse.insert cond .no)]
  | .ret .. | .raise .. | .justStop => .ok []
  | .unset => .error (.assertion "unreachable")

def analyzeBlock (a : Arena) (bn : Builtins) (t : RangeTable) (b : BlockId) :
    Result RangeTable :=
  match t[b]? with
  | none => .ok t
  | some start => do
    let here ← (a.ops b).toList.foldlM (analyzeValue a bn t) start
    (← exitRanges a bn here (a.next b)).foldlM mergeRanges (t.insert b here)

/-- Nothing is known of the arguments. -/
def startRanges (g : Graph) : RangeTable :=
  (∅ : RangeTable).insert g.start (g.args.foldl (fun m v => m.insert v .unbounded) ∅)

/-- The intervals at the end of every block that can be reached. -/
def analyzeRanges (g : Graph) (bn : Builtins) (a : Arena) : Result RangeTable := do
  (← g.topoOrder a).foldlM (analyzeBlock a bn) g.startRanges

end Jib.Graph
