import Jib.Graph.Optimizer.Numbers

/-!
# Rules for bit vectors

Operations on vectors of unknown width become operations on machine words wherever the width is
known and at most 64.
-/

namespace Jib.Graph

open OptM

/-- An operation on words in the place of one on vectors, with the result widened again. -/
def widened (o : Operation) (name : String) (args : List ValueId) (type : Ty) : OptM ValueId := do
  newCast (← newOp name args type o.pos o.hint) o.type

def widthOf (t : Ty) : Int := (t.width?.getD 0 : Nat)

def newWidth (t : Ty) : OptM ValueId := newMachineInt (widthOf t)

def eqBitsRule : Rule := symmetric fun _ o x y => do
  let (x, t) ← smallBits x
  instead o "@eq_bits_bv_bv" [x, ← newCast y t]

/-- A bitwise operation on vectors of one width. -/
def bitwiseRule (name : String) : Rule := symmetric fun _ o x y => do
  let (x, t) ← smallBits x
  widened o name [x, ← newCast y t] t

def notBitsRule : Rule := fun _ o => do
  let (x, t) ← smallBits (← arg1 o)
  let r ← newOp "@not_vec_bv" [x, ← newWidth t] t o.pos
  newCast r o.type o.hint

def addBitsRule : Rule := symmetric fun _ o x y => do
  let (x, t) ← smallBits x
  widened o "@add_bits_bv_bv" [x, ← newCast y t, ← newWidth t] t

def subBitsRule : Rule := fun _ o => do
  let (x, y) ← arg2 o
  if let some (x, t) ← attempt (smallBits x) then
    return ← widened o "@sub_bits_bv_bv" [x, ← newCast y t, ← newWidth t] t
  let (y, t) ← smallBits y
  widened o "@sub_bits_bv_bv" [← newCast x t, y, ← newWidth t] t

/-- Adds or subtracts an integer. -/
def bitsIntRule (name : String) : Rule := fun _ o => do
  let (x, y) ← arg2 o
  let (x, t) ← smallBits x
  let y ← asMachineInt y
  widened o name [x, ← newWidth t, y] t

/-- Takes some bits out of a vector, in one way for machine words and in another one for the
rest. -/
def extractBits (o : Operation) (wide narrow : String) (x : ValueId) (args : List ValueId)
    (width : Int) : OptM ValueId := do
  if width > 64 then noMatch
  ensure (o.type == .bits)
  match ← attempt (smallBits x) with
  | none => widened o wide (x :: args) (← smallBitsType width)
  | some (x, _) => widened o narrow (x :: args) (← smallBitsType width)

def subrangeRule : Rule := fun _ o => do
  let (x, n, m) ← arg3 o
  -- the first number is kept even when the second is not one
  let (n, hi) ← numberOr n
  if let some hi := hi then
    if let some (m, lo) ← attempt (number m) then
      return ← extractBits o "@vector_subrange_o_i_i_unwrapped_res" "@vector_subrange_fixed_bv_i_i"
        x [n, m] (hi - lo + 1)
  let t ← termsOf n (some m)
  let some k := t.constant | noMatch
  if t.count != 0 || !GraphM.fitsWord k then noMatch
  newOp "@slice_o_i_i" [x, m, ← newMachineInt (k + 1)] .bits o.pos o.hint

/-- An operation on a vector that is a machine word. -/
def wordRule (name : String) : Rule := fun _ o => do
  let (x, n, m) ← arg3 o
  let (x, _) ← smallBits x
  instead o name [x, n, m]

def accessRule : Rule := fun _ o => do
  let (x, i) ← arg2 o
  if (← typeOf x).isVec then noMatch
  let (x, _) ← smallBits x
  instead o "@vector_access_bv_i" [x, ← asMachineInt i]

def appendRule : Rule := fun _ o => do
  let (x, y) ← arg2 o
  let (x, t) ← smallBits x
  let (y, u) ← smallBits y
  let width := widthOf t + widthOf u
  if width > 64 then noMatch
  widened o "@bitvector_concat_bv_bv" [x, ← newWidth u, y] (← smallBitsType width)

/-- Where a vector is built up in a loop, the type of what it starts from. -/
def loopStart? (v x : ValueId) : OptM (Option Ty) := do
  let s ← get
  if !s.graph.hasLoop then return none
  let some [y, z] := (s.arena.phi? x).map (·.values.toList) | return none
  if y == v then return (← attempt (smallBits z)).map (·.2)
  if z == v then return (← attempt (smallBits y)).map (·.2)
  return none

def updateSubrangeRule : Rule := fun v o => do
  let (x, n, m, y) ← arg4 o
  ensure (o.type == .bits)
  let (y, _) ← smallBits y
  let (x, t) ← match ← loopStart? v x with
    | some t => do pure (← newCast x t, t)
    | none => smallBits x
  let r ← newOp "@vector_update_subrange_fixed_bv_i_i_bv" [x, n, m, y] t o.pos o.hint
  newCast r .bits

def sliceRule : Rule := fun _ o => do
  let (x, start, len) ← arg3 o
  let start ← asMachineInt start
  let (len, n) ← number len
  extractBits o "@vector_slice_o_i_i_unwrapped_res" "@slice_fixed_bv_i_i" x [start, len] n

def setSliceRule : Rule := fun _ o => do
  let [_, _, x, start, y] ← operands o | throw .badValue
  let (start, n) ← number start
  let (_, t) ← smallBits y
  instead o "@vector_update_subrange_o_i_i_o" [x, ← newMachineInt (n + widthOf t - 1), start, y]

def zerosRule : Rule := fun _ o => do
  let (_, n) ← number (← arg1 o)
  if n > 64 || n < 1 then noMatch
  newCast (← newConst (.smallBits 0 (← smallBitsType n))) o.type

def undefinedBitsRule : Rule := fun _ o => do
  let (_, n) ← number (← arg1 o)
  if n > 64 then noMatch
  newCast (← newConst (.smallBits 0 (← smallBitsType n))) o.type o.pos o.hint

def signedRule : Rule := fun _ o => do
  let (x, t) ← smallBits (← arg1 o)
  boxed o "@signed_bv" [x, ← newWidth t]

def unsignedRule : Rule := fun _ o => do
  let (x, t) ← smallBits (← arg1 o)
  let w ← newWidth t
  if widthOf t < 64 then
    let r ← newOp "@unsigned_bv" [x, w] .machineInt o.pos o.hint
    return ← toInt r o.pos
  instead o "@unsigned_bv_wrapped_res" [x, w]

/-- Extends to a known width of at most 64. -/
def extendRule (name : String) : Rule := fun _ o => do
  let (x, len) ← arg2 o
  let (len, n) ← number len
  if n > 64 then noMatch
  widened o name [x, len] (← smallBitsType n)

def extendWordRule (name : String) : Rule := fun _ o => do
  let (x, len) ← arg2 o
  let (len, n) ← number len
  ensure (n ≤ 64)
  let (x, t) ← smallBits x
  if widthOf t == n then return ← newCast x o.type
  widened o name [x, ← newWidth t, len] (← smallBitsType n)

def shiftRule (name : String) : Rule := fun _ o => do
  let (x, i) ← arg2 o
  let (i, n) ← numberOr i
  if n == some 0 then return x
  let (x, t) ← smallBits x
  ensure ((← typeOf i) == .machineInt)
  widened o name [x, ← newWidth t, i] t

def lengthRule : Rule := fun _ o => do
  let x ← arg1 o
  let r ← newOp "@length_unwrapped_res" [x] .machineInt o.pos o.hint
  toInt r o.pos

def lengthWordRule : Rule := fun _ o => do
  let some c ← op? (← arg1 o) | noMatch
  if c.kind != .cast then noMatch
  let some w := (← typeOf (← arg1 c)).width? | noMatch
  newMachineInt w

def truncateRule : Rule := fun _ o => do
  let (x, len) ← arg2 o
  let (x, t) ← smallBits x
  let (len, n) ← number len
  if widthOf t < n then noMatch
  if widthOf t == n then return ← newCast x o.type
  widened o "@truncate_bv_i" [x, len] (← smallBitsType n)

def replicateRule : Rule := fun _ o => do
  let (x, k) ← arg2 o
  let (k, n) ← number k
  if n == 1 then return x
  let (x, t) ← smallBits x
  let width := widthOf t * n
  if width > 64 then noMatch
  widened o "@replicate_bv_i_i" [x, ← newWidth t, k] (← smallBitsType width)

def updateBitRule : Rule := fun _ o => do
  let (x, i, y) ← arg3 o
  let some w := (← typeOf x).width? | throw .internal
  if w != 1 then noMatch
  match ← const? i with
  | some (.machineInt n) | some (.int n) =>
    ensure (n == 0)
    return y
  | _ => throw .internal

def vectorUpdateRule : Rule := fun _ o => do
  let (x, i, y) ← arg3 o
  if !((← typeOf x) == .bits) then noMatch
  ensure ((← typeOf y) == .smallBits 1)
  let (x, t) ← smallBits x
  if let some (.machineInt n) ← const? i then
    if !(0 ≤ n && n < widthOf t) then noMatch
  widened o "$zupdate_fbits" [x, i, y] t

def readMemRule : Rule := fun _ o => do
  let (kind, size, addr, n) ← arg4 o
  let (addr, t) ← smallBits addr
  let (n, bytes) ← number n
  if !List.contains [1, 2, 4, 8] bytes then noMatch
  if let some (.machineInt k) ← const? size then ensure (k == widthOf t)
  ensure (widthOf t == 32 || widthOf t == 64)
  widened o "@platform_read_mem_o_i_bv_i" [kind, size, addr, n] (← smallBitsType (bytes * 8))

def emptyBitsRule : Rule := fun _ o => do
  let some (.machineInt n) ← const? (← arg1 o) | throw .assertion
  ensure (n == 0)
  newConst (.bits (.small 0 0))

def sliceIntRule : Rule := fun _ o => do
  let (len, x, start) ← arg3 o
  let (len, n) ← number len
  let start ← asMachineInt start
  if n > 64 then noMatch
  let t ← smallBitsType n
  match ← attempt (asMachineInt x) with
  | none => widened o "@get_slice_int_i_o_i_unwrapped_res" [len, x, start] t
  | some x => widened o "@get_slice_int_i_i_i" [len, x, start] t

/-- The operands of an operation, the second of which is a number. -/
def shiftOperands (name : String) (x : ValueId) : OptM (ValueId × Int) := do
  let some o ← op? x | noMatch
  if o.name != name then noMatch
  let (y, k) ← arg2 o
  return (y, (← number k).2)

/-- Shifting an address right and left again by one amount clears its low bits. -/
def alignedAddress (x : ValueId) : OptM (ValueId × Nat) := do
  let (y, k) ← shiftOperands "@shl_int_i_i_wrapped_res" x
  if k ≤ 0 then noMatch
  let (addr, j) ← shiftOperands "@unsigned_bv64_rshift_int_result" y
  if j != k || k > 32 then noMatch
  return (addr, k.toNat)

def sliceIntWordRule : Rule := fun _ o => do
  let (len, x, start) ← arg3 o
  if let some x ← attempt (asMachineInt x) then
    return ← instead o "@get_slice_int_i_i_i" [len, x, start]
  let (_, n) ← number len
  if n != 64 then noMatch
  let (_, m) ← number start
  if m != 0 then noMatch
  let (addr, k) ← alignedAddress x
  let mask := 0 - (1 : UInt64) <<< k.toUInt64
  ensure (o.type == .smallBits 64)
  instead o "@and_vec_bv_bv" [addr, ← newConst (.smallBits mask (.smallBits 64))]

/-- The rule for a primitive. -/
def rule? : String → Option Rule
  | "eq_bits" => some eqBitsRule
  | "neq_bits" => some neqBitsRule
  | "neq" => some neqRule
  | "int64_to_int" => some ofMachineIntRule
  | "int_to_int64" => some toMachineIntRule
  | "eq_int" => some eqIntRule
  | "eq_int_o_i" => some eqMixedRule
  | "lt" => some fun _ o => compareRule "@lt" false (fun m n => m < n) o
  | "gt" => some fun _ o => compareRule "@gt" false (fun m n => m > n) o
  | "lteq" => some fun _ o => compareRule "@lteq" true (fun m n => m ≤ n) o
  | "gteq" => some fun _ o => compareRule "@gteq" true (fun m n => m ≥ n) o
  | "vector_subrange_o_i_i" => some subrangeRule
  | "vector_subrange_o_i_i_unwrapped_res" => some (wordRule "@vector_subrange_fixed_bv_i_i")
  | "vector_access_o_i" => some accessRule
  | "xor_bits" => some (bitwiseRule "@xor_vec_bv_bv")
  | "and_bits" => some (bitwiseRule "@and_vec_bv_bv")
  | "or_bits" => some (bitwiseRule "@or_vec_bv_bv")
  | "not_bits" => some notBitsRule
  | "add_bits" => some addBitsRule
  | "sub_bits" => some subBitsRule
  | "append" => some appendRule
  | "vector_update_subrange_o_i_i_o" => some updateSubrangeRule
  | "slice_o_i_i" => some sliceRule
  | "vector_slice_o_i_i_unwrapped_res" => some (wordRule "@slice_fixed_bv_i_i")
  | "set_slice_i_i_o_i_o" => some setSliceRule
  | "zeros_i" => some zerosRule
  | "sail_signed" => some signedRule
  | "sail_unsigned" => some unsignedRule
  | "zero_extend_o_i" => some (extendRule "@zero_extend_o_i_unwrapped_res")
  | "zero_extend_o_i_unwrapped_res" => some (extendWordRule "@zero_extend_bv_i_i")
  | "sign_extend_o_i" => some (extendRule "@sign_extend_o_i_unwrapped_res")
  | "sign_extend_o_i_unwrapped_res" => some (extendWordRule "@sign_extend_bv_i_i")
  | "add_int" => some addIntRule
  | "add_o_i_wrapped_res" => some addMixedRule
  | "add_i_i_wrapped_res" => some addWordsRule
  | "add_i_i_must_fit" => some addFittingRule
  | "sub_int" => some subIntRule
  | "sub_o_i_wrapped_res" => some subMixedRule
  | "sub_i_o_wrapped_res" => some subFromWordRule
  | "sub_i_i_wrapped_res" => some subWordsRule
  | "sub_i_i_must_fit" => some subFittingRule
  | "neg_int" => some negIntRule
  | "mult_int" => some multIntRule
  | "mult_o_i_wrapped_res" => some multMixedRule
  | "mult_i_i_wrapped_res" => some multWordsRule
  | "mult_i_i_must_fit" => some multFittingRule
  | "ediv_int" => some edivIntRule
  | "shl_int_o_i" => some shlIntRule
  | "shl_int_i_i_wrapped_res" => some shlWordsRule
  | "pow2_i" => some pow2Rule
  | "tdiv_int" => some tdivIntRule
  | "get_slice_int_i_o_i" => some sliceIntRule
  | "get_slice_int_i_o_i_unwrapped_res" => some sliceIntWordRule
  | "add_bits_int" => some (bitsIntRule "@add_bits_int_bv_i")
  | "sub_bits_int" => some (bitsIntRule "@sub_bits_int_bv_i")
  | "shiftl_o_i" => some (shiftRule "@shiftl_bv_i")
  | "shiftr_o_i" => some (shiftRule "@shiftr_bv_i")
  | "arith_shiftr_o_i" => some (shiftRule "@arith_shiftr_bv_i")
  | "length" => some lengthRule
  | "length_unwrapped_res" => some lengthWordRule
  | "undefined_bitvector_i" => some undefinedBitsRule
  | "sail_truncate_o_i" => some truncateRule
  | "eq_bool" => some eqBoolRule
  | "eq" => some eqRule
  | "not" | "not_" => some notRule
  | "replicate_bits_o_i" => some replicateRule
  | "zupdate_fbits" => some updateBitRule
  | "vector_update_o_i_o" => some vectorUpdateRule
  | "platform_read_mem_o_o_o_i" => some readMemRule
  | "UINT64_C" => some emptyBitsRule
  | _ => none

end Jib.Graph
