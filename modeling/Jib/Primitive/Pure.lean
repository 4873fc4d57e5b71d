import Jib.Bits.Append
import Jib.Integer.Text
import Jib.Primitive.Names
import Jib.Primitive.Operand
import Jib.Primitive.Raw

/-!
# Primitives without effects

The table of primitives whose result depends on their operands only.  A primitive with a form on
machine integers has two entries: the boxed one takes the machine integers out of their boxes first.
The same table serves a run and the folding of constants; folding knows a few more cases, on plain
integers.
-/

namespace Jib.Primitive

open scoped Jib.Power

/-- Takes machine integers out of their boxes where the passing says so; further operands are
dropped. -/
def unboxed : List Passing → List Datum → Result (List Datum)
  | [], _ => .ok []
  | _ :: _, [] => .error .outOfRange
  | .whole :: ps, d :: ds => do return d :: (← unboxed ps ds)
  | .word :: ps, d :: ds => do
    let n ← d.toWord
    return .int n :: (← unboxed ps ds)

def boxedForm (ps : List Passing) (f : Function) : Function := fun ds => do f (← unboxed ps ds)

def signExtendSmall (b : Bits) (size : Int) : Result UInt64 := do
  if size > 64 then throw .assertion
  match b with
  | .small w v => Raw.signExtend v w size
  | _ => throw .assertion

def zeroExtendSmall (b : Bits) (size : Int) : Result UInt64 := do
  if size > 64 then throw .assertion
  match b with
  | .small _ v => return v
  | _ => throw .assertion

/-- A bit of a vector: the word form answers with a word, the wider forms with a truth value. -/
def readBit (b : Bits) (i : Int) : Result Datum := do
  let r ← b.readBit i
  match b with
  | .small .. => return .word (if r then 1 else 0)
  | _ => return .bool r

def ones (n : Int) : Result Bits :=
  if n ≤ 64 then Bits.ofWord n (0 - 1) else Bits.ofInt n (-1)

/-! ### Shifts to the left

The result of a shift may be too large to be held; what a shift gives where there is no such limit
is said by the integers themselves. -/

/-- Shift amounts from here on need more memory than there is. -/
def shiftLimit : Nat := 2 ^ (36 : Nat)

/-- Refuses an amount whose result cannot be held; zero can be shifted by any amount. -/
def holdShift (isZero : Bool) (i : Int) : Result Unit :=
  if !isZero && i ≥ shiftLimit then .error .internal else .ok ()

def shiftLeft (z : Integer) (i : Int) : Result Integer := do
  holdShift z.isZero i
  z.shiftLeft i

def shiftWordLeft (n i : Int) : Result Integer := do
  holdShift (n == 0) i
  Integer.shiftWordLeft n i

def scaleUp (n i : Int) : Result Int := do
  holdShift (n == 0) i
  Integer.scaleUp n i

/-- Replaces bits of an integer; the bits of the vector are shifted to their place. -/
def setSlice (z : Integer) (len start : Int) (b : Bits) : Result Integer := do
  holdShift (len != b.width || b.width == 0) start
  z.setSlice len start b

def powerOfTwo (n : Int) : Result Integer := do
  if n < 0 then throw .assertion
  if n < 63 then Integer.ofWord (2 ^ n.toNat)
  else return Integer.ofInt (← scaleUp 1 n)

def maxInt (y z : Integer) : Result Integer := do return if ← y.gt z then y else z

def minInt (y z : Integer) : Result Integer := do return if ← y.lt z then y else z

/-- Subtracts a boxed integer from a machine integer. -/
def subFromWord (n : Int) (z : Integer) : Result Integer :=
  match z with
  | .small m => Integer.subWords n m.toInt
  | .big .. => do (← Integer.ofWord n).sub z

/-- Primitives that have a form on machine integers, given by that form. -/
def unboxedFunctions : List (String × Function) := [
  ("sign_extend", fn2 Bits.signExtend),
  ("zero_extend", fn2 Bits.zeroExtend),
  ("shiftl", fn2 (fun (b : Bits) (i : Int) => b.shiftLeft i.natAbs)),
  ("shiftr", fn2 Bits.shiftRight),
  ("arith_shiftr", fn2 Bits.arithShiftRight),
  ("replicate_bits", fn2 Bits.replicate),
  ("vector_update", fn3 Bits.updateBit),
  ("vector_access", fn2 readBit),
  ("vector_update_subrange", fn4 Bits.updateSubrange),
  ("vector_subrange", fn3 Bits.subrange),
  ("slice", fn3 (fun (b : Bits) (start len : Int) => b.subrange (start + len - 1) start)),
  ("set_slice", fn5 (fun (_ _ : Datum) (b : Bits) (start : Int) (s : Bits) =>
    b.updateSubrange (start + s.width - 1) start s)),
  ("zeros", fn1 (fun (n : Int) => Bits.ofWord n 0)),
  ("ones", fn1 ones),
  ("undefined_bitvector", fn1 (fun (n : Int) => Bits.ofWord n 0)),
  ("sail_truncate", fn2 Bits.truncate),
  ("get_slice_int", fn3 (fun (len : Int) (z : Integer) (start : Int) => z.slice len start)),
  ("pow2", fn1 powerOfTwo),
  ("shl_int", fn2 shiftLeft),
  ("shr_int", fn2 Integer.shiftRight),
  ("real_power", fn2 Rational.pow)]

/-- Operations on bit vectors, boxed and raw. -/
def vectorFunctions : List (String × Function) := [
  ("signed_bv", fn2 Raw.signed),
  ("unsigned_bv_wrapped_res", total2 (fun (w : UInt64) (_ : Datum) => Integer.ofUnsigned w)),
  ("unsigned_bv64_rshift_int_result", fn2 Raw.unsignedAfterShift),
  ("unsigned_bv", fn2 Raw.unsigned),
  ("add_bits_int", fn2 Bits.addInt),
  ("add_bits_int_bv_i", fn3 Raw.addInt),
  ("add_bits", fn2 Bits.add),
  ("add_bits_bv_bv", fn3 Raw.add),
  ("sub_bits_int", fn2 Bits.subInt),
  ("sub_bits_int_bv_i", fn3 Raw.subInt),
  ("sub_bits", fn2 Bits.sub),
  ("sub_bits_bv_bv", fn3 Raw.sub),
  ("length", fn1 (fun (b : Bits) => Integer.ofWord b.width)),
  ("length_unwrapped_res", total1 (fun (b : Bits) => (b.width : Int))),
  ("sign_extend_bv_i_i", fn3 Raw.signExtend),
  ("sign_extend_o_i_unwrapped_res", fn2 signExtendSmall),
  ("zero_extend_bv_i_i", total3 (fun (w _ _ : Datum) => w)),
  ("zero_extend_o_i_unwrapped_res", fn2 zeroExtendSmall),
  ("eq_bits", fn2 Bits.eq),
  ("eq_bits_bv_bv", total2 Datum.same),
  ("neq_bits", fn2 (fun (a b : Bits) => do return !(← a.eq b))),
  ("neq_bits_bv_bv", total2 (fun (a b : Datum) => !a.same b)),
  ("xor_bits", fn2 Bits.xor),
  ("xor_vec_bv_bv", total2 (fun (a b : UInt64) => a ^^^ b)),
  ("and_bits", fn2 Bits.and),
  ("and_vec_bv_bv", total2 (fun (a b : UInt64) => a &&& b)),
  ("or_bits", fn2 Bits.or),
  ("or_vec_bv_bv", total2 (fun (a b : UInt64) => a ||| b)),
  ("not_bits", fn1 Bits.not),
  ("not_vec_bv", fn2 Raw.not),
  ("shiftl_bv_i", fn3 Raw.shiftLeft),
  ("shiftr_bv_i", fn3 Raw.shiftRight),
  ("arith_shiftr_bv_i", fn3 Raw.arithShiftRight),
  ("shift_bits_left", fn2 Bits.shiftLeftBy),
  ("shift_bits_right", fn2 Bits.shiftRightBy),
  ("replicate_bv_i_i", fn3 (fun (v : UInt64) (width count : Int) =>
    Bits.repeatWord v width (count - 1).toNat v)),
  ("sail_unsigned", fn1 Bits.unsigned),
  ("sail_signed", fn1 Bits.signed),
  ("append", fn2 Bits.append),
  ("bitvector_concat_bv_bv", fn3 Raw.append),
  ("append_64", fn2 Bits.appendWord),
  ("vector_access_bv_i", fn2 Raw.readBit),
  ("zupdate_fbits", fn3 Raw.updateBit),
  ("vector_update_subrange_fixed_bv_i_i_bv", fn4 Raw.updateSubrange),
  ("vector_subrange_o_i_i_unwrapped_res", fn3 Bits.subrangeWord),
  ("vector_slice_o_i_i_unwrapped_res",
    fn3 (fun (b : Bits) (start len : Int) => b.subrangeWord (start + len - 1) start)),
  ("vector_subrange_fixed_bv_i_i", fn3 Raw.subrange),
  ("slice_fixed_bv_i_i", fn3 Raw.slice),
  ("string_of_bits", total1 Bits.text),
  ("truncate_bv_i", fn2 (fun (w : UInt64) (i : Int) => Word.mask i w)),
  ("safe_rshift", fn2 Raw.safeShiftRight),
  ("safe_lshift", fn2 Raw.safeShiftLeft)]

/-- Operations on integers, boxed and machine. -/
def integerFunctions : List (String × Function) := [
  ("eq_int", total2 Integer.eq),
  ("eq_int_i_i", total2 Datum.same),
  ("eq_int_o_i", total2 Integer.eqWord),
  ("eq_bit", total2 Datum.same),
  ("lteq", fn2 Integer.le),
  ("lt", fn2 Integer.lt),
  ("gt", fn2 Integer.gt),
  ("gteq", fn2 Integer.ge),
  ("add_int", fn2 Integer.add),
  ("add_o_i_wrapped_res", fn2 Integer.addWord),
  ("add_i_i_wrapped_res", fn2 Integer.addWords),
  ("add_i_i_must_fit", fn2 (fun (a b : Int) => Raw.mustFit (a + b))),
  ("sub_int", fn2 Integer.sub),
  ("sub_i_i_wrapped_res", fn2 Integer.subWords),
  ("sub_i_i_must_fit", fn2 (fun (a b : Int) => Raw.mustFit (a - b))),
  ("sub_o_i_wrapped_res", fn2 Integer.subWord),
  ("sub_i_o_wrapped_res", fn2 subFromWord),
  ("mult_int", fn2 Integer.mul),
  ("mult_o_i_wrapped_res", fn2 Integer.mulWord),
  ("mult_i_i_wrapped_res", fn2 Integer.mulWords),
  ("mult_i_i_must_fit", fn2 (fun (a b : Int) => Raw.mustFit (a * b))),
  ("tdiv_int", fn2 Integer.tdiv),
  ("tdiv_int_i_i", fn2 Raw.tdiv),
  ("tmod_int", fn2 Integer.tmod),
  ("ediv_int", fn2 Integer.ediv),
  ("ediv_int_i_ipos", fn2 Raw.edivPositive),
  ("emod_int", fn2 Integer.emod),
  ("max_int", fn2 maxInt),
  ("min_int", fn2 minInt),
  ("get_slice_int_i_o_i_unwrapped_res",
    fn3 (fun (len : Int) (z : Integer) (start : Int) => z.sliceWord len start)),
  ("get_slice_int_i_i_i", fn3 Raw.sliceInt),
  ("not_", total1 (fun (b : Bool) => !b)),
  ("eq_bool", total2 Datum.same),
  ("string_of_int", total1 Integer.decimal),
  ("int_to_int64", fn1 Datum.toWord),
  ("int64_to_int", fn1 Integer.ofWord),
  ("undefined_int", total1 (fun (_ : Datum) => Integer.zero)),
  ("neg_int", fn1 Integer.neg),
  ("dec_str", total1 Integer.decimal),
  ("hex_str", fn1 Integer.hex),
  ("shl_int_i_i_wrapped_res", fn2 shiftWordLeft),
  ("shl_int_i_i_must_fit",
    fn2 (fun (i shift : Int) => do Raw.mustFit (← scaleUp i shift))),
  ("shl_mach_int", fn2 scaleUp),
  ("shr_mach_int", fn2 Integer.scaleDown),
  ("abs_int", fn1 Integer.abs),
  ("pow_int", fn2 Integer.pow),
  ("elf_tohost", total1 (fun (_ : Datum) => Integer.zero))]

/-- The text of a plain or boxed value. -/
def plainText : Datum → Result String
  | .word w => .ok (toString w.toNat)
  | .int n => .ok (toString n)
  | .bits b => .ok b.describe
  | .text s => .ok s
  | _ => .error .internal

/-- Operations on rationals and texts, and those that ignore what they are given. -/
def otherFunctions : List (String × Function) := [
  ("neg_real", total1 Rational.neg),
  ("abs_real", total1 Rational.abs),
  ("add_real", total2 Rational.add),
  ("sub_real", total2 Rational.sub),
  ("mult_real", total2 Rational.mul),
  ("div_real", fn2 Rational.div),
  ("round_up", fn1 (fun (q : Rational) => do return Integer.ofInt (← q.ceil))),
  ("round_down", fn1 (fun (q : Rational) => do return Integer.ofInt (← q.floor))),
  ("eq_real", total2 Rational.eq),
  ("lt_real", total2 Rational.lt),
  ("gt_real", total2 Rational.gt),
  ("lteq_real", total2 Rational.le),
  ("gteq_real", total2 Rational.ge),
  ("sqrt_real", fn1 Rational.sqrt),
  ("string_to_real", fn1 Rational.ofText),
  ("to_real", total1 (fun (z : Integer) => Rational.ofInt z.spelled)),
  ("undefined_real", fn1 (fun (_ : Datum) => Rational.ofWords 12 19)),
  ("undefined_bool", total1 (fun (_ : Datum) => false)),
  ("undefined_unit", total1 (fun (_ : Datum) => ())),
  ("cons", fn2 (fun (_ _ : Datum) =>
    (.error (.assertion "unreachable at runtime, see GlobalVal.makecode") : Result Unit))),
  ("string_to_int", fn1 (fun (s : String) =>
    match Text.readInt? s with
    | some n => .ok (Integer.ofIntShort n)
    | none => .error .badNumeral)),
  ("concat_str", total2 (fun (a b : String) => a ++ b)),
  ("eq_string", total2 Datum.same),
  ("string_length", fn1 (fun (s : String) => Integer.ofWord s.length)),
  ("decimal_string_of_bits", fn1 plainText),
  ("platform_barrier", total1 (fun (_ : Datum) => ())),
  ("platform_write_mem_ea", fn4 (fun (_ _ _ _ : Datum) => .ok ())),
  ("branch_announce", total2 (fun (_ _ : Datum) => ())),
  ("monomorphize", total1 (fun (d : Datum) => d))]

/-- Both entries of a primitive that has a form on machine integers. -/
def bothForms (entry : String × Function) : List (String × Function) :=
  match wordForm? entry.1 with
  | some (ps, name) => [(entry.1, boxedForm ps entry.2), (name, entry.2)]
  | none => [entry]

def functions : List (String × Function) :=
  unboxedFunctions.flatMap bothForms ++ vectorFunctions ++ integerFunctions ++ otherFunctions

def functionTable : Std.HashMap String Function := Std.HashMap.ofList functions

/-- Comparisons that only the folding of constants does on plain integers. -/
def compareInts? (name : String) (a b : Int) : Option Bool :=
  if name == "lteq" then some (a ≤ b)
  else if name == "lt" then some (a < b)
  else if name == "gt" then some (a > b)
  else if name == "gteq" then some (a ≥ b)
  else if name == "eq" then some (a == b)
  else none

/-- Evaluates a primitive on constants. -/
def evalPure (name : String) (args : List Datum) : Result Datum :=
  let general : Result Datum :=
    match functionTable[name]? with
    | some f => f args
    | none => .error .internal
  match args with
  | [.int a, .int b] =>
    match compareInts? name a b with
    | some r => .ok (.bool r)
    | none => general
  | _ => general

end Jib.Primitive
