import Std.Data.HashSet

/-!
# Names of primitives

Which primitives have no effect, and which take machine integers in some places of their boxed form.
-/

namespace Jib.Primitive

/-- Primitives whose result depends on their operands only. -/
def pureNames : List String := [
  "signed_bv", "unsigned_bv_wrapped_res", "unsigned_bv64_rshift_int_result", "unsigned_bv",
  "add_bits_int", "add_bits_int_bv_i", "add_bits", "add_bits_bv_bv", "sub_bits_int",
  "sub_bits_int_bv_i", "sub_bits", "sub_bits_bv_bv", "length", "length_unwrapped_res",
  "zero_extend", "zero_extend_o_i", "zero_extend_bv_i_i", "eq_bits", "eq_bits_bv_bv", "neq_bits",
  "neq_bits_bv_bv", "not_vec_bv", "shiftl", "shiftl_o_i", "shiftl_bv_i", "shiftr", "shiftr_o_i",
  "shiftr_bv_i", "replicate_bits", "replicate_bits_o_i", "sail_unsigned", "sail_signed",
  "append", "bitvector_concat_bv_bv", "append_64", "vector_update", "vector_update_o_i_o",
  "vector_access", "vector_access_o_i", "vector_access_bv_i", "zupdate_fbits",
  "vector_update_subrange", "vector_update_subrange_o_i_i_o",
  "vector_update_subrange_fixed_bv_i_i_bv", "vector_subrange", "vector_subrange_o_i_i",
  "vector_subrange_o_i_i_unwrapped_res", "slice", "slice_o_i_i",
  "vector_slice_o_i_i_unwrapped_res", "set_slice", "set_slice_i_i_o_i_o",
  "vector_subrange_fixed_bv_i_i", "slice_fixed_bv_i_i", "zeros", "zeros_i", "ones", "ones_i",
  "undefined_bitvector", "undefined_bitvector_i", "sail_truncate", "sail_truncate_o_i",
  "truncate_bv_i", "eq_int", "eq_int_i_i", "eq_int_o_i", "eq_bit", "lteq", "lt", "gt", "gteq",
  "eq", "add_int", "add_o_i_wrapped_res", "add_i_i_wrapped_res", "add_i_i_must_fit", "sub_int",
  "sub_i_i_wrapped_res", "sub_i_i_must_fit", "sub_o_i_wrapped_res", "sub_i_o_wrapped_res",
  "mult_int", "mult_o_i_wrapped_res", "mult_i_i_wrapped_res", "mult_i_i_must_fit", "tdiv_int",
  "tdiv_int_i_i", "tmod_int", "ediv_int", "ediv_int_i_ipos", "emod_int", "max_int", "min_int",
  "get_slice_int", "get_slice_int_i_o_i", "get_slice_int_i_o_i_unwrapped_res",
  "get_slice_int_i_i_i", "not_", "int_to_int64", "int64_to_int", "undefined_int", "pow2",
  "pow2_i", "neg_int", "shl_int", "shl_int_o_i", "shl_int_i_i_wrapped_res",
  "shl_int_i_i_must_fit", "shr_int", "shr_int_o_i", "shl_mach_int", "shr_mach_int", "abs_int",
  "undefined_real", "undefined_bool", "undefined_unit", "cons", "concat_str", "eq_string",
  "string_length", "internal_pick"]

def pureTable : Std.HashSet String := Std.HashSet.ofList pureNames

def isPure (name : String) : Bool := pureTable.contains name

/-- How a primitive takes an operand: as it is, or as a machine integer. -/
inductive Passing where
  | whole
  | word
  deriving BEq, DecidableEq, Repr

/-- Primitives with a second form that takes some operands as machine integers. -/
def wordForms : List (String × List Passing) := [
  ("sign_extend", [.whole, .word]),
  ("zero_extend", [.whole, .word]),
  ("shiftl", [.whole, .word]),
  ("shiftr", [.whole, .word]),
  ("arith_shiftr", [.whole, .word]),
  ("replicate_bits", [.whole, .word]),
  ("vector_update", [.whole, .word, .whole]),
  ("vector_access", [.whole, .word]),
  ("vector_update_subrange", [.whole, .word, .word, .whole]),
  ("vector_subrange", [.whole, .word, .word]),
  ("slice", [.whole, .word, .word]),
  ("set_slice", [.word, .word, .whole, .word, .whole]),
  ("zeros", [.word]),
  ("ones", [.word]),
  ("undefined_bitvector", [.word]),
  ("sail_truncate", [.whole, .word]),
  ("get_slice_int", [.word, .whole, .word]),
  ("pow2", [.word]),
  ("shl_int", [.whole, .word]),
  ("shr_int", [.whole, .word]),
  ("real_power", [.whole, .word]),
  ("platform_read_mem", [.whole, .whole, .whole, .word]),
  ("platform_write_mem", [.whole, .whole, .whole, .word, .whole]),
  ("read_mem_ifetch", [.whole, .whole, .whole, .word]),
  ("read_mem_exclusive", [.whole, .whole, .whole, .word]),
  ("read_mem", [.whole, .whole, .whole, .word]),
  ("write_mem", [.whole, .whole, .whole, .word, .whole])]

/-- The operands and the name of the form that takes machine integers. -/
def wordForm? (name : String) : Option (List Passing × String) :=
  (wordForms.find? (fun p => p.1 == name)).map fun (n, ps) =>
    (ps, n ++ String.join (ps.map (fun p => if p == .word then "_i" else "_o")))

end Jib.Primitive
