import Jib.Graph.Basic

/-!
# Reading and writing an arena

What a value, a block or an edge is after an arena has been changed at one place: the changed place
holds what was written, and every other place holds what it held before.
-/

namespace Jib.Arena

variable {a : Arena} {v w : ValueId} {b c : BlockId} {x : Value}

@[simp]
theorem size_addValue (a : Arena) (x : Value) :
    (a.addValue x).2.values.size = a.values.size + 1 := by
  simp [addValue]

@[simp]
theorem fst_addValue (a : Arena) (x : Value) : (a.addValue x).1 = a.values.size := rfl

@[simp]
theorem value_addValue_self (a : Arena) (x : Value) :
    (a.addValue x).2.value a.values.size = x := by
  simp [addValue, value]

theorem value_addValue_of_ne (hv : v ≠ a.values.size) : (a.addValue x).2.value v = a.value v := by
  simp only [addValue, value, Array.getD, Array.size_push]
  by_cases hlt : v < a.values.size
  · simp [hlt, Nat.lt_succ_of_lt hlt, Array.getElem_push_lt]
  · have hlarge : ¬ v < a.values.size + 1 := fun hle =>
      hlt (Nat.lt_of_le_of_ne (Nat.lt_succ_iff.mp hle) hv)
    simp [hlt, hlarge]

theorem value_addValue_of_lt (hv : v < a.values.size) : (a.addValue x).2.value v = a.value v :=
  value_addValue_of_ne (Nat.ne_of_lt hv)

theorem value_of_size_le (hv : a.values.size ≤ v) : a.value v = .missing := by
  simp [value, Nat.not_lt.mpr hv]

theorem lt_size_of_value {v : Nat} (hvalue : a.value v = x) (hx : x ≠ .missing) :
    v < a.values.size :=
  Nat.lt_of_not_le fun hle => hx (hvalue.symm.trans (value_of_size_le hle))

theorem value_setValue_self (hv : v < a.values.size) (x : Value) :
    (a.setValue v x).value v = x := by
  simp [value, setValue, hv]

theorem value_setValue_of_ne (hw : w ≠ v) (x : Value) : (a.setValue v x).value w = a.value w := by
  simp [value, setValue, Array.getElem?_setIfInBounds_ne hw.symm]

@[simp]
theorem size_modifyValue (a : Arena) (v : ValueId) (f : Value → Value) :
    (a.modifyValue v f).values.size = a.values.size := by
  simp [modifyValue]

theorem value_modifyValue_self (hv : v < a.values.size) (f : Value → Value) :
    (a.modifyValue v f).value v = f (a.value v) := by
  have hget : a.values[v]? = some a.values[v] := Array.getElem?_eq_getElem hv
  simp only [modifyValue, value, Array.getD_eq_getD_getElem?, Array.getElem?_modify, if_true, hget,
    Option.map_some, Option.getD_some]

theorem value_modifyValue_of_ne (hw : w ≠ v) (f : Value → Value) :
    (a.modifyValue v f).value w = a.value w := by
  simp only [modifyValue, value, Array.getD_eq_getD_getElem?, Array.getElem?_modify,
    if_neg (Ne.symm hw)]

/-! ### Blocks -/

@[simp]
theorem size_modifyBlock (a : Arena) (b : BlockId) (f : Block → Block) :
    (a.modifyBlock b f).blocks.size = a.blocks.size := by
  simp [modifyBlock]

theorem block_modifyBlock_self (hb : b < a.blocks.size) (f : Block → Block) :
    (a.modifyBlock b f).block b = f (a.block b) := by
  have hget : a.blocks[b]? = some a.blocks[b] := Array.getElem?_eq_getElem hb
  simp only [modifyBlock, block, Array.getD_eq_getD_getElem?, Array.getElem?_modify, if_true, hget,
    Option.map_some, Option.getD_some]

theorem block_modifyBlock_of_ne (hc : c ≠ b) (f : Block → Block) :
    (a.modifyBlock b f).block c = a.block c := by
  simp only [modifyBlock, block, Array.getD_eq_getD_getElem?, Array.getElem?_modify,
    if_neg (Ne.symm hc)]

end Jib.Arena
