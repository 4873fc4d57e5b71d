import Jib.Word
import Mathlib.Data.Int.ModEq
import Mathlib.Data.Nat.Bitwise
import Mathlib.Tactic.Linarith

/-!
# Words as numbers

What the operations on 64-bit words do to the numbers that the words denote, and to their single
bits. A carry and a borrow are told from a comparison of the result with an operand; the two lemmas
about them say what is lost modulo two to the 64.
-/

namespace Jib.Word

variable {k : Nat}

theorem toNat_lt_two_pow {k : Nat} (hk : 64 ≤ k) (w : UInt64) : w.toNat < 2 ^ k :=
  w.toNat_lt.trans_le (Nat.pow_le_pow_right (by decide) hk)

/-! ### Shifts and masks -/

@[simp] theorem shl_zero_left (i : Nat) : shl 0 i = 0 := by
  unfold shl
  split <;> simp

@[simp] theorem shr_zero_left (i : Nat) : shr 0 i = 0 := by
  unfold shr
  split <;> simp

@[simp] theorem shr_zero (w : UInt64) : shr w 0 = w := by simp [shr]

theorem shl_of_le {i : Nat} (hi : 64 ≤ i) (w : UInt64) : shl w i = 0 := if_neg (Nat.not_lt.mpr hi)

theorem shr_of_le {i : Nat} (hi : 64 ≤ i) (w : UInt64) : shr w i = 0 := if_neg (Nat.not_lt.mpr hi)

theorem toNat_shl (w : UInt64) (i : Nat) : (shl w i).toNat = w.toNat * 2 ^ i % 2 ^ 64 := by
  unfold shl
  split_ifs with hi
  · have hmod : i % 2 ^ 64 % 64 = i := by omega
    rw [UInt64.toNat_shiftLeft, UInt64.toNat_ofNat', hmod, Nat.shiftLeft_eq]
  · have hdvd : 2 ^ 64 ∣ w.toNat * 2 ^ i := Nat.dvd_mul_left_of_dvd (pow_dvd_pow 2 (by omega)) _
    rw [Nat.mod_eq_zero_of_dvd hdvd, UInt64.toNat_zero]

theorem toNat_shr (w : UInt64) (i : Nat) : (shr w i).toNat = w.toNat / 2 ^ i := by
  unfold shr
  split_ifs with hi
  · have hmod : i % 2 ^ 64 % 64 = i := by omega
    rw [UInt64.toNat_shiftRight, UInt64.toNat_ofNat', hmod, Nat.shiftRight_eq_div_pow]
  · rw [Nat.div_eq_of_lt (toNat_lt_two_pow (by omega) w), UInt64.toNat_zero]

theorem toNat_shl_one (hk : k < 64) : (shl 1 k).toNat = 2 ^ k := by
  have hlt : 2 ^ k < 2 ^ 64 := Nat.pow_lt_pow_right (by decide) hk
  rw [toNat_shl, UInt64.toNat_one, one_mul, Nat.mod_eq_of_lt hlt]

/-- The word whose lowest bits are set.  For all 64 bits the shift gives zero, and so the difference
wraps around. -/
theorem toNat_shl_one_sub_one (hk : k ≤ 64) : (shl 1 k - 1).toNat = 2 ^ k - 1 := by
  have hpos : 1 ≤ 2 ^ k := Nat.one_le_two_pow
  have hle : 2 ^ k ≤ 2 ^ 64 := Nat.pow_le_pow_right (by decide) hk
  rw [UInt64.toNat_sub, toNat_shl, UInt64.toNat_one]
  omega

theorem toNat_low (k : Nat) (w : UInt64) : (low k w).toNat = w.toNat % 2 ^ k := by
  unfold low
  split_ifs with hk
  · rw [UInt64.toNat_and, toNat_shl_one_sub_one hk.le, Nat.and_two_pow_sub_one_eq_mod]
  · exact (Nat.mod_eq_of_lt (toNat_lt_two_pow (by omega) w)).symm

theorem mask_eq (hk : k ≤ 64) (w : UInt64) : mask k w = .ok (low k w) := by
  unfold mask
  split
  · rename_i heq
    obtain rfl : k = 64 := by exact_mod_cast beq_iff_eq.mp heq
    rfl
  · rw [if_neg (by omega), if_neg (by omega), Int.toNat_natCast]

theorem shiftLeft_eq (w : UInt64) (i : Nat) : shiftLeft w i = .ok (shl w i) := by
  unfold shiftLeft
  rw [if_neg (by omega), Int.toNat_natCast]

theorem shiftRight_eq (w : UInt64) (i : Nat) : shiftRight w i = .ok (shr w i) := by
  unfold shiftRight
  rw [if_neg (by omega), Int.toNat_natCast]

theorem toNat_ofInt (n : Int) : ((ofInt n).toNat : Int) = n % 2 ^ 64 := by
  have hnonneg : 0 ≤ n % 2 ^ 64 := Int.emod_nonneg n (by decide)
  change (((n % 2 ^ 64).toNat.toUInt64).toNat : Int) = _
  rw [UInt64.toNat_ofNat', Nat.mod_eq_of_lt (by omega), Int.toNat_of_nonneg hnonneg]

/-! ### Carry and borrow -/

theorem toNat_carry (p : Prop) [Decidable p] : (carry p).toNat = if p then 1 else 0 := by
  unfold carry
  by_cases hp : p <;> simp [hp]

theorem toNat_add_carry (x y : UInt64) :
    (x + y).toNat + 2 ^ 64 * (carry (x + y < y)).toNat = x.toNat + y.toNat := by
  have hx := x.toNat_lt
  have hy := y.toNat_lt
  simp only [toNat_carry, UInt64.lt_iff_toNat_lt, UInt64.toNat_add]
  split <;> omega

theorem toNat_sub_borrow (x y : UInt64) :
    (x - y).toNat + y.toNat = x.toNat + 2 ^ 64 * (carry (x < y)).toNat := by
  have hx := x.toNat_lt
  have hy := y.toNat_lt
  simp only [toNat_carry, UInt64.lt_iff_toNat_lt, UInt64.toNat_sub]
  split <;> omega

/-- A sum that is not below its first summand has not wrapped around. -/
theorem toNat_add_of_not_lt {x y : UInt64} (hxy : ¬ x + y < x) :
    (x + y).toNat = x.toNat + y.toNat := by
  have hcarry := toNat_add_carry y x
  rw [UInt64.add_comm, toNat_carry, if_neg hxy] at hcarry
  omega

theorem toNat_add_modEq (v u : UInt64) :
    ((v + u).toNat : Int) ≡ v.toNat + u.toNat [ZMOD 2 ^ 64] := by
  rw [UInt64.toNat_add]
  push_cast
  exact Int.mod_modEq _ _

theorem toNat_sub_modEq (v u : UInt64) :
    ((v - u).toNat : Int) ≡ v.toNat - u.toNat [ZMOD 2 ^ 64] := by
  have hborrow := toNat_sub_borrow v u
  apply Int.modEq_of_dvd
  exact ⟨-(carry (v < u)).toNat, by omega⟩

/-- Bits that come in from below and a word that made room for them. -/
theorem toNat_or_shl {c : UInt64} (hk : k ≤ 64) (hc : c.toNat < 2 ^ k) (x : UInt64) :
    (c ||| shl x k).toNat = c.toNat + x.toNat * 2 ^ k % 2 ^ 64 := by
  have hroom : x.toNat * 2 ^ k % 2 ^ 64 = 2 ^ k * (x.toNat % 2 ^ (64 - k)) := by
    rw [mul_comm, ← Nat.mul_mod_mul_left, ← pow_add, Nat.add_sub_cancel' hk]
  rw [UInt64.toNat_or, toNat_shl, hroom, Nat.or_comm, ← Nat.two_pow_add_eq_or_of_lt hc, add_comm]

/-- Bits above others that fit one word together with them. -/
theorem toNat_shl_or {v x : UInt64} {w u : Nat} (hv : v.toNat < 2 ^ w) (hx : x.toNat < 2 ^ u)
    (hsum : w + u ≤ 64) : (shl v u ||| x).toNat = v.toNat * 2 ^ u + x.toNat := by
  have hlt : v.toNat * 2 ^ u < 2 ^ 64 := calc
    v.toNat * 2 ^ u < 2 ^ w * 2 ^ u := Nat.mul_lt_mul_of_pos_right hv (Nat.two_pow_pos u)
    _ = 2 ^ (w + u) := (pow_add 2 w u).symm
    _ ≤ 2 ^ 64 := Nat.pow_le_pow_right (by decide) hsum
  rw [UInt64.or_comm, toNat_or_shl (by omega) hx, Nat.mod_eq_of_lt hlt, Nat.add_comm]

/-! ### Single bits -/

/-- The highest bit of a number tells if the number is in the upper half of its range. -/
theorem testBit_eq_decide_le {n : Nat} (hn : n < 2 ^ (k + 1)) :
    n.testBit k = decide (2 ^ k ≤ n) := by
  rcases Nat.lt_or_ge n (2 ^ k) with hlow | hhigh
  · rw [Nat.testBit_lt_two_pow hlow, decide_eq_false (Nat.not_le.mpr hlow)]
  · rw [Nat.testBit_of_two_pow_le_and_two_pow_add_one_gt hhigh hn, decide_eq_true hhigh]

theorem testBit_of_le (hk : 64 ≤ k) (w : UInt64) : w.toNat.testBit k = false :=
  Nat.testBit_lt_two_pow (toNat_lt_two_pow hk w)

theorem testBit_shl (w : UInt64) (i k : Nat) :
    (shl w i).toNat.testBit k =
      (decide (k < 64) && (decide (i ≤ k) && w.toNat.testBit (k - i))) := by
  rw [toNat_shl, Nat.testBit_mod_two_pow, Nat.testBit_mul_two_pow]

theorem testBit_shr (w : UInt64) (i k : Nat) :
    (shr w i).toNat.testBit k = w.toNat.testBit (k + i) := by
  rw [toNat_shr, Nat.testBit_div_two_pow]

theorem testBit_low (n : Nat) (w : UInt64) (k : Nat) :
    (low n w).toNat.testBit k = (decide (k < n) && w.toNat.testBit k) := by
  rw [toNat_low, Nat.testBit_mod_two_pow]

theorem testBit_not (w : UInt64) (k : Nat) :
    (~~~w).toNat.testBit k = (decide (k < 64) && !w.toNat.testBit k) := by
  rw [UInt64.toNat_not]
  change (2 ^ 64 - 1 - w.toNat).testBit k = _
  rw [show 2 ^ 64 - 1 - w.toNat = 2 ^ 64 - (w.toNat + 1) by omega,
    Nat.testBit_two_pow_sub_succ w.toNat_lt]

theorem and_high_ne_zero (w : UInt64) :
    (w &&& 0x8000000000000000 != 0) = decide (2 ^ 63 ≤ w.toNat) := by
  have hhigh : (w &&& 0x8000000000000000).toNat = (w.toNat.testBit 63).toNat * 2 ^ 63 := by
    exact Nat.and_two_pow w.toNat 63
  rw [← testBit_eq_decide_le w.toNat_lt, Bool.eq_iff_iff, bne_iff_ne, ne_eq, ← UInt64.toNat_inj,
    hhigh]
  cases w.toNat.testBit 63 <;> simp

theorem toInt_of_lt {w : UInt64} (hw : w.toNat < 2 ^ 63) : toInt w = w.toNat :=
  BitVec.toInt_eq_toNat_of_lt (show 2 * w.toNat < 2 ^ 64 by omega)

/-- The word with all bits set, cut to a width. -/
theorem toNat_low_ones (hk : k ≤ 64) : (low k (0 - 1)).toNat = 2 ^ k - 1 := by
  apply Nat.eq_of_testBit_eq
  intro j
  rw [testBit_low, Nat.testBit_two_pow_sub_one]
  change (decide (j < k) && (2 ^ 64 - 1).testBit j) = _
  rw [Nat.testBit_two_pow_sub_one]
  rcases Nat.lt_or_ge j k with hj | hj
  · simp [show j < 64 by omega]
  · simp [Nat.not_lt.mpr hj]

end Jib.Word
