import Jib.Bits.Arithmetic
import Jib.Proofs.Bits.Read
import Jib.Proofs.Integer.Slice

/-!
# Shifts of bit vectors

Shifting to the left multiplies by a power of two modulo two to the width, shifting to the right
divides by it, and the arithmetic shift divides the signed value and rounds down.  This holds in
every form and for amounts of any size.
-/

namespace Jib.Bits

variable {w : Nat} {ws : List UInt64} {a : Bits}

/-! ### To the left -/

theorem mul_two_pow_modEq_zero (n : Int) {i : Nat} (hi : w ≤ i) : n * 2 ^ i ≡ 0 [ZMOD 2 ^ w] :=
  Int.modEq_zero_iff_dvd.mpr (Dvd.dvd.mul_left (pow_dvd_pow 2 hi) n)

theorem makes_shiftLeftWide (hw : 64 < w) (hlength : ws.length = wordCount w)
    (hlt : wordsToNat ws < 2 ^ w) (i : Nat) :
    Makes (shiftLeftWide w ws i) w (wordsToNat ws * 2 ^ i) := by
  unfold shiftLeftWide
  rw [if_neg (by omega)]
  split
  · rename_i hi
    rw [beq_iff_eq, Int.natCast_eq_zero] at hi
    rw [hi, pow_zero, mul_one]
    exact makes_wide hw hlength hlt
  · split_ifs with hi
    · exact (makes_mkSparse hw 0).congr (mul_two_pow_modEq_zero _ (by omega)).symm
    · have hvalue : (wordsToNat ws * 2 ^ i : Int) = wordsToNat (Digits.shiftLeft ws i) := by
        rw [Digits.wordsToNat_shiftLeft]
        rfl
      rw [hvalue]
      exact makes_mkWideMasked_take hw hlength (Digits.length_le_length_shiftLeft ws i)

theorem makes_shiftLeft (ha : a.WellFormed) (i : Nat) :
    Makes (shiftLeft a i) a.width (a.toNat * 2 ^ i) := by
  cases a with
  | small w v =>
    rw [shiftLeft, if_neg (by omega)]
    split_ifs with hi
    · have hw := ha.1
      apply (makes_mkSmall hw (by positivity)).congr
      exact (mul_two_pow_modEq_zero _ (by omega)).symm
    · apply (makes_mkMasked ha.1 (Word.shl v i)).congr
      rw [Word.toNat_shl]
      push_cast
      exact (Int.mod_modEq _ _).of_dvd (pow_dvd_pow 2 ha.1)
  | sparse w v =>
    obtain ⟨hw, hlength, hlt⟩ := ha.wide_words ha
    have hwide := makes_shiftLeftWide hw hlength hlt i
    rw [wordsToNat_words] at hwide
    rw [shiftLeft, if_neg (by omega)]
    split
    · rename_i hi
      rw [beq_iff_eq, Int.natCast_eq_zero] at hi
      rw [hi, pow_zero, mul_one]
      exact makes_ok ha
    · split_ifs with hfits
      · rw [Bool.and_eq_true, decide_eq_true_iff, beq_iff_eq, ← UInt64.toNat_inj,
          Word.toNat_shr, UInt64.toNat_zero, Nat.div_eq_zero_iff_lt (by positivity)] at hfits
        have hroom : v.toNat * 2 ^ i < 2 ^ 64 := by
          calc v.toNat * 2 ^ i
              < 2 ^ (64 - i) * 2 ^ i := Nat.mul_lt_mul_of_pos_right hfits.2 (by positivity)
            _ = 2 ^ 64 := by rw [← pow_add, Nat.sub_add_cancel (by omega)]
        have hvalue : ((sparse w v).toNat * 2 ^ i : Int) = (sparse w (Word.shl v i)).toNat := by
          simp only [toNat, Word.toNat_shl, Nat.mod_eq_of_lt hroom]
          rfl
        rw [hvalue]
        exact makes_ok ha
      · exact hwide
  | wide w ws =>
    rw [toNat_wide]
    exact makes_shiftLeftWide ha.1 ha.2.1 ha.2.2 i

/-! ### To the right -/

theorem wordsToNat_extended (n : Nat) (ws : List UInt64) :
    wordsToNat (extended n ws) = wordsToNat ws := by
  unfold extended
  rw [wordsToNat_append, wordsToNat_replicate_zero, mul_zero, add_zero]

theorem length_extended {n : Nat} (hn : ws.length ≤ n) : (extended n ws).length = n := by
  unfold extended
  rw [List.length_append, List.length_replicate, Nat.add_sub_cancel' hn]

theorem shiftedWord_eq (v : UInt64) (i : Nat) :
    (if (i : Int) ≥ 64 then 0 else Word.shr v (i : Int).toNat) = Word.shr v i := by
  split_ifs with hi
  · exact (Word.shr_of_le (by omega) v).symm
  · rw [Int.toNat_natCast]

theorem makes_shiftRight (ha : a.WellFormed) (i : Nat) :
    Makes (shiftRight a i) a.width (a.toNat / 2 ^ i) := by
  have hlt := ha.toNat_lt
  have hquotient : a.toNat / 2 ^ i < 2 ^ a.width := (Nat.div_le_self _ _).trans_lt hlt
  have hbeyond (hi : a.width ≤ i) : a.toNat / 2 ^ i = 0 :=
    Nat.div_eq_of_lt (hlt.trans_le (Nat.pow_le_pow_right (by decide) hi))
  rw [show ((a.toNat : Int) / 2 ^ i) = (a.toNat / 2 ^ i : Nat) by rfl]
  cases a with
    rw [shiftRight, if_neg (by omega)]
  | small w v =>
    split_ifs with hi
    · rw [hbeyond (Int.ofNat_le.mp hi)]
      exact makes_mkSmall ha.1 (by positivity)
    · rw [toNat, ← Word.toNat_shr]
      exact makes_mkSmall ha.1 (by rw [Word.toNat_shr]; exact hquotient)
  | sparse w v =>
    rw [shiftedWord_eq, toNat, ← Word.toNat_shr]
    exact makes_ok ha
  | wide w ws =>
    split
    · rename_i hi
      rw [hbeyond (Int.ofNat_le.mp hi)]
      exact makes_mkSparse ha.1 0
    · split_ifs with hi
      · rw [beq_iff_eq, Int.natCast_eq_zero] at hi
        rw [hi, pow_zero, Nat.div_one]
        exact makes_ok ha
      · have hvalue : wordsToNat (extended ws.length (Digits.shiftRight ws i)) =
            (wide w ws).toNat / 2 ^ i := by
          rw [wordsToNat_extended, Digits.wordsToNat_shiftRight, toNat_wide]
        have hextended : (extended ws.length (Digits.shiftRight ws i)).length = wordCount w := by
          rw [length_extended (by rw [Digits.length_shiftRight]; omega), ha.2.1]
        rw [Int.toNat_natCast, ← hvalue]
        exact makes_mkWide ha.1 hextended (by rw [hvalue]; exact hquotient)

/-! ### To the right with the sign -/

theorem toInt_of_not_testBit (htop : a.toNat.testBit (a.width - 1) = false) :
    a.toInt = a.toNat := by
  rw [toInt, htop]
  rfl

theorem toInt_of_testBit (htop : a.toNat.testBit (a.width - 1) = true) :
    a.toInt = a.toNat - 2 ^ a.width := by
  rw [toInt, htop]
  rfl

/-- Below the width, the quotient of a negative vector is that of its bits with ones above it. -/
theorem toInt_ediv_of_testBit (htop : a.toNat.testBit (a.width - 1) = true) {k : Nat}
    (hk : k ≤ a.width) : a.toInt / 2 ^ k = a.toNat / 2 ^ k - 2 ^ (a.width - k) := by
  have hpow : (2 : Int) ^ a.width = 2 ^ (a.width - k) * 2 ^ k := by
    rw [← pow_add, Nat.sub_add_cancel hk]
  rw [toInt_of_testBit htop]
  nth_rewrite 1 [hpow]
  rw [sub_eq_add_neg, ← neg_mul, Int.add_mul_ediv_right _ _ (by positivity), ← sub_eq_add_neg]

/-- From the width on, only the sign is left. -/
theorem toInt_ediv_of_le (ha : a.WellFormed) {i : Nat} (hi : a.width ≤ i) :
    a.toInt / 2 ^ i = if a.toNat.testBit (a.width - 1) then -1 else 0 := by
  have hlt : (a.toNat : Int) < 2 ^ a.width := by exact_mod_cast ha.toNat_lt
  have hpow : (2 : Int) ^ a.width ≤ 2 ^ i := pow_le_pow_right₀ (by decide) hi
  unfold toInt
  split
  · have hlower : -1 ≤ ((a.toNat : Int) - 2 ^ a.width) / 2 ^ i :=
      Int.le_ediv_of_mul_le (by positivity) (by omega)
    have hupper : ((a.toNat : Int) - 2 ^ a.width) / 2 ^ i < 0 :=
      Int.ediv_neg_of_neg_of_pos (by omega) (by positivity)
    omega
  · exact Int.ediv_eq_zero_of_lt (by omega) (by omega)

theorem wordsToNat_map_ones (ws : List UInt64) :
    wordsToNat (ws.map fun _ => 0 - 1) + 1 = 2 ^ (64 * ws.length) := by
  induction ws with
  | nil => rfl
  | cons v vs ih =>
    rw [List.length_cons, Nat.mul_succ, pow_add, ← ih]
    change 2 ^ 64 - 1 + _ + 1 = _
    ring

/-- The bits that come in are put above the quotient. -/
theorem toNat_or_fill {v : UInt64} (hv : v.toNat < 2 ^ w) (hw : w ≤ 64) {k : Nat} (hk : k ≤ w) :
    (Word.shr v k ||| Word.shl (Word.shl 1 k - 1) (w - k)).toNat + 2 ^ (w - k) =
      v.toNat / 2 ^ k + 2 ^ w := by
  have hpow : 2 ^ (w - k) * 2 ^ k = 2 ^ w := by rw [← pow_add, Nat.sub_add_cancel hk]
  have hle : 2 ^ w ≤ 2 ^ 64 := Nat.pow_le_pow_right (by decide) hw
  have hquotient : (Word.shr v k).toNat < 2 ^ (w - k) := by
    rw [Word.toNat_shr, Nat.div_lt_iff_lt_mul (by positivity), hpow]
    exact hv
  have hfill : (2 ^ k - 1) * 2 ^ (w - k) + 2 ^ (w - k) = 2 ^ w := by
    rw [← Nat.succ_mul, Nat.succ_eq_add_one, Nat.sub_add_cancel Nat.one_le_two_pow, mul_comm, hpow]
  rw [Word.toNat_or_shl (by omega) hquotient, Word.toNat_shl_one_sub_one (by omega), Word.toNat_shr]
  omega

theorem makes_arithShiftRight_small {v : UInt64} (ha : (small w v).WellFormed) (hw : 0 < w)
    (i : Nat) : Makes (arithShiftRight (small w v) i) w ((small w v).toInt / 2 ^ i) := by
  have htop := readBit_eq ha (show w - 1 < w by omega)
  have hpos : ((w : Int) - 1) = (w - 1 : Nat) := by omega
  have hk : (if (i : Int) ≥ w then w else (i : Int).toNat) = min i w := by
    split <;> omega
  have hediv : (small w v).toInt / 2 ^ i = (small w v).toInt / 2 ^ min i w := by
    rcases Nat.le_total i w with hi | hi
    · rw [Nat.min_eq_left hi]
    · rw [Nat.min_eq_right hi, toInt_ediv_of_le ha hi, toInt_ediv_of_le ha (Nat.le_refl w)]
  have hle : min i w ≤ w := Nat.min_le_right i w
  simp only [arithShiftRight, hpos, htop, hk]
  rw [hediv]
  generalize min i w = k at hle
  change Makes (if (small w v).toNat.testBit (w - 1) then _ else _) _ _
  split_ifs with hset
  · have hword := toNat_or_fill ha.2 ha.1 hle
    have hlt : v.toNat / 2 ^ k < 2 ^ (w - k) := by
      rw [Nat.div_lt_iff_lt_mul (by positivity), ← pow_add, Nat.sub_add_cancel hle]
      exact ha.2
    have hquotient : (small w v).toInt / 2 ^ k = v.toNat / 2 ^ k - 2 ^ (w - k) :=
      toInt_ediv_of_testBit hset hle
    apply (makes_mkSmall ha.1 (by omega)).congr
    apply Int.modEq_of_dvd
    refine ⟨-1, ?_⟩
    linarith
  · rw [toInt_of_not_testBit (Bool.eq_false_of_not_eq_true hset)]
    have hvalue : ((small w v).toNat / 2 ^ k : Int) = (Word.shr v k).toNat := by
      rw [Word.toNat_shr]
      rfl
    rw [hvalue]
    exact makes_mkSmall ha.1 (by
      rw [Word.toNat_shr]
      exact (Nat.div_le_self _ _).trans_lt ha.2)

theorem makes_arithShiftRight_wide (ha : (wide w ws).WellFormed) (i : Nat) :
    Makes (arithShiftRight (wide w ws) i) w ((wide w ws).toInt / 2 ^ i) := by
  have hw := ha.1
  have htop := readBit_eq ha (show w - 1 < w by omega)
  have hpos : ((w : Int) - 1) = (w - 1 : Nat) := by omega
  simp only [arithShiftRight, hpos, htop]
  change Makes (if (i : Int) ≥ w then _ else _) _ _
  split
  · rename_i hi
    rw [toInt_ediv_of_le ha (Int.ofNat_le.mp hi)]
    change Makes (if (wide w ws).toNat.testBit (w - 1) then _ else _) _
      (if (wide w ws).toNat.testBit (w - 1) then _ else _)
    split
    · have hones := wordsToNat_map_ones ws
      apply (makes_mkWideMasked hw (by rw [List.length_map, ha.2.1])).congr_words
      apply Int.modEq_of_dvd
      refine ⟨-1, ?_⟩
      rw [← ha.2.1]
      linarith
    · exact makes_mkSparse hw 0
  · obtain ⟨z, hz, hwell, hvalue⟩ := denotes_signed_wide ha
    obtain ⟨y, hy, hwell', hvalue'⟩ := Integer.denotes_shiftRight hwell i
    have hslice := Integer.makes_slice hwell' w 0
    rw [hvalue', hvalue, pow_zero, Int.ediv_one] at hslice
    rw [hz]
    change Makes (do Integer.slice (← Integer.shiftRight z i) w 0) _ _
    rw [hy]
    exact hslice

theorem makes_arithShiftRight (ha : a.WellFormed) (hwidth : 0 < a.width) (i : Nat) :
    Makes (arithShiftRight a i) a.width (a.toInt / 2 ^ i) := by
  cases a with
  | small w v => exact makes_arithShiftRight_small ha hwidth i
  | sparse w v =>
    have htop : (sparse w v).toNat.testBit ((sparse w v).width - 1) = false :=
      Word.testBit_of_le (Nat.le_sub_one_of_lt ha) v
    rw [toInt_of_not_testBit htop]
    exact makes_shiftRight ha i
  | wide w ws => exact makes_arithShiftRight_wide ha i

/-- Shifts are exact in every form and by every amount, also by the width and beyond it. -/
theorem shift_exact (ha : a.WellFormed) (hwidth : 0 < a.width) (i : Nat) :
    Makes (shiftLeft a i) a.width (a.toNat * 2 ^ i) ∧
      Makes (shiftRight a i) a.width (a.toNat / 2 ^ i) ∧
        Makes (arithShiftRight a i) a.width (a.toInt / 2 ^ i) :=
  ⟨makes_shiftLeft ha i, makes_shiftRight ha i, makes_arithShiftRight ha hwidth i⟩

/-- A negative vector in three words, shifted by more than a word. -/
theorem shift_exact_negative :
    let a := wide 130 [5, 0, 3]
    (a.WellFormed ∧ 0 < a.width ∧ a.toInt < 0) ∧
      Makes (shiftLeft a 67) 130 (a.toNat * 2 ^ 67) ∧
      Makes (shiftRight a 67) 130 (a.toNat / 2 ^ 67) ∧
        Makes (arithShiftRight a 67) 130 (a.toInt / 2 ^ 67) :=
  ⟨by decide, shift_exact (by decide) (by decide) 67⟩

end Jib.Bits
