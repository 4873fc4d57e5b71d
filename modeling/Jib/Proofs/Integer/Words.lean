import Jib.Integer.Basic
import Jib.Proofs.Digits

/-!
# Numbers as words

The words of a number are its places to the base two to the 64 in two's complement.  A word is put
together from digits of 63 bits, so its value is proved bit by bit; lists of words then follow place
by place.
-/

namespace Jib

theorem emod_mul_eq (x : Int) {a : Int} (ha : 0 ≤ a) (b : Int) :
    x % (a * b) = x % a + a * (x / a % b) := by
  rw [Int.emod_def, Int.ediv_mul_of_nonneg ha, Int.emod_def, Int.emod_def]
  ring

/-- The complement of a number divides as the number does. -/
theorem complement_ediv_emod (n : Int) {b : Int} (hb : 0 < b) :
    (-n - 1) / b = -(n / b) - 1 ∧ (-n - 1) % b = b - 1 - n % b := by
  have hlow := Int.emod_nonneg n hb.ne'
  have hhigh := Int.emod_lt_of_pos n hb
  have hsplit := Int.emod_add_mul_ediv n b
  rw [Int.ediv_emod_unique hb]
  refine ⟨?_, by omega, by omega⟩
  rw [mul_sub, mul_neg]
  omega

namespace Integer

theorem toNat_digit63 (n i : Nat) : (digit63 n i).toNat = n / 2 ^ (63 * i) % 2 ^ 63 := by
  change ((n >>> (63 * i)) % 2 ^ 63).toUInt64.toNat = _
  rw [Nat.shiftRight_eq_div_pow, UInt64.toNat_ofNat', Nat.mod_eq_of_lt (by omega)]

theorem testBit_digit63 (n i j : Nat) :
    (digit63 n i).toNat.testBit j = (decide (j < 63) && n.testBit (j + 63 * i)) := by
  rw [toNat_digit63, Nat.testBit_mod_two_pow, Nat.testBit_div_two_pow]

theorem lt_two_pow_digitCount63 (n : Nat) : n < 2 ^ (63 * digitCount63 n) := by
  unfold digitCount63
  split_ifs with hzero
  · rw [beq_iff_eq.mp hzero]
    decide
  · have hlog : n.log2 < 63 * (n.log2 / 63 + 1) := by omega
    exact Nat.lt_log2_self.trans_le (Nat.pow_le_pow_right (by decide) hlog)

/-- A word is put together from two neighbouring digits of 63 bits. -/
theorem toNat_extractNat (n offset : Nat) :
    (extractNat n offset).toNat = n / 2 ^ offset % 2 ^ 64 := by
  have htop {j : Nat} (hj : 63 * digitCount63 n ≤ j) : n.testBit j = false :=
    Nat.testBit_lt_two_pow
      ((lt_two_pow_digitCount63 n).trans_le (Nat.pow_le_pow_right (by decide) hj))
  apply Nat.eq_of_testBit_eq
  intro j
  rw [Nat.testBit_mod_two_pow, Nat.testBit_div_two_pow]
  unfold extractNat
  extract_lets i k r
  have hr : r.toNat.testBit j = (decide (j + k < 63) && n.testBit (j + offset)) := by
    rw [Word.testBit_shr, testBit_digit63]
    congr 2
    omega
  split
  · rw [htop (by omega)]
    simp
  · split
    · rw [hr]
      rcases lt_or_ge (j + k) 63 with hj | hj
      · simp [hj, show j < 64 by omega]
      · rw [htop (by omega)]
        simp
    · rw [UInt64.toNat_or, Nat.testBit_or, hr, Word.testBit_shl, testBit_digit63]
      rcases lt_or_ge (j + k) 63 with hj | hj
      · simp [hj, show j < 64 by omega]
      · have hpos : j - (63 - k) + 63 * (i + 1) = j + offset := by omega
        have hdigit : j < 64 → j - (63 - k) < 63 := by omega
        rw [hpos]
        by_cases hlt : j < 64 <;>
          simp [hlt, hdigit, show ¬ j + k < 63 by omega, show 63 - k ≤ j by omega]

theorem toNat_extractWord (n : Int) (offset : Nat) :
    ((extractWord n offset).toNat : Int) = n / 2 ^ offset % 2 ^ 64 := by
  unfold extractWord
  split_ifs with hneg
  · obtain ⟨m, hm⟩ := Int.eq_ofNat_of_zero_le (show 0 ≤ -n - 1 by omega)
    have hn : n = -m - 1 := by omega
    have hcast : (m : Int) / 2 ^ offset = (m / 2 ^ offset : Nat) := by rfl
    rw [hm, Int.toNat_natCast, UInt64.toNat_not, toNat_extractNat, UInt64.size, hn,
      (complement_ediv_emod _ (by positivity)).1, (complement_ediv_emod _ (by decide)).2, hcast]
    omega
  · obtain ⟨m, rfl⟩ := Int.eq_ofNat_of_zero_le (not_lt.mp hneg)
    rw [toNat_extractNat]
    rfl

theorem length_wordsFrom (n : Int) (offset k : Nat) : (wordsFrom n offset k).length = k := by
  induction k generalizing offset with
  | zero => rfl
  | succ k ih => rw [wordsFrom, List.length_cons, ih]

theorem wordsToNat_wordsFrom (n : Int) (offset k : Nat) :
    (wordsToNat (wordsFrom n offset k) : Int) = n / 2 ^ offset % 2 ^ (64 * k) := by
  induction k generalizing offset with
  | zero => simp [wordsFrom]
  | succ k ih =>
    have hshift : n / 2 ^ (offset + 64) = n / 2 ^ offset / 2 ^ 64 := by
      rw [pow_add, Int.ediv_mul_of_nonneg (by positivity)]
    have hmod : n / 2 ^ offset % 2 ^ (64 * (k + 1)) =
        n / 2 ^ offset % 2 ^ 64 + 2 ^ 64 * (n / 2 ^ offset / 2 ^ 64 % 2 ^ (64 * k)) := by
      rw [mul_add_one, add_comm, pow_add, emod_mul_eq _ (by decide)]
    rw [wordsFrom, wordsToNat_cons, Nat.cast_add, Nat.cast_mul, toNat_extractWord, ih, hshift, hmod]
    rfl

theorem maskLast_eq (r : Nat) (ws : List UInt64) :
    maskLast r ws = ws.set (ws.length - 1) (Word.low r (ws.getD (ws.length - 1) 0)) := by
  fun_induction maskLast r ws with
  | case1 => rfl
  | case2 w => rfl
  | case3 w ws hne ih =>
    cases ws with
    | nil => exact absurd rfl hne
    | cons v vs => rw [ih]; rfl

theorem length_toWords (width : Nat) (n : Int) :
    (toWords width n).length = Bits.wordCount width := by
  unfold toWords
  extract_lets ws
  have hlength : ws.length = Bits.wordCount width := length_wordsFrom ..
  split
  · exact hlength
  · rw [maskLast_eq, List.length_set, hlength]

theorem wordsToNat_toWords (width : Nat) (n : Int) :
    (wordsToNat (toWords width n) : Int) = n % 2 ^ width := by
  unfold toWords
  extract_lets ws
  have hlength : ws.length = (width + 63) / 64 := length_wordsFrom ..
  have hvalue : (wordsToNat ws : Int) = n % 2 ^ (64 * ((width + 63) / 64)) := by
    simpa using wordsToNat_wordsFrom n 0 ((width + 63) / 64)
  split_ifs with hmod
  · rw [beq_iff_eq] at hmod
    rw [hvalue]
    congr 2
    omega
  · rw [beq_iff_eq] at hmod
    rw [maskLast_eq, wordsToNat_set_low (by omega) (by omega)]
    have hexponent : 64 * (ws.length - 1) + width % 64 = width := by omega
    rw [hexponent]
    push_cast
    rw [hvalue]
    exact Int.emod_emod_of_dvd n (pow_dvd_pow 2 (by omega))

theorem wordsToNat_natDigits (n : Nat) : wordsToNat (natDigits n) = n := by
  fun_induction natDigits n with
  | case1 => rfl
  | case2 n hne ih =>
    rw [wordsToNat_cons, toNat_extractNat, ih, pow_zero, Nat.div_one]
    exact Nat.mod_add_div n (2 ^ 64)

/-- The digits of a number have no leading zero. -/
theorem normal_natDigits {n : Nat} (hn : n ≠ 0) : Digits.Normal (natDigits n) := by
  fun_induction natDigits n with
  | case1 => exact absurd rfl hn
  | case2 n hne ih =>
    rcases eq_or_ne (n / 2 ^ 64) 0 with hzero | hrest
    · -- the last digit is the number itself
      rw [hzero, show natDigits 0 = [] by simp [natDigits], Digits.normal_singleton]
      intro hdigit
      have hvalue := toNat_extractNat n 0
      rw [hdigit, pow_zero, Nat.div_one, Nat.mod_eq_of_lt (Nat.lt_of_div_eq_zero (by decide) hzero)]
        at hvalue
      exact hne hvalue.symm
    · have htail := ih hrest
      exact (Digits.normal_cons_iff htail.ne_nil _).mpr htail

theorem signAndDigits_eq (n : Int) : signAndDigits n = (n.sign, natDigits n.natAbs) := by
  have hempty : (natDigits n.natAbs).isEmpty = decide (n = 0) := by
    rw [natDigits]
    split <;> simp_all
  rw [signAndDigits, hempty]
  rcases lt_trichotomy n 0 with hn | rfl | hn
  · simp [hn, hn.ne, Int.sign_eq_neg_one_of_neg]
  · rfl
  · simp [hn.not_gt, hn.ne', Int.sign_eq_one_of_pos hn]

@[simp]
theorem toInt_ofInt (n : Int) : (ofInt n).toInt = n := by
  unfold ofInt
  split_ifs with hzero
  · rw [beq_iff_eq.mp hzero]
    rfl
  · rw [toInt, signAndDigits_eq, wordsToNat_natDigits, Int.sign_mul_natAbs]

/-- A word holds the 64 bits of a number in two's complement from its offset on.  Putting the words
for any width together again gives the number modulo two to the width, and putting together its
digits and its sign gives the number itself; there is no leading zero, and the sign is zero for zero
only. -/
theorem words_exact (n : Int) :
    (∀ offset, ((extractWord n offset).toNat : Int) = n / 2 ^ offset % 2 ^ 64) ∧
    (∀ width, (joinWords (toWords width n) : Int) = n % 2 ^ width) ∧
    ∃ s ds, signAndDigits n = (s, ds) ∧ (big s ds).spelled = n ∧ (s = 0 ↔ n = 0) ∧
      ds.getLast? ≠ some 0 := by
  refine ⟨toNat_extractWord n, fun width => ?_, _, _, signAndDigits_eq n, ?_,
    Int.sign_eq_zero_iff_zero, ?_⟩
  · rw [joinWords_eq, wordsToNat_toWords]
  · rw [spelled, joinWords_eq, wordsToNat_natDigits]
    split_ifs with hs
    · rw [Int.sign_neg_iff] at hs
      omega
    · rw [Int.sign_neg_iff] at hs
      omega
  · rcases eq_or_ne n.natAbs 0 with hn | hn
    · rw [hn, natDigits]
      simp
    · intro hlast
      have hnormal := normal_natDigits hn
      rw [Digits.Normal, List.getLastD_eq_getLast?, hlast] at hnormal
      exact hnormal rfl

end Integer

end Jib
