import Jib.Bits.Parts
import Jib.Proofs.Bits.Shift

/-!
# Truncation and ranges of bit vectors

Cutting a vector to a smaller width keeps its value modulo two to that width.  The bits from one
position to another are the value divided by a power of two and cut to the size of the range; a
range of at most 64 bits lies in two neighbouring words.
-/

namespace Jib.Bits

variable {w m n : Nat} {ws : List UInt64} {a : Bits}

/-! ### Cutting -/

theorem toNat_getD_zero_modEq (ws : List UInt64) :
    ((ws.getD 0 0).toNat : Int) ≡ wordsToNat ws [ZMOD 2 ^ 64] := by
  cases ws with
  | nil => rfl
  | cons v vs =>
    rw [List.getD_cons_zero, wordsToNat_cons]
    apply Int.modEq_of_dvd
    refine ⟨wordsToNat vs, ?_⟩
    push_cast
    ring

theorem makes_truncate (ha : a.WellFormed) {i : Nat} (hi : i ≤ a.width) :
    Makes (truncate a i) i a.toNat := by
  cases a with
  | small w v =>
    have hw := ha.1
    have hiw : i ≤ w := hi
    rw [truncate, if_neg (by omega)]
    split
    · exact makes_mkMasked (by omega) v
    · obtain rfl : i = w := by omega
      exact makes_mkSmall ha.1 ha.2
  | sparse w v =>
    have hiw : i ≤ w := hi
    rw [truncate, if_neg (by omega)]
    split_ifs with hsmall
    · have hlow : ((Word.low i v).toNat : Int) ≡ v.toNat [ZMOD 2 ^ i] := by
        rw [Word.toNat_low]
        push_cast
        exact Int.mod_modEq _ _
      rw [Word.mask_eq (by omega)]
      exact (makes_mkMasked (by omega) _).congr hlow
    · exact makes_mkSparse (by omega) v
  | wide w ws =>
    obtain ⟨hw, hlength, hlt⟩ := ha
    have hiw : i ≤ w := hi
    have hcount : wordCount i ≤ ws.length := by
      rw [hlength, wordCount, wordCount]
      omega
    have hrange : ¬ (decide ((i : Int) < 0) || decide ((i : Int) > w)) = true := by
      simp
      omega
    rw [truncate, if_neg hrange, toNat_wide]
    split
    · rw [← Nat.cast_zero, Digits.get_eq (List.length_pos_iff.mpr (ne_nil_of_length hw hlength))]
      apply (makes_mkMasked (by omega) _).congr
      exact (toNat_getD_zero_modEq ws).of_dvd (pow_dvd_pow 2 (by omega))
    · split_ifs with hsame
      · obtain rfl : i = w := by simpa using hsame
        exact makes_wide hw hlength hlt
      · exact makes_mkWideMasked_take (by omega) rfl hcount

/-! ### Reading a range -/

theorem range_guard (hmn : m ≤ n) (hn : n < w) :
    (decide (0 ≤ (m : Int)) && decide ((m : Int) ≤ n) && decide ((n : Int) < w)) = true := by
  simp [hmn, hn]

theorem size_guard (hsize : n - m + 1 ≤ 64) :
    (decide (0 < ((n - m + 1 : Nat) : Int)) && decide (((n - m + 1 : Nat) : Int) ≤ 64)) = true := by
  rw [Bool.and_eq_true, decide_eq_true_iff, decide_eq_true_iff]
  omega

section

variable (ha : a.WellFormed) (hmn : m ≤ n) (hn : n < a.width)
include ha hmn hn

theorem subrangeWord_spec (hsize : n - m + 1 ≤ 64) :
    ∃ v, subrangeWord a n m = .ok v ∧ v.toNat = a.toNat / 2 ^ m % 2 ^ (n - m + 1) := by
  have hcast : (n : Int) - m + 1 = (n - m + 1 : Nat) := by omega
  have hmask (v : UInt64) (hv : v.toNat % 2 ^ 64 = a.toNat / 2 ^ m % 2 ^ 64) :
      ∃ u, Word.mask (n - m + 1 : Nat) v = .ok u ∧ u.toNat = a.toNat / 2 ^ m % 2 ^ (n - m + 1) := by
    refine ⟨_, Word.mask_eq hsize v, ?_⟩
    rw [Word.toNat_low]
    exact Nat.ModEq.of_dvd (pow_dvd_pow 2 hsize) hv
  cases a with
  | small w v =>
    have hn' : n < w := hn
    simp only [subrangeWord, hcast, range_guard hmn hn', size_guard hsize]
    exact hmask _ (by rw [Word.toNat_shr]; rfl)
  | sparse w v =>
    have hn' : n < w := hn
    simp only [subrangeWord, hcast, range_guard hmn hn', size_guard hsize]
    change ∃ u, (if (m : Int) ≥ 64 then _ else _) = _ ∧ _
    split_ifs with hm
    · refine ⟨0, rfl, ?_⟩
      rw [toNat, Nat.div_eq_of_lt (Word.toNat_lt_two_pow (by omega) v)]
      rfl
    · exact hmask _ (by rw [Word.toNat_shr]; rfl)
  | wide w ws =>
    have hwindow := Digits.toNat_or_neighbour ws (m / 64) (Nat.mod_lt m (show 64 > 0 by decide))
    rw [Nat.div_add_mod] at hwindow
    have hi : (m : Int) / 64 = (m / 64 : Nat) := by omega
    have hlength : m / 64 < ws.length := by
      have hn' : n < w := hn
      rw [ha.2.1, wordCount]
      omega
    have hword := hmask _ (by rw [hwindow, Nat.mod_mod, toNat_wide])
    simp only [subrangeWord, hcast, size_guard hsize, hi, Digits.get_eq hlength]
    change ∃ u, (if (m % 64 == 0) = true then _ else _) = _ ∧ _
    split
    · rename_i hzero
      rw [beq_iff_eq] at hzero
      rw [Digits.shl_neighbour_eq_zero (.inl hzero), UInt64.or_zero, hzero] at hword
      exact hword
    · split_ifs with hnext
      · rw [← Nat.cast_succ, Digits.get_eq (by omega)]
        exact hword
      · rw [Digits.shl_neighbour_eq_zero (.inr (by omega)), UInt64.or_zero] at hword
        exact hword

theorem makes_subrange : Makes (subrange a n m) (n - m + 1) (a.toNat / 2 ^ m : Nat) := by
  have hcast : (n : Int) - m + 1 = (n - m + 1 : Nat) := by omega
  have hword (hle : n - m + 1 ≤ 64) :
      Makes (do mkSmall (n - m + 1 : Nat) (← subrangeWord a n m)) (n - m + 1)
        (a.toNat / 2 ^ m : Nat) := by
    obtain ⟨v, hv, hvalue⟩ := subrangeWord_spec ha hmn hn hle
    have hlt : v.toNat < 2 ^ (n - m + 1) := by
      rw [hvalue]
      exact Nat.mod_lt _ (by positivity)
    rw [hv]
    apply (makes_mkSmall hle hlt).congr
    rw [hvalue]
    push_cast
    exact Int.mod_modEq _ _
  cases a with
  | small w v =>
    have hw := ha.1
    have hn' : n < w := hn
    simp only [subrange, hcast, range_guard hmn hn']
    exact hword (by omega)
  | sparse w v =>
    have hn' : n < w := hn
    simp only [subrange, hcast, range_guard hmn hn']
    change Makes (if ((n - m + 1 : Nat) : Int) ≤ 64 then _ else _) _ _
    split
    · exact hword (by omega)
    · rw [shiftedWord_eq, toNat, ← Word.toNat_shr]
      exact makes_mkSparse (by omega) _
  | wide w ws =>
    simp only [subrange, hcast]
    split
    · exact hword (by omega)
    · split_ifs with hzero
      · rw [beq_iff_eq, Int.natCast_eq_zero] at hzero
        subst hzero
        rw [pow_zero, Nat.div_one]
        exact makes_truncate ha (by omega)
      · obtain ⟨b, hb, hwell, hwidth, hvalue⟩ := makes_shiftRight ha m
        rw [hb]
        apply (makes_truncate hwell (by omega)).congr
        rw [hvalue]
        exact (Int.mod_modEq _ _).of_dvd (pow_dvd_pow 2 (by omega))

end

end Jib.Bits
