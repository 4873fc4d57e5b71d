import Jib.Integer.Slice
import Jib.Proofs.Bits.Form
import Jib.Proofs.Integer.Form
import Jib.Proofs.Ranges.Interval

/-!
# Shifts and slices of integers are divisions

Shifting an integer to the right divides it by a power of two and rounds down, whatever its form and
its sign.  A slice of an integer is such a quotient modulo two to the length of the slice.
-/

namespace Jib.Integer

variable {z : Integer} {s : Int} {ds : List UInt64} {len : Nat}

theorem scaleDown_eq (n : Int) (i : Nat) : scaleDown n i = .ok (n / 2 ^ i) := by
  have hshift : scaleDown n i = .ok (Interval.shiftRight n i) := by
    unfold scaleDown Interval.shiftRight
    rw [if_neg (by omega), Int.toNat_natCast]
    by_cases hbits : n.natAbs.log2 + 1 < i
    · rw [if_pos (by omega), if_pos hbits]
    · rw [if_neg (by omega), if_neg hbits]
  rw [hshift, Interval.shiftRight_eq, Int.toNat_natCast]

theorem toInt_ediv_two_pow_mem (n : Int64) (i : Nat) :
    -2 ^ 63 ≤ n.toInt / 2 ^ i ∧ n.toInt / 2 ^ i < 2 ^ 63 := by
  have hlow := n.le_toInt
  have hhigh := n.toInt_lt
  have hpos : (1 : Int) ≤ 2 ^ i := one_le_pow₀ (by decide)
  constructor
  · exact Int.le_ediv_of_mul_le (by omega) (by nlinarith)
  · exact Int.ediv_lt_of_lt_mul (by omega) (by nlinarith)

theorem denotes_shiftRight (hz : z.WellFormed) (i : Nat) :
    Denotes (shiftRight z i) (z.toInt / 2 ^ i) := by
  unfold shiftRight
  cases z with
  | small n =>
    obtain ⟨hlow, hhigh⟩ := toInt_ediv_two_pow_mem n i
    simp only [scaleDown_eq]
    exact denotes_ofWord hlow hhigh
  | big s ds =>
    change Denotes (if ((i : Int) == 0 || s == 0) = true then _ else _) _
    split
    · rename_i htrivial
      rw [Bool.or_eq_true, beq_iff_eq, beq_iff_eq] at htrivial
      have hsame : (big s ds).toInt / 2 ^ i = (big s ds).toInt := by
        rcases htrivial with hi | rfl
        · rw [Int.natCast_eq_zero.mp hi, pow_zero, Int.ediv_one]
        · rw [toInt, zero_mul, Int.zero_ediv]
      rw [hsame]
      exact denotes_ok hz
    · rename_i hne
      split_ifs with hneg
      · rw [scaleDown_eq, spelled_eq hz]
        exact ⟨_, rfl, wellFormed_ofInt _, toInt_ofInt _⟩
      · obtain rfl : s = 1 := by
          rw [Bool.or_eq_true] at hne
          rcases hz.1 with rfl | rfl | rfl
          · exact absurd (.inr rfl) hne
          · rfl
          · exact absurd (by decide) hneg
        have hvalue :
            (big 1 ds).toInt / 2 ^ i = 1 * (wordsToNat (Digits.shiftRight ds i) : Int) := by
          rw [Digits.wordsToNat_shiftRight, toInt, one_mul, one_mul]
          rfl
        rw [hvalue]
        exact denotes_ofDigits (.inr (.inl rfl))

theorem sliceDigits_spec (ds : List UInt64) (start : Nat) :
    ∃ v, sliceDigits ds start = .ok v ∧ v.toNat = wordsToNat ds / 2 ^ start % 2 ^ 64 := by
  have hwindow :=
    Digits.toNat_or_neighbour ds (start / 64) (Nat.mod_lt start (show 64 > 0 by decide))
  rw [Nat.div_add_mod] at hwindow
  have hi : (start : Int) / 64 = (start / 64 : Nat) := by omega
  have hk : ((start : Int) % 64).toNat = start % 64 := by omega
  refine ⟨_, ?_, hwindow⟩
  unfold sliceDigits
  simp only [hi, hk]
  split
  · have hout' : ds.length ≤ start / 64 := by omega
    rw [List.getD_eq_default _ _ hout', List.getD_eq_default _ _ (by omega), Word.shr_zero_left,
      Word.shl_zero_left]
    rfl
  · rw [Digits.get_eq (by omega)]
    split_ifs with hnext
    · rw [Bool.and_eq_true, decide_eq_true_iff] at hnext
      rw [← Nat.cast_succ, Digits.get_eq (by omega)]
      rfl
    · rw [Bool.and_eq_true, bne_iff_ne, decide_eq_true_iff, not_and_or, not_not] at hnext
      rw [Digits.shl_neighbour_eq_zero (hnext.imp_right (by omega)), UInt64.or_zero]
      rfl


theorem mask_spec (hlen : len ≤ 64) {v : UInt64} {n : Int}
    (hv : (v.toNat : Int) ≡ n [ZMOD 2 ^ len]) :
    ∃ u, Word.mask len v = .ok u ∧ (u.toNat : Int) = n % 2 ^ len := by
  refine ⟨_, Word.mask_eq hlen v, ?_⟩
  rw [Word.toNat_low]
  exact hv

/-- Nothing but the sign is left of a word. -/
theorem toInt_ediv_two_pow (n : Int64) {i : Nat} (hi : 64 ≤ i) :
    n.toInt / 2 ^ i = if n.toInt ≥ 0 then 0 else -1 := by
  have hlow := n.le_toInt
  have hhigh := n.toInt_lt
  have hpow : (2 : Int) ^ 64 ≤ 2 ^ i := pow_le_pow_right₀ (by decide) hi
  split_ifs with hneg
  · exact Int.ediv_eq_zero_of_lt (by omega) (by omega)
  · have hlower : -1 ≤ n.toInt / 2 ^ i := Int.le_ediv_of_mul_le (by omega) (by omega)
    have hupper : n.toInt / 2 ^ i < 0 := Int.ediv_neg_of_neg_of_pos (by omega) (by omega)
    omega

theorem slicePositive_spec (hz : z.WellFormed) (hsign : ∀ ds, z ≠ big (-1) ds) (hlen : len ≤ 64)
    (start : Nat) :
    ∃ v, slicePositive z len start = .ok v ∧ (v.toNat : Int) = z.toInt / 2 ^ start % 2 ^ len := by
  cases z with
  | small n =>
    rw [toInt, slicePositive]
    split
    · rw [toInt_ediv_two_pow n (by omega)]
      split
      · exact ⟨0, rfl, rfl⟩
      · exact mask_spec hlen ((show _ ≡ -1 [ZMOD 2 ^ 64] by decide).of_dvd (pow_dvd_pow 2 hlen))
    · rw [scaleDown_eq]
      apply mask_spec hlen
      rw [Word.toNat_ofInt]
      exact (Int.mod_modEq _ _).of_dvd (pow_dvd_pow 2 hlen)
  | big s ds =>
    obtain ⟨v, hv, hvalue⟩ := sliceDigits_spec ds start
    obtain ⟨rfl | rfl | rfl, hzero⟩ := hz
    · refine ⟨0, rfl, ?_⟩
      simp [toInt]
    · rw [slicePositive, toInt, hv]
      apply mask_spec hlen
      rw [hvalue, one_mul]
      push_cast
      exact (Int.mod_modEq _ _).of_dvd (pow_dvd_pow 2 hlen)
    · exact absurd rfl (hsign ds)

theorem sliceWord_spec (hz : z.WellFormed) (hlen : len ≤ 64) (start : Nat) :
    ∃ v, sliceWord z len start = .ok v ∧ (v.toNat : Int) = z.toInt / 2 ^ start % 2 ^ len := by
  unfold sliceWord
  split
  · rename_i ds
    obtain ⟨y, hy, hwell, hvalue⟩ := denotes_addWord_one hz
    obtain ⟨y', hy', hwell', hvalue'⟩ := denotes_neg hwell
    have hcomplement : (big (-1) ds).toInt = -y'.toInt - 1 := by
      rw [hvalue', hvalue]
      ring
    have hsign : ∀ es, y' ≠ big (-1) es := by
      rintro es rfl
      have hds : wordsToNat ds ≠ 0 := fun hzero => absurd (hz.2.mpr hzero) (by decide)
      have hes : wordsToNat es ≠ 0 := fun hzero => absurd (hwell'.2.mpr hzero) (by decide)
      rw [toInt, toInt] at hcomplement
      omega
    obtain ⟨u, hu, huvalue⟩ := slicePositive_spec hwell' hsign hlen start
    rw [hy]
    change ∃ v, (do Word.mask len (~~~(← slicePositive (← neg y) len start))) = .ok v ∧ _
    rw [hy']
    change ∃ v, (do Word.mask len (~~~(← slicePositive y' len start))) = .ok v ∧ _
    rw [hu]
    apply mask_spec hlen
    have hnot : ((~~~u).toNat : Int) = 2 ^ 64 - 1 - u.toNat := by
      have hlt := u.toNat_lt
      rw [UInt64.toNat_not, UInt64.size]
      omega
    have hround : (2 ^ 64 : Int) ≡ 0 [ZMOD 2 ^ len] :=
      Int.modEq_zero_iff_dvd.mpr (pow_dvd_pow 2 hlen)
    rw [hcomplement, (complement_ediv_emod _ (by positivity)).1, hnot, huvalue]
    calc (2 ^ 64 - 1 - y'.toInt / 2 ^ start % 2 ^ len : Int)
        ≡ 0 - 1 - y'.toInt / 2 ^ start [ZMOD 2 ^ len] :=
          (hround.sub_right 1).sub (Int.mod_modEq _ _)
      _ = -(y'.toInt / 2 ^ start) - 1 := by ring
  · rename_i hsign
    exact slicePositive_spec hz hsign hlen start

theorem makes_slice_small (n : Int64) (hlen : 64 < len) (start : Nat) :
    Bits.Makes (slice (small n) len start) len (n.toInt / 2 ^ start) := by
  rw [slice, if_neg (by omega)]
  split
  · rw [toInt_ediv_two_pow n (by omega)]
    split
    · exact Bits.makes_mkSparse hlen 0
    · exact Bits.makes_ofInt len (-1)
  · rw [scaleDown_eq]
    change Bits.Makes (if n.toInt / 2 ^ start > 0 then _ else _) _ _
    split_ifs with hpos
    · have hlt := (toInt_ediv_two_pow_mem n start).2
      have hword := Bits.makes_mkSparse hlen (Word.ofInt (n.toInt / 2 ^ start))
      rwa [Word.toNat_ofInt, Int.emod_eq_of_lt hpos.le (by omega)] at hword
    · exact Bits.makes_ofInt len _

theorem makes_slice_big (hz : (big s ds).WellFormed) (hlen : 64 < len) (start : Nat) :
    Bits.Makes (slice (big s ds) len start) len ((big s ds).toInt / 2 ^ start) := by
  rw [slice, if_neg (by omega)]
  split_ifs with hstart
  · rw [beq_iff_eq, Int.natCast_eq_zero] at hstart
    rw [hstart, pow_zero, Int.ediv_one, spelled_eq hz]
    exact Bits.makes_ofInt len _
  · obtain ⟨y, hy, hwell, hvalue⟩ := denotes_shiftRight hz start
    rw [hy, ← hvalue, ← spelled_eq hwell]
    exact Bits.makes_ofInt len _

theorem makes_slice (hz : z.WellFormed) (len start : Nat) :
    Bits.Makes (slice z len start) len (z.toInt / 2 ^ start) := by
  rcases Nat.lt_or_ge 64 len with hlen | hlen
  · cases z with
    | small n => exact makes_slice_small n hlen start
    | big s ds => exact makes_slice_big hz hlen start
  · obtain ⟨v, hv, hvalue⟩ := sliceWord_spec hz hlen start
    have hlt : (v.toNat : Int) < 2 ^ len := by
      rw [hvalue]
      exact Int.emod_lt_of_pos _ (by positivity)
    have hmod : (v.toNat : Int) ≡ z.toInt / 2 ^ start [ZMOD 2 ^ len] := by
      rw [hvalue]
      exact Int.mod_modEq _ _
    cases z with
      rw [slice, if_pos (by omega), hv]
    | small n => exact (Bits.makes_ofWord len v).congr hmod
    | big s ds => exact (Bits.makes_mkSmall hlen (by exact_mod_cast hlt)).congr hmod

end Jib.Integer
