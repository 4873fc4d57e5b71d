import Jib.Proofs.Bits.Logic
import Jib.Proofs.Integer.Arithmetic
import Mathlib.Data.Int.Bitwise

/-!
# Integers in two's complement

A normal integer shifts, gives slices and takes slices as a number with infinitely many sign bits
does, in either form.  Bitwise operations work on enough words for both operands to have a sign bit;
the bits above are copies of it, so every bit of the result is the operation on the bits of the
operands.
-/

namespace Jib.Integer

variable {z : Integer} {n r : Int} {k w : Nat} {f : UInt64 → UInt64 → UInt64}
    {g : Bool → Bool → Bool}

/-! ### Bits of numbers -/

theorem testBit_negSucc (m k : Nat) : (-(m : Int) - 1).testBit k = !m.testBit k := by
  rw [show -(m : Int) - 1 = Int.negSucc m by omega]
  rfl

theorem exists_eq_complement (hn : n < 0) : ∃ m : Nat, n = -(m : Int) - 1 :=
  ⟨(-n - 1).toNat, by omega⟩

/-- The remainder by a power of two has the lowest bits. -/
theorem testBit_of_eq_emod {m : Nat} (hm : (m : Int) = n % 2 ^ w) :
    m.testBit k = (decide (k < w) && n.testBit k) := by
  rcases lt_or_ge n 0 with hneg | hpos
  · obtain ⟨a, rfl⟩ := exists_eq_complement hneg
    have hlt : a % 2 ^ w < 2 ^ w := Nat.mod_lt _ (by positivity)
    rw [(complement_ediv_emod _ (by positivity)).2] at hm
    have hvalue : m = 2 ^ w - (a % 2 ^ w + 1) := by
      rw [← Int.natCast_inj, hm, Nat.cast_sub hlt]
      push_cast
      ring
    rw [hvalue, Nat.testBit_two_pow_sub_succ hlt, testBit_negSucc]
    by_cases hk : k < w <;> simp [hk]
  · obtain ⟨a, rfl⟩ := Int.eq_ofNat_of_zero_le hpos
    have hvalue : m = a % 2 ^ w := by exact_mod_cast hm
    rw [hvalue, Nat.testBit_mod_two_pow]
    rfl

/-- Above its digits a number has copies of its sign. -/
theorem testBit_of_bounds (hlow : -2 ^ w ≤ n) (hhigh : n < 2 ^ w) (hk : w ≤ k) :
    n.testBit k = decide (n < 0) := by
  have hpow : 2 ^ w ≤ 2 ^ k := Nat.pow_le_pow_right (by decide) hk
  zify at hpow
  rcases lt_or_ge n 0 with hneg | hpos
  · obtain ⟨a, rfl⟩ := exists_eq_complement hneg
    rw [testBit_negSucc, Nat.testBit_lt_two_pow (by zify; omega), decide_eq_true hneg]
    rfl
  · obtain ⟨a, rfl⟩ := Int.eq_ofNat_of_zero_le hpos
    exact Nat.testBit_lt_two_pow (by zify; omega)

theorem neg_two_pow_le_and_lt (n : Int) (hw : n.natAbs.log2 < w) : -2 ^ w ≤ n ∧ n < 2 ^ w := by
  have hlt : n.natAbs < 2 ^ w := Nat.lt_log2_self.trans_le (Nat.pow_le_pow_right (by decide) hw)
  have hlt' : (n.natAbs : Int) < 2 ^ w := by exact_mod_cast hlt
  omega

/-- Numbers with the same highest bits have the same sign. -/
theorem neg_iff_of_testBit_eq {j : Nat} (hbits : ∀ k, j ≤ k → r.testBit k = n.testBit k) :
    r < 0 ↔ n < 0 := by
  have hr := neg_two_pow_le_and_lt r (show _ < r.natAbs.log2 + n.natAbs.log2 + j + 1 by omega)
  have hn := neg_two_pow_le_and_lt n (show _ < r.natAbs.log2 + n.natAbs.log2 + j + 1 by omega)
  have hsame := hbits (r.natAbs.log2 + n.natAbs.log2 + j + 1) (by omega)
  rwa [testBit_of_bounds hr.1 hr.2 le_rfl, testBit_of_bounds hn.1 hn.2 le_rfl, decide_eq_decide]
    at hsame

/-- A number that differs from a machine integer in its lower 63 bits only is one too. -/
theorem inWord_of_testBit_eq (hn : InWord n) (hbits : ∀ k, 63 ≤ k → r.testBit k = n.testBit k) :
    InWord r := by
  have hsign := neg_iff_of_testBit_eq hbits
  have hhigh : ∀ k, 63 ≤ k → r.testBit k = decide (r < 0) := by
    intro k hk
    rw [hbits k hk, testBit_of_bounds hn.1 hn.2 hk, decide_eq_decide]
    exact hsign.symm
  have hclear {a : Nat} (ha : ∀ k, 63 ≤ k → a.testBit k = false) : a < 2 ^ 63 := by
    by_contra hlarge
    obtain ⟨k, hk, hset⟩ := Nat.exists_ge_and_testBit_of_ge_two_pow (not_lt.mp hlarge)
    rw [ha k hk] at hset
    cases hset
  rcases lt_or_ge r 0 with hneg | hpos
  · obtain ⟨a, rfl⟩ := exists_eq_complement hneg
    have hlt : a < 2 ^ 63 := hclear fun k hk => by
      have hbit := hhigh k hk
      rwa [testBit_negSucc, decide_eq_true hneg, Bool.not_eq_true'] at hbit
    exact ⟨by omega, by omega⟩
  · obtain ⟨a, rfl⟩ := Int.eq_ofNat_of_zero_le hpos
    have hlt : a < 2 ^ 63 := hclear fun k hk => by
      have hbit := hhigh k hk
      rwa [decide_eq_false (by omega)] at hbit
    exact ⟨by omega, by omega⟩

/-! ### Bitwise operations -/

theorem testBit_wordsToNat_zipWith (hf : Digits.BitByBit f g) {xs ys : List UInt64}
    (hlength : xs.length = ys.length) (hk : k < 64 * xs.length) :
    (wordsToNat (List.zipWith f xs ys)).testBit k =
      g ((wordsToNat xs).testBit k) ((wordsToNat ys).testBit k) := by
  have hx : k / 64 < xs.length := by omega
  have hy : k / 64 < ys.length := by omega
  rw [testBit_wordsToNat, testBit_wordsToNat, testBit_wordsToNat, ← hf]
  simp [hx, hy]

/-- A bit above the sign bit is a copy of it. -/
theorem testBit_min (hn : -2 ^ w ≤ n ∧ n < 2 ^ w) (k : Nat) :
    n.testBit (min k w) = n.testBit k := by
  rcases le_total k w with hk | hk
  · rw [min_eq_left hk]
  · rw [min_eq_right hk, testBit_of_bounds hn.1 hn.2 le_rfl, testBit_of_bounds hn.1 hn.2 hk]

/-- The number in two's complement of words whose highest bit has index `w`. -/
theorem testBit_signed {a : Nat} (ha : a < 2 ^ (w + 1)) (k : Nat) :
    (if (a : Int) ≥ 2 ^ w then (a : Int) - 2 ^ (w + 1) else a).testBit k = a.testBit (min k w) := by
  have hlt : (a : Int) < 2 ^ (w + 1) := by exact_mod_cast ha
  have hself := Int.emod_eq_of_lt (Int.natCast_nonneg a) hlt
  have hmod : (a : Int) =
      (if (a : Int) ≥ 2 ^ w then (a : Int) - 2 ^ (w + 1) else a) % 2 ^ (w + 1) := by
    split
    · rw [Int.sub_emod_right, hself]
    · exact hself.symm
  have hbounds : -2 ^ w ≤ (if (a : Int) ≥ 2 ^ w then (a : Int) - 2 ^ (w + 1) else a) ∧
      (if (a : Int) ≥ 2 ^ w then (a : Int) - 2 ^ (w + 1) else a) < 2 ^ w := by
    split <;> omega
  rw [← testBit_min hbounds, testBit_of_eq_emod hmod, decide_eq_true (by omega), Bool.true_and]

theorem testBit_bitwise (hf : Digits.BitByBit f g) (m n : Int) (k : Nat) :
    (bitwise f m n).testBit k = g (m.testBit k) (n.testBit k) := by
  obtain ⟨c, hc⟩ : ∃ c, c = max m.natAbs.log2 n.natAbs.log2 / 64 + 2 := ⟨_, rfl⟩
  obtain ⟨w, hw⟩ : ∃ w, 64 * c = w + 1 := ⟨64 * c - 1, by omega⟩
  have hm := neg_two_pow_le_and_lt m (show _ < w by omega)
  have hn := neg_two_pow_le_and_lt n (show _ < w by omega)
  have hlength (x : Int) : (toWords (w + 1) x).length = c := by
    rw [length_toWords, Bits.wordCount]
    omega
  have hlt := wordsToNat_lt (List.zipWith f (toWords (w + 1) m) (toWords (w + 1) n))
  rw [List.length_zipWith, hlength, hlength, min_self, hw] at hlt
  unfold bitwise
  rw [← hc, hw]
  refine (testBit_signed hlt k).trans ?_
  rw [testBit_wordsToNat_zipWith hf (by rw [hlength, hlength]) (by rw [hlength]; omega),
    testBit_of_eq_emod (wordsToNat_toWords (w + 1) m),
    testBit_of_eq_emod (wordsToNat_toWords (w + 1) n),
    testBit_min hm, testBit_min hn, decide_eq_true (by omega), Bool.true_and, Bool.true_and]

/-! ### Shifts -/

theorem scaleUp_eq (n : Int) (i : Nat) : scaleUp n i = pure (n * 2 ^ i) := by
  unfold scaleUp
  rw [if_neg (by omega)]
  split_ifs with hzero
  · rw [beq_iff_eq.mp hzero, zero_mul]
    rfl
  · rfl

theorem yields_shiftDigits {s : Int} (hs : s = 1 ∨ s = -1) (ds : List UInt64) (i : Nat) :
    Yields (shiftDigits s ds i) (s * wordsToNat ds * 2 ^ i) := by
  have hvalue :
      s * (wordsToNat ds : Int) * 2 ^ i = s * (wordsToNat (Digits.shiftLeft ds i) : Int) := by
    rw [Digits.wordsToNat_shiftLeft, Nat.cast_mul, Nat.cast_pow, Nat.cast_two, mul_assoc]
  rw [hvalue]
  exact yields_ofDigits (signed_of_sign hs _)

theorem yields_shiftWordLeft (hn : InWord n) (i : Nat) :
    Yields (shiftWordLeft n i) (n * 2 ^ i) := by
  unfold shiftWordLeft
  by_cases hzero : n = 0
  · subst hzero
    rw [zero_mul]
    exact Normal.yields trivial
  · obtain ⟨d, s, hdigits, hs, -, hvalue⟩ := digitsAndSign_spec hn hzero
    have hdigitForm : Yields (shiftDigits s [d] i) (n * 2 ^ i) := by
      rw [← hvalue]
      exact yields_shiftDigits hs [d] i
    simp only [beq_iff_eq, hzero, scaleUp_eq, pure_bind, hdigits, Int.toNat_natCast]
    by_cases hi : (i : Int) < 64
    · rw [if_pos hi]
      obtain ⟨x, hx, hyields⟩ | ⟨hx, -⟩ := ofWord?_spec (n * 2 ^ i)
      · rw [hx]
        exact hyields
      · rw [hx]
        exact hdigitForm
    · rw [if_neg hi]
      exact hdigitForm

theorem yields_shiftLeft (hz : z.Normal) (i : Nat) : Yields (shiftLeft z i) (z.toInt * 2 ^ i) := by
  unfold shiftLeft
  rw [if_neg (by omega)]
  cases z with
  | small n => exact yields_shiftWordLeft (inWord_toInt n) i
  | big s ds =>
    by_cases hi : i = 0
    · simpa [hi] using hz.yields
    · have hmoves : ¬ ((i : Int) == 0 || s == 0) = true := by
        rw [Bool.or_comm]
        exact neither_eq_zero hz.1 (by omega)
      simp only [hmoves]
      exact yields_shiftDigits hz.1 ds i

theorem yields_shiftRight (hz : z.Normal) (i : Nat) :
    Yields (shiftRight z i) (z.toInt / 2 ^ i) := by
  obtain ⟨y, hy, -, hvalue⟩ := denotes_shiftRight hz.wellFormed i
  have hnormal : y.Normal := by
    cases z with
    | small n =>
      obtain ⟨x, hx, hnormal, -⟩ := yields_ofWord (toInt_ediv_two_pow_mem n i).1
        (toInt_ediv_two_pow_mem n i).2
      change (do ofWord (← scaleDown n.toInt i)) = _ at hy
      rw [scaleDown_eq] at hy
      cases hx.symm.trans hy
      exact hnormal
    | big s ds =>
      change (if ((i : Int) == 0 || s == 0) = true then _ else _) = _ at hy
      split at hy
      · cases hy
        exact hz
      · split at hy
        · rw [scaleDown_eq] at hy
          cases hy
          exact normal_ofInt _
        · obtain ⟨x, hx, hnormal, -⟩ :=
            yields_ofDigits (signed_of_sign (.inl rfl) (Digits.shiftRight ds i))
          cases hx.symm.trans hy
          exact hnormal
  have hyields := hnormal.yields
  rwa [hvalue, ← hy] at hyields

/-! ### Replacing a slice -/

/-- The number whose bits from `i` on are those of a vector of a length, and otherwise those of
`n`. -/
def Patched (r n : Int) (i len v : Nat) : Prop :=
  ∀ k, r.testBit k = if i ≤ k ∧ k < i + len then v.testBit (k - i) else n.testBit k

theorem testBit_natCast_mul_two_pow (v i k : Nat) :
    ((v : Int) * 2 ^ i).testBit k = (decide (i ≤ k) && v.testBit (k - i)) := by
  rw [← Nat.testBit_mul_two_pow, ← Nat.cast_ofNat]
  rfl

theorem two_pow_sub_one_eq (len : Nat) : (2 : Int) ^ len - 1 = (2 ^ len - 1 : Nat) := by
  rw [Nat.cast_sub Nat.one_le_two_pow, Nat.cast_pow, Nat.cast_ofNat, Nat.cast_one]

theorem patched_lor_land {i len v : Nat} (hv : v < 2 ^ len) {hole shifted : Int}
    (hhole : hole = (2 ^ len - 1) * 2 ^ i)
    (hshifted : ∀ k, shifted.testBit k = (decide (i ≤ k) && v.testBit (k - i))) :
    Patched (lor (land n (-hole - 1)) shifted) n i len v := by
  intro k
  have hkept : (-hole - 1).testBit k = !(decide (i ≤ k) && decide (k - i < len)) := by
    have hcast : hole = ((2 ^ len - 1) * 2 ^ i : Nat) := by
      rw [hhole, two_pow_sub_one_eq]
      rfl
    rw [hcast, testBit_negSucc, Nat.testBit_mul_two_pow, Nat.testBit_two_pow_sub_one]
  unfold lor land
  rw [testBit_bitwise Bits.bitByBit_or, testBit_bitwise Bits.bitByBit_and, hkept, hshifted]
  by_cases hlow : i ≤ k
  · by_cases hin : k < i + len
    · simp [hlow, hin, show k - i < len by omega]
    · have hclear : v.testBit (k - i) = false :=
        Nat.testBit_lt_two_pow (hv.trans_le (Nat.pow_le_pow_right (by decide) (by omega)))
      simp [hin, hclear, show ¬ k - i < len by omega]
  · simp [hlow]

variable {b : Bits}

theorem exists_setSliceWide (hb : b.WellFormed) (n : Int) (i : Nat) :
    ∃ r, setSliceWide n b.width i b = .ok r ∧ r.Normal ∧ Patched r.toInt n i b.width b.toNat := by
  unfold setSliceWide
  simp only [bne_self_eq_false, scaleUp_eq, pure_bind]
  generalize hx : lor _ _ = x
  have hpatched : Patched x n i b.width b.toNat := by
    rw [← hx]
    exact patched_lor_land hb.toNat_lt rfl (testBit_natCast_mul_two_pow b.toNat i)
  obtain ⟨r, hr, hnormal, hvalue, -⟩ := yields_ofInt x
  exact ⟨r, hr, hnormal, hvalue ▸ hpatched⟩

/-- Masking a vector in its place does nothing. -/
theorem testBit_land_room (hb : b.WellFormed) {room : Int} (i k : Nat)
    (hroom : room = 1 * 2 ^ (i + b.width)) :
    (land (b.toNat * 2 ^ i) (room - 1)).testBit k =
    (decide (i ≤ k) && b.toNat.testBit (k - i)) := by
  have hmask : (room - 1).testBit k = decide (k < i + b.width) := by
    rw [hroom, one_mul, two_pow_sub_one_eq, ← Nat.testBit_two_pow_sub_one]
    rfl
  unfold land
  rw [testBit_bitwise Bits.bitByBit_and, testBit_natCast_mul_two_pow, hmask]
  rcases Nat.lt_or_ge k (i + b.width) with hk | hk
  · simp [hk]
  · simp [hb.testBit_of_le (show b.width ≤ k - i by omega)]

theorem exists_setSlice_small (hb : b.WellFormed) (n : Int64) (i : Nat) :
    ∃ r, setSlice (small n) b.width i b = .ok r ∧ r.Normal ∧
      Patched r.toInt n.toInt i b.width b.toNat := by
  rw [setSlice]
  split
  · exact exists_setSliceWide hb n.toInt i
  · rename_i hroom
    rw [Bool.or_eq_true, decide_eq_true_iff, decide_eq_true_iff] at hroom
    have hvector : bitsToWord b = pure (b.toNat : Int) :=
      if_pos (hb.toNat_lt.trans_le (Nat.pow_le_pow_right (by decide) (by omega)))
    have hpatched := patched_lor_land (n := n.toInt) hb.toNat_lt rfl
      fun k => testBit_land_room hb i k rfl
    have hword := inWord_of_testBit_eq (inWord_toInt n) fun k hk => by
      rw [hpatched, if_neg (by omega)]
    obtain ⟨r, hr, hnormal, hvalue, -⟩ := yields_ofWord hword.1 hword.2
    refine ⟨r, ?_, hnormal, hvalue ▸ hpatched⟩
    simp only [bne_self_eq_false, Bool.false_eq_true, if_false, hvector, scaleUp_eq, ← Nat.cast_add,
      pure_bind]
    exact hr

theorem exists_setSlice (hz : z.WellFormed) (hb : b.WellFormed) (i : Nat) :
    ∃ r, setSlice z b.width i b = .ok r ∧ r.Normal ∧
      Patched r.toInt z.toInt i b.width b.toNat := by
  cases z with
  | small n => exact exists_setSlice_small hb n i
  | big s ds =>
    rw [← spelled_eq hz]
    exact exists_setSliceWide hb _ i

/-- Whatever the form of a normal integer, it shifts by any amount, gives any slice and takes any
slice as a number in two's complement with infinitely many sign bits. -/
theorem shift_slice_exact (z : Integer) (hz : z.Normal) (i len : Nat) (b : Bits) (hb : b.WellFormed)
    (hlen : b.width = len) :
    Yields (shiftLeft z i) (z.toInt * 2 ^ i) ∧ Yields (shiftRight z i) (z.toInt / 2 ^ i) ∧
      Bits.Makes (slice z len i) len (z.toInt / 2 ^ i) ∧
      ∃ r, setSlice z len i b = .ok r ∧ r.Normal ∧ (r.toInt < 0 ↔ z.toInt < 0) ∧
        ∀ k, r.toInt.testBit k =
          if i ≤ k ∧ k < i + len then b.toNat.testBit (k - i) else z.toInt.testBit k := by
  subst hlen
  obtain ⟨r, hr, hnormal, hpatched⟩ := exists_setSlice hz.wellFormed hb i
  have hsign : r.toInt < 0 ↔ z.toInt < 0 := neg_iff_of_testBit_eq (j := i + b.width) fun k hk => by
    rw [hpatched k, if_neg (by omega)]
  exact ⟨yields_shiftLeft hz i, yields_shiftRight hz i, makes_slice hz.wellFormed _ i, r,
    hr, hnormal, hsign, hpatched⟩

/-- Bit 63 of the smallest word is cleared; the sign bits above it stay. -/
theorem shift_slice_exact_smallest :
    ∃ r, setSlice (small Int64.minValue) 1 63 (.small 1 0) = .ok r ∧ r.toInt.testBit 63 = false ∧
      r.toInt < 0 := by
  obtain ⟨-, -, -, r, hr, -, hsign, hbits⟩ :=
    shift_slice_exact (small Int64.minValue) (by decide) 63 1 (.small 1 0) (by decide) rfl
  refine ⟨r, hr, ?_, hsign.mpr (by decide)⟩
  rw [hbits]
  decide

end Jib.Integer
