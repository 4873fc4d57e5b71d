import Jib.Bits.Read
import Jib.Proofs.Bits.Form
import Jib.Proofs.Integer.Form

/-!
# Reading bit vectors

A bit that is read is a bit of the number that the vector denotes.  The signed value of a list of
words is found by flipping the highest bit and taking away its weight.
-/

namespace Jib.Bits

variable {w k : Nat} {ws : List UInt64} {b : Bits}

/-- The number that the vector denotes in two's complement. -/
def toInt (b : Bits) : Int :=
  if b.toNat.testBit (b.width - 1) then b.toNat - 2 ^ b.width else b.toNat

/-! ### Single bits -/

theorem and_shl_one_ne_zero (v : UInt64) (hk : k < 64) :
    (v &&& Word.shl 1 k != 0) = v.toNat.testBit k := by
  rw [Bool.eq_iff_iff, bne_iff_ne, ne_eq, ← UInt64.toNat_inj, UInt64.toNat_and,
    Word.toNat_shl_one hk, Nat.and_two_pow]
  cases v.toNat.testBit k <;> simp

theorem shr_and_one_ne_zero (v : UInt64) (k : Nat) :
    (Word.shr v k &&& 1 != 0) = v.toNat.testBit k := by
  rw [Bool.eq_iff_iff, bne_iff_ne, ne_eq, ← UInt64.toNat_inj, UInt64.toNat_and, Word.toNat_shr,
    UInt64.toNat_one, UInt64.toNat_zero, Nat.and_one_is_mod, Nat.testBit_eq_decide_div_mod_eq,
    decide_eq_true_iff]
  omega

theorem readBit_eq (hb : b.WellFormed) (hk : k < b.width) :
    readBit b k = .ok (b.toNat.testBit k) := by
  cases b with
  | small w v =>
    have hw := hb.1
    have hk' : k < w := hk
    have hin : ¬ (k : Int) ≥ w := by omega
    rw [toNat, ← and_shl_one_ne_zero v (by omega)]
    simp only [readBit, hin]
    rfl
  | sparse w v =>
    have hk' : k < w := hk
    have hin : ¬ (k : Int) ≥ w := by omega
    simp only [readBit, hin]
    rcases Nat.lt_or_ge k 64 with hlow | hhigh
    · have hlow' : ¬ (k : Int) ≥ 64 := by omega
      rw [toNat, ← and_shl_one_ne_zero v hlow]
      simp only [hlow']
      rfl
    · have hhigh' : (k : Int) ≥ 64 := by omega
      rw [toNat, Word.testBit_of_le hhigh]
      simp only [hhigh']
      rfl
  | wide w ws =>
    have hlength : k / 64 < ws.length := by
      have hk' : k < w := hk
      rw [hb.2.1, wordCount]
      omega
    have hi : (k : Int) / 64 = (k / 64 : Nat) := by omega
    simp only [readBit, hi, Digits.get_eq hlength]
    rw [toNat_wide, testBit_wordsToNat, ← shr_and_one_ne_zero]
    rfl

/-! ### The signed value -/

theorem modifyLast_eq (f : UInt64 → UInt64) (hne : ws ≠ []) :
    modifyLast f ws = ws.set (ws.length - 1) (f (ws.getD (ws.length - 1) 0)) := by
  fun_induction modifyLast f ws with
  | case1 => exact absurd rfl hne
  | case2 v => rfl
  | case3 v vs hrest ih =>
    cases vs with
    | nil => exact absurd rfl hrest
    | cons u us => rw [ih (List.cons_ne_nil u us)]; rfl

theorem length_modifyLast (f : UInt64 → UInt64) (ws : List UInt64) :
    (modifyLast f ws).length = ws.length := by
  rcases eq_or_ne ws [] with rfl | hne
  · rfl
  · rw [modifyLast_eq f hne, List.length_set]

theorem wordsToNat_modifyLast_xor {i : Nat} (hi : i + 1 = ws.length) (hk : k < 64) :
    wordsToNat (modifyLast (· ^^^ Word.shl 1 k) ws) = wordsToNat ws ^^^ 2 ^ (64 * i + k) := by
  have hne : ws ≠ [] := by
    rintro rfl
    cases hi
  apply Nat.eq_of_testBit_eq
  intro j
  rw [modifyLast_eq _ hne, testBit_wordsToNat_set (by omega), Nat.testBit_xor,
    testBit_wordsToNat, Nat.testBit_two_pow]
  split_ifs with hj
  · have hbit : k = j % 64 ↔ 64 * i + k = j := by omega
    rw [UInt64.toNat_xor, Nat.testBit_xor, Word.toNat_shl_one hk, Nat.testBit_two_pow, hj]
    simp only [hbit]
  · have hbit : ¬ 64 * i + k = j := by omega
    simp [hbit]

/-- The list whose only bit is the one in the highest word. -/
theorem wordsToNat_modifyLast_replicate {i n : Nat} (hi : i + 1 = n) (hk : k < 64) :
    wordsToNat (modifyLast (fun _ => Word.shl 1 k) (List.replicate n 0)) = 2 ^ (64 * i + k) := by
  have hne : List.replicate n (0 : UInt64) ≠ [] := by
    rw [ne_eq, List.replicate_eq_nil_iff]
    omega
  have hsame : modifyLast (fun _ => Word.shl 1 k) (List.replicate n 0) =
      modifyLast (· ^^^ Word.shl 1 k) (List.replicate n 0) := by
    rw [modifyLast_eq _ hne, modifyLast_eq _ hne]
    simp
  have hlength : i + 1 = (List.replicate n (0 : UInt64)).length := by rw [List.length_replicate, hi]
  rw [hsame, wordsToNat_modifyLast_xor hlength hk, wordsToNat_replicate_zero, Nat.zero_xor]

theorem xor_two_pow_of_lt {n : Nat} (hn : n < 2 ^ k) : n ^^^ 2 ^ k = 2 ^ k + n := by
  rw [← Nat.div_add_mod (n ^^^ 2 ^ k), Nat.xor_div_two_pow, Nat.xor_mod_two_pow,
    Nat.div_eq_of_lt hn, Nat.mod_eq_of_lt hn]
  simp

/-- Flipping a bit that nothing stands above and taking away its weight gives the signed value. -/
theorem xor_two_pow_sub {n : Nat} (hn : n < 2 ^ (k + 1)) :
    ((n ^^^ 2 ^ k : Nat) : Int) - 2 ^ k = if n.testBit k then (n : Int) - 2 ^ (k + 1) else n := by
  rw [Word.testBit_eq_decide_le hn]
  rcases Nat.lt_or_ge n (2 ^ k) with hlow | hhigh
  · rw [xor_two_pow_of_lt hlow, if_neg (by simpa using hlow)]
    push_cast
    ring
  · obtain ⟨m, rfl⟩ := Nat.exists_eq_add_of_le hhigh
    have hxor : (2 ^ k + m) ^^^ 2 ^ k = m := by
      rw [← xor_two_pow_of_lt (by omega), Nat.xor_xor_cancel_right]
    rw [hxor, if_pos (by simp)]
    push_cast
    ring

theorem denotes_signed_wide (hb : (wide w ws).WellFormed) :
    Integer.Denotes (signed (wide w ws)) (wide w ws).toInt := by
  obtain ⟨hw, hlength, hlt⟩ := hb
  have hi : (w - 1) / 64 + 1 = ws.length := by
    rw [hlength, wordCount]
    omega
  have hk : (w - 1) % 64 < 64 := Nat.mod_lt _ (by decide)
  have hflipped := wordsToNat_modifyLast_xor hi hk
  have hbias := wordsToNat_modifyLast_replicate hi hk
  rw [Nat.div_add_mod] at hflipped hbias
  obtain ⟨ds, s, hsub, hsigned, hvalue⟩ := Digits.sub_spec
    (show (modifyLast (· ^^^ Word.shl 1 ((w - 1) % 64)) ws).length =
        (modifyLast (fun _ => Word.shl 1 ((w - 1) % 64)) (List.replicate ws.length 0)).length by
      rw [length_modifyLast, length_modifyLast, List.length_replicate])
  have hstep : signed (wide w ws) = Integer.ofDigits s ds := by
    have hne : (w == 0) = false := beq_eq_false_iff_ne.mpr (by omega)
    simp only [signed, hne, hsub]
    rfl
  have hint : (wide w ws).toInt = s * wordsToNat ds := by
    have hw1 : w - 1 + 1 = w := by omega
    have hxor := xor_two_pow_sub (by rwa [hw1])
    rw [hvalue, hflipped, hbias, Nat.cast_pow, Nat.cast_ofNat, hxor, hw1, ← toNat_wide]
    rfl
  rw [hstep, hint]
  exact Integer.denotes_ofDigits hsigned

end Jib.Bits
