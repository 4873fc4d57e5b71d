import Jib.Bits.Make
import Jib.Proofs.Integer.Words

/-!
# Legal bit vectors

A vector of width at most 64 is one word below two to the width.  A wider vector is sparse or a list
of words, as many as the width takes, with no bit set above the width.  What a computation of a
vector should give is said by `Makes`: a legal vector of a width that denotes a number modulo two to
the width. `HasBits` says it bit by bit.
-/

namespace Jib.Bits

variable {b : Bits}

/-- The forms that are legal for a width, with the unused bits of the highest word clear. -/
def WellFormed : Bits → Prop
  | small w v => w ≤ 64 ∧ v.toNat < 2 ^ w
  | sparse w _ => 64 < w
  | wide w ws => 64 < w ∧ ws.length = wordCount w ∧ wordsToNat ws < 2 ^ w

instance : DecidablePred WellFormed
  | small w v => inferInstanceAs (Decidable (w ≤ 64 ∧ v.toNat < 2 ^ w))
  | sparse w _ => inferInstanceAs (Decidable (64 < w))
  | wide w ws =>
    inferInstanceAs (Decidable (64 < w ∧ ws.length = wordCount w ∧ wordsToNat ws < 2 ^ w))

section

variable (hb : b.WellFormed)
include hb

theorem WellFormed.toNat_lt : b.toNat < 2 ^ b.width := by
  cases b with
  | small w v => exact hb.2
  | sparse w v => exact Word.toNat_lt_two_pow (Nat.le_of_lt hb) v
  | wide w ws => exact toNat_wide w ws ▸ hb.2.2

theorem WellFormed.toNat_eq_zero (hempty : b.width = 0) : b.toNat = 0 := by
  have hlt := hb.toNat_lt
  rw [hempty] at hlt
  omega

theorem WellFormed.testBit_of_le {k : Nat} (hk : b.width ≤ k) : b.toNat.testBit k = false :=
  Nat.testBit_lt_two_pow (hb.toNat_lt.trans_le (Nat.pow_le_pow_right (by decide) hk))

theorem WellFormed.eq_small {w : Nat} (hwidth : b.width = w) (hw : w ≤ 64) :
    ∃ v, b = small w v := by
  subst hwidth
  cases b with
  | small w v => exact ⟨v, rfl⟩
  | sparse w v => exact absurd hb (Nat.not_lt.mpr hw)
  | wide w ws => exact absurd hb.1 (Nat.not_lt.mpr hw)

theorem WellFormed.sparse_or_wide {w : Nat} (hwidth : b.width = w) (hw : 64 < w) :
    (∃ v, b = sparse w v) ∨ ∃ ws, b = wide w ws := by
  subst hwidth
  cases b with
  | small w v => exact absurd hb.1 (Nat.not_le.mpr hw)
  | sparse w v => exact .inl ⟨v, rfl⟩
  | wide w ws => exact .inr ⟨ws, rfl⟩

end

/-- The computation gives the vector of a width that denotes a number modulo two to the width. -/
def Makes (r : Result Bits) (w : Nat) (z : Int) : Prop :=
  ∃ b, r = .ok b ∧ b.WellFormed ∧ b.width = w ∧ (b.toNat : Int) = z % 2 ^ w

variable {r : Result Bits} {w : Nat} {y z : Int} {ws : List UInt64} {b : Bits}

theorem Makes.congr (hr : Makes r w y) (hyz : y ≡ z [ZMOD 2 ^ w]) : Makes r w z := by
  obtain ⟨b, hok, hb, hwidth, hvalue⟩ := hr
  exact ⟨b, hok, hb, hwidth, hvalue.trans hyz⟩

theorem makes_ok (hb : b.WellFormed) : Makes (.ok b) b.width b.toNat := by
  have hlt : (b.toNat : Int) < 2 ^ b.width := by exact_mod_cast hb.toNat_lt
  exact ⟨b, rfl, hb, rfl, (Int.emod_eq_of_lt (Int.natCast_nonneg _) hlt).symm⟩

/-- A number in range is not changed. -/
theorem Makes.exists_toNat_eq {n : Nat} (hr : Makes r w n) (hn : n < 2 ^ w) :
    ∃ b, r = .ok b ∧ b.WellFormed ∧ b.width = w ∧ b.toNat = n := by
  obtain ⟨b, hok, hb, hwidth, hvalue⟩ := hr
  rw [Int.emod_eq_of_lt (Int.natCast_nonneg n) (by exact_mod_cast hn)] at hvalue
  exact ⟨b, hok, hb, hwidth, Int.natCast_inj.mp hvalue⟩

/-- The computation gives the vector of a width with these bits. -/
def HasBits (r : Result Bits) (w : Nat) (f : Nat → Bool) : Prop :=
  ∃ b, r = .ok b ∧ b.WellFormed ∧ b.width = w ∧ ∀ k, b.toNat.testBit k = f k

theorem Makes.hasBits {x : Nat} {f : Nat → Bool} (hr : Makes r w x)
    (hbits : ∀ k < w, x.testBit k = f k) (hf : ∀ k, w ≤ k → f k = false) : HasBits r w f := by
  obtain ⟨b, hb, hwell, rfl, hvalue⟩ := hr
  refine ⟨b, hb, hwell, rfl, fun k => ?_⟩
  have hvalue' : b.toNat = x % 2 ^ b.width := by exact_mod_cast hvalue
  rw [hvalue', Nat.testBit_mod_two_pow]
  rcases Nat.lt_or_ge k b.width with hk | hk
  · rw [decide_eq_true hk, Bool.true_and, hbits k hk]
  · rw [decide_eq_false (Nat.not_lt.mpr hk), Bool.false_and, hf k hk]

/-! ### One word -/

theorem makes_mkSmall (hw : w ≤ 64) {v : UInt64} (hv : v.toNat < 2 ^ w) :
    Makes (mkSmall w v) w v.toNat := by
  have hfits : Word.shr v w = 0 := by
    rw [← UInt64.toNat_inj, Word.toNat_shr, Nat.div_eq_of_lt hv, UInt64.toNat_zero]
  have hmk : mkSmall w v = .ok (small w v) := by
    unfold mkSmall
    simp [hfits]
  rw [hmk]
  exact makes_ok ⟨hw, hv⟩

theorem makes_mkMasked (hw : w ≤ 64) (v : UInt64) : Makes (mkMasked w v) w v.toNat := by
  have hmk : mkMasked w v = .ok (small w (Word.low w v)) := by
    unfold mkMasked
    rw [Word.mask_eq hw]
    rfl
  have hlow : (Word.low w v).toNat < 2 ^ w := by
    rw [Word.toNat_low]
    exact Nat.mod_lt _ (by positivity)
  rw [hmk]
  apply (makes_ok (b := small w (Word.low w v)) ⟨hw, hlow⟩).congr
  rw [toNat, Word.toNat_low]
  push_cast
  exact Int.mod_modEq _ _

theorem mkSparse_eq (hw : 64 < w) (v : UInt64) : mkSparse w v = .ok (sparse w v) := by
  unfold mkSparse
  rw [if_pos (by omega)]
  rfl

theorem makes_mkSparse (hw : 64 < w) (v : UInt64) : Makes (mkSparse w v) w v.toNat := by
  rw [mkSparse_eq hw]
  exact makes_ok hw

theorem makes_ofWord (w : Nat) (v : UInt64) : Makes (ofWord w v) w v.toNat := by
  unfold ofWord
  split_ifs with hw
  · exact makes_mkMasked (by omega) v
  · exact makes_mkSparse (by omega) v

/-! ### Lists of words -/

theorem le_mul_wordCount (w : Nat) : w ≤ 64 * wordCount w := by
  unfold wordCount
  omega

theorem ne_nil_of_length (hw : 64 < w) (hlength : ws.length = wordCount w) : ws ≠ [] := by
  rintro rfl
  rw [List.length_nil, wordCount] at hlength
  omega

theorem fits_iff : fits w ws = true ↔ ws.length = wordCount w ∧ wordsToNat ws < 2 ^ w := by
  unfold fits
  rw [Bool.and_eq_true, beq_iff_eq, Bool.or_eq_true, beq_iff_eq, beq_iff_eq]
  apply and_congr_right
  intro hlength
  have hlt := wordsToNat_lt ws
  rw [hlength, wordCount] at hlt
  by_cases hmod : w % 64 = 0
  · rw [show 64 * ((w + 63) / 64) = w by omega] at hlt
    simp [hmod, hlt]
  · -- the words below the highest one fill the multiple of 64 below the width
    have hlast : wordsToNat ws / 2 ^ (64 * (w / 64)) = (ws.getLastD 0).toNat := by
      have hi : w / 64 + 1 = ws.length := by
        rw [hlength, wordCount]
        omega
      have hlast : ws.length - 1 = w / 64 := by omega
      rw [List.getLastD_eq_getLast?, List.getLast?_eq_getElem?, hlast,
        List.getElem?_eq_getElem, Option.getD_some, ← wordsToNat_drop,
        List.drop_eq_getElem_cons (by omega), List.drop_of_length_le hi.ge, wordsToNat_cons,
        wordsToNat_nil, Nat.mul_zero, Nat.add_zero]
    have hpow : 2 ^ w = 2 ^ (w % 64) * 2 ^ (64 * (w / 64)) := by
      rw [← pow_add, Nat.mod_add_div]
    rw [← UInt64.toNat_inj, Word.toNat_shr, UInt64.toNat_zero, Nat.div_eq_zero_iff, ← hlast, hpow,
      Nat.div_lt_iff_lt_mul (by positivity)]
    simp [hmod]

theorem makes_wide (hw : 64 < w) (hlength : ws.length = wordCount w)
    (hlt : wordsToNat ws < 2 ^ w) : Makes (.ok (wide w ws)) w (wordsToNat ws) := by
  rw [← toNat_wide]
  exact makes_ok ⟨hw, hlength, hlt⟩

theorem makes_mkWide (hw : 64 < w) (hlength : ws.length = wordCount w)
    (hlt : wordsToNat ws < 2 ^ w) : Makes (mkWide w ws) w (wordsToNat ws) := by
  have hmk : mkWide w ws = .ok (wide w ws) := by
    unfold mkWide
    rw [if_neg (by omega), Int.toNat_natCast, if_pos (fits_iff.mpr ⟨hlength, hlt⟩)]
  rw [hmk]
  exact makes_wide hw hlength hlt

theorem makes_mkWideMasked (hw : 64 < w) (hlength : ws.length = wordCount w) :
    Makes (mkWideMasked w ws) w (wordsToNat ws) := by
  have hlast : (w - 1) / 64 + 1 = ws.length := by
    rw [hlength, wordCount]
    omega
  have hi : ((w : Int) - 1) / 64 = ((w - 1) / 64 : Nat) := by omega
  have hk : (((w : Int) - 1) % 64 + 1).toNat = (w - 1) % 64 + 1 := by omega
  have hcut := wordsToNat_set_low hlast (show (w - 1) % 64 + 1 ≤ 64 by omega)
  rw [show 64 * ((w - 1) / 64) + ((w - 1) % 64 + 1) = w by omega] at hcut
  have hmk : mkWideMasked w ws = mkWide w (ws.set ((w - 1) / 64)
      (Word.low ((w - 1) % 64 + 1) (ws.getD ((w - 1) / 64) 0))) := by
    unfold mkWideMasked
    simp only [hi, hk, Digits.get_eq (show (w - 1) / 64 < ws.length by omega),
      Digits.set_eq (show (w - 1) / 64 < ws.length by omega)]
    rfl
  rw [hmk]
  apply (makes_mkWide hw (by rw [List.length_set, hlength]) ?_).congr
  · rw [hcut]
    push_cast
    exact Int.mod_modEq _ _
  · rw [hcut]
    exact Nat.mod_lt _ (by positivity)

theorem Makes.congr_words (hr : Makes r w y)
    (hyz : y ≡ z [ZMOD 2 ^ (64 * wordCount w)]) : Makes r w z :=
  hr.congr (hyz.of_dvd (pow_dvd_pow 2 (le_mul_wordCount w)))

/-- Words above those that the width takes do not matter. -/
theorem makes_mkWideMasked_take (hw : 64 < w) {n : Nat} (hn : n = wordCount w)
    (hlength : n ≤ ws.length) : Makes (mkWideMasked w (ws.take n)) w (wordsToNat ws) := by
  subst hn
  apply (makes_mkWideMasked hw (List.length_take_of_le hlength)).congr_words
  rw [wordsToNat_take]
  push_cast
  exact Int.mod_modEq _ _

/-! ### Numbers -/

theorem makes_wideOfInt (hw : 64 < w) (n : Int) : Makes (wideOfInt w n) w n := by
  have hvalue := Integer.wordsToNat_toWords w n
  have hlt : wordsToNat (Integer.toWords w n) < 2 ^ w := by
    have := Int.emod_lt_of_pos n (show (0 : Int) < 2 ^ w by positivity)
    rw [← hvalue] at this
    exact_mod_cast this
  have hmk : wideOfInt w n = mkWide w (Integer.toWords w n) := by
    rfl
  rw [hmk]
  apply (makes_mkWide hw (Integer.length_toWords w n) hlt).congr
  rw [hvalue]
  exact Int.mod_modEq _ _

theorem makes_ofInt (w : Nat) (n : Int) : Makes (ofInt w n) w n := by
  unfold ofInt
  split_ifs with hw
  · have hword := Integer.toNat_extractWord n 0
    rw [pow_zero, Int.ediv_one] at hword
    apply (makes_mkMasked (by omega) _).congr
    rw [hword]
    exact (Int.mod_modEq n (2 ^ 64)).of_dvd (pow_dvd_pow 2 (by omega))
  · exact makes_wideOfInt (by omega) n

/-! ### The words of a vector -/

theorem length_words (hb : b.WellFormed) (hpos : 0 < b.width) :
    (words b).length = wordCount b.width := by
  cases b with
  | small w v =>
    have hw := hb.1
    have hpos' : 0 < w := hpos
    rw [words, List.length_singleton, width, wordCount]
    omega
  | sparse w v =>
    have hcount : 0 < wordCount w := by
      have hw : 64 < w := hb
      rw [wordCount]
      omega
    rw [words, List.length_cons, List.length_replicate, width]
    omega
  | wide w ws => exact hb.2.1

theorem wordsToNat_words (b : Bits) : wordsToNat (words b) = b.toNat := by
  cases b with
  | small w v | sparse w v => simp [words, toNat, wordsToNat_cons]
  | wide w ws => exact (toNat_wide w ws).symm

/-- The words of a wide vector make the same vector as a list of words. -/
theorem WellFormed.wide_words (hb : b.WellFormed) (hw : 64 < b.width) :
    (wide b.width (words b)).WellFormed := by
  refine ⟨hw, length_words hb (Nat.zero_lt_of_lt hw), ?_⟩
  rw [wordsToNat_words]
  exact hb.toNat_lt

end Jib.Bits
