import Jib.Bits.Parts
import Jib.Proofs.Bits.Logic

/-!
# Copies of bit vectors

A positive number of copies of a vector has the bits of the vector over and over.  The loop starts
from one copy, so without any copies a word has no room for its bits, and a wider vector becomes a
list of no words, which is no legal empty vector.
-/

namespace Jib.Bits

variable {w n k x : Nat} {a : Bits}

/-! ### Numbers -/

/-- Bit `i` of `k` copies of the `w` lowest bits of a number. -/
def copiesBit (w n k i : Nat) : Bool := decide (i < w * k) && n.testBit (i % w)

theorem copiesBit_of_le {i : Nat} (hi : w * k ≤ i) : copiesBit w n k i = false := by
  rw [copiesBit, decide_eq_false (Nat.not_lt.mpr hi), Bool.false_and]

/-- The number has the bits of `k` copies of another. -/
def IsCopies (w n k x : Nat) : Prop := ∀ i, x.testBit i = copiesBit w n k i

theorem IsCopies.lt (hx : IsCopies w n k x) : x < 2 ^ (w * k) :=
  Nat.lt_pow_two_of_testBit x fun i hi => (hx i).trans (copiesBit_of_le hi)

theorem isCopies_one (hn : n < 2 ^ w) : IsCopies w n 1 n := by
  intro i
  rw [copiesBit, Nat.mul_one]
  rcases Nat.lt_or_ge i w with hi | hi
  · rw [decide_eq_true hi, Bool.true_and, Nat.mod_eq_of_lt hi]
  · rw [decide_eq_false (Nat.not_lt.mpr hi)]
    exact Nat.testBit_lt_two_pow (hn.trans_le (Nat.pow_le_pow_right (by decide) hi))

theorem IsCopies.succ (hx : IsCopies w n k x) (hn : n < 2 ^ w) :
    IsCopies w n (k + 1) (x * 2 ^ w + n) := by
  intro i
  rw [Nat.mul_comm, Nat.testBit_two_pow_mul_add x hn, copiesBit, Nat.mul_succ]
  split_ifs with hi
  · rw [decide_eq_true (by omega), Bool.true_and, Nat.mod_eq_of_lt hi]
  · have hsucc : i - w < w * k ↔ i < w * k + w := by omega
    rw [hx, copiesBit, decide_eq_decide.mpr hsucc, ← Nat.mod_eq_sub_mod (Nat.le_of_not_lt hi)]

/-! ### The loops -/

theorem IsCopies.repeatNat (hx : IsCopies w n k x) (hn : n < 2 ^ w) (m : Nat) :
    IsCopies w n (k + m) (repeatNat n w m x) := by
  -- `x` is what the loop has so far: `k` copies
  induction m generalizing k x with
  | zero => exact hx
  | succ m ih =>
    rw [← Nat.add_assoc, Nat.add_right_comm]
    exact ih (hx.succ hn)

theorem IsCopies.exists_repeatWord {v u : UInt64} (hu : IsCopies w v.toNat k u.toNat)
    (hv : v.toNat < 2 ^ w) {m : Nat} (hfits : w * (k + m) ≤ 64) :
    ∃ y, repeatWord v w m u = .ok y ∧ IsCopies w v.toNat (k + m) y.toNat := by
  induction m generalizing k u with
  | zero => exact ⟨u, rfl, hu⟩
  | succ m ih =>
    rw [← Nat.add_assoc, Nat.add_right_comm] at hfits ⊢
    -- one more copy has room in the word, so the shift loses no bit
    have hroom : w * k + w ≤ 64 := (Nat.mul_le_mul_left w (Nat.le_add_right (k + 1) m)).trans hfits
    have hnext : IsCopies w v.toNat (k + 1) (Word.shl u w ||| v).toNat := by
      rw [Word.toNat_shl_or hu.lt hv hroom]
      exact hu.succ hv
    rw [repeatWord, Word.shiftLeft_eq]
    exact ih hnext hfits

/-! ### A positive number of copies -/

theorem Makes.hasBits_copies {r : Result Bits} (hr : Makes r (w * k) x) (hx : IsCopies w n k x) :
    HasBits r (w * k) (copiesBit w n k) :=
  hr.hasBits (fun i _ => hx i) fun _ hi => copiesBit_of_le hi

theorem hasBits_replicateWide (hn : n < 2 ^ w) (hw : 64 < w * (k + 1)) :
    HasBits (replicateWide w n (k + 1 : Nat)) (w * (k + 1)) (copiesBit w n (k + 1)) := by
  have hcount : (((k + 1 : Nat) : Int) - 1).toNat = k := by omega
  have hcopies := (isCopies_one hn).repeatNat hn k
  rw [Nat.add_comm] at hcopies
  rw [replicateWide, hcount]
  exact (makes_wideOfInt hw _).hasBits_copies hcopies

theorem hasBits_replicate (ha : a.WellFormed) (k : Nat) :
    HasBits (replicate a (k + 1 : Nat)) (a.width * (k + 1))
    (copiesBit a.width a.toNat (k + 1)) := by
  have hwide (hw : 64 < a.width) : 64 < a.width * (k + 1) :=
    hw.trans_le (Nat.le_mul_of_pos_right _ (Nat.succ_pos k))
  cases a with
  | small w v =>
    have hcount : (((k + 1 : Nat) : Int) - 1).toNat = k := by omega
    rw [replicate, hcount]
    split_ifs with hfits
    · have hfits' : w * (1 + k) ≤ 64 := by
        rw [Nat.add_comm]
        exact_mod_cast hfits
      obtain ⟨y, hy, hcopies⟩ := (isCopies_one ha.2).exists_repeatWord ha.2 hfits'
      rw [Nat.add_comm] at hcopies hfits'
      rw [hy]
      exact (makes_mkSmall hfits' hcopies.lt).hasBits_copies hcopies
    · exact hasBits_replicateWide ha.2 (by omega)
  | sparse w v => exact hasBits_replicateWide ha.toNat_lt (hwide ha)
  | wide w ws => exact hasBits_replicateWide ha.toNat_lt (hwide ha.1)

/-! ### No copies -/

theorem replicate_zero_small (w : Nat) (v : UInt64) :
    replicate (small w v) 0 = if v = 0 then .ok (small 0 0) else .error .assertion := by
  have hone : replicate (small w v) 0 = mkSmall 0 v := by
    rw [replicate, Int.mul_zero]
    rfl
  rw [hone, mkSmall, if_neg (by decide)]
  by_cases hv : v = 0
  · rw [hv]
    rfl
  · rw [if_neg hv, if_pos (by simp [hv])]

theorem replicate_zero_wide (ha : a.WellFormed) (hw : 64 < a.width) :
    replicate a 0 = .ok (wide 0 []) := by
  have hzero (w n : Nat) : replicateWide w n 0 = .ok (wide 0 []) := by
    rw [replicateWide, Int.mul_zero]
    rfl
  cases a with
  | small w v => exact absurd ha.1 (Nat.not_le.mpr hw)
  | sparse w v => exact hzero w v.toNat
  | wide w ws => exact hzero w (joinWords ws)

/-- No copies are given by zeros of at most 64 bits only. -/
theorem replicate_zero_cases (ha : a.WellFormed) :
    (a.width ≤ 64 ∧ a.toNat = 0) ∧ replicate a 0 = .ok (small 0 0) ∨
      ¬ (a.width ≤ 64 ∧ a.toNat = 0) ∧
        (replicate a 0 = .error .assertion ∨ replicate a 0 = .ok (wide 0 [])) := by
  rcases Nat.lt_or_ge 64 a.width with hwide | hword
  · exact .inr ⟨fun hzero => Nat.not_lt.mpr hzero.1 hwide, .inr (replicate_zero_wide ha hwide)⟩
  · obtain ⟨v, hv⟩ := ha.eq_small rfl hword
    have hvalue : a.toNat = 0 ↔ v = 0 := by
      rw [hv, toNat, ← UInt64.toNat_inj, UInt64.toNat_zero]
    have hreplicate := replicate_zero_small a.width v
    rw [← hv] at hreplicate
    by_cases hzero : v = 0
    · rw [if_pos hzero] at hreplicate
      exact .inl ⟨⟨hword, hvalue.mpr hzero⟩, hreplicate⟩
    · rw [if_neg hzero] at hreplicate
      exact .inr ⟨fun h => hzero (hvalue.mp h.2), .inl hreplicate⟩

/-- What the empty vector has and an empty list of words has not, no copies have only of a zero. -/
theorem exists_replicate_zero_iff (ha : a.WellFormed) {P : Bits → Prop} (hsmall : P (small 0 0))
    (hwide : ¬ P (wide 0 [])) :
    (∃ r, replicate a 0 = .ok r ∧ P r) ↔ a.width ≤ 64 ∧ a.toNat = 0 := by
  obtain ⟨hzero, hreplicate⟩ | ⟨hnot, hreplicate⟩ := replicate_zero_cases ha
  · exact iff_of_true ⟨small 0 0, hreplicate, hsmall⟩ hzero
  · refine iff_of_false ?_ hnot
    rintro ⟨r, hr, hproperty⟩
    obtain herror | hempty := hreplicate
    · rw [herror] at hr
      cases hr
    · rw [hempty] at hr
      cases hr
      exact hwide hproperty

theorem hasBits_replicate_zero_iff (ha : a.WellFormed) :
    HasBits (replicate a 0) 0 (copiesBit a.width a.toNat 0) ↔ a.width ≤ 64 ∧ a.toNat = 0 := by
  apply exists_replicate_zero_iff ha
  · refine ⟨by decide, rfl, fun i => ?_⟩
    exact Nat.zero_testBit i
  · rintro ⟨hwell, -⟩
    exact absurd hwell.1 (by decide)

/-- The vector compares equal to every empty one, from both sides. -/
def EqualsEmpty (r : Bits) : Prop :=
  ∀ e : Bits, e.WellFormed → e.width = 0 → eq r e = .ok true ∧ eq e r = .ok true

theorem equalsEmpty_small : EqualsEmpty (small 0 0) := by
  intro e he hempty
  have hsmall : (small 0 0).WellFormed := by decide
  rw [eq_eq hsmall he rfl hempty, eq_eq he hsmall hempty rfl, he.toNat_eq_zero hempty]
  exact ⟨rfl, rfl⟩

theorem not_equalsEmpty_wide : ¬ EqualsEmpty (wide 0 []) := by
  intro hequal
  have hcompare := (hequal (small 0 0) (by decide) rfl).1
  cases hcompare

/-- Copies have the bits of the vector over and over, and no copies at all are the empty vector
exactly for a zero of at most 64 bits. -/
theorem replicate_exact_iff (ha : a.WellFormed) (k : Nat) :
    (HasBits (replicate a k) (a.width * k) (copiesBit a.width a.toNat k) ↔
        (k = 0 → a.width ≤ 64 ∧ a.toNat = 0)) ∧
      ((∃ r, replicate a 0 = .ok r ∧ EqualsEmpty r) ↔ a.width ≤ 64 ∧ a.toNat = 0) := by
  refine ⟨?_, exists_replicate_zero_iff ha equalsEmpty_small not_equalsEmpty_wide⟩
  cases k with
  | zero =>
    rw [Nat.mul_zero]
    exact (hasBits_replicate_zero_iff ha).trans ⟨fun hzero _ => hzero, fun hzero => hzero rfl⟩
  | succ k =>
    exact iff_of_true (hasBits_replicate ha k) fun hzero => absurd hzero (Nat.succ_ne_zero k)

/-- Three copies of a sparse vector, and none of a zero. -/
theorem replicate_exact_iff_sparse :
    HasBits (replicate (sparse 65 5) 3) 195 (copiesBit 65 5 3) ∧
      ∃ r, replicate (small 8 0) 0 = .ok r ∧ EqualsEmpty r :=
  have hsparse : (sparse 65 5).WellFormed := by decide
  have hsmall : (small 8 0).WellFormed := by decide
  ⟨(replicate_exact_iff hsparse 3).1.mpr (by decide),
    (replicate_exact_iff hsmall 0).2.mpr (by decide)⟩

/-- No copies of a word with bits fail, and those of a list of words compare with no empty
vector. -/
theorem replicate_zero_not_empty :
    replicate (small 8 255) 0 = .error (.assertion "") ∧
      replicate (wide 65 [5, 1]) 0 = .ok (wide 0 []) ∧
      eq (wide 0 []) (small 0 0) = .error (.assertion "") := by decide

end Jib.Bits
