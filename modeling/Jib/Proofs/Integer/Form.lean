import Jib.Integer.Arithmetic
import Jib.Proofs.Integer.Words

/-!
# Legal integers

An integer in digit form has the sign one, minus one or, if it is zero, zero.  What a computation of
an integer should give is said by `Denotes`.  Operations themselves make only normal integers,
without a leading zero and never zero in digit form; `Yields` says that as well.
-/

namespace Jib.Integer

/-- The sign is zero for zero only; any word is legal. -/
def WellFormed : Integer → Prop
  | small _ => True
  | big s ds => (s = 0 ∨ s = 1 ∨ s = -1) ∧ (s = 0 ↔ wordsToNat ds = 0)

instance : DecidablePred WellFormed
  | small _ => inferInstanceAs (Decidable True)
  | big s ds =>
    inferInstanceAs (Decidable ((s = 0 ∨ s = 1 ∨ s = -1) ∧ (s = 0 ↔ wordsToNat ds = 0)))

/-- The computation gives a legal integer with a value. -/
def Denotes (r : Result Integer) (n : Int) : Prop :=
  ∃ z, r = .ok z ∧ z.WellFormed ∧ z.toInt = n

/-- The sign is one or minus one, and the highest digit is not zero; any word is normal. -/
def Normal : Integer → Prop
  | small _ => True
  | big s ds => (s = 1 ∨ s = -1) ∧ Digits.Normal ds

instance : DecidablePred Normal
  | small _ => inferInstanceAs (Decidable True)
  | big s ds => inferInstanceAs (Decidable ((s = 1 ∨ s = -1) ∧ Digits.Normal ds))

/-- The computation gives a normal integer with a value, and the word zero for zero. -/
def Yields (r : Result Integer) (n : Int) : Prop :=
  ∃ z, r = .ok z ∧ z.Normal ∧ z.toInt = n ∧ (n = 0 → z = zero)

variable {z : Integer} {s : Int} {ds : List UInt64}

theorem Normal.wellFormed (hz : z.Normal) : z.WellFormed := by
  cases z with
  | small n => trivial
  | big s ds =>
    have hpos := hz.2.pos.ne'
    obtain ⟨rfl | rfl, -⟩ := hz
    · exact ⟨.inr (.inl rfl), by simp [hpos]⟩
    · exact ⟨.inr (.inr rfl), by simp [hpos]⟩

/-- Zero has one normal form. -/
theorem Normal.eq_zero (hz : z.Normal) (hvalue : z.toInt = 0) : z = zero := by
  cases z with
  | small n => exact congrArg small (Int64.toInt_inj.mp hvalue)
  | big s ds =>
    have hpos := hz.2.pos
    rw [toInt] at hvalue
    rcases hz.1 with rfl | rfl <;> omega

theorem Normal.yields (hz : z.Normal) : Yields (.ok z) z.toInt := ⟨z, rfl, hz, rfl, hz.eq_zero⟩

theorem Yields.denotes {r : Result Integer} {n : Int} (hr : Yields r n) : Denotes r n := by
  obtain ⟨z, hz, hnormal, hvalue, -⟩ := hr
  exact ⟨z, hz, hnormal.wellFormed, hvalue⟩

theorem spelled_eq (hz : z.WellFormed) : z.spelled = z.toInt := by
  cases z with
  | small n => rfl
  | big s ds =>
    obtain ⟨rfl | rfl | rfl, hzero⟩ := hz
    · simp [spelled, toInt, hzero.mp]
    · simp [spelled, toInt]
    · simp [spelled, toInt]

theorem denotes_ok (hz : z.WellFormed) : Denotes (.ok z) z.toInt := ⟨z, rfl, hz, rfl⟩

theorem yields_ofWord {n : Int} (hlow : -2 ^ 63 ≤ n) (hhigh : n < 2 ^ 63) :
    Yields (ofWord n) n := by
  have hfits : fitsWord n = true := by
    unfold fitsWord
    rw [Bool.and_eq_true, decide_eq_true_iff, decide_eq_true_iff]
    exact ⟨hlow, Int.le_sub_one_of_lt hhigh⟩
  have hok : ofWord n = .ok (small (Int64.ofInt n)) := by
    unfold ofWord
    rw [if_pos hfits]
  have hvalue : (small (Int64.ofInt n)).toInt = n := Int64.toInt_ofInt_of_le hlow hhigh
  have hyields := Normal.yields (z := small (Int64.ofInt n)) trivial
  rwa [hvalue, ← hok] at hyields

theorem denotes_ofWord {n : Int} (hlow : -2 ^ 63 ≤ n) (hhigh : n < 2 ^ 63) : Denotes (ofWord n) n :=
  (yields_ofWord hlow hhigh).denotes

theorem denotes_ofUnsigned (w : UInt64) : Denotes (.ok (ofUnsigned w)) w.toNat := by
  unfold ofUnsigned
  rw [Word.and_high_ne_zero]
  split_ifs with hhigh
  · rw [decide_eq_true_iff] at hhigh
    refine ⟨_, rfl, ⟨.inr (.inl rfl), ?_⟩, by rw [toInt, wordsToNat_singleton, one_mul]⟩
    rw [wordsToNat_singleton]
    omega
  · rw [decide_eq_true_iff] at hhigh
    exact ⟨_, rfl, trivial, Word.toInt_of_lt (by omega)⟩

theorem yields_ofDigits (hs : Digits.Signed s ds) : Yields (ofDigits s ds) (s * wordsToNat ds) := by
  have hsign : (s == 0 || s == 1 || s == -1) = true := by
    rcases hs with ⟨rfl, -⟩ | rfl | rfl <;> rfl
  unfold ofDigits
  rw [if_pos hsign, ← Digits.wordsToNat_strip]
  split
  · rename_i hstrip
    rw [hstrip, wordsToNat_nil, Nat.cast_zero, mul_zero]
    exact Normal.yields trivial
  · rename_i hne
    apply Normal.yields
    refine ⟨?_, Digits.normal_strip hne⟩
    rcases hs with ⟨-, hzero⟩ | hs
    · exact absurd (Digits.strip_eq_nil_iff.mpr hzero) hne
    · exact hs

theorem denotes_ofDigits (hs : Digits.Signed s ds) : Denotes (ofDigits s ds) (s * wordsToNat ds) :=
  (yields_ofDigits hs).denotes

theorem WellFormed.signed (hz : (big s ds).WellFormed) : Digits.Signed s ds := by
  obtain ⟨rfl | rfl | rfl, hzero⟩ := hz
  · exact .inl ⟨rfl, hzero.mp rfl⟩
  · exact .inr (.inl rfl)
  · exact .inr (.inr rfl)

theorem normal_ofInt (n : Int) : (ofInt n).Normal := by
  unfold ofInt
  split
  · trivial
  · rename_i hne
    rw [beq_iff_eq] at hne
    rw [signAndDigits_eq]
    refine ⟨?_, normal_natDigits (by simpa using hne)⟩
    rcases lt_or_gt_of_ne hne with hn | hn
    · exact .inr (Int.sign_eq_neg_one_of_neg hn)
    · exact .inl (Int.sign_eq_one_of_pos hn)

theorem yields_ofInt (n : Int) : Yields (.ok (ofInt n)) n := by
  have hyields := (normal_ofInt n).yields
  rwa [toInt_ofInt] at hyields

theorem wellFormed_ofInt (n : Int) : (ofInt n).WellFormed := (normal_ofInt n).wellFormed

theorem yields_neg (hz : z.WellFormed) : Yields (neg z) (-z.toInt) := by
  cases z with
  | small n =>
    have hlow := n.le_toInt
    have hhigh := n.toInt_lt
    rw [neg]
    split_ifs with hmin
    · have hvalue : -(small n).toInt = (big 1 [0x8000000000000000]).toInt := by
        rw [toInt, beq_iff_eq.mp hmin]
        rfl
      rw [hvalue]
      exact Normal.yields (by decide)
    · have hne : n.toInt ≠ -2 ^ 63 := fun h => hmin (beq_iff_eq.mpr h)
      exact yields_ofWord (by omega) (by omega)
  | big s ds =>
    rw [toInt, ← neg_mul]
    exact yields_ofDigits hz.signed.neg

theorem denotes_neg (hz : z.WellFormed) : Denotes (neg z) (-z.toInt) := (yields_neg hz).denotes

/-- One more than a negative integer in digit form. -/
theorem denotes_addWord_one (hz : (big (-1) ds).WellFormed) :
    Denotes (addWord (big (-1) ds) 1) ((big (-1) ds).toInt + 1) := by
  have hpos : 0 < wordsToNat ds :=
    Nat.pos_of_ne_zero fun hzero => absurd (hz.2.mpr hzero) (by decide)
  have hne : ds ≠ [] := fun hnil => hpos.ne' (by rw [hnil, wordsToNat_nil])
  obtain ⟨es, t, hsub, hsigned, hvalue⟩ := Digits.subDigit_spec (d := 1) hne (.inr hpos)
  have hadd : addWord (big (-1) ds) 1 = ofDigits (-t * 1) es := by
    change (do let r ← Digits.subDigit ds 1; ofDigits (-r.2 * 1) r.1) = _
    rw [hsub]
    rfl
  have hsum : (big (-1) ds).toInt + 1 = -t * wordsToNat es := by
    rw [toInt, neg_mul t, hvalue, UInt64.toNat_one]
    ring
  rw [hadd, mul_one, hsum]
  exact denotes_ofDigits hsigned.neg

end Jib.Integer
