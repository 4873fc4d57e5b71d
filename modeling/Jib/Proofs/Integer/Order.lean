import Jib.Proofs.Integer.Arithmetic

/-!
# Integers are compared by value

The comparisons of two normal integers are those of the numbers that they denote, for every mix of
forms. Digits with signs are compared by the signs and, where these are the same, by the digits; a
word is made a digit with a sign first.  Zero gets no digits on the left side of a comparison and a
zero digit with a negative sign on the right side, and neither changes the outcome.
-/

namespace Jib.Integer

variable {y z : Integer} {s t n : Int} {xs ys ds : List UInt64}

/-! ### Digits -/

/-- A number has one normal list of digits. -/
theorem eq_of_normal (hxs : Digits.Normal xs) (hys : Digits.Normal ys)
    (hvalue : wordsToNat xs = wordsToNat ys) : xs = ys := by
  apply eq_of_wordsToNat_eq _ hvalue
  rcases Nat.lt_trichotomy xs.length ys.length with hlength | hlength | hlength
  · exact absurd hvalue (hys.lt_of_length_lt hlength).ne
  · exact hlength
  · exact absurd hvalue (hxs.lt_of_length_lt hlength).ne'

/-- The single digit may be zero. -/
theorem compare_singleton (hxs : Digits.Normal xs) (d : UInt64) :
    Digits.compare xs [d] = Ord.compare (wordsToNat xs) (wordsToNat [d]) := by
  have hlength : 0 < xs.length := List.length_pos_iff.mpr hxs.ne_nil
  rcases eq_or_ne xs.length [d].length with hone | hmore
  · exact Digits.compare_eq hone
  · rw [List.length_singleton] at hmore
    exact hxs.compare_eq_of_length_lt (by rw [List.length_singleton]; omega)

theorem digitsLt_eq (hs : s = 1 ∨ s = -1) (ht : t = 1 ∨ t = -1) (hpos : 0 < wordsToNat xs)
    (hcompare : Digits.compare xs ys = Ord.compare (wordsToNat xs) (wordsToNat ys)) :
    digitsLt xs s ys t = decide (s * (wordsToNat xs : Int) < t * wordsToNat ys) := by
  unfold digitsLt
  rw [hcompare]
  by_cases hsame : s = t
  · subst hsame
    rw [if_neg (by simp)]
    rcases Nat.lt_trichotomy (wordsToNat xs) (wordsToNat ys) with h | h | h
    · rw [Nat.compare_eq_lt.mpr h, decide_eq_decide]
      rcases hs with rfl | rfl <;> omega
    · rw [h]
      simp
    · rw [Nat.compare_eq_gt.mpr h, decide_eq_decide]
      rcases hs with rfl | rfl <;> omega
  · rw [if_pos (bne_iff_ne.mpr hsame), decide_eq_decide]
    rcases hs with rfl | rfl <;> rcases ht with rfl | rfl <;> omega

/-- A machine integer as a digit with a sign, where zero counts as negative. -/
theorem exists_digit (hn : InWord n) :
    ∃ d t, (if n > 0 then (Word.ofInt n, (1 : Int)) else (Word.ofInt (-n), -1)) = (d, t) ∧
      (t = 1 ∨ t = -1) ∧ t * (d.toNat : Int) = n := by
  obtain ⟨hlow, hhigh⟩ := hn
  split
  · refine ⟨_, _, rfl, .inl rfl, ?_⟩
    rw [Word.toNat_ofInt, Int.emod_eq_of_lt (by omega) (by omega), one_mul]
  · refine ⟨_, _, rfl, .inr rfl, ?_⟩
    rw [Word.toNat_ofInt, Int.emod_eq_of_lt (by omega) (by omega), neg_one_mul, neg_neg]

/-! ### Order -/

theorem lt_small_big (m : Int64) (hz : (big t ys).Normal) :
    lt (small m) (big t ys) = .ok (decide (m.toInt < (big t ys).toInt)) := by
  obtain ⟨ht, hys⟩ := hz
  have hpos := hys.pos
  rw [lt]
  by_cases hzero : m.toInt = 0
  · rw [hzero, toInt]
    rcases ht with rfl | rfl
    · rw [decide_eq_true (by omega)]
      rfl
    · rw [decide_eq_false (by omega)]
      rfl
  · obtain ⟨d, s, hdigits, hs, hd, hvalue⟩ := digitsAndSign_spec (inWord_toInt m) hzero
    simp only [hdigits]
    rw [digitsLt_eq hs ht hd.pos (Digits.compare_eq_of_normal hd hys), hvalue, toInt]

theorem lt_big_small (hy : (big s xs).Normal) (n : Int64) :
    lt (big s xs) (small n) = .ok (decide ((big s xs).toInt < n.toInt)) := by
  obtain ⟨hs, hxs⟩ := hy
  obtain ⟨d, t, hdigit, ht, hvalue⟩ := exists_digit (inWord_toInt n)
  have hdigits : ¬ (s == t && xs.isEmpty) = true := by simp [hxs.ne_nil]
  rw [lt]
  simp only [hdigit, hdigits]
  rw [digitsLt_eq hs ht hxs.pos (compare_singleton hxs d), wordsToNat_singleton, hvalue]
  rfl

section

variable (hy : y.Normal) (hz : z.Normal)
include hy hz

theorem lt_eq : lt y z = .ok (decide (y.toInt < z.toInt)) := by
  cases y with
  | small m =>
    cases z with
    | small n => rfl
    | big t ys => exact lt_small_big m hz
  | big s xs =>
    cases z with
    | small n => exact lt_big_small hy n
    | big t ys =>
      rw [lt, digitsLt_eq hy.1 hz.1 hy.2.pos (Digits.compare_eq_of_normal hy.2 hz.2)]
      rfl

theorem not_lt_eq : (do return !(← lt y z) : Result Bool) = .ok (decide (z.toInt ≤ y.toInt)) := by
  have hnot : (!decide (y.toInt < z.toInt)) = decide (z.toInt ≤ y.toInt) := by simp [← decide_not]
  rw [lt_eq hy hz, ← hnot]
  rfl

theorem le_eq : le y z = .ok (decide (y.toInt ≤ z.toInt)) := by
  rcases y with m | ⟨s, xs⟩ <;> rcases z with n | ⟨t, ys⟩
  · rfl
  all_goals exact not_lt_eq hz hy

theorem gt_eq : gt y z = .ok (decide (y.toInt > z.toInt)) := by
  rcases y with m | ⟨s, xs⟩ <;> rcases z with n | ⟨t, ys⟩
  · rfl
  all_goals exact lt_eq hz hy

theorem ge_eq : ge y z = .ok (decide (y.toInt ≥ z.toInt)) := by
  rcases y with m | ⟨s, xs⟩ <;> rcases z with n | ⟨t, ys⟩
  · rfl
  all_goals exact not_lt_eq hy hz

end

/-! ### Equality -/

theorem beq_word_eq (hds : Digits.Normal ds) (hpos : 0 < n) (hn : n ≤ 2 ^ 63) :
    (ds == [Word.ofInt n]) = decide ((wordsToNat ds : Int) = n) := by
  have hvalue : (wordsToNat [Word.ofInt n] : Int) = n := by
    rw [wordsToNat_singleton, Word.toNat_ofInt, Int.emod_eq_of_lt hpos.le (by omega)]
  have hnormal : Digits.Normal [Word.ofInt n] := by
    rw [Digits.normal_singleton]
    intro hzero
    rw [hzero] at hvalue
    exact hpos.ne hvalue
  rw [Bool.eq_iff_iff, beq_iff_eq, decide_eq_true_iff]
  constructor
  · rintro rfl
    exact hvalue
  · intro hsame
    exact eq_of_normal hds hnormal (Int.natCast_inj.mp (hsame.trans hvalue.symm))

theorem eqWord_eq (hz : z.Normal) (hn : InWord n) : eqWord z n = decide (z.toInt = n) := by
  cases z with
  | small m => rfl
  | big s ds =>
    obtain ⟨hs, hds⟩ := hz
    have hpos := hds.pos
    rw [eqWord, toInt]
    by_cases hsign : s = n.sign
    · rw [if_neg (by simp [hsign]), if_neg (by simp only [beq_iff_eq]; omega)]
      rcases hs with rfl | rfl
      · rw [if_neg (by decide), beq_word_eq hds (Int.sign_eq_one_iff_pos.mp hsign.symm) hn.2.le,
          one_mul]
      · have hneg := Int.sign_eq_neg_one_iff_neg.mp hsign.symm
        have hlow := hn.1
        rw [if_pos (by decide), beq_word_eq hds (by omega) (by omega), decide_eq_decide]
        omega
    · rw [if_pos (bne_iff_ne.mpr hsign), eq_comm, decide_eq_false_iff_not]
      rintro rfl
      rw [Int.sign_mul, Int.sign_eq_one_of_pos (Int.natCast_pos.mpr hpos)] at hsign
      rcases hs with rfl | rfl <;> exact hsign rfl

theorem eq_eq (hy : y.Normal) (hz : z.Normal) : eq y z = decide (y.toInt = z.toInt) := by
  cases y with
  | small m =>
    rw [eq, eqWord_eq hz (inWord_toInt m), decide_eq_decide]
    exact eq_comm
  | big s xs =>
    cases z with
    | small n => exact eqWord_eq hy (inWord_toInt n)
    | big t ys =>
      have hz' := hz.2.pos
      rw [eq, Bool.eq_iff_iff, Bool.and_eq_true, beq_iff_eq, beq_iff_eq, decide_eq_true_iff, toInt,
        toInt]
      constructor
      · rintro ⟨rfl, rfl⟩
        rfl
      · intro hvalue
        have hparts : s = t ∧ wordsToNat xs = wordsToNat ys := by
          rcases hy.1 with rfl | rfl <;> rcases hz.1 with rfl | rfl <;> omega
        exact ⟨hparts.1, eq_of_normal hy.2 hz.2 hparts.2⟩

/-- Whatever the forms of two normal integers, the six comparisons succeed and are those of the
numbers, which are totally ordered. -/
theorem comparison_exact (y z : Integer) (hy : y.Normal) (hz : z.Normal) :
    eq y z = decide (y.toInt = z.toInt) ∧
      (∀ n : Int64, eqWord y n.toInt = decide (y.toInt = n.toInt)) ∧
      lt y z = .ok (decide (y.toInt < z.toInt)) ∧ le y z = .ok (decide (y.toInt ≤ z.toInt)) ∧
      gt y z = .ok (decide (y.toInt > z.toInt)) ∧ ge y z = .ok (decide (y.toInt ≥ z.toInt)) :=
  ⟨eq_eq hy hz, fun n => eqWord_eq hy (inWord_toInt n), lt_eq hy hz, le_eq hy hz, gt_eq hy hz,
    ge_eq hy hz⟩

/-- The smallest word is equal to its digit form and not below it. -/
theorem comparison_exact_smallest :
    eq (small Int64.minValue) (big (-1) [0x8000000000000000]) = true ∧
      lt (small Int64.minValue) (big (-1) [0x8000000000000000]) = .ok false := by
  obtain ⟨heq, -, hlt, -⟩ := comparison_exact (small Int64.minValue) (big (-1) [0x8000000000000000])
    (by decide) (by decide)
  rw [heq, hlt]
  decide

end Jib.Integer
