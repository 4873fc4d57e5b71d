import Jib.Proofs.Integer.Form
import Mathlib.Tactic.LinearCombination

/-!
# Integer arithmetic is exact

Addition, subtraction, negation, absolute value and multiplication of normal integers give a normal
integer with the right value, for every mix of words and digits.  Digits are added or subtracted as
the signs say; a subtraction of digits finds out by itself which operand is larger and gives the
sign of the difference, and a normal list of digits is long enough for that comparison to be right.
-/

namespace Jib.Integer

variable {y z : Integer} {s t : Int} {xs ys ds : List UInt64} {m n : Int}

/-- The numbers that a machine word holds. -/
def InWord (n : Int) : Prop := -2 ^ 63 ≤ n ∧ n < 2 ^ 63

theorem inWord_toInt (n : Int64) : InWord n.toInt := ⟨n.le_toInt, n.toInt_lt⟩

theorem ofWord?_spec (n : Int) : (∃ z, ofWord? n = some z ∧ Yields (.ok z) n) ∨
    ofWord? n = none ∧ ¬ InWord n := by
  unfold ofWord? fitsWord
  by_cases hn : InWord n
  · left
    have hfits : (decide (-(2 ^ 63) ≤ n) && decide (n ≤ 2 ^ 63 - 1)) = true := by
      rw [Bool.and_eq_true, decide_eq_true_iff, decide_eq_true_iff]
      exact ⟨hn.1, Int.le_sub_one_of_lt hn.2⟩
    have hvalue : (small (Int64.ofInt n)).toInt = n := Int64.toInt_ofInt_of_le hn.1 hn.2
    have hyields := Normal.yields (z := small (Int64.ofInt n)) trivial
    rw [hvalue] at hyields
    exact ⟨_, if_pos hfits, hyields⟩
  · right
    refine ⟨if_neg ?_, hn⟩
    rw [Bool.and_eq_true, decide_eq_true_iff, decide_eq_true_iff]
    exact fun hfits => hn ⟨hfits.1, Int.lt_of_le_sub_one hfits.2⟩

/-- A machine integer other than zero is a sign and a digit.  The digit of the smallest one is not a
machine integer any more. -/
theorem digitAndSign_spec (hn : InWord n) (hne : n ≠ 0) :
    ∃ d s, digitAndSign n = (d, s) ∧ (s = 1 ∨ s = -1) ∧ d ≠ 0 ∧ s * (d.toNat : Int) = n := by
  obtain ⟨hlow, hhigh⟩ := hn
  have hdigit {k : Int} (hpos : 0 < k) (hk : k ≤ 2 ^ 63) :
      Word.ofInt k ≠ 0 ∧ ((Word.ofInt k).toNat : Int) = k := by
    have hvalue : ((Word.ofInt k).toNat : Int) = k := by
      rw [Word.toNat_ofInt, Int.emod_eq_of_lt hpos.le (by omega)]
    refine ⟨fun hzero => ?_, hvalue⟩
    rw [hzero] at hvalue
    exact hpos.ne hvalue
  unfold digitAndSign
  rw [if_neg (by simpa using hne)]
  split_ifs with hpos
  · obtain ⟨hd, hvalue⟩ := hdigit hpos hhigh.le
    exact ⟨_, 1, rfl, .inl rfl, hd, by rw [one_mul, hvalue]⟩
  · obtain ⟨hd, hvalue⟩ := hdigit (k := -n) (by omega) (by omega)
    exact ⟨_, -1, rfl, .inr rfl, hd, by rw [hvalue, neg_one_mul, neg_neg]⟩

theorem digitsAndSign_spec (hn : InWord n) (hne : n ≠ 0) :
    ∃ d s, digitsAndSign n = ([d], s) ∧ (s = 1 ∨ s = -1) ∧ Digits.Normal [d] ∧
      s * (wordsToNat [d] : Int) = n := by
  obtain ⟨d, s, hdigit, hs, hd, hvalue⟩ := digitAndSign_spec hn hne
  refine ⟨d, s, ?_, hs, hd, by rwa [wordsToNat_singleton]⟩
  unfold digitsAndSign
  rw [if_neg (by simpa using hne), hdigit]

theorem signed_of_sign (hs : s = 1 ∨ s = -1) (ds : List UInt64) : Digits.Signed s ds := .inr hs

/-- The sign of a difference times a sign. -/
theorem signed_mul (hs : Digits.Signed s ds) (ht : t = 1 ∨ t = -1) : Digits.Signed (s * t) ds := by
  rcases ht with rfl | rfl
  · rwa [mul_one]
  · rw [mul_neg_one]
    exact hs.neg

theorem eq_neg_of_ne (hs : s = 1 ∨ s = -1) (ht : t = 1 ∨ t = -1) (hne : s ≠ t) : s = -t := by
  omega

theorem neither_eq_zero (hs : s = 1 ∨ s = -1) (hn : n ≠ 0) : ¬ (s == 0 || n == 0) = true := by
  rw [Bool.or_eq_true, beq_iff_eq, beq_iff_eq]
  omega

/-! ### Addition and subtraction -/

theorem addDigit_spec (hds : ds ≠ []) (d : UInt64) :
    ∃ es, Digits.addDigit ds d = .ok es ∧ wordsToNat es = wordsToNat ds + d.toNat := by
  cases ds with
  | nil => exact absurd rfl hds
  | cons x rest =>
    refine ⟨_, rfl, ?_⟩
    have hplace := Word.toNat_add_carry x d
    rw [wordsToNat_cons, Digits.wordsToNat_addCarry _ _ (Digits.toNat_carry_le _), wordsToNat_nil,
      wordsToNat_cons]
    omega

section

variable (hds : Digits.Normal ds) (hs : s = 1 ∨ s = -1) (hn : InWord n) (hne : n ≠ 0)
include hds hs hn hne

theorem yields_addWordTo : Yields (addWordTo ds s n) (s * wordsToNat ds + n) := by
  obtain ⟨d, t, hdigit, ht, -, hvalue⟩ := digitAndSign_spec hn hne
  unfold addWordTo
  rw [if_neg (by simpa using hne), hdigit, ← hvalue]
  by_cases hsame : s = t
  · obtain ⟨es, hadd, hsum⟩ := addDigit_spec hds.ne_nil d
    have hresult : s * (wordsToNat ds : Int) + t * d.toNat = t * wordsToNat es := by
      rw [hsum, hsame]
      push_cast
      ring
    change Yields (if (s == t) = true then do ofDigits t (← Digits.addDigit ds d) else _) _
    rw [if_pos (beq_iff_eq.mpr hsame), hadd, hresult]
    exact yields_ofDigits (signed_of_sign ht es)
  · obtain ⟨es, u, hsub, hu, hdifference⟩ :=
      Digits.subDigit_spec hds.ne_nil (hds.length_eq_one_or d)
    have hresult : s * (wordsToNat ds : Int) + t * d.toNat = -u * t * wordsToNat es := by
      rw [eq_neg_of_ne hs ht hsame]
      linear_combination t * hdifference
    change Yields (if (s == t) = true then _ else
      do let r ← Digits.subDigit ds d; ofDigits (-r.2 * t) r.1) _
    rw [if_neg (by simpa using hsame), hsub, hresult]
    exact yields_ofDigits (signed_mul hu.neg ht)

theorem yields_subWordFrom : Yields (subWordFrom ds s n) (s * wordsToNat ds - n) := by
  obtain ⟨d, t, hdigit, ht, -, hvalue⟩ := digitAndSign_spec hn hne
  unfold subWordFrom
  rw [if_neg (neither_eq_zero hs hne), hdigit, ← hvalue]
  by_cases hsame : s = t
  · obtain ⟨es, u, hsub, hu, hdifference⟩ :=
      Digits.subDigit_spec hds.ne_nil (hds.length_eq_one_or d)
    have hresult : s * (wordsToNat ds : Int) - t * d.toNat = u * s * wordsToNat es := by
      rw [hsame]
      linear_combination -t * hdifference
    change Yields (if (s == t) = true then
      do let r ← Digits.subDigit ds d; ofDigits (r.2 * s) r.1 else _) _
    rw [if_pos (beq_iff_eq.mpr hsame), hsub, hresult]
    exact yields_ofDigits (signed_mul hu hs)
  · obtain ⟨es, hadd, hsum⟩ := addDigit_spec hds.ne_nil d
    have hresult : s * (wordsToNat ds : Int) - t * d.toNat = s * wordsToNat es := by
      rw [hsum, eq_neg_of_ne ht hs (Ne.symm hsame)]
      push_cast
      ring
    change Yields (if (s == t) = true then _ else do ofDigits s (← Digits.addDigit ds d)) _
    rw [if_neg (by simpa using hsame), hadd, hresult]
    exact yields_ofDigits (signed_of_sign hs es)

end

theorem yields_addWords (hm : InWord m) (hn : InWord n) : Yields (addWords m n) (m + n) := by
  unfold addWords
  obtain ⟨z, hz, hyields⟩ | ⟨hz, hout⟩ := ofWord?_spec (m + n)
  · rw [hz]
    exact hyields
  · -- both have the same sign, so neither is zero
    obtain ⟨d, s, hdigits, hs, hd, hvalue⟩ :=
      digitsAndSign_spec hm (fun h => hout (by rwa [h, zero_add]))
    have hne : n ≠ 0 := fun h => hout (by rwa [h, add_zero])
    simp only [hz, hdigits]
    rw [if_neg (neither_eq_zero hs hne), ← hvalue]
    exact yields_addWordTo hd hs hn hne

theorem yields_subWords (hm : InWord m) (hn : InWord n) : Yields (subWords m n) (m - n) := by
  unfold subWords
  obtain ⟨z, hz, hyields⟩ | ⟨hz, hout⟩ := ofWord?_spec (m - n)
  · rw [hz]
    exact hyields
  · have hne : n ≠ 0 := fun h => hout (by rwa [h, sub_zero])
    simp only [hz]
    by_cases hzero : m = 0
    · obtain ⟨y, hy, hnormal, hvalue, -⟩ := yields_ofWord hn.1 hn.2
      have hneg := yields_neg hnormal.wellFormed
      rw [hy, hzero, zero_sub, ← hvalue]
      exact hneg
    · obtain ⟨d, s, hdigits, hs, hd, hvalue⟩ := digitsAndSign_spec hm hzero
      rw [if_neg (by simpa using hzero), hdigits, ← hvalue]
      rw [if_neg (neither_eq_zero hs hne)]
      exact yields_subWordFrom hd hs hn hne

theorem yields_addWord (hz : z.Normal) (hn : InWord n) : Yields (addWord z n) (z.toInt + n) := by
  cases z with
  | small m => exact yields_addWords (inWord_toInt m) hn
  | big s ds =>
    obtain ⟨hs, hds⟩ := hz
    rw [addWord]
    by_cases hzero : n = 0
    · rw [hzero, add_zero]
      exact Normal.yields ⟨hs, hds⟩
    · rw [if_neg (by simpa using hzero), if_neg (by simp only [beq_iff_eq]; omega)]
      exact yields_addWordTo hds hs hn hzero

theorem yields_subWord (hz : z.Normal) (hn : InWord n) : Yields (subWord z n) (z.toInt - n) := by
  cases z with
  | small m => exact yields_subWords (inWord_toInt m) hn
  | big s ds =>
    obtain ⟨hs, hds⟩ := hz
    rw [subWord]
    by_cases hzero : n = 0
    · rw [hzero, sub_zero]
      exact Normal.yields ⟨hs, hds⟩
    · rw [if_neg (by simpa using hzero), if_neg (by simp only [beq_iff_eq]; omega)]
      exact yields_subWordFrom hds hs hn hzero

section

variable (hxs : Digits.Normal xs) (hs : s = 1 ∨ s = -1) (hys : Digits.Normal ys)
    (ht : t = 1 ∨ t = -1)
include hxs hs hys ht

theorem yields_add_big :
    Yields (add (big s xs) (big t ys)) ((big s xs).toInt + (big t ys).toInt) := by
  have hopen : add (big s xs) (big t ys) =
      if (s == t) = true then do ofDigits t (← Digits.add xs ys)
      else (do let r ← Digits.sub ys xs; ofDigits (r.2 * t) r.1) := by
    rcases hs with rfl | rfl <;> rcases ht with rfl | rfl <;> rfl
  rw [hopen, toInt, toInt]
  by_cases hsame : s = t
  · have hresult : s * (wordsToNat xs : Int) + t * wordsToNat ys =
        t * wordsToNat (Digits.addCarry xs ys 0) := by
      rw [Digits.wordsToNat_addCarry xs ys (by decide), hsame]
      push_cast
      ring
    rw [if_pos (beq_iff_eq.mpr hsame), Digits.add_eq hxs.ne_nil hys.ne_nil, hresult]
    exact yields_ofDigits (signed_of_sign ht _)
  · obtain ⟨es, u, hsub, hu, hdifference⟩ :=
      Digits.sub_spec_of_compare (Digits.compare_eq_of_normal hys hxs)
    have hresult : s * (wordsToNat xs : Int) + t * wordsToNat ys = u * t * wordsToNat es := by
      rw [eq_neg_of_ne hs ht hsame]
      linear_combination -t * hdifference
    rw [if_neg (by simpa using hsame), hsub, hresult]
    exact yields_ofDigits (signed_mul hu ht)

theorem yields_sub_big :
    Yields (sub (big s xs) (big t ys)) ((big s xs).toInt - (big t ys).toInt) := by
  have hopen : sub (big s xs) (big t ys) =
      if (s == t) = true then do let r ← Digits.sub xs ys; ofDigits (r.2 * s) r.1
      else (do ofDigits s (← Digits.add xs ys)) := by
    rcases hs with rfl | rfl <;> rcases ht with rfl | rfl <;> rfl
  rw [hopen, toInt, toInt]
  by_cases hsame : s = t
  · obtain ⟨es, u, hsub, hu, hdifference⟩ :=
      Digits.sub_spec_of_compare (Digits.compare_eq_of_normal hxs hys)
    have hresult : s * (wordsToNat xs : Int) - t * wordsToNat ys = u * s * wordsToNat es := by
      rw [hsame]
      linear_combination -t * hdifference
    rw [if_pos (beq_iff_eq.mpr hsame), hsub, hresult]
    exact yields_ofDigits (signed_mul hu hs)
  · have hresult : s * (wordsToNat xs : Int) - t * wordsToNat ys =
        s * wordsToNat (Digits.addCarry xs ys 0) := by
      rw [Digits.wordsToNat_addCarry xs ys (by decide), eq_neg_of_ne ht hs (Ne.symm hsame)]
      push_cast
      ring
    rw [if_neg (by simpa using hsame), Digits.add_eq hxs.ne_nil hys.ne_nil, hresult]
    exact yields_ofDigits (signed_of_sign hs _)

end

theorem yields_add (hy : y.Normal) (hz : z.Normal) : Yields (add y z) (y.toInt + z.toInt) := by
  cases y with
  | small m =>
    rw [add_comm]
    exact yields_addWord hz (inWord_toInt m)
  | big s xs =>
    obtain ⟨hs, hxs⟩ := hy
    cases z with
    | small n =>
      have hopen : add (big s xs) (small n) = addWord (big s xs) n.toInt := by
        rcases hs with rfl | rfl <;> rfl
      rw [hopen]
      exact yields_addWord ⟨hs, hxs⟩ (inWord_toInt n)
    | big t ys => exact yields_add_big hxs hs hz.2 hz.1

theorem yields_sub (hy : y.Normal) (hz : z.Normal) : Yields (sub y z) (y.toInt - z.toInt) := by
  cases y with
  | small m =>
    cases z with
    | small n => exact yields_subWords (inWord_toInt m) (inWord_toInt n)
    | big t ys =>
      -- the difference is taken the other way round and then negated
      change Yields (if (m.toInt == 0) = true then neg (big t ys)
        else do neg (← subWord (big t ys) m.toInt)) (m.toInt - _)
      by_cases hzero : m.toInt = 0
      · rw [if_pos (beq_iff_eq.mpr hzero), hzero, zero_sub]
        exact yields_neg hz.wellFormed
      · obtain ⟨x, hx, hnormal, hvalue, -⟩ := yields_subWord hz (inWord_toInt m)
        have hneg := yields_neg hnormal.wellFormed
        rw [hvalue, neg_sub] at hneg
        rw [if_neg (by simpa using hzero), hx]
        exact hneg
  | big s xs =>
    cases z with
    | small n => exact yields_subWord hy (inWord_toInt n)
    | big t ys => exact yields_sub_big hy.2 hy.1 hz.2 hz.1

theorem yields_abs (hz : z.Normal) : Yields (abs z) |z.toInt| := by
  cases z with
  | small n =>
    rw [abs]
    split_ifs with hneg
    · rw [toInt, abs_of_neg hneg]
      exact yields_neg hz.wellFormed
    · rw [toInt, abs_of_nonneg (not_lt.mp hneg)]
      exact hz.yields
  | big s ds =>
    obtain ⟨hs, hds⟩ := hz
    have hvalue : |(big s ds).toInt| = (big 1 ds).toInt := by
      rcases hs with rfl | rfl <;> simp [toInt]
    have hopen : abs (big s ds) = .ok (big 1 ds) := by
      rcases hs with rfl | rfl <;> rfl
    rw [hopen, hvalue]
    exact Normal.yields ⟨.inl rfl, hds⟩

/-! ### Multiplication -/

theorem mul_sign (hs : s = 1 ∨ s = -1) (ht : t = 1 ∨ t = -1) : s * t = 1 ∨ s * t = -1 := by
  rcases hs with rfl | rfl <;> rcases ht with rfl | rfl <;> decide

theorem yields_mulWords (hm : InWord m) (hn : InWord n) : Yields (mulWords m n) (m * n) := by
  unfold mulWords
  obtain ⟨z, hz, hyields⟩ | ⟨hz, hout⟩ := ofWord?_spec (m * n)
  · rw [hz]
    exact hyields
  · -- a product with zero would be a word
    have hzero : InWord 0 := ⟨by decide, by decide⟩
    obtain ⟨d, s, hdigit, hs, -, hvalue⟩ :=
      digitAndSign_spec hm (fun h => hout (by rwa [h, zero_mul]))
    obtain ⟨e, t, hdigit', ht, -, hvalue'⟩ :=
      digitAndSign_spec hn (fun h => hout (by rwa [h, mul_zero]))
    have hproduct : wordsToNat [d * e, Word.mulHigh d e] = d.toNat * e.toNat := by
      have hdigits := Digits.wordsToNat_mulDigit [d] e 0
      simpa [Digits.mulDigit, wordsToNat_singleton, Word.carry] using hdigits
    have hresult : m * n = s * t * (wordsToNat [d * e, Word.mulHigh d e] : Int) := by
      rw [← hvalue, ← hvalue', hproduct]
      push_cast
      ring
    simp only [hz, hdigit, hdigit']
    rw [hresult]
    exact yields_ofDigits (signed_of_sign (mul_sign hs ht) _)

theorem powerOfTwo?_eq_some {k : Nat} (hk : powerOfTwo? n = some k) : n = 2 ^ k := by
  unfold powerOfTwo? at hk
  split at hk
  · rename_i hn
    rw [Bool.and_eq_true, decide_eq_true_iff, beq_iff_eq] at hn
    obtain ⟨hpos, hpow⟩ := hn
    cases hk
    calc n = (n.toNat : Int) := (Int.toNat_of_nonneg hpos.le).symm
      _ = ((2 ^ n.toNat.log2 : Nat) : Int) := congrArg _ hpow
      _ = 2 ^ n.toNat.log2 := by rfl
  · cases hk

theorem yields_mulWord (hz : z.Normal) (hn : InWord n) : Yields (mulWord z n) (z.toInt * n) := by
  cases z with
  | small m => exact yields_mulWords (inWord_toInt m) hn
  | big s ds =>
    obtain ⟨hs, hds⟩ := hz
    rw [mulWord]
    by_cases hzero : n = 0
    · rw [hzero, mul_zero]
      exact Normal.yields trivial
    rw [Bool.or_comm, if_neg (neither_eq_zero hs hzero)]
    by_cases hone : n = 1
    · rw [hone, mul_one]
      exact Normal.yields ⟨hs, hds⟩
    rw [if_neg (by simpa using hone)]
    split
    · rename_i k hk
      have hresult : (big s ds).toInt * n = s * (wordsToNat (Digits.shiftLeft ds k) : Int) := by
        rw [toInt, powerOfTwo?_eq_some hk, Digits.wordsToNat_shiftLeft]
        push_cast
        ring
      rw [hresult]
      exact yields_ofDigits (signed_of_sign hs _)
    · obtain ⟨d, t, hdigit, ht, -, hvalue⟩ := digitAndSign_spec hn hzero
      have hresult :
          (big s ds).toInt * n = s * t * (wordsToNat (Digits.mulDigit ds d 0) : Int) := by
        rw [toInt, ← hvalue, Digits.wordsToNat_mulDigit]
        push_cast
        ring
      simp only [hdigit]
      rw [hresult]
      exact yields_ofDigits (signed_of_sign (mul_sign hs ht) _)

theorem yields_mul (hy : y.Normal) (hz : z.Normal) : Yields (mul y z) (y.toInt * z.toInt) := by
  cases y with
  | small m =>
    rw [mul_comm]
    exact yields_mulWord hz (inWord_toInt m)
  | big s xs =>
    cases z with
    | small n => exact yields_mulWord hy (inWord_toInt n)
    | big t ys =>
      change Yields (.ok (ofInt ((big s xs).spelled * (big t ys).spelled))) _
      rw [spelled_eq hy.wellFormed, spelled_eq hz.wellFormed]
      exact yields_ofInt _

/-- Whatever the forms of two normal integers, their arithmetic succeeds with the exact result,
which is normal again. -/
theorem arithmetic_exact (y z : Integer) (hy : y.Normal) (hz : z.Normal) :
    Yields (add y z) (y.toInt + z.toInt) ∧ Yields (sub y z) (y.toInt - z.toInt) ∧
      Yields (neg y) (-y.toInt) ∧ Yields (abs y) |y.toInt| ∧ Yields (mul y z) (y.toInt * z.toInt) :=
  ⟨yields_add hy hz, yields_sub hy hz, yields_neg hy.wellFormed, yields_abs hy, yields_mul hy hz⟩

/-- The smallest word is subtracted from itself in digit form, which leaves the word zero. -/
theorem arithmetic_exact_smallest :
    Normal (small Int64.minValue) ∧ Normal (big (-1) [0x8000000000000000]) ∧
      sub (small Int64.minValue) (big (-1) [0x8000000000000000]) = .ok zero := by
  refine ⟨by decide, by decide, ?_⟩
  obtain ⟨x, hx, -, -, hzero⟩ :=
    (arithmetic_exact (small Int64.minValue) (big (-1) [0x8000000000000000]) (by decide)
      (by decide)).2.1
  rw [hx, hzero (by decide)]

end Jib.Integer
