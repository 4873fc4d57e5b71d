import Jib.Bits.Arithmetic
import Jib.Proofs.Integer.Slice

/-!
# Addition and subtraction of bit vectors

Adding and subtracting vectors and integers is exact modulo two to the width, in every mix of the
forms.
-/

namespace Jib.Bits

variable {w : Nat} {ws xs ys : List UInt64} {a b : Bits} {z : Integer}

/-! ### Lists of words -/

theorem makes_addToWords (hw : 64 < w) (hlength : ws.length = wordCount w) (v : UInt64) :
    Makes (addToWords w ws v) w (wordsToNat ws + v.toNat) := by
  cases ws with
  | nil => exact absurd rfl (ne_nil_of_length hw hlength)
  | cons x xs =>
    have hfirst : (x + v).toNat + 2 ^ 64 * (Word.carry (x + v < x)).toNat = x.toNat + v.toNat := by
      have hcarry := Word.toNat_add_carry v x
      rw [UInt64.add_comm] at hcarry
      omega
    have hsum : wordsToNat (x :: xs) + v.toNat =
        wordsToNat ((x + v) :: Digits.addCarry xs [] (Word.carry (x + v < x))) := by
      rw [wordsToNat_cons, wordsToNat_cons,
        Digits.wordsToNat_addCarry _ _ (Digits.toNat_carry_le _), wordsToNat_nil]
      omega
    rw [← Nat.cast_add, hsum]
    apply makes_mkWideMasked_take hw hlength
    rw [List.length_cons, List.length_cons, Digits.length_addCarry]
    simp

theorem makes_addCarry (hw : 64 < w) (hx : xs.length = wordCount w) (ys : List UInt64) :
    Makes (mkWideMasked w ((Digits.addCarry xs ys 0).take xs.length)) w
      (wordsToNat xs + wordsToNat ys) := by
  have hsum := Digits.wordsToNat_addCarry xs ys (c := 0) (by decide)
  rw [UInt64.toNat_zero, Nat.add_zero] at hsum
  rw [← Nat.cast_add, ← hsum]
  apply makes_mkWideMasked_take hw hx
  rw [Digits.length_addCarry]
  omega

theorem makes_subBorrow (hw : 64 < w) (hx : xs.length = wordCount w) (hy : ys.length ≤ xs.length) :
    Makes (mkWideMasked w (Digits.subBorrow xs ys 0).1) w (wordsToNat xs - wordsToNat ys) := by
  obtain ⟨hlength, -, hvalue⟩ := Digits.subBorrow_spec xs ys (c := 0) hy (by decide)
  rw [UInt64.toNat_zero, hx] at hvalue
  apply (makes_mkWideMasked hw (hlength.trans hx)).congr_words
  apply Int.modEq_of_dvd
  refine ⟨-(Digits.subBorrow xs ys 0).2.toNat, ?_⟩
  linarith

theorem makes_subFromWords (hw : 64 < w) (hlength : ws.length = wordCount w) (v : UInt64) :
    Makes (subFromWords w ws v) w (wordsToNat ws - v.toNat) := by
  have hne := ne_nil_of_length hw hlength
  unfold subFromWords
  rw [List.isEmpty_eq_false_iff.mpr hne]
  exact makes_subBorrow hw hlength (List.length_pos_iff.mpr hne)

section

variable (hw : 64 < w) (hx : xs.length = wordCount w) (hy : ys.length = wordCount w)
include hw hx hy

theorem makes_addWordLists : Makes (addWordLists w xs ys) w (wordsToNat xs + wordsToNat ys) := by
  have hsame := hx.trans hy.symm
  unfold addWordLists
  rw [if_neg hsame.not_lt, ← hsame, List.take_length, Nat.sub_self]
  change Makes (mkWideMasked w ((Digits.addCarry xs ys 0).take xs.length ++ [])) _ _
  rw [List.append_nil]
  exact makes_addCarry hw hx ys

theorem makes_subWordLists : Makes (subWordLists w xs ys) w (wordsToNat xs - wordsToNat ys) := by
  have hsame := hx.trans hy.symm
  unfold subWordLists
  rw [if_neg hsame.not_lt, ← hsame, List.take_length, Nat.sub_self]
  change Makes (mkWideMasked w ((Digits.subBorrow xs ys 0).1 ++ [])) _ _
  rw [List.append_nil]
  exact makes_subBorrow hw hx hsame.ge

end

/-! ### Vectors -/

section

variable (hx : xs.length = wordCount b.width) (hb : b.WellFormed) (hw : 64 < b.width)
include hx hb hw

theorem makes_addWide : Makes (addWide b.width xs b) b.width (wordsToNat xs + b.toNat) := by
  unfold addWide
  rw [if_neg (by simp)]
  cases b with
  | small w v => exact absurd hb.1 (Nat.not_le.mpr hw)
  | sparse w v => exact makes_addToWords hw hx v
  | wide w ys =>
    rw [toNat_wide]
    exact makes_addWordLists hw hx hb.2.1

theorem makes_subWide : Makes (subWide b.width xs b) b.width (wordsToNat xs - b.toNat) := by
  unfold subWide
  rw [if_neg (by simp)]
  cases b with
  | small w v => exact absurd hb.1 (Nat.not_le.mpr hw)
  | sparse w v => exact makes_subFromWords hw hx v
  | wide w ys =>
    rw [toNat_wide]
    exact makes_subWordLists hw hx hb.2.1

end

theorem makes_add (ha : a.WellFormed) (hb : b.WellFormed) (hwidth : a.width = b.width) :
    Makes (add a b) a.width (a.toNat + b.toNat) := by
  unfold add
  rw [if_neg (by simp [hwidth])]
  cases a with
  | small w v =>
    cases b with
    | small u x =>
      apply (makes_mkMasked ha.1 (v + x)).congr
      exact (Word.toNat_add_modEq v x).of_dvd (pow_dvd_pow 2 ha.1)
    | sparse u x => exact absurd (hwidth.symm.trans_le ha.1) (Nat.not_le.mpr hb)
    | wide u xs => exact absurd (hwidth.symm.trans_le ha.1) (Nat.not_le.mpr hb.1)
  | sparse w v =>
    cases b with
    | small u x => exact absurd (hwidth.trans_le hb.1) (Nat.not_le.mpr ha)
    | sparse u x =>
      obtain rfl : w = u := hwidth
      change Makes (if v + x < v then _ else _) _ _
      split_ifs with hcarry
      · rw [add_comm, ← wordsToNat_words]
        exact makes_addWide (b := sparse w v) (hb.wide_words hb).2.1 ha ha
      · have hvalue : ((sparse w v).toNat + (sparse w x).toNat : Int) =
            (sparse w (v + x)).toNat := by
          simp only [toNat, Word.toNat_add_of_not_lt hcarry, Nat.cast_add]
        rw [hvalue]
        exact makes_ok ha
    | wide u xs =>
      obtain rfl : w = u := hwidth
      rw [add_comm, toNat_wide]
      exact makes_addWide hb.2.1 ha ha
  | wide w xs =>
    obtain rfl : w = b.width := hwidth
    rw [toNat_wide]
    exact makes_addWide ha.2.1 hb ha.1

theorem makes_sub (ha : a.WellFormed) (hb : b.WellFormed) (hwidth : a.width = b.width) :
    Makes (sub a b) a.width (a.toNat - b.toNat) := by
  unfold sub
  rw [if_neg (by simp [hwidth])]
  cases a with
  | small w v =>
    cases b with
    | small u x =>
      apply (makes_mkMasked ha.1 (v - x)).congr
      exact (Word.toNat_sub_modEq v x).of_dvd (pow_dvd_pow 2 ha.1)
    | sparse u x => exact absurd (hwidth.symm.trans_le ha.1) (Nat.not_le.mpr hb)
    | wide u xs => exact absurd (hwidth.symm.trans_le ha.1) (Nat.not_le.mpr hb.1)
  | sparse w v =>
    have hwide (b : Bits) (hb : b.WellFormed) (hwidth : w = b.width) :
        Makes (subWide w (words (sparse w v)) b) w ((sparse w v).toNat - b.toNat) := by
      subst hwidth
      rw [← wordsToNat_words]
      exact makes_subWide (ha.wide_words ha).2.1 hb ha
    cases b with
    | small u x => exact absurd (hwidth.trans_le hb.1) (Nat.not_le.mpr ha)
    | sparse u x =>
      change Makes (if x ≤ v then _ else _) _ _
      split_ifs with hle
      · have hvalue : ((sparse w v).toNat - (sparse u x).toNat : Int) =
            (sparse w (v - x)).toNat := by
          have hle' := UInt64.le_iff_toNat_le.mp hle
          simp only [toNat, UInt64.toNat_sub_of_le v x hle]
          omega
        rw [hvalue]
        exact makes_ok ha
      · exact hwide _ hb hwidth
    | wide u xs => exact hwide _ hb hwidth
  | wide w xs =>
    obtain rfl : w = b.width := hwidth
    rw [toNat_wide]
    exact makes_subWide ha.2.1 hb ha.1

/-! ### Integers -/

theorem Makes.addWide {r : Result Bits} {n : Int} (hr : Makes r w n) (hw : 64 < w)
    (hx : xs.length = wordCount w) : Makes (r >>= Bits.addWide w xs) w (wordsToNat xs + n) := by
  obtain ⟨b, rfl, hb, rfl, hvalue⟩ := hr
  apply (makes_addWide hx hb hw).congr
  rw [hvalue]
  exact (Int.mod_modEq n _).add_left _

theorem Makes.subWide {r : Result Bits} {n : Int} (hr : Makes r w n) (hw : 64 < w)
    (hx : xs.length = wordCount w) : Makes (r >>= Bits.subWide w xs) w (wordsToNat xs - n) := by
  obtain ⟨b, rfl, hb, rfl, hvalue⟩ := hr
  apply (makes_subWide hx hb hw).congr
  rw [hvalue]
  exact (Int.mod_modEq n _).sub_left _

theorem toInt_eq_neg_natAbs {ds : List UInt64} (hz : (Integer.big (-1) ds).WellFormed) :
    (Integer.big (-1) ds).toInt = -(Integer.big (-1) ds).spelled.natAbs := by
  rw [Integer.spelled_eq hz, Integer.toInt]
  omega

section Wide

variable (hw : 64 < w) (hx : xs.length = wordCount w) (hlt : wordsToNat xs < 2 ^ w)
  (hz : z.WellFormed)
include hw hx hlt hz

theorem makes_addIntWide : Makes (addIntWide w xs z) w (wordsToNat xs + z.toInt) := by
  cases z with
  | small n =>
    have hlow := n.le_toInt
    have hhigh := n.toInt_lt
    rw [addIntWide]
    split
    · have hword := makes_addToWords hw hx (Word.ofInt n.toInt)
      rwa [Word.toNat_ofInt, Int.emod_eq_of_lt (by omega) (by omega)] at hword
    · have hword := makes_subFromWords hw hx (Word.ofInt (-n.toInt))
      rwa [Word.toNat_ofInt, Int.emod_eq_of_lt (by omega) (by omega), sub_neg_eq_add] at hword
  | big s ds =>
    rcases hz.1 with rfl | rfl | rfl
    · rw [Integer.toInt, zero_mul]
      exact makes_wide hw hx hlt
    · have hne : ds ≠ [] := by
        rintro rfl
        exact absurd (hz.2.mpr rfl) (by decide)
      change Makes (do mkWideMasked w ((← Digits.add xs ds).take xs.length)) _ _
      rw [Digits.add_eq (ne_nil_of_length hw hx) hne, Integer.toInt, one_mul]
      exact makes_addCarry hw hx ds
    · rw [toInt_eq_neg_natAbs hz]
      exact (makes_wideOfInt hw _).subWide hw hx

theorem makes_subIntWide : Makes (subIntWide w xs z) w (wordsToNat xs - z.toInt) := by
  cases z with
  | small n =>
    have hlow := n.le_toInt
    have hhigh := n.toInt_lt
    rw [subIntWide]
    split
    · have hword := makes_subFromWords hw hx (Word.ofInt n.toInt)
      rwa [Word.toNat_ofInt, Int.emod_eq_of_lt (by omega) (by omega)] at hword
    · have hword := makes_addToWords hw hx (Word.ofInt (-n.toInt))
      rwa [Word.toNat_ofInt, Int.emod_eq_of_lt (by omega) (by omega)] at hword
  | big s ds =>
    rcases hz.1 with rfl | rfl | rfl
    · rw [Integer.toInt, zero_mul]
      exact makes_wide hw hx hlt
    · rw [← Integer.spelled_eq hz]
      exact (makes_wideOfInt hw _).subWide hw hx
    · rw [toInt_eq_neg_natAbs hz, sub_neg_eq_add]
      exact (makes_wideOfInt hw _).addWide hw hx

end Wide

theorem lowestWord_spec (hz : z.WellFormed) :
    ∃ v, lowestWord z = .ok v ∧ (v.toNat : Int) ≡ z.toInt [ZMOD 2 ^ 64] := by
  cases z with
  | small n =>
    refine ⟨_, rfl, ?_⟩
    rw [Word.toNat_ofInt]
    exact Int.mod_modEq _ _
  | big s ds =>
    obtain ⟨v, hv, hvalue⟩ := Integer.sliceWord_spec hz (Nat.le_refl 64) 0
    refine ⟨v, hv, ?_⟩
    rw [hvalue, pow_zero, Int.ediv_one]
    exact Int.mod_modEq _ _

theorem makes_addInt (ha : a.WellFormed) (hz : z.WellFormed) :
    Makes (addInt a z) a.width (a.toNat + z.toInt) := by
  cases a with
  | small w v =>
    obtain ⟨u, hu, hvalue⟩ := lowestWord_spec hz
    rw [addInt, hu]
    apply (makes_mkMasked ha.1 (v + u)).congr
    apply Int.ModEq.of_dvd (pow_dvd_pow 2 ha.1)
    exact (Word.toNat_add_modEq v u).trans (hvalue.add_left _)
  | sparse w v =>
    obtain ⟨hw, hlength, hlt⟩ := ha.wide_words ha
    have hwide := makes_addIntWide hw hlength hlt hz
    rw [wordsToNat_words] at hwide
    cases z with
    | small n =>
      rw [addInt]
      split_ifs with hfits
      · obtain ⟨hpos, hcarry⟩ : n.toInt > 0 ∧ ¬ v + Word.ofInt n.toInt < v := by
          simpa using hfits
        have hhigh := n.toInt_lt
        have hword := Word.toNat_ofInt n.toInt
        rw [Int.emod_eq_of_lt hpos.le (by omega)] at hword
        have hvalue : ((sparse w v).toNat + (Integer.small n).toInt : Int) =
            (sparse w (v + Word.ofInt n.toInt)).toNat := by
          simp only [toNat, Integer.toInt, Word.toNat_add_of_not_lt hcarry, Nat.cast_add, hword]
        rw [hvalue]
        exact makes_ok ha
      · exact hwide
    | big s ds => exact hwide
  | wide w xs =>
    rw [toNat_wide]
    exact makes_addIntWide ha.1 ha.2.1 ha.2.2 hz

theorem makes_subInt (ha : a.WellFormed) (hz : z.WellFormed) :
    Makes (subInt a z) a.width (a.toNat - z.toInt) := by
  cases a with
  | small w v =>
    obtain ⟨u, hu, hvalue⟩ := lowestWord_spec hz
    rw [subInt, hu]
    apply (makes_mkMasked ha.1 (v - u)).congr
    apply Int.ModEq.of_dvd (pow_dvd_pow 2 ha.1)
    exact (Word.toNat_sub_modEq v u).trans (hvalue.sub_left _)
  | sparse w v =>
    obtain ⟨hw, hlength, hlt⟩ := ha.wide_words ha
    have hwide := makes_subIntWide hw hlength hlt hz
    rw [wordsToNat_words] at hwide
    cases z with
    | small n =>
      rw [subInt]
      split_ifs with hfits
      · obtain ⟨hnonneg, hle⟩ : 0 ≤ n.toInt ∧ n.toInt ≤ v.toNat := by
          simpa using hfits
        have hhigh := n.toInt_lt
        have hword := Word.toNat_ofInt n.toInt
        rw [Int.emod_eq_of_lt hnonneg (by omega)] at hword
        have hle' : Word.ofInt n.toInt ≤ v := UInt64.le_iff_toNat_le.mpr (by omega)
        have hvalue : ((sparse w v).toNat - (Integer.small n).toInt : Int) =
            (sparse w (v - Word.ofInt n.toInt)).toNat := by
          simp only [toNat, Integer.toInt, UInt64.toNat_sub_of_le _ _ hle']
          omega
        rw [hvalue]
        exact makes_ok ha
      · exact hwide
    | big s ds => exact hwide
  | wide w xs =>
    rw [toNat_wide]
    exact makes_subIntWide ha.1 ha.2.1 ha.2.2 hz

/-! ### Every form -/

/-- Vectors of one width are added and subtracted modulo two to the width, in any mix of the forms,
and so is an integer of any sign and size. -/
theorem add_sub_exact (ha : a.WellFormed) (hb : b.WellFormed) (hwidth : a.width = b.width)
    (hz : z.WellFormed) :
    Makes (add a b) a.width (a.toNat + b.toNat) ∧ Makes (sub a b) a.width (a.toNat - b.toNat) ∧
      Makes (addInt a z) a.width (a.toNat + z.toInt) ∧
        Makes (subInt a z) a.width (a.toNat - z.toInt) :=
  ⟨makes_add ha hb hwidth, makes_sub ha hb hwidth, makes_addInt ha hz, makes_subInt ha hz⟩

/-- A carry and a borrow that run into the highest word, and an integer beyond the width. -/
theorem add_sub_exact_mixed :
    let a := sparse 65 0xffffffffffffffff
    let b := wide 65 [2, 1]
    let z := Integer.big (-1) [1, 0, 3]
    (a.WellFormed ∧ b.WellFormed ∧ z.WellFormed) ∧
      Makes (add a b) 65 (a.toNat + b.toNat) ∧ Makes (sub a b) 65 (a.toNat - b.toNat) ∧
        Makes (addInt a z) 65 (a.toNat + z.toInt) ∧ Makes (subInt a z) 65 (a.toNat - z.toInt) :=
  ⟨by decide, add_sub_exact (by decide) (by decide) rfl (by decide)⟩

end Jib.Bits
