import Jib.Proofs.Bits.Subrange

/-!
# Extension of bit vectors

Extension with zeros keeps the number, extension with the highest bit the signed number, and cutting
off what was added gives the vector back, also in its form.  The words of a negative vector are
extended by words of ones; where the vector ends within a word, the ones start there.
-/

namespace Jib.Bits

variable {w m : Nat} {ws : List UInt64} {a b : Bits} {r : Result Bits} {v : UInt64} {i : Int}

/-! ### With zeros -/

theorem makes_zeroExtend (ha : a.WellFormed) (hm : a.width ≤ m) :
    Makes (zeroExtend a m) m a.toNat := by
  unfold zeroExtend
  split
  · rename_i hsame
    obtain rfl : m = a.width := by simpa using hsame
    exact makes_ok ha
  · rename_i hne
    have hlt : a.width < m := Nat.lt_of_le_of_ne hm fun heq => hne (by simp [heq])
    rw [if_neg (by omega)]
    cases a with
    | small w v => exact makes_ofWord m v
    | sparse w v => exact makes_mkSparse (Nat.lt_trans ha hlt) v
    | wide w ws =>
      have hcount : ws.length ≤ wordCount m := by
        have hlt' : w < m := hlt
        rw [ha.2.1, wordCount, wordCount]
        omega
      have hextended := wordsToNat_extended (wordCount m) ws
      rw [toNat_wide, ← hextended]
      apply makes_mkWide (Nat.lt_trans ha.1 hlt) (length_extended hcount)
      rw [hextended]
      exact ha.2.2.trans_le (Nat.pow_le_pow_right (by decide) hm)

/-! ### With the highest bit -/

theorem toInt_modEq (b : Bits) : b.toInt ≡ b.toNat [ZMOD 2 ^ b.width] := by
  unfold toInt
  split
  · exact Int.modEq_of_dvd ⟨1, by ring⟩
  · rfl

theorem toInt_bounds (hb : b.WellFormed) (hpos : 0 < b.width) :
    -2 ^ (b.width - 1) ≤ b.toInt ∧ b.toInt < 2 ^ (b.width - 1) := by
  have hlt := hb.toNat_lt
  have hpow : 2 ^ b.width = 2 * 2 ^ (b.width - 1) := by
    rw [← pow_succ', Nat.sub_add_cancel hpos]
  have htop := Word.testBit_eq_decide_le (k := b.width - 1) (by rwa [Nat.sub_add_cancel hpos])
  unfold toInt
  rw [htop]
  zify at hlt hpow
  split_ifs with hhigh
  · rw [decide_eq_true_iff] at hhigh
    zify at hhigh
    omega
  · rw [decide_eq_true_iff] at hhigh
    zify at hhigh
    omega

/-- A vector is made with a signed number if that is in range. -/
theorem Makes.exists_toInt_eq {z : Int} (hr : Makes r m z) (hpos : 0 < m) (hlow : -2 ^ (m - 1) ≤ z)
    (hhigh : z < 2 ^ (m - 1)) :
    ∃ b, r = .ok b ∧ b.WellFormed ∧ b.width = m ∧ b.toInt = z := by
  obtain ⟨b, hok, hb, rfl, hvalue⟩ := hr
  refine ⟨b, hok, hb, rfl, ?_⟩
  obtain ⟨hlow', hhigh'⟩ := toInt_bounds hb hpos
  have hpow : (2 : Int) ^ b.width = 2 * 2 ^ (b.width - 1) := by
    rw [← pow_succ', Nat.sub_add_cancel hpos]
  have hmod : b.toInt ≡ z [ZMOD 2 ^ b.width] := by
    apply (toInt_modEq b).trans
    rw [hvalue]
    exact Int.mod_modEq _ _
  have hzero := Int.eq_zero_of_abs_lt_dvd hmod.dvd (abs_lt.mpr ⟨by omega, by omega⟩)
  omega

theorem shr_and_one (v : UInt64) (k : Nat) :
    Word.shr v k &&& 1 = Word.carry (v.toNat.testBit k) := by
  rw [← UInt64.toNat_inj, UInt64.toNat_and, Word.toNat_shr, UInt64.toNat_one, Nat.and_one_is_mod,
    Nat.testBit_eq_decide_div_mod_eq, Word.toNat_carry]
  split <;> omega

theorem toNat_shl_ones {k : Nat} (hk : k ≤ 64) : (Word.shl (0 - 1) k).toNat + 2 ^ k = 2 ^ 64 := by
  have hpos : 0 < 2 ^ k := by positivity
  have hle : 2 ^ k ≤ 2 ^ 64 := Nat.pow_le_pow_right (by decide) hk
  rw [Word.toNat_shl]
  change (2 ^ 64 - 1) * 2 ^ k % 2 ^ 64 + 2 ^ k = 2 ^ 64
  omega

/-- The words of a vector with the rest of the last one filled. -/
def filledWords (w : Nat) (ws : List UInt64) (fill : UInt64) : List UInt64 :=
  ws.take (w / 64) ++ if w % 64 = 0 then [] else [ws.getD (w / 64) 0 ||| Word.shl fill (w % 64)]

theorem signExtendWords_eq (hpos : 0 < w) (hlength : ws.length = wordCount w) (hm : w < m) :
    signExtendWords w ws m =
      let fill := 0 - Word.carry ((wordsToNat ws).testBit (w - 1))
      mkWideMasked m (filledWords w ws fill ++
        List.replicate (wordCount m - (filledWords w ws fill).length) fill) := by
  have hi : ((w : Int) - 1) / 64 = ((w - 1) / 64 : Nat) := by omega
  have hj : (((w : Int) - 1) % 64).toNat = (w - 1) % 64 := by omega
  have hin : (w - 1) / 64 < ws.length := by
    rw [hlength, wordCount]
    omega
  have hnot : ¬ (m : Int) ≤ w := by omega
  simp only [signExtendWords, hnot, hi, hj, Digits.get_eq hin, testBit_wordsToNat, filledWords,
    ← shr_and_one]
  by_cases hr : w % 64 = 0
  · simp only [hr]
    rfl
  · have hlast : (w : Int) / 64 = (w / 64 : Nat) := by omega
    have hin' : w / 64 < ws.length := by
      omega
    simp only [hr, hlast, Digits.get_eq hin', beq_eq_false_iff_ne.mpr hr]
    rfl

section

variable (hlength : ws.length = wordCount w)
include hlength

theorem length_filledWords (fill : UInt64) : (filledWords w ws fill).length = wordCount w := by
  unfold filledWords
  rw [List.length_append, List.length_take, hlength, wordCount]
  split
  · rw [List.length_nil]
    omega
  · rw [List.length_singleton]
    omega

/-- The words of a vector that ends within a word. -/
theorem take_append_getD (hr : w % 64 ≠ 0) : ws.take (w / 64) ++ [ws.getD (w / 64) 0] = ws := by
  have hlast : w / 64 + 1 = ws.length := by
    rw [hlength, wordCount]
    omega
  rw [List.getD_eq_getElem _ _ (by omega), List.take_append_getElem, hlast, List.take_length]

theorem filledWords_zero : filledWords w ws 0 = ws := by
  unfold filledWords
  split_ifs with hr
  · rw [List.append_nil, List.take_of_length_le]
    rw [hlength, wordCount]
    omega
  · rw [Word.shl_zero_left, UInt64.or_zero, take_append_getD hlength hr]

theorem wordsToNat_filledWords_ones (hlt : wordsToNat ws < 2 ^ w) :
    wordsToNat (filledWords w ws (0 - 1)) + 2 ^ w = wordsToNat ws + 2 ^ (64 * wordCount w) := by
  unfold filledWords
  split
  · have hw : 64 * wordCount w = w := by
      rw [wordCount]
      omega
    rw [List.append_nil, List.take_of_length_le (by omega), hw]
  · -- the vector ends within its last word, of which the fill takes the higher bits
    rename_i hr
    have hcount : wordCount w = w / 64 + 1 := by
      rw [wordCount]
      omega
    have htake : (ws.take (w / 64)).length = w / 64 := List.length_take_of_le (by omega)
    have hsplit := wordsToNat_append (ws.take (w / 64)) [ws.getD (w / 64) 0]
    have hpow : 2 ^ w = 2 ^ (64 * (w / 64)) * 2 ^ (w % 64) := by rw [← pow_add, Nat.div_add_mod]
    rw [take_append_getD hlength hr, htake, wordsToNat_singleton] at hsplit
    have hlast : (ws.getD (w / 64) 0).toNat < 2 ^ (w % 64) := by
      apply Nat.lt_of_mul_lt_mul_left (a := 2 ^ (64 * (w / 64)))
      omega
    have hones := toNat_shl_ones (show w % 64 ≤ 64 by omega)
    have hroom : 2 ^ (64 * (w / 64)) * (Word.shl (0 - 1) (w % 64)).toNat + 2 ^ w =
        2 ^ (64 * wordCount w) := by
      rw [hpow, ← mul_add, hones, hcount, mul_add, pow_add]
    rw [wordsToNat_append, htake, wordsToNat_singleton, Word.toNat_or_shl (by omega) hlast,
      ← Word.toNat_shl, mul_add]
    omega

end

theorem wordsToNat_replicate_ones (n : Nat) :
    wordsToNat (List.replicate n (0 - 1)) + 1 = 2 ^ (64 * n) := by
  have hones := wordsToNat_map_ones (List.replicate n 0)
  rwa [List.map_replicate, List.length_replicate] at hones

/-- Setting all bits from the width on takes two to the width away, modulo two to the bits of all
words. -/
theorem wordsToNat_filledWords_append_ones (hlength : ws.length = wordCount w)
    (hlt : wordsToNat ws < 2 ^ w) {n : Nat} (hn : wordCount w ≤ n) :
    wordsToNat (filledWords w ws (0 - 1) ++ List.replicate (n - wordCount w) (0 - 1)) + 2 ^ w =
      wordsToNat ws + 2 ^ (64 * n) := by
  have hfilled := wordsToNat_filledWords_ones hlength hlt
  have hrest := wordsToNat_replicate_ones (n - wordCount w)
  have hpow : 2 ^ (64 * n) = 2 ^ (64 * wordCount w) * 2 ^ (64 * (n - wordCount w)) := by
    rw [← pow_add, ← mul_add, Nat.add_sub_cancel' hn]
  rw [wordsToNat_append, length_filledWords hlength, hpow, ← hrest, mul_add]
  omega

theorem makes_signExtendWords (hpos : 0 < w) (hlength : ws.length = wordCount w)
    (hlt : wordsToNat ws < 2 ^ w) (hm : w < m) (hwide : 64 < m) :
    Makes (signExtendWords w ws m) m
      (if (wordsToNat ws).testBit (w - 1) then wordsToNat ws - 2 ^ w else wordsToNat ws) := by
  have hcount : wordCount w ≤ wordCount m := by
    rw [wordCount, wordCount]
    omega
  rw [signExtendWords_eq hpos hlength hm]
  dsimp only
  rw [length_filledWords hlength]
  have hmakes (fill : UInt64) := makes_mkWideMasked hwide
    (show (filledWords w ws fill ++ List.replicate (wordCount m - wordCount w) fill).length =
        wordCount m by
      rw [List.length_append, length_filledWords hlength, List.length_replicate,
        Nat.add_sub_cancel' hcount])
  split_ifs with hbit
  · rw [hbit]
    apply (hmakes (0 - 1)).congr_words
    have hvalue := wordsToNat_filledWords_append_ones hlength hlt hcount
    apply Int.modEq_of_dvd
    refine ⟨-1, ?_⟩
    linarith
  · have hfill : (0 : UInt64) - Word.carry false = 0 := rfl
    have hvalue := hmakes 0
    rw [filledWords_zero hlength, wordsToNat_append, wordsToNat_replicate_zero] at hvalue
    rw [Bool.eq_false_of_not_eq_true hbit, hfill, filledWords_zero hlength]
    exact hvalue

/-- Flipping the highest bit of a word and taking away its weight extends the word. -/
theorem toNat_xor_sub_modEq (hpos : 0 < w) (hw : w ≤ 64) (hv : v.toNat < 2 ^ w) :
    (((v ^^^ Word.shl 1 (w - 1)) - Word.shl 1 (w - 1)).toNat : Int) ≡
    (small w v).toInt [ZMOD 2 ^ 64] := by
  have hxor := xor_two_pow_sub (by rwa [Nat.sub_add_cancel hpos])
  rw [Nat.sub_add_cancel hpos] at hxor
  have hsub := Word.toNat_sub_modEq (v ^^^ Word.shl 1 (w - 1)) (Word.shl 1 (w - 1))
  rw [UInt64.toNat_xor, Word.toNat_shl_one (by omega), Nat.cast_pow, Nat.cast_ofNat, hxor] at hsub
  exact hsub

theorem makes_signExtend_small (ha : (small w v).WellFormed) (hpos : 0 < w) (hm : w < m) :
    Makes (signExtend (small w v) m) m (small w v).toInt := by
  have hne : ((m : Int) == (small w v).width) = false := by
    rw [beq_eq_false_iff_ne, width]
    omega
  have hpred : (w : Int) - 1 = (w - 1 : Nat) := by omega
  have hbit := readBit_eq ha (show w - 1 < w by omega)
  simp only [signExtend, hne, hpred, hbit]
  change Makes (if (m : Int) > 64 then (if (small w v).toNat.testBit (w - 1) then _ else _)
    else _) _ _
  have hw := ha.1
  split
  · split
    · have hlist := makes_signExtendWords hpos
        (show [v].length = wordCount w by rw [List.length_singleton, wordCount]; omega)
        (by exact ha.2) hm (by omega)
      exact hlist
    · rename_i hwide htop
      rw [toInt_of_not_testBit (Bool.eq_false_of_not_eq_true htop)]
      exact makes_mkSparse (by omega) v
  · apply (makes_mkMasked (by omega) _).congr
    exact (toNat_xor_sub_modEq hpos hw ha.2).of_dvd (pow_dvd_pow 2 (by omega))

theorem signExtend_self (a : Bits) : signExtend a a.width = .ok a := if_pos (beq_iff_eq.mpr rfl)

theorem signExtend_sparse (v : UInt64) (hm : w < m) : signExtend (sparse w v) m = mkSparse m v := by
  rw [signExtend, width, if_neg (by rw [beq_iff_eq]; omega), if_pos (by omega)]

theorem signExtend_wide (ws : List UInt64) (hm : w < m) :
    signExtend (wide w ws) m = signExtendWords w ws m := by
  rw [signExtend, width, if_neg (by rw [beq_iff_eq]; omega)]

theorem makes_signExtend (ha : a.WellFormed) (hpos : 0 < a.width) (hm : a.width ≤ m) :
    Makes (signExtend a m) m a.toInt := by
  rcases Nat.eq_or_lt_of_le hm with rfl | hlt
  · rw [signExtend_self]
    exact (makes_ok ha).congr (toInt_modEq a).symm
  · cases a with
    | small w v => exact makes_signExtend_small ha hpos hlt
    | sparse w v =>
      have htop : (sparse w v).toNat.testBit ((sparse w v).width - 1) = false :=
        Word.testBit_of_le (Nat.le_sub_one_of_lt ha) v
      rw [toInt_of_not_testBit htop, signExtend_sparse (w := w) v hlt]
      exact makes_mkSparse (Nat.lt_trans ha hlt) v
    | wide w ws =>
      rw [signExtend_wide (w := w) ws hlt, toInt, toNat_wide]
      exact makes_signExtendWords hpos ha.2.1 ha.2.2 hlt (Nat.lt_trans ha.1 hlt)

/-! ### Cutting off what was added -/

/-- The vector is a list of words. -/
def IsList : Bits → Prop
  | wide .. => True
  | _ => False

theorem WellFormed.not_isList (hb : b.WellFormed) (hw : b.width ≤ 64) : ¬ b.IsList := by
  obtain ⟨v, hv⟩ := hb.eq_small rfl hw
  rw [hv]
  exact id

/-- A legal vector is given by its width, its number and its form. -/
theorem eq_of_toNat_eq (ha : a.WellFormed) (hb : b.WellFormed) (hwa : a.width = w)
    (hwb : b.width = w) (hvalue : a.toNat = b.toNat) (hform : a.IsList ↔ b.IsList) : a = b := by
  rcases Nat.lt_or_ge 64 w with hw | hw
  · obtain ⟨v, rfl⟩ | ⟨xs, rfl⟩ := ha.sparse_or_wide hwa hw <;>
      obtain ⟨u, rfl⟩ | ⟨ys, rfl⟩ := hb.sparse_or_wide hwb hw
    · rw [UInt64.toNat_inj.mp hvalue]
    · exact (hform.mpr trivial).elim
    · exact (hform.mp trivial).elim
    · rw [toNat_wide, toNat_wide] at hvalue
      rw [eq_of_wordsToNat_eq (ha.2.1.trans hb.2.1.symm) hvalue]
  · obtain ⟨v, rfl⟩ := ha.eq_small hwa hw
    obtain ⟨u, rfl⟩ := hb.eq_small hwb hw
    rw [UInt64.toNat_inj.mp hvalue]

theorem isList_of_mkWide (hb : mkWide i ws = .ok b) : b.IsList := by
  unfold mkWide at hb
  split at hb
  · cases hb
  · split at hb
    · cases hb
      trivial
    · cases hb

theorem isList_of_mkWideMasked (hb : mkWideMasked i ws = .ok b) : b.IsList := by
  unfold mkWideMasked at hb
  split at hb
  · cases hb
  · obtain ⟨top, -, hb⟩ := exists_ok_of_bind hb
    obtain ⟨vs, -, hb⟩ := exists_ok_of_bind hb
    exact isList_of_mkWide hb

theorem not_isList_of_mkSparse (hb : mkSparse i v = .ok b) : ¬ b.IsList := by
  unfold mkSparse at hb
  split at hb
  · cases hb
    exact id
  · cases hb

theorem isList_zeroExtend_iff (ha : a.WellFormed) (hw : 64 < a.width)
    (hb : zeroExtend a i = .ok b) : b.IsList ↔ a.IsList := by
  unfold zeroExtend at hb
  split at hb
  · cases hb
    rfl
  · split at hb
    · cases hb
    · cases a with
      | small w v => exact absurd ha.1 (Nat.not_le.mpr hw)
      | sparse w v => exact iff_of_false (not_isList_of_mkSparse hb) id
      | wide w ws => exact iff_of_true (isList_of_mkWide hb) trivial

theorem isList_signExtend_iff (ha : a.WellFormed) (hw : 64 < a.width) (hm : a.width ≤ m)
    (hb : signExtend a m = .ok b) : b.IsList ↔ a.IsList := by
  rcases Nat.eq_or_lt_of_le hm with rfl | hlt
  · rw [signExtend_self] at hb
    cases hb
    rfl
  · cases a with
    | small w v => exact absurd ha.1 (Nat.not_le.mpr hw)
    | sparse w v =>
      rw [signExtend_sparse (w := w) v hlt] at hb
      exact iff_of_false (not_isList_of_mkSparse hb) id
    | wide w ws =>
      rw [signExtend_wide (w := w) ws hlt,
        signExtendWords_eq (w := w) (Nat.zero_lt_of_lt hw) ha.2.1 hlt] at hb
      exact iff_of_true (isList_of_mkWideMasked hb) trivial

theorem isList_truncate_iff (ha : a.WellFormed) (hw : 64 < w) (hb : truncate a w = .ok b) :
    b.IsList ↔ a.IsList := by
  cases a with
  | small u v =>
    have hu := ha.1
    rw [truncate, if_pos (by omega)] at hb
    cases hb
  | sparse u v =>
    rw [truncate] at hb
    split at hb
    · cases hb
    · rw [if_neg (by omega)] at hb
      exact iff_of_false (not_isList_of_mkSparse hb) id
  | wide u ws =>
    rw [truncate] at hb
    split at hb
    · cases hb
    · rw [if_neg (by omega)] at hb
      split at hb
      · cases hb
        rfl
      · exact iff_of_true (isList_of_mkWideMasked hb) trivial

/-- A vector is cut back to one that has the same lowest bits and the same form. -/
theorem truncate_eq (ha : a.WellFormed) (hb : b.WellFormed) (hwidth : a.width ≤ b.width)
    (hvalue : (b.toNat : Int) ≡ a.toNat [ZMOD 2 ^ a.width])
    (hform : 64 < a.width → (b.IsList ↔ a.IsList)) : truncate b a.width = .ok a := by
  obtain ⟨c, hc, hwell, hwc, hsame⟩ :=
    ((makes_truncate hb hwidth).congr hvalue).exists_toNat_eq ha.toNat_lt
  rw [hc, eq_of_toNat_eq hwell ha hwc rfl hsame]
  rcases Nat.lt_or_ge 64 a.width with hw | hw
  · exact (isList_truncate_iff hb hw hc).trans (hform hw)
  · exact iff_of_false (hwell.not_isList (hwc ▸ hw)) (ha.not_isList hw)

/-- Extension and truncation are exact in every form, and truncation gives back what was
extended. -/
theorem extension_exact (ha : a.WellFormed) (hpos : 0 < a.width) (hm : a.width ≤ m) {k : Nat}
    (hk : k ≤ a.width) :
    (∃ b, zeroExtend a m = .ok b ∧ b.WellFormed ∧ b.width = m ∧ b.toNat = a.toNat ∧
      truncate b a.width = .ok a) ∧
    (∃ b, signExtend a m = .ok b ∧ b.WellFormed ∧ b.width = m ∧ b.toInt = a.toInt ∧
      truncate b a.width = .ok a) ∧
    ∃ b, truncate a k = .ok b ∧ b.WellFormed ∧ b.width = k ∧ b.toNat = a.toNat % 2 ^ k := by
  refine ⟨?_, ?_, ?_⟩
  · have hlt : a.toNat < 2 ^ m := ha.toNat_lt.trans_le (Nat.pow_le_pow_right (by decide) hm)
    obtain ⟨b, hb, hwell, hwidth, hvalue⟩ := (makes_zeroExtend ha hm).exists_toNat_eq hlt
    refine ⟨b, hb, hwell, hwidth, hvalue, ?_⟩
    exact truncate_eq ha hwell (hwidth ▸ hm) (by rw [hvalue])
      fun hw => isList_zeroExtend_iff ha hw hb
  · obtain ⟨hlow, hhigh⟩ := toInt_bounds ha hpos
    have hpow : (2 : Int) ^ (a.width - 1) ≤ 2 ^ (m - 1) :=
      pow_le_pow_right₀ (by decide) (Nat.sub_le_sub_right hm 1)
    obtain ⟨b, hb, hwell, hwidth, hvalue⟩ :=
      (makes_signExtend ha hpos hm).exists_toInt_eq (by omega) (by omega) (by omega)
    refine ⟨b, hb, hwell, hwidth, hvalue, ?_⟩
    refine truncate_eq ha hwell (hwidth ▸ hm) ?_ fun hw => isList_signExtend_iff ha hw hm hb
    have hsigned := ((toInt_modEq b).of_dvd (pow_dvd_pow 2 (hwidth ▸ hm))).symm
    rw [hvalue] at hsigned
    exact hsigned.trans (toInt_modEq a)
  · obtain ⟨b, hb, hwell, hwidth, hvalue⟩ := makes_truncate ha hk
    exact ⟨b, hb, hwell, hwidth, by exact_mod_cast hvalue⟩

/-- A negative vector of less than a word that is extended to more than two, and cut within its
word. -/
theorem extension_exact_negative :
    let a := small 61 0x1234567890abcdef
    (a.WellFormed ∧ 0 < a.width ∧ a.width ≤ 130 ∧ 7 ≤ a.width ∧ a.toInt < 0) ∧
    (∃ b, zeroExtend a (130 : Nat) = .ok b ∧ b.WellFormed ∧ b.width = 130 ∧ b.toNat = a.toNat ∧
      truncate b a.width = .ok a) ∧
    (∃ b, signExtend a (130 : Nat) = .ok b ∧ b.WellFormed ∧ b.width = 130 ∧ b.toInt = a.toInt ∧
      truncate b a.width = .ok a) ∧
    ∃ b, truncate a (7 : Nat) = .ok b ∧ b.WellFormed ∧ b.width = 7 ∧ b.toNat = a.toNat % 2 ^ 7 :=
  ⟨by decide, extension_exact (by decide) (by decide) (by decide) (by decide)⟩

end Jib.Bits
