import Jib.Proofs.Bits.Shift

/-!
# The form of a wide vector cannot be observed

A vector of more than 64 bits is sparse or a list of words.  In any mix of the two forms the bitwise
operations work bit by bit, vectors are equal exactly if their numbers are, and the integers and
words that are read from a vector depend on its number only.
-/

namespace Jib.Bits

variable {w : Nat} {xs ys ws : List UInt64} {a b : Bits} {f : UInt64 → UInt64 → UInt64}
  {g : Bool → Bool → Bool}

/-! ### Words combined bit by bit -/

theorem bitByBit_xor : Digits.BitByBit (· ^^^ ·) Bool.xor := fun x y k => by
  rw [UInt64.toNat_xor, Nat.testBit_xor]

theorem bitByBit_or : Digits.BitByBit (· ||| ·) Bool.or := fun x y k => by
  rw [UInt64.toNat_or, Nat.testBit_or]

theorem bitByBit_and : Digits.BitByBit (· &&& ·) Bool.and := fun x y k => by
  rw [UInt64.toNat_and, Nat.testBit_and]

section Combine

variable (hf : Digits.BitByBit f g)
include hf

theorem apply_false_false : g false false = false := by
  have hbit := hf 0 0 64
  rw [Word.testBit_of_le (Nat.le_refl 64), UInt64.toNat_zero] at hbit
  exact hbit.symm

/-- Beyond the second list, a bit of the first has to be what the operation makes of it and of
zero. -/
theorem hasBits_combine (hx : (wide w xs).WellFormed) (hlength : ys.length ≤ xs.length)
    (hy : wordsToNat ys < 2 ^ w)
    (hrest : ∀ k, 64 * ys.length ≤ k →
      g ((wordsToNat xs).testBit k) false = (wordsToNat xs).testBit k) :
    HasBits (do mkWide w (← Digits.combine f xs ys)) w
      (fun k => g ((wordsToNat xs).testBit k) ((wordsToNat ys).testBit k)) := by
  obtain ⟨out, hout, hlen, hbits⟩ := Digits.exists_combine hf hlength
  have hclear (k : Nat) (hk : w ≤ k) :
      g ((wordsToNat xs).testBit k) ((wordsToNat ys).testBit k) = false := by
    have hxk : (wordsToNat xs).testBit k = false := toNat_wide w xs ▸ hx.testBit_of_le hk
    rw [hxk, Nat.testBit_lt_two_pow (hy.trans_le (Nat.pow_le_pow_right (by decide) hk)),
      apply_false_false hf]
  have hall (k : Nat) : (wordsToNat out).testBit k =
      g ((wordsToNat xs).testBit k) ((wordsToNat ys).testBit k) := by
    rw [hbits]
    split
    · rfl
    · -- the second list is over, and the words of the first are kept
      rename_i hk
      have hyk : (wordsToNat ys).testBit k = false :=
        Nat.testBit_lt_two_pow
          ((wordsToNat_lt ys).trans_le (Nat.pow_le_pow_right (by decide) (Nat.le_of_not_lt hk)))
      rw [hyk, hrest k (Nat.le_of_not_lt hk)]
  rw [hout]
  apply (makes_mkWide hx.1 (hlen.trans hx.2.1) ?_).hasBits (fun k _ => hall k) hclear
  exact Nat.lt_pow_two_of_testBit _ fun k hk => by rw [hall, hclear k hk]

theorem hasBits_combine_wide (hx : (wide w xs).WellFormed) (hy : (wide w ys).WellFormed) :
    HasBits (do mkWide w (← Digits.combine f xs ys)) w
      (fun k => g ((wordsToNat xs).testBit k) ((wordsToNat ys).testBit k)) := by
  have hsame : ys.length = xs.length := hy.2.1.trans hx.2.1.symm
  refine hasBits_combine hf hx hsame.le hy.2.2 fun k hk => ?_
  rw [hsame] at hk
  rw [Nat.testBit_lt_two_pow ((wordsToNat_lt xs).trans_le (Nat.pow_le_pow_right (by decide) hk)),
    apply_false_false hf]

theorem hasBits_sparse (hw : 64 < w) (v u : UInt64) :
    HasBits (.ok (sparse w (f v u))) w (fun k => g (v.toNat.testBit k) (u.toNat.testBit k)) := by
  refine Makes.hasBits (makes_ok hw) (fun k _ => hf v u k) fun k hk => ?_
  rw [Word.testBit_of_le (by omega), Word.testBit_of_le (by omega), apply_false_false hf]

end Combine

/-! ### Equality -/

theorem beq_eq_decide_toNat (v u : UInt64) : (v == u) = decide (v.toNat = u.toNat) := by
  rw [Bool.eq_iff_iff, beq_iff_eq, decide_eq_true_iff, UInt64.toNat_inj]

theorem beq_eq_decide_wordsToNat {xs ys : List UInt64} (hlength : xs.length = ys.length) :
    (xs == ys) = decide (wordsToNat xs = wordsToNat ys) := by
  rw [Bool.eq_iff_iff, beq_iff_eq, decide_eq_true_iff]
  exact ⟨congrArg wordsToNat, eq_of_wordsToNat_eq hlength⟩

/-- Vectors of one width are equal exactly if they denote the same number. -/
theorem eq_eq (ha : a.WellFormed) (hb : b.WellFormed) (hwa : a.width = w) (hwb : b.width = w) :
    eq a b = .ok (decide (a.toNat = b.toNat)) := by
  unfold eq
  rw [if_neg (by simp [hwa, hwb])]
  rcases Nat.lt_or_ge 64 w with hw | hw
  · obtain ⟨v, rfl⟩ | ⟨xs, rfl⟩ := ha.sparse_or_wide hwa hw <;>
      obtain ⟨u, rfl⟩ | ⟨ys, rfl⟩ := hb.sparse_or_wide hwb hw
    · exact congrArg Except.ok (beq_eq_decide_toNat v u)
    · have hlength := (ha.wide_words hw).2.1.trans hb.2.1.symm
      have hsame := beq_eq_decide_wordsToNat hlength
      rw [wordsToNat_words, ← toNat_wide] at hsame
      exact congrArg Except.ok hsame
    · cases xs with
      | nil => exact absurd rfl (ne_nil_of_length hw ha.2.1)
      | cons x xs =>
        have hu := u.toNat_lt
        apply congrArg Except.ok
        rw [all_eq_zero, beq_eq_decide_toNat, ← Bool.decide_and, decide_eq_decide, toNat,
          toNat_wide, wordsToNat_cons]
        omega
    · rw [toNat_wide, toNat_wide]
      exact congrArg Except.ok (beq_eq_decide_wordsToNat (ha.2.1.trans hb.2.1.symm))
  · obtain ⟨v, rfl⟩ := ha.eq_small hwa hw
    obtain ⟨u, rfl⟩ := hb.eq_small hwb hw
    exact congrArg Except.ok (beq_eq_decide_toNat v u)

/-! ### Bitwise operations -/

section Wide

variable (ha : a.WellFormed) (hb : b.WellFormed) (hwa : a.width = w) (hwb : b.width = w)
    (hw : 64 < w)
include ha hwa hw

section Two

include hb hwb

theorem hasBits_bitwise (hf : Digits.BitByBit f g) (hg : ∀ x, g x false = x) :
    HasBits (bitwise f a b) w (fun k => g (a.toNat.testBit k) (b.toNat.testBit k)) := by
  obtain ⟨v, rfl⟩ | ⟨xs, rfl⟩ := ha.sparse_or_wide hwa hw <;>
    obtain ⟨u, rfl⟩ | ⟨ys, rfl⟩ := hb.sparse_or_wide hwb hw
  · exact hasBits_sparse hf hw v u
  · have hwords := hasBits_combine_wide hf (ha.wide_words hw) hb
    rwa [wordsToNat_words, ← toNat_wide] at hwords
  · have hone : [u].length ≤ xs.length := List.length_pos_iff.mpr (ne_nil_of_length hw ha.2.1)
    have hwords := hasBits_combine hf ha hone (by exact hb.toNat_lt) (fun k _ => hg _)
    rwa [← toNat_wide] at hwords
  · rw [toNat_wide, toNat_wide]
    exact hasBits_combine_wide hf ha hb

omit hb hwb in
theorem hasBits_andSparse (v : UInt64) :
    HasBits (andSparse a v) w (fun k => a.toNat.testBit k && v.toNat.testBit k) := by
  obtain ⟨u, rfl⟩ | ⟨ws, rfl⟩ := ha.sparse_or_wide hwa hw
  · exact hasBits_sparse bitByBit_and hw u v
  · rw [andSparse, ← Nat.cast_zero,
      Digits.get_eq (List.length_pos_iff.mpr (ne_nil_of_length hw ha.2.1))]
    apply (makes_mkSparse hw (ws.getD 0 0 &&& v)).hasBits
    · intro k _
      rw [bitByBit_and, toNat_wide, testBit_wordsToNat]
      rcases Nat.lt_or_ge k 64 with hk | hk
      · rw [Nat.div_eq_of_lt hk, Nat.mod_eq_of_lt hk]
      · rw [Word.testBit_of_le hk v, Bool.and_false, Bool.and_false]
    · intro k hk
      rw [ha.testBit_of_le hk, Bool.false_and]

theorem hasBits_and : HasBits (and a b) w (fun k => a.toNat.testBit k && b.toNat.testBit k) := by
  obtain ⟨v, rfl⟩ | ⟨xs, rfl⟩ := ha.sparse_or_wide hwa hw <;>
    obtain ⟨u, rfl⟩ | ⟨ys, rfl⟩ := hb.sparse_or_wide hwb hw
  · exact hasBits_sparse bitByBit_and hw v u
  · have hand := hasBits_andSparse hb hwb hw v
    simp only [Bool.and_comm] at hand
    exact hand
  · exact hasBits_andSparse ha hwa hw u
  · rw [toNat_wide, toNat_wide]
    exact hasBits_combine_wide bitByBit_and ha hb

end Two

omit ha hwa hw in
theorem testBit_wordsToNat_map_not {k : Nat} (hk : k < 64 * ws.length) :
    (wordsToNat (ws.map (~~~ ·))).testBit k = !(wordsToNat ws).testBit k := by
  induction ws generalizing k with
  | nil => cases hk
  | cons v vs ih =>
    rw [List.map_cons, testBit_wordsToNat_cons, testBit_wordsToNat_cons]
    split
    · rename_i hlow
      rw [Word.testBit_not, decide_eq_true hlow, Bool.true_and]
    · rw [List.length_cons] at hk
      exact ih (by omega)

theorem hasBits_not : HasBits (not a) w (fun k => decide (k < w) && !a.toNat.testBit k) := by
  have hlength : (words a).length = wordCount w := hwa ▸ length_words ha (by omega)
  have hnot : not a = mkWideMasked w ((words a).map (~~~ ·)) := by
    obtain ⟨v, rfl⟩ | ⟨ws, rfl⟩ := ha.sparse_or_wide hwa hw <;> rfl
  rw [hnot]
  apply (makes_mkWideMasked hw (by rw [List.length_map, hlength])).hasBits
  · intro k hk
    have hin : k < 64 * (words a).length := hlength ▸ hk.trans_le (le_mul_wordCount w)
    rw [testBit_wordsToNat_map_not hin, wordsToNat_words, decide_eq_true hk, Bool.true_and]
  · intro k hk
    rw [decide_eq_false (Nat.not_lt.mpr hk), Bool.false_and]

/-! ### Integers and words -/

theorem denotes_signed : Integer.Denotes (signed a) a.toInt := by
  obtain ⟨v, rfl⟩ | ⟨ws, rfl⟩ := ha.sparse_or_wide hwa hw
  · have htop : (sparse w v).toNat.testBit (w - 1) = false :=
      Word.testBit_of_le (Nat.le_sub_one_of_lt hw) v
    rw [toInt_of_not_testBit htop]
    exact Integer.denotes_ofUnsigned v
  · exact denotes_signed_wide ha

theorem denotes_unsigned : Integer.Denotes (unsigned a) a.toNat := by
  obtain ⟨v, rfl⟩ | ⟨ws, rfl⟩ := ha.sparse_or_wide hwa hw
  · exact Integer.denotes_ofUnsigned v
  · have hdigits := Integer.denotes_ofDigits (show Digits.Signed 1 ws from .inr (.inl rfl))
    rwa [one_mul, ← toNat_wide] at hdigits

omit ha hwa hw in
/-- A word that is in range for a machine integer is read as the number that it stands for. -/
theorem ite_toInt_eq {n : Nat} {x : UInt64} (hx : n < 2 ^ 63 → x.toNat = n) (e : Fault) :
    (if decide (2 ^ 63 ≤ n) = true then .error e else .ok (Word.toInt x) : Result Int) =
      if n < 2 ^ 63 then .ok (n : Int) else .error e := by
  rcases Nat.lt_or_ge n (2 ^ 63) with hn | hn
  · rw [decide_eq_false (Nat.not_le.mpr hn), if_neg Bool.false_ne_true, if_pos hn,
      Word.toInt_of_lt (by rwa [hx hn]), hx hn]
  · rw [decide_eq_true hn, if_pos rfl, if_neg (Nat.not_lt.mpr hn)]

theorem toWord_eq :
    toWord a = if a.toNat < 2 ^ 63 then .ok (a.toNat : Int) else .error (.badValue (some "")) := by
  obtain ⟨v, rfl⟩ | ⟨ws, rfl⟩ := ha.sparse_or_wide hwa hw
  · rw [toWord, Word.and_high_ne_zero]
    exact ite_toInt_eq (fun _ => rfl) _
  · cases ws with
    | nil => exact absurd rfl (ne_nil_of_length hw ha.2.1)
    | cons x xs =>
      have hlimit : (xs.any (· != 0) || x &&& 0x8000000000000000 != 0) =
          decide (2 ^ 63 ≤ wordsToNat (x :: xs)) := by
        rw [any_ne_zero, Word.and_high_ne_zero, wordsToNat_cons, ← decide_not, ← Bool.decide_or,
          decide_eq_decide]
        omega
      rw [toWord, hlimit, toNat_wide]
      refine ite_toInt_eq (fun hlt => ?_) _
      rw [wordsToNat_cons] at hlt ⊢
      omega

theorem toUnsigned_eq {e : Int} (he : e = 0 ∨ e = w) :
    UInt64.toNat <$> toUnsigned a e =
      if a.toNat < 2 ^ 64 then .ok a.toNat else .error (.badValue (some "")) := by
  have hguard : ¬ (e != 0 && e != a.width) = true := by
    rw [hwa]
    rcases he with rfl | rfl <;> simp
  unfold toUnsigned
  rw [if_neg hguard]
  obtain ⟨v, rfl⟩ | ⟨ws, rfl⟩ := ha.sparse_or_wide hwa hw
  · exact (if_pos v.toNat_lt).symm
  · cases ws with
    | nil => exact absurd rfl (ne_nil_of_length hw ha.2.1)
    | cons x xs =>
      have hx := x.toNat_lt
      have hlimit : xs.any (· != 0) = decide (2 ^ 64 ≤ wordsToNat (x :: xs)) := by
        rw [any_ne_zero, wordsToNat_cons, ← decide_not, decide_eq_decide]
        omega
      change UInt64.toNat <$> (if xs.any (· != 0) = true then _ else Except.ok x) = _
      rw [hlimit, toNat_wide]
      rcases Nat.lt_or_ge (wordsToNat (x :: xs)) (2 ^ 64) with hn | hn
      · have hvalue : wordsToNat (x :: xs) = x.toNat := by
          rw [wordsToNat_cons] at hn ⊢
          omega
        rw [decide_eq_false (Nat.not_le.mpr hn), if_pos hn, hvalue]
        rfl
      · rw [decide_eq_true hn, if_neg (Nat.not_lt.mpr hn)]
        rfl

end Wide

/-- For vectors of more than 64 bits, sparse or as lists of words in any mix, what can be seen of
them depends on the width and the number only: the bitwise operations work bit by bit, equality is
that of the numbers, the integers are the signed and the unsigned number, and the number is given as
a machine integer or a word if it is one, and refused otherwise. -/
theorem form_unobservable (ha : a.WellFormed) (hb : b.WellFormed) (hwa : a.width = w)
    (hwb : b.width = w) (hw : 64 < w) :
    HasBits (xor a b) w (fun k => a.toNat.testBit k ^^ b.toNat.testBit k) ∧
    HasBits (or a b) w (fun k => a.toNat.testBit k || b.toNat.testBit k) ∧
    HasBits (and a b) w (fun k => a.toNat.testBit k && b.toNat.testBit k) ∧
    HasBits (not a) w (fun k => decide (k < w) && !a.toNat.testBit k) ∧
    eq a b = .ok (decide (a.toNat = b.toNat)) ∧
    Integer.Denotes (signed a) a.toInt ∧
    Integer.Denotes (unsigned a) a.toNat ∧
    toWord a = (if a.toNat < 2 ^ 63 then .ok (a.toNat : Int) else .error (.badValue (some ""))) ∧
    ∀ e : Int, e = 0 ∨ e = w → UInt64.toNat <$> toUnsigned a e =
      if a.toNat < 2 ^ 64 then .ok a.toNat else .error (.badValue (some "")) :=
  ⟨hasBits_bitwise ha hb hwa hwb hw bitByBit_xor Bool.xor_false,
    hasBits_bitwise ha hb hwa hwb hw bitByBit_or Bool.or_false,
    hasBits_and ha hb hwa hwb hw,
    hasBits_not ha hwa hw,
    eq_eq ha hb hwa hwb,
    denotes_signed ha hwa hw,
    denotes_unsigned ha hwa hw,
    toWord_eq ha hwa hw,
    fun _ he => toUnsigned_eq ha hwa hw he⟩

/-- A negative vector in two words that is no word, with a sparse one that is a word but no machine
integer. -/
theorem form_unobservable_mixed :
    let a := wide 65 [0xf0f0f0f0f0f0f0f0, 1]
    let b := sparse 65 0xff00ff00ff00ff00
    (a.WellFormed ∧ b.WellFormed ∧ a.toInt < 0 ∧ 2 ^ 64 ≤ a.toNat) ∧
    HasBits (xor a b) 65 (fun k => a.toNat.testBit k ^^ b.toNat.testBit k) ∧
    HasBits (or a b) 65 (fun k => a.toNat.testBit k || b.toNat.testBit k) ∧
    HasBits (and a b) 65 (fun k => a.toNat.testBit k && b.toNat.testBit k) ∧
    HasBits (not a) 65 (fun k => decide (k < 65) && !a.toNat.testBit k) ∧
    eq a b = .ok (decide (a.toNat = b.toNat)) ∧
    Integer.Denotes (signed a) a.toInt ∧
    Integer.Denotes (unsigned a) a.toNat ∧
    toWord a = (if a.toNat < 2 ^ 63 then .ok (a.toNat : Int) else .error (.badValue (some ""))) ∧
    ∀ e : Int, e = 0 ∨ e = (65 : Nat) → UInt64.toNat <$> toUnsigned a e =
      if a.toNat < 2 ^ 64 then .ok a.toNat else .error (.badValue (some "")) :=
  ⟨by decide, form_unobservable (by decide) (by decide) rfl rfl (by decide)⟩

/-- A shift by the number of another vector, whatever the widths and forms of the two, is exact if
that number is a machine integer.  It is refused otherwise, although only zeros would be left. -/
theorem shiftBy_exact (ha : a.WellFormed) (hb : b.WellFormed) :
    if b.toNat < 2 ^ 63 then
      Makes (shiftLeftBy a b) a.width (a.toNat * 2 ^ b.toNat) ∧
        Makes (shiftRightBy a b) a.width (a.toNat / 2 ^ b.toNat)
    else
      shiftLeftBy a b = .error (.badValue (some "")) ∧
        shiftRightBy a b = .error (.badValue (some "")) := by
  have hamount : toWord b =
      if b.toNat < 2 ^ 63 then .ok (b.toNat : Int) else .error (.badValue (some "")) := by
    cases b with
    | small w v =>
      obtain ⟨hw, hv⟩ := hb
      have hhigh : 2 ^ 63 ≤ v.toNat → w = 64 := fun hle =>
        le_antisymm hw ((Nat.pow_lt_pow_iff_right (by decide)).mp (hle.trans_lt hv))
      have hrefused : (w == 64 && v &&& 0x8000000000000000 != 0) = decide (2 ^ 63 ≤ v.toNat) := by
        rw [Word.and_high_ne_zero, Bool.eq_iff_iff, Bool.and_eq_true, beq_iff_eq,
          decide_eq_true_iff]
        exact and_iff_right_of_imp hhigh
      rw [toWord, hrefused]
      exact ite_toInt_eq (fun _ => rfl) _
    | sparse w v => exact toWord_eq hb rfl hb
    | wide w ws => exact toWord_eq hb rfl hb.1
  unfold shiftLeftBy shiftRightBy
  rw [hamount]
  split_ifs
  · exact ⟨makes_shiftLeft ha _, makes_shiftRight ha _⟩
  · exact ⟨rfl, rfl⟩

/-- Eight bits cannot be shifted by the highest of 64 bits. -/
theorem shiftBy_exact_refused :
    let a := small 8 1
    let b := small 64 0x8000000000000000
    (a.WellFormed ∧ b.WellFormed) ∧ shiftLeftBy a b = .error (.badValue (some "")) ∧
      shiftRightBy a b = .error (.badValue (some "")) := by
  have hrefused :=
    shiftBy_exact (a := small 8 1) (b := small 64 0x8000000000000000) (by decide) (by decide)
  rw [if_neg (by decide)] at hrefused
  exact ⟨by decide, hrefused⟩

end Jib.Bits
