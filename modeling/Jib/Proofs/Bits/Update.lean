import Jib.Proofs.Bits.Subrange

/-!
# Updates of bit vectors

An update of the bits from one position to another gives the new content in the range and leaves
every other bit as it was.  In a list of words the content is shifted to its position and written
word by word; the bits below it in its first word and above it in its last word are kept.
-/

namespace Jib.Bits

variable {w m n : Nat} {ws : List UInt64} {a s : Bits}

theorem writeShifted_zero (k : Nat) (i : Int) (source ws : List UInt64) :
    writeShifted 0 k i 0 source ws = (do
      let r ← writeWords k i source ws
      return (0, r.1, r.2)) := by
  induction k generalizing i source ws with
  | zero => rfl
  | succ k ih =>
    cases source with
    | nil => rfl
    | cons d rest =>
      have hword : (0 : UInt64) ||| Word.shl d 0 = d := by simp [Word.shl]
      simp only [writeShifted, writeWords, hword]
      cases Digits.set ws i d with
      | error e => rfl
      | ok ws' => exact ih (i + 1) rest ws'

/-- What the words are after some of them are written, and what is carried over. -/
theorem writeShifted_spec {shift k i : Nat} {c : UInt64} {source ws : List UInt64}
    (hsource : k ≤ source.length) (hroom : i + k ≤ ws.length) :
    ∃ c' out, writeShifted shift k i c source ws = .ok (c', source.drop k, out) ∧
      out.length = ws.length ∧
      (∀ p, out.getD p 0 = if i ≤ p ∧
        p < i + k then (Digits.shiftLeftBits shift source c).getD (p - i) 0 else ws.getD p 0) ∧
      Digits.shiftLeftBits shift (source.drop k) c' =
          (Digits.shiftLeftBits shift source c).drop k := by
  induction k generalizing i c source ws with
  | zero =>
    refine ⟨c, ws, rfl, rfl, fun p => ?_, rfl⟩
    rw [if_neg (by omega)]
  | succ k ih =>
    cases source with
    | nil => cases hsource
    | cons d rest =>
      have hroom' : i + 1 + k ≤ (ws.set i (c ||| Word.shl d shift)).length := by
        rw [List.length_set]
        omega
      obtain ⟨c', out, hwrite, hlength, hwords, hcarry⟩ :=
        ih (Nat.le_of_succ_le_succ hsource) hroom'
      refine ⟨c', out, ?_, by rw [hlength, List.length_set], fun p => ?_, hcarry⟩
      · rw [writeShifted, Digits.set_eq (by omega)]
        exact hwrite
      · rw [hwords, Digits.shiftLeftBits, getD_set (by omega)]
        rcases Nat.lt_trichotomy p i with hp | rfl | hp
        · rw [if_neg (by omega), if_neg (by omega), if_neg (by omega)]
        · rw [if_neg (by omega), if_pos rfl, if_pos (by omega), Nat.sub_self, List.getD_cons_zero]
        · have hindex : p - i = p - (i + 1) + 1 := by omega
          have hrange : (i + 1 ≤ p ∧ p < i + 1 + k) ↔ (i ≤ p ∧ p < i + (k + 1)) := by omega
          rw [if_neg hp.ne', hindex, List.getD_cons_succ]
          simp only [hrange]

theorem sourceWords_eq (hs : s.WellFormed) : sourceWords s = .ok (words s) := by
  cases s with
  | small w v => exact if_pos hs.1
  | sparse w v => exact if_neg (Nat.not_le.mpr hs)
  | wide w ds => exact if_neg (Nat.not_le.mpr hs.1)

theorem writeFilled_eq {low i : Nat} (hlow : low < 64) (hi : i < ws.length) (k : Nat)
    (source : List UInt64) :
    writeFilled low k i source ws = writeShifted low k i (Word.low low (ws.getD i 0))
    source ws := by
  have hmask : Word.low low (ws.getD i 0) = ws.getD i 0 &&& (Word.shl 1 low - 1) := if_pos hlow
  rw [hmask]
  unfold writeFilled
  split_ifs with hzero
  · rw [beq_iff_eq.mp hzero]
    have hclear : ws.getD i 0 &&& (Word.shl 1 0 - 1) = 0 := by simp [Word.shl]
    rw [hclear, writeShifted_zero]
  · rw [Digits.get_eq hi]
    rfl

/-- The word where a range ends takes the bits that are carried over and those of the next word. -/
theorem writeEnd_eq {low high i : Nat} (hi : i < ws.length) (c : UInt64) {rest : List UInt64}
    (hrest : rest ≠ [] ↔ low < high) :
    writeEnd low high i c rest ws = .ok (ws.set i ((ws.getD i 0 &&& ~~~(Word.shl 1 high - 1)) |||
      (Digits.shiftLeftBits low rest c).getD 0 0)) := by
  unfold writeEnd
  rw [Digits.get_eq hi]
  change (if low < high then _ else _) = _
  split_ifs with hmore
  · cases rest with
    | nil => exact absurd rfl (hrest.mpr hmore)
    | cons e es =>
      rw [Digits.shiftLeftBits, List.getD_cons_zero, ← UInt64.or_assoc]
      exact Digits.set_eq hi _
  · have hnil : rest = [] := Classical.not_not.mp (fun hne => hmore (hrest.mp hne))
    rw [hnil]
    exact Digits.set_eq hi _

/-- The words of a vector after words of the new content, shifted to its position, are written from
the one with bit `m` to the one with bit `n`. -/
def overwritten (ws ys : List UInt64) (n m p : Nat) : UInt64 :=
  if m / 64 ≤ p ∧ p < (n + 1) / 64 then ys.getD (p - m / 64) 0
  -- the last word keeps its bits above `n`
  else if p = (n + 1) / 64 ∧ (n + 1) % 64 ≠ 0 then
    (ws.getD p 0 &&& ~~~(Word.shl 1 ((n + 1) % 64) - 1)) ||| ys.getD (p - m / 64) 0
  else ws.getD p 0

theorem width_guard (hmn : m ≤ n) (hsize : s.width = n - m + 1) :
    ((s.width : Int) != n - m + 1) = false := by
  rw [bne_eq_false_iff_eq]
  omega

/-- The words of a vector after an update, place by place. -/
theorem exists_updateWordRange (hlength : ws.length = wordCount w)
    (hs : s.WellFormed) (hmn : m ≤ n) (hn : n < w) (hsize : s.width = n - m + 1) :
    ∃ out, updateWordRange w ws n m s = mkWide w out ∧ out.length = ws.length ∧
      ∀ p, out.getD p 0 = overwritten ws
        (Digits.shiftLeftBits (m % 64) (words s) (Word.low (m % 64) (ws.getD (m / 64) 0)))
        n m p := by
  have hfirst : (m : Int) / 64 = (m / 64 : Nat) := by omega
  have hlast : ((n : Int) + 1) / 64 = ((n + 1) / 64 : Nat) := by omega
  have hcount :
      (((n + 1) / 64 : Nat) - (m / 64 : Nat) : Int).toNat = (n + 1) / 64 - m / 64 := by omega
  have hwords : (words s).length = (n - m + 64) / 64 := by
    rw [length_words hs (by omega), hsize, wordCount]
  have hsource : (n + 1) / 64 - m / 64 ≤ (words s).length := by omega
  have hroom : m / 64 + ((n + 1) / 64 - m / 64) ≤ ws.length := by
    rw [hlength, wordCount]
    omega
  obtain ⟨c, out, hwrite, hout, hplaces, hcarry⟩ :=
    writeShifted_spec hsource hroom
  have hfilled : writeFilled (m % 64) ((n + 1) / 64 - m / 64) (m / 64 : Nat) (words s) ws = _ :=
    (writeFilled_eq (Nat.mod_lt m (by decide)) (by rw [hlength, wordCount]; omega) _ _).trans hwrite
  have hend : m / 64 + ((n + 1) / 64 - m / 64) = (n + 1) / 64 := by omega
  rw [hend] at hplaces
  simp only [updateWordRange, width_guard hmn hsize, hfirst, hlast, hcount, sourceWords_eq hs]
  change ∃ o, (do
    let r ← writeFilled (m % 64) ((n + 1) / 64 - m / 64) (m / 64 : Nat) (words s) ws
    if ((n + 1) % 64 == 0) = true then mkWide w r.2.2
      else mkWide w (← writeEnd (m % 64) ((n + 1) % 64) ((n + 1) / 64 : Nat) r.1 r.2.1 r.2.2)) = _ ∧
      _
  rw [hfilled]
  change ∃ o, (if ((n + 1) % 64 == 0) = true then mkWide w out
    else do mkWide w (← writeEnd (m % 64) ((n + 1) % 64) ((n + 1) / 64 : Nat) c
      ((words s).drop ((n + 1) / 64 - m / 64)) out)) = _ ∧ _
  split_ifs with hzero
  · rw [beq_iff_eq] at hzero
    refine ⟨out, rfl, hout, fun p => ?_⟩
    rw [hplaces, overwritten]
    simp only [hzero, ne_eq, not_true_eq_false, and_false, if_false]
  · rw [beq_iff_eq] at hzero
    have hin : (n + 1) / 64 < out.length := by
      rw [hout, hlength, wordCount]
      omega
    have hrest : (words s).drop ((n + 1) / 64 - m / 64) ≠ [] ↔ m % 64 < (n + 1) % 64 := by
      rw [ne_eq, List.drop_eq_nil_iff]
      omega
    rw [writeEnd_eq hin c hrest, hcarry]
    refine ⟨_, rfl, by rw [List.length_set, hout], fun p => ?_⟩
    rw [getD_set hin, overwritten]
    by_cases hp : p = (n + 1) / 64
    · have hdrop (ys : List UInt64) (k : Nat) : (ys.drop k).getD 0 0 = ys.getD k 0 := by
        simp [List.getD_eq_getElem?_getD]
      rw [if_pos hp, hplaces, if_neg (by omega), hdrop, if_neg (by omega), if_pos ⟨hp, hzero⟩, hp]
    · rw [if_neg hp, hplaces]
      simp only [hp, false_and, if_false]

/-- The bits of a number with those from `m` to `n` replaced by the lowest ones of another. -/
def replacedBits (x : Nat) (n m : Nat) (y : Nat) (k : Nat) : Bool :=
  if m ≤ k ∧ k ≤ n then y.testBit (k - m) else x.testBit k

theorem replacedBits_of_le {x y k : Nat} (hx : x < 2 ^ w) (hn : n < w) (hk : w ≤ k) :
    replacedBits x n m y k = false := by
  unfold replacedBits
  rw [if_neg (by omega)]
  exact Nat.testBit_lt_two_pow (hx.trans_le (Nat.pow_le_pow_right (by decide) hk))

/-- The content that has been shifted stands above the bits that are kept below it. -/
theorem testBit_content {ys : List UInt64} {y k : Nat}
    (hys : wordsToNat ys = y * 2 ^ (m % 64) + (ws.getD (m / 64) 0).toNat % 2 ^ (m % 64))
    (hp : m / 64 ≤ k / 64) :
    (ys.getD (k / 64 - m / 64) 0).toNat.testBit (k % 64) =
      if m ≤ k then y.testBit (k - m) else (ws.getD (k / 64) 0).toNat.testBit (k % 64) := by
  have hkept : (ws.getD (m / 64) 0).toNat % 2 ^ (m % 64) < 2 ^ (m % 64) :=
    Nat.mod_lt _ (by positivity)
  have hbit := testBit_wordsToNat ys (k - 64 * (m / 64))
  rw [show (k - 64 * (m / 64)) / 64 = k / 64 - m / 64 by omega,
    show (k - 64 * (m / 64)) % 64 = k % 64 by omega] at hbit
  rw [← hbit, hys, mul_comm, Nat.testBit_two_pow_mul_add _ hkept]
  split
  · rename_i hlow
    rw [Nat.testBit_mod_two_pow, decide_eq_true hlow, Bool.true_and, if_neg (by omega),
      show k - 64 * (m / 64) = k % 64 by omega, show m / 64 = k / 64 by omega]
  · rw [if_pos (by omega), show k - 64 * (m / 64) - m % 64 = k - m by omega]

theorem testBit_updated {out ys : List UInt64} {y : Nat} (hy : y < 2 ^ (n - m + 1)) (hmn : m ≤ n)
    (hys : wordsToNat ys = y * 2 ^ (m % 64) + (ws.getD (m / 64) 0).toNat % 2 ^ (m % 64))
    (hout : ∀ p, out.getD p 0 = overwritten ws ys n m p) (k : Nat) :
    (wordsToNat out).testBit k = replacedBits (wordsToNat ws) n m y k := by
  have hmod : k % 64 < 64 := Nat.mod_lt k (by decide)
  have hcontent (hp : m / 64 ≤ k / 64) := testBit_content hys hp
  unfold replacedBits
  rw [testBit_wordsToNat, testBit_wordsToNat, hout, overwritten]
  split
  · rename_i hp
    rw [hcontent hp.1]
    have hin : (m ≤ k ∧ k ≤ n) ↔ m ≤ k := by omega
    simp only [hin]
  · split
    · have hkeep : (~~~(Word.shl 1 ((n + 1) % 64) - 1)).toNat.testBit (k % 64) =
          !decide (k % 64 < (n + 1) % 64) := by
        rw [Word.testBit_not, Word.toNat_shl_one_sub_one (by omega), Nat.testBit_two_pow_sub_one,
          decide_eq_true hmod, Bool.true_and]
      rw [UInt64.toNat_or, Nat.testBit_or, UInt64.toNat_and, Nat.testBit_and, hkeep,
        hcontent (by omega)]
      rcases Nat.lt_or_ge (k % 64) ((n + 1) % 64) with hhigh | hhigh
      · have hin : (m ≤ k ∧ k ≤ n) ↔ m ≤ k := by omega
        simp only [hin, decide_eq_true hhigh, Bool.not_true, Bool.and_false, Bool.false_or]
      · have hclear : y.testBit (k - m) = false :=
          Nat.testBit_lt_two_pow (hy.trans_le (Nat.pow_le_pow_right (by decide) (by omega)))
        rw [if_pos (by omega), if_neg (by omega), hclear, decide_eq_false (Nat.not_lt.mpr hhigh),
          Bool.not_false, Bool.and_true, Bool.or_false]
    · rw [if_neg (by omega)]

theorem hasBits_updateWordRange (hw : 64 < w) (hlength : ws.length = wordCount w)
    (hlt : wordsToNat ws < 2 ^ w) (hs : s.WellFormed) (hmn : m ≤ n) (hn : n < w)
    (hsize : s.width = n - m + 1) :
    HasBits (updateWordRange w ws n m s) w (replacedBits (wordsToNat ws) n m s.toNat) := by
  obtain ⟨out, hupdate, hout, hplaces⟩ := exists_updateWordRange hlength hs hmn hn hsize
  have hlow : (Word.low (m % 64) (ws.getD (m / 64) 0)).toNat < 2 ^ (m % 64) := by
    rw [Word.toNat_low]
    exact Nat.mod_lt _ (by positivity)
  have hys := Digits.wordsToNat_shiftLeftBits (Nat.mod_lt m (show 64 > 0 by decide)) (words s) hlow
  rw [wordsToNat_words, Word.toNat_low] at hys
  have hbits := testBit_updated (hsize ▸ hs.toNat_lt) hmn hys hplaces
  have hf (k : Nat) (hk : w ≤ k) : replacedBits (wordsToNat ws) n m s.toNat k = false :=
    replacedBits_of_le hlt hn hk
  rw [hupdate]
  apply (makes_mkWide hw (hout.trans hlength) ?_).hasBits (fun k _ => hbits k) hf
  exact Nat.lt_pow_two_of_testBit _ fun k hk => by rw [hbits, hf k hk]

/-! ### Updating words -/

/-- A word with a hole for the new content, into which the content is put. -/
theorem testBit_patched {v x hole : UInt64} {room k : Nat} (hhole : hole.toNat = 2 ^ room - 1)
    (hmn : m ≤ n) (hx : x.toNat < 2 ^ (n - m + 1)) (hk : k < 64)
    (hroom : m ≤ k → (k - m < room ↔ k ≤ n)) :
    ((v &&& ~~~(Word.shl hole m)) ||| Word.shl x m).toNat.testBit k =
      replacedBits v.toNat n m x.toNat k := by
  rw [UInt64.toNat_or, Nat.testBit_or, UInt64.toNat_and, Nat.testBit_and, Word.testBit_not,
    Word.testBit_shl, Word.testBit_shl, hhole, Nat.testBit_two_pow_sub_one]
  unfold replacedBits
  by_cases hm : m ≤ k
  · by_cases hn : k ≤ n
    · simp [hk, hm, hn, hroom]
    · have hclear : x.toNat.testBit (k - m) = false :=
        Nat.testBit_lt_two_pow (hx.trans_le (Nat.pow_le_pow_right (by decide) (by omega)))
      simp [hk, hn, hroom hm, hclear]
  · simp [hk, hm]

/-- A vector as wide as the whole is the result itself. -/
theorem hasBits_whole (ha : a.WellFormed) (hs : s.WellFormed) (hwidth : s.width = a.width)
    (hmn : m ≤ n) (hn : n < a.width) (hsize : s.width = n - m + 1) :
    HasBits (.ok s) a.width (replacedBits a.toNat n m s.toNat) := by
  refine ⟨s, rfl, hs, hwidth, fun k => ?_⟩
  have hlt := ha.toNat_lt
  have hlt' := hs.toNat_lt
  unfold replacedBits
  split
  · rw [show m = 0 by omega, Nat.sub_zero]
  · rw [Nat.testBit_lt_two_pow (hlt.trans_le (Nat.pow_le_pow_right (by decide) (by omega))),
      Nat.testBit_lt_two_pow (hlt'.trans_le (Nat.pow_le_pow_right (by decide) (by omega)))]

/-- The word of a content that fits one. -/
theorem exists_toUnsigned (hs : s.WellFormed) (hsmall : s.width ≤ 64) :
    ∃ x, toUnsigned s 0 = .ok x ∧ s.toNat = x.toNat := by
  cases s with
  | small u x => exact ⟨x, rfl, rfl⟩
  | sparse u x => exact absurd hs (Nat.not_lt.mpr hsmall)
  | wide u xs => exact absurd hs.1 (Nat.not_lt.mpr hsmall)

theorem hasBits_updateSubrange_small {v : UInt64} (ha : (small w v).WellFormed) (hs : s.WellFormed)
    (hmn : m ≤ n) (hn : n < w) (hsize : s.width = n - m + 1) :
    HasBits (updateSubrange (small w v) n m s) w (replacedBits v.toNat n m s.toNat) := by
  have hw := ha.1
  have hle : ¬ s.width > w := by omega
  simp only [updateSubrange, hle, width_guard hmn hsize, Word.shiftLeft_eq]
  change HasBits (if (s.width == w) = true then _ else _) _ _
  split
  · rename_i hsame
    exact hasBits_whole ha hs (beq_iff_eq.mp hsame) hmn hn hsize
  · obtain ⟨x, hunsigned, hvalue⟩ := exists_toUnsigned hs (by omega)
    have hlt := hs.toNat_lt
    rw [hvalue, hsize] at hlt
    rw [hunsigned, hvalue]
    apply (makes_mkMasked hw _).hasBits
    · intro k _
      rcases Nat.lt_or_ge k 64 with hk | hk
      · exact testBit_patched (Word.toNat_shl_one_sub_one (by omega)) hmn hlt hk (by omega)
      · rw [Word.testBit_of_le hk, replacedBits_of_le ha.2 hn (by omega)]
    · intro k hk
      exact replacedBits_of_le ha.2 hn hk

/-- How many bits of a content of a width that starts at bit `m` go into the first word. -/
theorem exists_room (hmn : m ≤ n) (hm : m < 64) (hsize : w = n - m + 1) (hw : w ≤ 64) :
    ∃ room : Nat, (if (n : Int) ≥ 64 then 64 - (m : Int) else w) = room ∧ room ≤ 64 ∧
      (∀ k < 64, m ≤ k → (k - m < room ↔ k ≤ n)) ∧ (64 ≤ n → room = 64 - m) := by
  rcases Nat.lt_or_ge n 64 with hend | hend
  · exact ⟨w, if_neg (by omega), hw, fun k hk hm => by omega, fun h => by omega⟩
  · refine ⟨64 - m, ?_, by omega, fun k hk hm => by omega, fun _ => rfl⟩
    omega

/-- A sparse vector is patched in its one word if nothing of the content lies above it. -/
theorem hasBits_patched {v x : UInt64} {room : Nat} (hw : 64 < w) (hmn : m ≤ n) (hn : n < w)
    (hx : x.toNat < 2 ^ (n - m + 1)) (hroom : room ≤ 64)
    (hin : ∀ k < 64, m ≤ k → (k - m < room ↔ k ≤ n)) (hrest : 64 ≤ n → x.toNat < 2 ^ (64 - m)) :
    HasBits (.ok (sparse w ((v &&& ~~~(Word.shl (Word.low room (0 - 1)) m)) ||| Word.shl x m))) w
      (replacedBits v.toNat n m x.toNat) := by
  apply Makes.hasBits (makes_ok (b := sparse w _) hw)
  · intro k _
    rcases Nat.lt_or_ge k 64 with hk | hk
    · exact testBit_patched (Word.toNat_low_ones hroom) hmn hx hk (hin k hk)
    · rw [toNat, Word.testBit_of_le hk]
      unfold replacedBits
      split_ifs with hrange
      · have hlt := (hrest (by omega)).trans_le
          (Nat.pow_le_pow_right (by decide) (Nat.sub_le_sub_right hk m))
        exact (Nat.testBit_lt_two_pow hlt).symm
      · exact (Word.testBit_of_le hk v).symm
  · intro k hk
    exact replacedBits_of_le (Word.toNat_lt_two_pow (Nat.le_of_lt hw) v) hn hk

theorem hasBits_updateSubrange_sparse {v : UInt64} (ha : (sparse w v).WellFormed)
    (hs : s.WellFormed) (hmn : m ≤ n) (hn : n < w) (hsize : s.width = n - m + 1) :
    HasBits (updateSubrange (sparse w v) n m s) w (replacedBits v.toNat n m s.toNat) := by
  have hle : ¬ s.width > w := by omega
  obtain ⟨hw, hlength, hlt⟩ := ha.wide_words ha
  have hlist := hasBits_updateWordRange hw hlength hlt hs hmn hn hsize
  rw [wordsToNat_words] at hlist
  simp only [updateSubrange, hle, width_guard hmn hsize, Word.shiftLeft_eq]
  change HasBits (if (s.width == w) = true then _ else _) _ _
  split
  · rename_i hsame
    exact hasBits_whole ha hs (beq_iff_eq.mp hsame) hmn hn hsize
  · change HasBits (if (decide (s.width > 64) || decide ((m : Int) > 63)) = true then _ else _) _ _
    split
    · exact hlist
    · rename_i hfits
      rw [Bool.or_eq_true, decide_eq_true_iff, decide_eq_true_iff] at hfits
      obtain ⟨x, hunsigned, hvalue⟩ := exists_toUnsigned hs (by omega)
      obtain ⟨room, hroom, hle64, hin, hout⟩ := exists_room hmn (by omega) hsize (by omega)
      have hlt := hs.toNat_lt
      rw [hvalue, hsize] at hlt
      rw [hunsigned, hvalue]
      simp only [hroom, Word.shiftRight_eq, Word.mask_eq hle64]
      change HasBits (if (decide ((n : Int) ≥ 64) && Word.shr x room != 0) = true then _ else
        .ok (sparse w ((v &&& ~~~(Word.shl (Word.low room (0 - 1)) m)) ||| Word.shl x m))) _ _
      split_ifs with hrest
      · exact hvalue ▸ hlist
      · rw [Bool.and_eq_true, decide_eq_true_iff, bne_iff_ne, not_and, not_not] at hrest
        refine hasBits_patched ha hmn hn hlt hle64 hin fun hend => ?_
        have hzero := congrArg UInt64.toNat (hrest (by omega))
        rw [Word.toNat_shr, UInt64.toNat_zero, Nat.div_eq_zero_iff_lt (by positivity)] at hzero
        rwa [hout hend] at hzero

theorem hasBits_updateSubrange (ha : a.WellFormed) (hs : s.WellFormed) (hmn : m ≤ n)
    (hn : n < a.width) (hsize : s.width = n - m + 1) :
    HasBits (updateSubrange a n m s) a.width (replacedBits a.toNat n m s.toNat) := by
  cases a with
  | small w v => exact hasBits_updateSubrange_small ha hs hmn hn hsize
  | sparse w v => exact hasBits_updateSubrange_sparse ha hs hmn hn hsize
  | wide w ws =>
    rw [toNat_wide]
    exact hasBits_updateWordRange ha.1 ha.2.1 ha.2.2 hs hmn hn hsize

/-! ### Every form -/

/-- A range of a vector has the bits of the vector, and after an update the vector has the bits of
the new content in the range and its own bits everywhere else. -/
theorem range_exact (ha : a.WellFormed) (hmn : m ≤ n) (hn : n < a.width) :
    (∃ b, subrange a n m = .ok b ∧ b.WellFormed ∧ b.width = n - m + 1 ∧
      ∀ k ≤ n - m, b.toNat.testBit k = a.toNat.testBit (m + k)) ∧
    ∀ s : Bits, s.WellFormed → s.width = n - m + 1 →
      ∃ b, updateSubrange a n m s = .ok b ∧ b.WellFormed ∧ b.width = a.width ∧
        (∀ k ≤ n - m, b.toNat.testBit (m + k) = s.toNat.testBit k) ∧
          ∀ k, k < m ∨ n < k → b.toNat.testBit k = a.toNat.testBit k := by
  constructor
  · obtain ⟨b, hb, hwell, hwidth, hvalue⟩ := makes_subrange ha hmn hn
    refine ⟨b, hb, hwell, hwidth, fun k hk => ?_⟩
    have hvalue' : b.toNat = a.toNat / 2 ^ m % 2 ^ (n - m + 1) := by exact_mod_cast hvalue
    rw [hvalue', Nat.testBit_mod_two_pow, Nat.testBit_div_two_pow, decide_eq_true (by omega),
      Bool.true_and, Nat.add_comm]
  · intro s hs hsize
    obtain ⟨b, hb, hwell, hwidth, hbits⟩ := hasBits_updateSubrange ha hs hmn hn hsize
    refine ⟨b, hb, hwell, hwidth, fun k hk => ?_, fun k hk => ?_⟩
    · rw [hbits, replacedBits, if_pos (by omega), Nat.add_sub_cancel_left]
    · rw [hbits, replacedBits, if_neg (by omega)]

/-- A content of two words that goes over a word boundary of a sparse vector. -/
theorem range_exact_sparse :
    let a := sparse 200 0xf0f0f0f0f0f0f0f0
    let s := wide 81 [0xffffffffffffffff, 0x12345]
    (a.WellFormed ∧ 140 < a.width ∧ s.WellFormed ∧ s.width = 140 - 60 + 1) ∧
    (∃ b, subrange a (140 : Nat) (60 : Nat) = .ok b ∧ b.WellFormed ∧ b.width = 140 - 60 + 1 ∧
      ∀ k ≤ 140 - 60, b.toNat.testBit k = a.toNat.testBit (60 + k)) ∧
    ∃ b, updateSubrange a (140 : Nat) (60 : Nat) s = .ok b ∧ b.WellFormed ∧ b.width = a.width ∧
      (∀ k ≤ 140 - 60, b.toNat.testBit (60 + k) = s.toNat.testBit k) ∧
        ∀ k, k < 60 ∨ 140 < k → b.toNat.testBit k = a.toNat.testBit k := by
  intro a s
  have hexact := range_exact (show a.WellFormed by decide) (show 60 ≤ 140 by decide) (by decide)
  exact ⟨by decide, hexact.1, hexact.2 s (by decide) rfl⟩

end Jib.Bits
