import Jib.Memory.Flat
import Jib.Proofs.Word
import Mathlib.Algebra.BigOperators.Intervals

/-!
# Bytes of words

A memory keeps words, and an access covers some bytes of one word.  Here a store of bytes is a
function from addresses to bytes.  An aligned access reads from the word that it lies in the number
that its bytes spell, lowest byte first, and a written word spells the bytes of the value where the
access covers it and the old bytes elsewhere.
-/

namespace Jib

open Finset

/-- The sizes that an access may have. -/
def IsSize (n : Nat) : Prop := n = 1 ∨ n = 2 ∨ n = 4 ∨ n = 8

instance (n : Nat) : Decidable (IsSize n) := inferInstanceAs (Decidable (_ ∨ _))

/-- A byte of a word, counted from the lowest one. -/
def byteOf (w : UInt64) (i : Nat) : Nat := w.toNat / 256 ^ i % 256

/-- The number that `n` bytes from an address on spell, lowest byte first. -/
def littleEndian (bytes : UInt64 → Nat) (a : UInt64) (n : Nat) : Nat :=
  ∑ i ∈ range n, bytes (a + UInt64.ofNat i) * 256 ^ i

/-- A store of bytes after `n` bytes of a value were written at an address. -/
def overwritten (bytes : UInt64 → Nat) (a : UInt64) (n : Nat) (v : UInt64) : UInt64 → Nat :=
  fun x => if (x - a).toNat < n then byteOf v (x - a).toNat else bytes x

/-- The store of bytes in words; `content` gives the word that an address lies in. -/
def bytesIn (content : UInt64 → UInt64) : UInt64 → Nat := fun a => byteOf (content a) (a.toNat % 8)

variable {a x : UInt64} {n : Nat} {i : Nat} {bytes : UInt64 → Nat} {inWord v : UInt64}
variable {after content : UInt64 → UInt64} {word : Result UInt64}

/-! ### Addresses -/

theorem Place.toNat_word (a : UInt64) : (Place.ofAddress a).word.toNat = a.toNat / 8 := by
  exact Nat.shiftRight_eq_div_pow a.toNat 3

theorem Place.toNat_byte (a : UInt64) : (Place.ofAddress a).byte.toNat = a.toNat % 8 := by
  exact Nat.and_two_pow_sub_one_eq_mod a.toNat 3

theorem toNat_add_sub (hi : i < 2 ^ 64) : (a + UInt64.ofNat i - a).toNat = i := by
  rw [show a + UInt64.ofNat i - a = UInt64.ofNat i by grind]
  exact UInt64.toNat_ofNat_of_lt' hi

theorem toNat_sub_add_one (x a : UInt64) :
    (x - (a + 1)).toNat = (2 ^ 64 - 1 + (x - a).toNat) % 2 ^ 64 := by
  rw [show x - (a + 1) = x - a - 1 by grind]
  rfl

/-- An aligned access lies in one word. -/
theorem IsSize.room (hn : IsSize n) (ha : a.toNat % n = 0) : a.toNat % 8 + n ≤ 8 := by
  rcases hn with rfl | rfl | rfl | rfl <;> omega

theorem IsSize.pos (hn : IsSize n) : 0 < n := by
  rcases hn with rfl | rfl | rfl | rfl <;> decide

theorem IsSize.le_eight (hn : IsSize n) : n ≤ 8 := by
  rcases hn with rfl | rfl | rfl | rfl <;> decide

theorem IsSize.add_sub_lt (hn : IsSize n) (hi : i < n) : (a + UInt64.ofNat i - a).toNat < n := by
  have hle := hn.le_eight
  rwa [toNat_add_sub (by omega)]

theorem IsSize.toNat_add (hn : IsSize n) (ha : a.toNat % n = 0) (hi : i < n) :
    (a + UInt64.ofNat i).toNat = a.toNat + i := by
  have hroom := hn.room ha
  have hlt := a.toNat_lt
  rw [UInt64.toNat_add, UInt64.toNat_ofNat', Nat.add_mod_mod, Nat.mod_eq_of_lt (by omega)]

/-- What an aligned access covers lies in its word, and nothing else of the word does. -/
theorem IsSize.sub_lt_iff (hn : IsSize n) (ha : a.toNat % n = 0) :
    (x - a).toNat < n ↔ x.toNat / 8 = a.toNat / 8 ∧ a.toNat % 8 ≤ x.toNat % 8 ∧
      x.toNat % 8 < a.toNat % 8 + n := by
  have hroom := hn.room ha
  have hlt := a.toNat_lt
  have hx := x.toNat_lt
  rw [UInt64.toNat_sub]
  omega

/-! ### Stores of bytes -/

theorem byteOf_lt (w : UInt64) (i : Nat) : byteOf w i < 256 := Nat.mod_lt _ (by decide)

theorem littleEndian_one (bytes : UInt64 → Nat) (a : UInt64) :
    littleEndian bytes a 1 = bytes a := by
  unfold littleEndian
  rw [sum_range_one, pow_zero, mul_one]
  exact congrArg bytes (UInt64.add_zero a)

theorem littleEndian_succ (bytes : UInt64 → Nat) (a : UInt64) (n : Nat) :
    littleEndian bytes a (n + 1) = littleEndian bytes a n + bytes (a + UInt64.ofNat n) * 256 ^ n :=
  sum_range_succ _ n

theorem littleEndian_lt (hbytes : ∀ x, bytes x < 256) (a : UInt64) (n : Nat) :
    littleEndian bytes a n < 256 ^ n := by
  induction n with
  | zero => exact Nat.one_pos
  | succ n ih =>
    have hlast := Nat.mul_le_mul_right (256 ^ n) (Nat.le_of_lt_succ (hbytes (a + UInt64.ofNat n)))
    rw [littleEndian_succ]
    omega

theorem littleEndian_div_mod (hbytes : ∀ x, bytes x < 256) (a : UInt64) (hi : i < n) :
    littleEndian bytes a n / 256 ^ i % 256 = bytes (a + UInt64.ofNat i) := by
  induction n with
  | zero => exact absurd hi (Nat.not_lt_zero i)
  | succ n ih =>
    rw [littleEndian_succ]
    rcases Nat.lt_succ_iff_lt_or_eq.mp hi with hlt | rfl
    · -- the last byte stands above this one
      obtain ⟨d, rfl⟩ := Nat.exists_eq_add_of_lt hlt
      have hsplit : bytes (a + UInt64.ofNat (i + d + 1)) * 256 ^ (i + d + 1) =
          256 ^ i * (256 * (bytes (a + UInt64.ofNat (i + d + 1)) * 256 ^ d)) := by
        rw [pow_succ, pow_add]
        ac_rfl
      rw [hsplit, Nat.add_mul_div_left _ _ (Nat.pow_pos (by decide)), Nat.add_mul_mod_self_left,
        ih hlt]
    · rw [Nat.add_mul_div_right _ _ (Nat.pow_pos (by decide)),
        Nat.div_eq_of_lt (littleEndian_lt hbytes a i), Nat.zero_add, Nat.mod_eq_of_lt (hbytes _)]

/-- Bytes may be counted from another address. -/
theorem littleEndian_sub {part : UInt64 → Nat} {base : UInt64}
    (h : ∀ i < n, bytes (a + UInt64.ofNat i) = part (a + UInt64.ofNat i - base)) :
    littleEndian bytes a n = littleEndian part (a - base) n := by
  apply sum_congr rfl
  intro i hi
  rw [h i (mem_range.mp hi), show a + UInt64.ofNat i - base = a - base + UInt64.ofNat i by grind]

/-- Writing what is there changes no byte. -/
theorem overwritten_self (hbytes : ∀ x, bytes x < 256) (hv : v.toNat = littleEndian bytes a n) :
    overwritten bytes a n v = bytes := by
  funext x
  unfold overwritten
  split_ifs with hx
  · unfold byteOf
    rw [hv, littleEndian_div_mod hbytes a hx, UInt64.ofNat_toNat, show a + (x - a) = x by grind]
  · rfl

section Part

variable {p : UInt64 → Prop} [DecidablePred p] (f g : UInt64 → Nat) (base v : UInt64)

/-- In the part of a store that an access lies in, bytes may be counted from another address. -/
theorem overwritten_part (h : ∀ x, (x - a).toNat < n → p x) :
    (fun x => if p x then overwritten f (a - base) n v (x - base) else g x) =
      overwritten (fun x => if p x then f (x - base) else g x) a n v := by
  funext x
  unfold overwritten
  rw [show x - base - (a - base) = x - a by grind]
  by_cases hx : (x - a).toNat < n
  · rw [if_pos (h x hx), if_pos hx, if_pos hx]
  · rw [if_neg hx, if_neg hx]

theorem overwritten_rest (h : ∀ x, (x - a).toNat < n → ¬p x) :
    (fun x => if p x then g x else overwritten f (a - base) n v (x - base)) =
      overwritten (fun x => if p x then g x else f (x - base)) a n v := by
  simp only [← ite_not (p _)]
  exact overwritten_part f g base v h

end Part

/-- A value may be written byte by byte, the lowest byte first. -/
theorem overwritten_succ (bytes : UInt64 → Nat) (a : UInt64) (hn : n < 8) (v : UInt64) :
    overwritten (overwritten bytes a 1 (v &&& 0xff)) (a + 1) n (v >>> 8) =
      overwritten bytes a (n + 1) v := by
  have hlow : byteOf (v &&& 0xff) 0 = byteOf v 0 := by
    unfold byteOf
    rw [UInt64.toNat_and, show (0xff : UInt64).toNat = 2 ^ 8 - 1 from rfl,
      Nat.and_two_pow_sub_one_eq_mod]
    omega
  have hhigh (d : Nat) : byteOf (v >>> 8) d = byteOf v (d + 1) := by
    unfold byteOf
    rw [UInt64.toNat_shiftRight, show (8 : UInt64).toNat % 64 = 8 from rfl,
      Nat.shiftRight_eq_div_pow, Nat.div_div_eq_div_mul, ← pow_succ']
  funext x
  have hlt := (x - a).toNat_lt
  unfold overwritten
  rw [toNat_sub_add_one]
  rcases Nat.eq_zero_or_pos (x - a).toNat with hzero | hpos
  · rw [hzero, if_neg (by omega), if_pos (by decide), if_pos (by omega), hlow]
  · obtain ⟨d, hd⟩ := Nat.exists_eq_succ_of_ne_zero hpos.ne'
    have hprevious : (2 ^ 64 - 1 + d.succ) % 2 ^ 64 = d := by omega
    rw [hd, hprevious, hhigh, if_neg (show ¬ d.succ < 1 by omega)]
    simp only [Nat.succ_eq_add_one, Nat.add_lt_add_iff_right]

/-! ### Parts of words -/

theorem pow_bytes (n : Nat) : 256 ^ n = 2 ^ (8 * n) := (pow_mul 2 8 n).symm

theorem testBit_byteOf (w : UInt64) (i k : Nat) :
    (byteOf w i).testBit k = (decide (k < 8) && w.toNat.testBit (8 * i + k)) := by
  unfold byteOf
  rw [pow_bytes, show 256 = 2 ^ 8 from rfl, Nat.testBit_mod_two_pow, Nat.testBit_div_two_pow,
    Nat.add_comm]

theorem toNat_accessMask (hn : n ≤ 8) : (accessMask n).toNat = 2 ^ (8 * n) - 1 := by
  unfold accessMask
  rw [Word.toNat_shl_one_sub_one (by omega), Nat.mul_comm]

theorem fitsAccess_iff (hn : n ≤ 8) (v : UInt64) : fitsAccess n v = true ↔ v.toNat < 256 ^ n := by
  unfold fitsAccess
  rw [pow_bytes, Bool.or_eq_true, beq_iff_eq, beq_iff_eq, ← UInt64.toNat_inj, UInt64.toNat_and,
    UInt64.toNat_zero]
  constructor
  · rintro (rfl | hzero)
    · exact v.toNat_lt
    · apply Nat.lt_pow_two_of_testBit
      intro k hk
      rcases Nat.lt_or_ge k 64 with hk' | hk'
      · have hbit : (v.toNat &&& (~~~accessMask n).toNat).testBit k = false := by
          rw [hzero, Nat.zero_testBit]
        rw [Nat.testBit_and, Word.testBit_not, toNat_accessMask hn, Nat.testBit_two_pow_sub_one]
          at hbit
        simpa [hk', Nat.not_lt.mpr hk] using hbit
      · exact Word.testBit_of_le hk' v
  · intro hlt
    right
    apply Nat.eq_of_testBit_eq
    intro k
    rw [Nat.testBit_and, Word.testBit_not, toNat_accessMask hn, Nat.testBit_two_pow_sub_one]
    rcases Nat.lt_or_ge k (8 * n) with hk | hk
    · simp [hk]
    · simp [Nat.testBit_lt_two_pow (hlt.trans_le (Nat.pow_le_pow_right (by decide) hk))]

/-- The bytes of a word from one on, read as one number. -/
theorem sum_byteOf (w : UInt64) (k n : Nat) :
    ∑ i ∈ range n, byteOf w (k + i) * 256 ^ i = w.toNat / 256 ^ k % 256 ^ n := by
  induction n with
  | zero => simp [Nat.mod_one]
  | succ n ih =>
    rw [sum_range_succ, ih, Nat.mod_pow_succ]
    unfold byteOf
    rw [Nat.div_div_eq_div_mul, ← pow_add, Nat.mul_comm]

theorem byteOf_ext {w u : UInt64} (h : ∀ i < 8, byteOf w i = byteOf u i) : w = u := by
  have hsum (w : UInt64) : w.toNat = ∑ i ∈ range 8, byteOf w (0 + i) * 256 ^ i := by
    rw [sum_byteOf, pow_zero, Nat.div_one]
    exact (Nat.mod_eq_of_lt w.toNat_lt).symm
  apply UInt64.toNat_inj.mp
  rw [hsum, hsum]
  apply sum_congr rfl
  intro i hi
  rw [Nat.zero_add, h i (mem_range.mp hi)]

section

variable (hn : n ≤ 8) (hroom : inWord.toNat + n ≤ 8)
include hn hroom

theorem toNat_readPart (w : UInt64) :
    (readPart n inWord w).toNat = w.toNat / 256 ^ inWord.toNat % 256 ^ n := by
  unfold readPart
  split_ifs with height
  · obtain rfl := beq_iff_eq.mp height
    have hzero : inWord.toNat = 0 := by omega
    rw [hzero, pow_zero, Nat.div_one]
    exact (Nat.mod_eq_of_lt w.toNat_lt).symm
  · rw [UInt64.toNat_and, Word.toNat_shr, toNat_accessMask hn, Nat.and_two_pow_sub_one_eq_mod,
      pow_bytes, pow_bytes, Nat.mul_comm 8 inWord.toNat]

/-- A written word has the bits of the value where the access covers it. -/
theorem testBit_writePart (old : UInt64) (hv : v.toNat < 256 ^ n) (k : Nat) :
    (writePart n inWord old v).toNat.testBit k =
      if 8 * inWord.toNat ≤ k ∧ k < 8 * (inWord.toNat + n)
      then v.toNat.testBit (k - 8 * inWord.toNat) else old.toNat.testBit k := by
  unfold writePart
  split
  · rename_i height
    obtain rfl := beq_iff_eq.mp height
    have hzero : inWord.toNat = 0 := by omega
    rw [hzero]
    split_ifs with hout
    · rfl
    · rw [Word.testBit_of_le (by omega), Word.testBit_of_le (by omega)]
  · rw [UInt64.toNat_or, Nat.testBit_or, UInt64.toNat_and, Nat.testBit_and, Word.testBit_not,
      Word.testBit_shl, Word.testBit_shl, toNat_accessMask hn, Nat.testBit_two_pow_sub_one,
      Nat.mul_comm]
    split_ifs with hin
    · simp [hin.1, show k < 64 by omega, show k - 8 * inWord.toNat < 8 * n by omega]
    · rcases Nat.lt_or_ge k 64 with hlt | hge
      · rcases Nat.lt_or_ge k (8 * inWord.toNat) with hbelow | habove
        · simp [hlt, Nat.not_le.mpr hbelow]
        · -- the value has no bits above the access
          have hfar : 8 * n ≤ k - 8 * inWord.toNat := by omega
          have hzero : v.toNat.testBit (k - 8 * inWord.toNat) = false := by
            apply Nat.testBit_lt_two_pow
            exact (pow_bytes n ▸ hv).trans_le (Nat.pow_le_pow_right (by decide) hfar)
          simp [hlt, hzero, Nat.not_lt.mpr hfar]
      · simp [Nat.not_lt.mpr hge, Word.testBit_of_le hge]

theorem byteOf_writePart (old : UInt64) (hv : v.toNat < 256 ^ n) (j : Nat) :
    byteOf (writePart n inWord old v) j =
      if inWord.toNat ≤ j ∧ j < inWord.toNat + n then byteOf v (j - inWord.toNat)
      else byteOf old j := by
  apply Nat.eq_of_testBit_eq
  intro k
  rw [testBit_byteOf, testBit_writePart hn hroom old hv]
  rcases Nat.lt_or_ge k 8 with hk | hk
  · split
    · have hposition : 8 * j + k - 8 * inWord.toNat = 8 * (j - inWord.toNat) + k := by omega
      rw [if_pos (by omega), testBit_byteOf, hposition]
    · rw [if_neg (by omega), testBit_byteOf]
  · have hpow : 2 ^ 8 ≤ 2 ^ k := Nat.pow_le_pow_right (by decide) hk
    have hnone (w : UInt64) (i : Nat) : (byteOf w i).testBit k = false :=
      Nat.testBit_lt_two_pow ((byteOf_lt w i).trans_le hpow)
    rw [decide_eq_false (Nat.not_lt.mpr hk), Bool.false_and]
    split <;> rw [hnone]

end

/-! ### Aligned accesses -/

/-- Whether two addresses lie in one word is all that the word of an address depends on. -/
def ByWord (content : UInt64 → UInt64) : Prop :=
  ∀ x y : UInt64, x.toNat / 8 = y.toNat / 8 → content x = content y

/-- A word that changes does so in one of its bytes. -/
theorem exists_byte_ne (hcontent : ByWord content) (hafter : ByWord after)
    (hne : after a ≠ content a) :
    ∃ x : UInt64, x.toNat / 8 = a.toNat / 8 ∧ bytesIn after x ≠ bytesIn content x := by
  by_contra! hall
  apply hne
  apply byteOf_ext
  intro j hj
  have hlt := a.toNat_lt
  have hx : (UInt64.ofNat (8 * (a.toNat / 8) + j)).toNat = 8 * (a.toNat / 8) + j :=
    UInt64.toNat_ofNat_of_lt' (show _ < 2 ^ 64 by omega)
  have hword : (UInt64.ofNat (8 * (a.toNat / 8) + j)).toNat / 8 = a.toNat / 8 := by omega
  have hbyte := hall _ hword
  unfold bytesIn at hbyte
  rwa [hafter _ a hword, hcontent _ a hword, hx, Nat.mul_add_mod, Nat.mod_eq_of_lt hj] at hbyte

/-- What an aligned access reads is the number that its bytes spell. -/
theorem toNat_readPart_eq (hcontent : ByWord content) (hn : IsSize n) (ha : a.toNat % n = 0)
    (hword : inWord.toNat = a.toNat % 8) :
    (readPart n inWord (content a)).toNat = littleEndian (bytesIn content) a n := by
  have hroom := hn.room ha
  rw [toNat_readPart hn.le_eight (by omega), ← sum_byteOf]
  apply sum_congr rfl
  intro i hi
  have haddress := hn.toNat_add ha (mem_range.mp hi)
  have hi' := mem_range.mp hi
  unfold bytesIn
  rw [hcontent (a + UInt64.ofNat i) a (by omega)]
  congr 2
  omega

section

variable (hn : IsSize n) (ha : a.toNat % n = 0) (hword : inWord.toNat = a.toNat % 8)
include hn ha hword

/-- An aligned access overwrites its bytes and no others. -/
theorem bytesIn_writePart (hv : v.toNat < 256 ^ n) (hcontent : ByWord content)
    (hafter : ∀ x : UInt64, after x = if x.toNat / 8 = a.toNat / 8
      then writePart n inWord (content a) v else content x) :
    bytesIn after = overwritten (bytesIn content) a n v := by
  have hroom := hn.room ha
  funext x
  have hcovered := hn.sub_lt_iff ha (x := x)
  unfold bytesIn overwritten
  rw [hafter]
  by_cases hsame : x.toNat / 8 = a.toNat / 8
  · rw [if_pos hsame, byteOf_writePart hn.le_eight (by omega) _ hv, hword]
    split
    · rename_i hin
      have hoffset : x.toNat % 8 - a.toNat % 8 = (x - a).toNat := by
        rw [UInt64.toNat_sub_of_le _ _ (UInt64.le_iff_toNat_le.mpr (by omega))]
        omega
      rw [if_pos (hcovered.mpr ⟨hsame, hin.1, hin.2⟩), hoffset]
    · rename_i hout
      rw [if_neg (fun h => hout (hcovered.mp h).2), hcontent a x hsame.symm]
  · rw [if_neg hsame, if_neg (fun h => hsame (hcovered.mp h).1)]

theorem checkWhole_eq : checkWhole n inWord = .ok () := by
  unfold checkWhole
  rw [if_neg]
  rw [Bool.and_eq_true, beq_iff_eq, bne_iff_ne, not_and, not_not]
  rintro rfl
  exact UInt64.toNat_inj.mp (hword.trans ha)

theorem loadPart_eq_ok_iff :
    loadPart n inWord word = .ok v ↔ ∃ w, word = .ok w ∧ v = readPart n inWord w := by
  cases word with
  | error e => exact iff_of_false nofun nofun
  | ok w =>
    change (do checkWhole n inWord; return readPart n inWord w) = _ ↔ _
    rw [checkWhole_eq hn ha hword]
    simp [eq_comm]

/-- What is stored is made from the word that was there, by a value that fits. -/
theorem storePart_eq (word : Result UInt64) : storePart n inWord v word =
    if v.toNat < 256 ^ n then word.map (writePart n inWord · v) else .error .assertion := by
  have hfits := fitsAccess_iff hn.le_eight v
  unfold storePart
  rw [checkWhole_eq hn ha hword]
  by_cases hv : v.toNat < 256 ^ n
  · rw [if_pos hv, hfits.mpr hv]
    cases word <;> rfl
  · rw [if_neg hv, Bool.eq_false_iff.mpr (hfits.not.mpr hv)]
    rfl

end

end Jib
