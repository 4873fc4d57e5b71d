import Jib.Integer.Text
import Jib.Proofs.Integer.Form
import Jib.Text.Numeral
import Mathlib.Tactic.IntervalCases

/-!
# Hexadecimal numerals

An integer in digit form is written from its lowest place on, sixteen places for a digit, and only
the highest digit ends where zeros are left.  So there is room for all places, the first one is not
zero, and the numeral is read as the integer.
-/

namespace Jib.Integer

variable {k n q r : Nat} {d : UInt64} {ds : List UInt64} {cs : List Char}

/-! ### Places to the base sixteen -/

/-- Lowercase digits to the base sixteen, without a leading zero, that are read as a number. -/
structure Hexits (cs : List Char) (n : Nat) : Prop where
  lowercase : ∀ c ∈ cs, c ∈ "0123456789abcdef".toList
  leading : ∃ c ∈ cs.head?, c ≠ '0'
  read : ∀ before rest, Text.readDigits 16 (cs ++ rest) before 0 = Text.readDigits 16 rest true n

theorem digitChar_spec (hr : r < 16) :
    Nat.digitChar r ∈ "0123456789abcdef".toList ∧ ∀ before m rest,
      Text.readDigits 16 (Nat.digitChar r :: rest) before m =
        Text.readDigits 16 rest true (m * 16 + r) := by
  interval_cases r <;> exact ⟨by decide, fun _ _ _ => rfl⟩

theorem hexits_digitChar (hpos : 0 < r) (hr : r < 16) : Hexits [Nat.digitChar r] r := by
  obtain ⟨hlower, hread⟩ := digitChar_spec hr
  refine ⟨List.forall_mem_singleton.mpr hlower, ⟨_, rfl, ?_⟩, fun before rest => ?_⟩
  · simpa using hpos.ne'
  · simpa using hread before 0 rest

theorem Hexits.append (hcs : Hexits cs q) (hr : r < 16) :
    Hexits (cs ++ [Nat.digitChar r]) (q * 16 + r) := by
  obtain ⟨hlower, hread⟩ := digitChar_spec hr
  obtain ⟨c, hc, hne⟩ := hcs.leading
  refine ⟨List.forall_mem_append.mpr ⟨hcs.lowercase, List.forall_mem_singleton.mpr hlower⟩,
    ⟨c, by simp_all, hne⟩, fun before rest => ?_⟩
  rw [List.append_assoc, hcs.read, List.singleton_append, hread]

theorem toNat_shr_four (d : UInt64) : (Word.shr d 4).toNat = d.toNat / 16 := Word.toNat_shr d 4

theorem hexits_topNibbles (hd : d.toNat < 16 ^ k) (hpos : 0 < d.toNat) :
    Hexits (topNibbles k d).reverse d.toNat ∧ (topNibbles k d).length ≤ k := by
  induction k generalizing d with
  | zero => omega
  | succ k ih =>
    have hshift := toNat_shr_four d
    rw [topNibbles]
    split_ifs with hrest
    · rw [beq_iff_eq.mp hrest, UInt64.toNat_zero] at hshift
      rw [Nat.mod_eq_of_lt (by omega)]
      exact ⟨hexits_digitChar hpos (by omega), by simp⟩
    · have hne : (Word.shr d 4).toNat ≠ 0 := fun h => hrest (beq_iff_eq.mpr (UInt64.toNat_inj.mp h))
      obtain ⟨hhigh, hlength⟩ := ih (d := Word.shr d 4) (by omega) (by omega)
      rw [List.reverse_cons, List.length_cons]
      refine ⟨?_, by omega⟩
      have := hhigh.append (Nat.mod_lt d.toNat (by decide))
      rwa [hshift, Nat.div_add_mod'] at this

/-- The places of a digit stand below those of the digits above it. -/
theorem Hexits.nibbles (hcs : Hexits cs q) (k : Nat) (d : UInt64) :
    Hexits (cs ++ (nibbles k d).reverse) (q * 16 ^ k + d.toNat % 16 ^ k) := by
  induction k generalizing d with
  | zero => simpa [Integer.nibbles, Nat.mod_one] using hcs
  | succ k ih =>
    have hlow := (ih (Word.shr d 4)).append (Nat.mod_lt d.toNat (by decide : 0 < 16))
    rw [toNat_shr_four] at hlow
    rw [Integer.nibbles, List.reverse_cons, ← List.append_assoc, pow_succ', Nat.mod_mul]
    convert hlow using 1
    ring

theorem length_nibbles (k : Nat) (d : UInt64) : (nibbles k d).length = k := by
  induction k generalizing d with
  | zero => rfl
  | succ k ih => rw [nibbles, List.length_cons, ih]

theorem hexits_hexChars (hds : Digits.Normal ds) :
    Hexits (hexChars ds).reverse (wordsToNat ds) ∧ (hexChars ds).length ≤ ds.length * 16 := by
  fun_induction hexChars ds with
  | case1 => exact absurd rfl hds.ne_nil
  | case2 d =>
    have hpos := hds.pos
    exact hexits_topNibbles d.toNat_lt hpos
  | case3 d ds hne ih =>
    obtain ⟨hhigh, hlength⟩ := ih ((Digits.normal_cons_iff hne d).mp hds)
    have hall := hhigh.nibbles 16 d
    rw [Nat.mod_eq_of_lt (show d.toNat < 16 ^ 16 from d.toNat_lt)] at hall
    rw [List.reverse_append, List.length_append, List.length_cons, length_nibbles, wordsToNat_cons,
      Nat.add_comm, Nat.mul_comm]
    exact ⟨hall, by omega⟩

/-! ### Reading -/

theorem strip_eq (hcs : ∀ c ∈ cs, c ∈ '-' :: 'x' :: "0123456789abcdef".toList) :
    Text.strip cs = cs := by
  have hall : ('-' :: 'x' :: "0123456789abcdef".toList).all (!Text.isBlank ·) := by decide +kernel
  have hdrop {cs : List Char} (hcs : ∀ c ∈ cs, c ∈ '-' :: 'x' :: "0123456789abcdef".toList) :
      cs.dropWhile Text.isBlank = cs := by
    cases cs with
    | nil => rfl
    | cons c cs =>
      have hc := List.all_eq_true.mp hall c (hcs c List.mem_cons_self)
      exact List.dropWhile_cons_of_neg (by simpa using hc)
  rw [Text.strip, hdrop hcs, hdrop (fun c hc => hcs c (List.mem_reverse.mp hc)),
    List.reverse_reverse]

theorem readMarked_eq (hcs : Hexits cs n) :
    Text.readMarked ('0' :: 'x' :: cs) = some n := by
  have hread := hcs.read false []
  rw [List.append_nil] at hread
  cases cs with
  | nil => exact hread
  | cons c cs =>
    have hc : c ≠ '_' := by
      rintro rfl
      exact absurd (hcs.lowercase '_' List.mem_cons_self) (by decide)
    have hmark :
        Text.readMarked ('0' :: 'x' :: c :: cs) = Text.readDigits 16 (c :: cs) false 0 := by
      simp [Text.readMarked, hc]
    exact hmark.trans hread

theorem readMarkedInt?_eq (hcs : Hexits cs n) :
    Text.readMarkedInt? (String.ofList ('0' :: 'x' :: cs)) = some (n : Int) ∧
      Text.readMarkedInt? (String.ofList ('-' :: '0' :: 'x' :: cs)) = some (-n : Int) := by
  have hchars : ∀ c ∈ '0' :: 'x' :: cs, c ∈ '-' :: 'x' :: "0123456789abcdef".toList := by
    refine List.forall_mem_cons.mpr
      ⟨by decide, List.forall_mem_cons.mpr ⟨by decide, fun c hc => ?_⟩⟩
    exact List.mem_cons_of_mem _ (List.mem_cons_of_mem _ (hcs.lowercase c hc))
  unfold Text.readMarkedInt?
  rw [String.toList_ofList, String.toList_ofList, strip_eq hchars,
    strip_eq (List.forall_mem_cons.mpr ⟨by decide, hchars⟩)]
  simp [readMarked_eq hcs]

/-- A non-zero integer in digit form is written as a sign, the mark of the base and the lowercase
digits of its absolute value without a leading zero, and what is written is read as the integer. -/
theorem hex_canonical (s : Int) (ds : List UInt64) (hz : (big s ds).Normal) :
    ∃ cs text, hex (big s ds) = .ok text ∧
      text = String.ofList ((if (big s ds).toInt < 0 then ['-'] else []) ++ '0' :: 'x' :: cs) ∧
      (∀ c ∈ cs, c ∈ "0123456789abcdef".toList) ∧ (∃ c ∈ cs.head?, c ≠ '0') ∧
      Text.readMarkedInt? text = some (big s ds).toInt := by
  have hpos := hz.2.pos
  obtain ⟨hcs, hlength⟩ := hexits_hexChars hz.2
  have hhex : hex (big s ds) = .ok (String.ofList ((if s == -1 then ['-'] else []) ++
      '0' :: 'x' :: (hexChars ds).reverse)) := by
    rw [hex, hexOfDigits]
    split <;> simp [hlength]
  refine ⟨_, _, hhex, ?_, hcs.lowercase, hcs.leading, ?_⟩ <;> rw [toInt] <;>
    rcases hz.1 with rfl | rfl
  · rw [if_neg (show ¬ (1 * (wordsToNat ds : Int)) < 0 by omega)]
    rfl
  · rw [if_pos (show -1 * (wordsToNat ds : Int) < 0 by omega)]
    rfl
  · rw [one_mul]
    exact (readMarkedInt?_eq hcs).1
  · rw [neg_one_mul]
    exact (readMarkedInt?_eq hcs).2

/-- A negative integer of two digits. -/
theorem hex_canonical_negative :
    hex (big (-1) [255, 1]) = .ok "-0x100000000000000ff" ∧
    ∃ text, hex (big (-1) [255, 1]) = .ok text ∧
      Text.readMarkedInt? text = some (-(2 ^ 64 + 255)) := by
  obtain ⟨-, text, htext, -, -, -, hread⟩ := hex_canonical (-1) [255, 1] (by decide)
  exact ⟨by decide +kernel, text, htext, hread⟩

end Jib.Integer
