import Jib.Digits
import Jib.Proofs.Simulation
import Jib.Proofs.Word
import Mathlib.Data.List.Basic
import Mathlib.Tactic.Ring

/-!
# Digit lists as numbers

A list of digits denotes a number to the base two to the 64, lowest digit first.  Taking and
dropping digits are remainder and quotient by powers of the base.  Addition and subtraction digit by
digit keep the number up to the carry or the borrow that is left, shifts multiply and divide by
powers of two, and a bit of the number is a bit of one of the digits.  Lists of one length with the
same number are the same. Lists without a leading zero are compared as their numbers are, whatever
their lengths.
-/

namespace Jib

variable {ds ws xs ys : List UInt64} {i k : Nat} {c : UInt64}

/-! ### Lists -/

@[simp] theorem wordsToNat_nil : wordsToNat [] = 0 := rfl

theorem wordsToNat_cons (w : UInt64) (ws : List UInt64) :
    wordsToNat (w :: ws) = w.toNat + 2 ^ 64 * wordsToNat ws := rfl

theorem wordsToNat_singleton (w : UInt64) : wordsToNat [w] = w.toNat := by
  rw [wordsToNat_cons, wordsToNat_nil, Nat.mul_zero, Nat.add_zero]

theorem wordsToNat_append (xs ys : List UInt64) :
    wordsToNat (xs ++ ys) = wordsToNat xs + 2 ^ (64 * xs.length) * wordsToNat ys := by
  induction xs with
  | nil => simp
  | cons x xs ih =>
    rw [List.cons_append, wordsToNat_cons, wordsToNat_cons, ih, List.length_cons]
    ring

@[simp] theorem wordsToNat_replicate_zero (n : Nat) : wordsToNat (List.replicate n 0) = 0 := by
  induction n with
  | zero => rfl
  | succ n ih => rw [List.replicate_succ, wordsToNat_cons, ih, UInt64.toNat_zero, Nat.mul_zero]

theorem wordsToNat_lt (ws : List UInt64) : wordsToNat ws < 2 ^ (64 * ws.length) := by
  induction ws with
  | nil => simp
  | cons w ws ih =>
    have hw := w.toNat_lt
    rw [wordsToNat_cons, List.length_cons, Nat.mul_succ, pow_add]
    omega

theorem joinAbove_eq {n shift : Nat} (hn : n < 2 ^ shift) :
    joinAbove n shift ws = n + 2 ^ shift * wordsToNat ws := by
  induction ws generalizing n shift with
  | nil => rfl
  | cons w ws ih =>
    have hw := w.toNat_lt
    have hsum : n ||| w.toNat <<< shift = n + 2 ^ shift * w.toNat := by
      rw [Nat.or_comm, ← Nat.shiftLeft_add_eq_or_of_lt hn, Nat.shiftLeft_eq, add_comm, mul_comm]
    rw [joinAbove, hsum, ih, wordsToNat_cons]
    · ring
    · rw [pow_add]
      nlinarith

@[simp] theorem joinWords_eq (ws : List UInt64) : joinWords ws = wordsToNat ws := by
  rw [joinWords, joinAbove_eq (by decide)]
  simp

@[simp] theorem Bits.toNat_wide (w : Nat) (ws : List UInt64) : (wide w ws).toNat = wordsToNat ws :=
  joinWords_eq ws

/-- Lists of one length that denote the same number are the same. -/
theorem eq_of_wordsToNat_eq (hlength : xs.length = ys.length)
    (hvalue : wordsToNat xs = wordsToNat ys) : xs = ys := by
  induction xs generalizing ys with
  | nil => exact (List.length_eq_zero_iff.mp hlength.symm).symm
  | cons x xs ih =>
    cases ys with
    | nil => cases hlength
    | cons y ys =>
      have hx := x.toNat_lt
      have hy := y.toNat_lt
      rw [wordsToNat_cons, wordsToNat_cons] at hvalue
      have hword : x.toNat = y.toNat := by omega
      rw [UInt64.toNat_inj.mp hword, ih (Nat.succ.inj hlength) (by omega)]

theorem wordsToNat_take (ws : List UInt64) (k : Nat) :
    wordsToNat (ws.take k) = wordsToNat ws % 2 ^ (64 * k) := by
  have hlt : wordsToNat (ws.take k) < 2 ^ (64 * k) :=
    (wordsToNat_lt _).trans_le (Nat.pow_le_pow_right (by decide) (by simp))
  rcases Nat.le_total k ws.length with hk | hk
  · have hsplit := wordsToNat_append (ws.take k) (ws.drop k)
    rw [List.take_append_drop, List.length_take_of_le hk] at hsplit
    rw [hsplit, Nat.add_mul_mod_self_left, Nat.mod_eq_of_lt hlt]
  · rw [List.take_of_length_le hk] at hlt ⊢
    exact (Nat.mod_eq_of_lt hlt).symm

theorem wordsToNat_drop (ws : List UInt64) (k : Nat) :
    wordsToNat (ws.drop k) = wordsToNat ws / 2 ^ (64 * k) := by
  rcases Nat.le_total k ws.length with hk | hk
  · have hsplit := wordsToNat_append (ws.take k) (ws.drop k)
    have hlt := wordsToNat_lt (ws.take k)
    rw [List.length_take_of_le hk] at hlt hsplit
    rw [List.take_append_drop] at hsplit
    rw [hsplit, Nat.add_mul_div_left _ _ (by positivity), Nat.div_eq_of_lt hlt, Nat.zero_add]
  · have hlt : wordsToNat ws < 2 ^ (64 * k) :=
      (wordsToNat_lt ws).trans_le (Nat.pow_le_pow_right (by decide) (by omega))
    rw [List.drop_of_length_le hk, Nat.div_eq_of_lt hlt, wordsToNat_nil]

theorem testBit_wordsToNat_cons (w : UInt64) (ws : List UInt64) (k : Nat) :
    (wordsToNat (w :: ws)).testBit k =
      if k < 64 then w.toNat.testBit k else (wordsToNat ws).testBit (k - 64) := by
  rw [wordsToNat_cons, Nat.add_comm, Nat.testBit_two_pow_mul_add _ w.toNat_lt]

/-- A bit of the number is a bit of the digit where it stands. -/
theorem testBit_wordsToNat (ws : List UInt64) (k : Nat) :
    (wordsToNat ws).testBit k = (ws.getD (k / 64) 0).toNat.testBit (k % 64) := by
  induction ws generalizing k with
  | nil => simp
  | cons w ws ih =>
    rw [testBit_wordsToNat_cons]
    split_ifs with hk
    · rw [Nat.div_eq_of_lt hk, Nat.mod_eq_of_lt hk, List.getD_cons_zero]
    · have hdiv : k / 64 = (k - 64) / 64 + 1 := by omega
      have hmod : k % 64 = (k - 64) % 64 := by omega
      rw [ih, hdiv, hmod, List.getD_cons_succ]

theorem getD_set (hi : i < ws.length) (d : UInt64) (p : Nat) :
    (ws.set i d).getD p 0 = if p = i then d else ws.getD p 0 := by
  rw [List.getD_eq_getElem?_getD, List.getElem?_set]
  split
  · rename_i hp
    rw [if_pos hp.symm, Option.getD_some]
  · rename_i hp
    rw [if_neg (Ne.symm hp), List.getD_eq_getElem?_getD]

theorem testBit_wordsToNat_set (hi : i < ws.length) (d : UInt64) (k : Nat) :
    (wordsToNat (ws.set i d)).testBit k =
      if k / 64 = i then d.toNat.testBit (k % 64) else (wordsToNat ws).testBit k := by
  rw [testBit_wordsToNat, testBit_wordsToNat, getD_set hi]
  split <;> rfl

/-- Cutting the highest digit cuts the number. -/
theorem wordsToNat_set_low (hi : i + 1 = ws.length) (hk : k ≤ 64) :
    wordsToNat (ws.set i (Word.low k (ws.getD i 0))) = wordsToNat ws % 2 ^ (64 * i + k) := by
  apply Nat.eq_of_testBit_eq
  intro j
  rw [testBit_wordsToNat_set (by omega), Nat.testBit_mod_two_pow, Word.testBit_low,
    testBit_wordsToNat]
  rcases Nat.lt_trichotomy (j / 64) i with hj | rfl | hj
  · simp [hj.ne, show j < 64 * i + k by omega]
  · have hless : j % 64 < k ↔ j < 64 * (j / 64) + k := by omega
    simp [hless]
  · have hout : ws.length ≤ j / 64 := by omega
    simp [hj.ne', List.getElem?_eq_none hout]

theorem all_eq_zero (ws : List UInt64) : ws.all (· == 0) = decide (wordsToNat ws = 0) := by
  induction ws with
  | nil => rfl
  | cons w ws ih =>
    rw [List.all_cons, ih, Bool.eq_iff_iff, Bool.and_eq_true, beq_iff_eq, decide_eq_true_iff,
      decide_eq_true_iff, ← UInt64.toNat_inj, UInt64.toNat_zero, wordsToNat_cons]
    omega

theorem any_ne_zero (ws : List UInt64) : ws.any (· != 0) = !decide (wordsToNat ws = 0) := by
  rw [← all_eq_zero, List.not_all_eq_any_not]
  rfl

namespace Digits

/-! ### Single digits -/

theorem position_eq (hi : i < xs.length) : position xs i = .ok i := by
  have hnonneg : ¬ (i : Int) < 0 := by omega
  unfold position
  simp [hnonneg, hi]

theorem get_eq (hi : i < xs.length) : get xs i = .ok (xs.getD i 0) := by
  unfold get
  rw [position_eq hi]
  rfl

theorem set_eq (hi : i < xs.length) (d : UInt64) : set xs i d = .ok (xs.set i d) := by
  unfold set
  rw [position_eq hi]
  rfl

/-! ### Addition -/

theorem add_eq (hx : xs ≠ []) (hy : ys ≠ []) : add xs ys = .ok (addCarry xs ys 0) := by
  unfold add
  simp [hx, hy]

theorem length_addCarry (xs ys : List UInt64) (c : UInt64) :
    (addCarry xs ys c).length = max xs.length ys.length + 1 := by
  fun_induction addCarry xs ys c with
  | case1 => rfl
  | case2 x xs c r ih => simpa using ih
  | case3 y ys c r ih => simpa using ih
  | case4 x xs y ys c r s ih => simpa [Nat.add_max_add_right] using ih

theorem toNat_carry_le (p : Prop) [Decidable p] : (Word.carry p).toNat ≤ 1 := by
  rw [Word.toNat_carry]
  split <;> decide

/-- What one place of an addition keeps and what it passes on. -/
theorem toNat_add_add_carry (x y : UInt64) (hc : c.toNat ≤ 1) :
    let d := Word.carry (x + c < c) + Word.carry (x + c + y < y)
    d.toNat ≤ 1 ∧ (x + c + y).toNat + 2 ^ 64 * d.toNat = x.toNat + y.toNat + c.toNat := by
  intro d
  have hx := x.toNat_lt
  have hy := y.toNat_lt
  have hfirst := Word.toNat_add_carry x c
  have hsecond := Word.toNat_add_carry (x + c) y
  have hd : d.toNat = (Word.carry (x + c < c)).toNat + (Word.carry (x + c + y < y)).toNat := by
    rw [UInt64.toNat_add, Nat.mod_eq_of_lt (by omega)]
  omega

theorem wordsToNat_addCarry (xs ys : List UInt64) (hc : c.toNat ≤ 1) :
    wordsToNat (addCarry xs ys c) = wordsToNat xs + wordsToNat ys + c.toNat := by
  fun_induction addCarry xs ys c with
  | case1 c => simp [wordsToNat_cons]
  | case2 x xs c r ih =>
    have hplace : r.toNat + 2 ^ 64 * (Word.carry (r < c)).toNat = x.toNat + c.toNat :=
      Word.toNat_add_carry x c
    rw [wordsToNat_cons, wordsToNat_cons, ih (toNat_carry_le _), wordsToNat_nil]
    omega
  | case3 y ys c r ih =>
    have hplace : r.toNat + 2 ^ 64 * (Word.carry (r < c)).toNat = y.toNat + c.toNat :=
      Word.toNat_add_carry y c
    rw [wordsToNat_cons, wordsToNat_cons, ih (toNat_carry_le _), wordsToNat_nil]
    omega
  | case4 x xs y ys c r s ih =>
    obtain ⟨hd, hplace⟩ : (Word.carry (r < c) + Word.carry (s < y)).toNat ≤ 1 ∧
        s.toNat + 2 ^ 64 * (Word.carry (r < c) + Word.carry (s < y)).toNat =
          x.toNat + y.toNat + c.toNat := toNat_add_add_carry x y hc
    rw [wordsToNat_cons, wordsToNat_cons, wordsToNat_cons]
    omega

/-! ### Subtraction -/

/-- What one place of a subtraction keeps and what it borrows. -/
theorem toNat_sub_sub_borrow (x y : UInt64) (hc : c.toNat ≤ 1) :
    let d := Word.carry (y + c < c) + Word.carry (x < y + c)
    d.toNat ≤ 1 ∧ (x - (y + c)).toNat + y.toNat + c.toNat = x.toNat + 2 ^ 64 * d.toNat := by
  intro d
  have hy := y.toNat_lt
  have hfirst := Word.toNat_add_carry y c
  have hsecond := Word.toNat_sub_borrow x (y + c)
  have hless := (x - (y + c)).toNat_lt
  have hd : d.toNat = (Word.carry (y + c < c)).toNat + (Word.carry (x < y + c)).toNat := by
    rw [UInt64.toNat_add, Nat.mod_eq_of_lt (by omega)]
  omega

theorem subBorrow_spec (xs ys : List UInt64) (hlength : ys.length ≤ xs.length) (hc : c.toNat ≤ 1) :
    (subBorrow xs ys c).1.length = xs.length ∧ (subBorrow xs ys c).2.toNat ≤ 1 ∧
      wordsToNat (subBorrow xs ys c).1 + wordsToNat ys + c.toNat =
        wordsToNat xs + 2 ^ (64 * xs.length) * (subBorrow xs ys c).2.toNat := by
  fun_induction subBorrow xs ys c with
  | case1 ys c =>
    obtain rfl := List.length_eq_zero_iff.mp (Nat.le_zero.mp hlength)
    simp [hc]
  | case2 x xs c r c' hrest ih =>
    obtain ⟨hlen, hle, hvalue⟩ := ih (Nat.zero_le _) (toNat_carry_le _)
    have hplace := Word.toNat_sub_borrow x c
    rw [hrest] at hlen hle hvalue
    refine ⟨by simpa using hlen, hle, ?_⟩
    rw [wordsToNat_cons, wordsToNat_cons, List.length_cons, Nat.mul_succ, pow_add]
    rw [wordsToNat_nil] at hvalue ⊢
    linarith
  | case3 x xs y ys c v r c' hrest ih =>
    obtain ⟨hd, hplace⟩ := toNat_sub_sub_borrow x y hc
    obtain ⟨hlen, hle, hvalue⟩ := ih (by simpa using hlength) hd
    rw [hrest] at hlen hle hvalue
    refine ⟨by simpa using hlen, hle, ?_⟩
    rw [wordsToNat_cons, wordsToNat_cons, wordsToNat_cons, List.length_cons, Nat.mul_succ, pow_add]
    linarith

theorem compare_eq (hlength : xs.length = ys.length) :
    compare xs ys = Ord.compare (wordsToNat xs) (wordsToNat ys) := by
  induction xs generalizing ys with
  | nil =>
    obtain rfl := List.length_eq_zero_iff.mp hlength.symm
    rfl
  | cons x xs ih =>
    cases ys with
    | nil => cases hlength
    | cons y ys =>
      have hx := x.toNat_lt
      have hy := y.toNat_lt
      rw [compare, ih (Nat.succ.inj hlength), wordsToNat_cons, wordsToNat_cons]
      rcases Nat.lt_trichotomy (wordsToNat xs) (wordsToNat ys) with h | h | h
      · rw [Nat.compare_eq_lt.mpr h, Nat.compare_eq_lt.mpr (by omega)]
      · rw [Nat.compare_eq_eq.mpr h]
        simp only [UInt64.lt_iff_toNat_lt, Nat.compare_eq_ite_lt, h, Nat.add_lt_add_iff_right]
      · rw [Nat.compare_eq_gt.mpr h, Nat.compare_eq_gt.mpr (by omega)]

/-- What does not count as larger is not longer. -/
theorem length_le_of_compare (hcompare : compare xs ys ≠ .gt) : xs.length ≤ ys.length := by
  induction xs generalizing ys with
  | nil => exact Nat.zero_le _
  | cons x xs ih =>
    cases ys with
    | nil => exact absurd rfl hcompare
    | cons y ys =>
      apply Nat.succ_le_succ
      apply ih
      intro hrest
      rw [compare, hrest] at hcompare
      exact hcompare rfl

/-- What does not count as smaller is not shorter. -/
theorem le_length_of_compare (hcompare : compare xs ys ≠ .lt) : ys.length ≤ xs.length := by
  induction xs generalizing ys with
  | nil =>
    cases ys with
    | nil => exact Nat.le_refl _
    | cons y ys => exact absurd rfl hcompare
  | cons x xs ih =>
    cases ys with
    | nil => exact Nat.zero_le _
    | cons y ys =>
      apply Nat.succ_le_succ
      apply ih
      intro hrest
      rw [compare, hrest] at hcompare
      exact hcompare rfl

/-- A sign for digits, which is zero for zero only. -/
def Signed (s : Int) (ds : List UInt64) : Prop := s = 0 ∧ wordsToNat ds = 0 ∨ s = 1 ∨ s = -1

theorem Signed.neg {s : Int} (hs : Signed s ds) : Signed (-s) ds := by
  rcases hs with ⟨rfl, hzero⟩ | rfl | rfl
  · exact .inl ⟨rfl, hzero⟩
  · exact .inr (.inr rfl)
  · exact .inr (.inl rfl)

/-- Nothing is borrowed from above if the larger number comes first. -/
theorem exists_withoutBorrow (hlength : ys.length ≤ xs.length) (hc : c.toNat ≤ 1)
    (hle : wordsToNat ys + c.toNat ≤ wordsToNat xs) :
    ∃ ds, withoutBorrow (subBorrow xs ys c) = .ok ds ∧
      wordsToNat ds + wordsToNat ys + c.toNat = wordsToNat xs := by
  obtain ⟨hlen, hborrow, hvalue⟩ := subBorrow_spec xs ys hlength hc
  have hlt := wordsToNat_lt (subBorrow xs ys c).1
  rw [hlen] at hlt
  have hnone : (subBorrow xs ys c).2.toNat = 0 := by
    rcases Nat.le_one_iff_eq_zero_or_eq_one.mp hborrow with hzero | hone
    · exact hzero
    · rw [hone] at hvalue
      omega
  rw [hnone] at hvalue
  refine ⟨(subBorrow xs ys c).1, ?_, hvalue⟩
  unfold withoutBorrow
  rw [if_pos (beq_iff_eq.mpr (UInt64.toNat_inj.mp hnone))]

/-- The difference is exact where the comparison is, because the one that counts as larger is at
least as long. -/
theorem sub_spec_of_compare
    (hcompare : compare xs ys = Ord.compare (wordsToNat xs) (wordsToNat ys)) :
    ∃ ds s, sub xs ys = .ok (ds, s) ∧ Signed s ds ∧
      s * (wordsToNat ds : Int) = wordsToNat xs - wordsToNat ys := by
  unfold sub
  rcases Nat.lt_trichotomy (wordsToNat xs) (wordsToNat ys) with h | h | h
  · rw [Nat.compare_eq_lt.mpr h] at hcompare
    obtain ⟨ds, hds, hvalue⟩ :=
      exists_withoutBorrow (c := 0) (length_le_of_compare (by simp [hcompare])) (by decide) h.le
    rw [UInt64.toNat_zero] at hvalue
    rw [hcompare]
    exact ⟨ds, -1, by simp only [hds]; rfl, .inr (.inr rfl), by omega⟩
  · rw [hcompare, Nat.compare_eq_eq.mpr h]
    exact ⟨[], 0, rfl, .inl ⟨rfl, rfl⟩, by omega⟩
  · rw [Nat.compare_eq_gt.mpr h] at hcompare
    obtain ⟨ds, hds, hvalue⟩ :=
      exists_withoutBorrow (c := 0) (le_length_of_compare (by simp [hcompare])) (by decide) h.le
    rw [UInt64.toNat_zero] at hvalue
    rw [hcompare]
    exact ⟨ds, 1, by simp only [hds]; rfl, .inr (.inl rfl), by omega⟩

theorem sub_spec (hlength : xs.length = ys.length) :
    ∃ ds s, sub xs ys = .ok (ds, s) ∧ Signed s ds ∧
      s * (wordsToNat ds : Int) = wordsToNat xs - wordsToNat ys :=
  sub_spec_of_compare (compare_eq hlength)

/-- A single digit may be smaller than what is subtracted; more digits have to denote at least as
much. -/
theorem subDigit_spec {d : UInt64} (hne : xs ≠ []) (hd : xs.length = 1 ∨ d.toNat ≤ wordsToNat xs) :
    ∃ ds s, subDigit xs d = .ok (ds, s) ∧ Signed s ds ∧
      s * (wordsToNat ds : Int) = wordsToNat xs - d.toNat := by
  cases xs with
  | nil => exact absurd rfl hne
  | cons x rest =>
    cases rest with
    | nil =>
      rw [wordsToNat_singleton]
      rcases Nat.lt_trichotomy x.toNat d.toNat with hlt | heq | hgt
      · have hne : x ≠ d := fun h => hlt.ne (congrArg _ h)
        have hplace := Word.toNat_sub_borrow d x
        rw [Word.toNat_carry, if_neg (by rw [UInt64.lt_iff_toNat_lt]; omega)] at hplace
        refine ⟨[d - x], -1, by simp [subDigit, hne, UInt64.lt_iff_toNat_lt, hlt],
          .inr (.inr rfl), ?_⟩
        rw [wordsToNat_singleton]
        omega
      · have hsame : x = d := UInt64.toNat_inj.mp heq
        exact ⟨[], 0, by simp [subDigit, hsame], .inl ⟨rfl, rfl⟩, by omega⟩
      · have hne : x ≠ d := fun h => hgt.ne (congrArg _ h.symm)
        have hnot : ¬ x < d := by rw [UInt64.lt_iff_toNat_lt]; omega
        have hplace := Word.toNat_sub_borrow x d
        rw [Word.toNat_carry, if_neg hnot] at hplace
        refine ⟨[x - d], 1, by simp [subDigit, hne, hnot], .inr (.inl rfl), ?_⟩
        rw [wordsToNat_singleton]
        omega
    | cons y rest =>
      have hplace := Word.toNat_sub_borrow x d
      have hless := (x - d).toNat_lt
      replace hd := hd.resolve_left (by simp)
      rw [wordsToNat_cons] at hd ⊢
      have hbound : wordsToNat [] + (Word.carry (x < d)).toNat ≤ wordsToNat (y :: rest) := by
        rw [wordsToNat_nil]
        omega
      obtain ⟨ds, hds, hvalue⟩ := exists_withoutBorrow (Nat.zero_le _) (toNat_carry_le _) hbound
      rw [wordsToNat_nil] at hvalue
      refine ⟨(x - d) :: ds, 1, ?_, .inr (.inl rfl), ?_⟩
      · simp only [subDigit, hds]
        rfl
      · rw [wordsToNat_cons]
        omega

/-! ### Leading zeros -/

theorem wordsToNat_strip (xs : List UInt64) : wordsToNat (strip xs) = wordsToNat xs := by
  fun_induction strip xs with
  | case1 => rfl
  | case2 x xs hrest hx ih =>
    rw [wordsToNat_cons, ← ih, hrest, beq_iff_eq.mp hx]
    rfl
  | case3 x xs hrest hx ih => rw [wordsToNat_cons, wordsToNat_cons, ← ih, hrest]
  | case4 x xs hne ih => rw [wordsToNat_cons, wordsToNat_cons, ih]

theorem strip_eq_nil_iff : strip xs = [] ↔ wordsToNat xs = 0 := by
  fun_induction strip xs with
  | case1 => simp
  | case2 x xs hrest hx ih =>
    rw [wordsToNat_cons, ih.mp hrest, beq_iff_eq.mp hx]
    simp
  | case3 x xs hrest hx ih =>
    have hne : x.toNat ≠ 0 := fun h => hx (beq_iff_eq.mpr (UInt64.toNat_inj.mp h))
    simp [wordsToNat_cons, hne]
  | case4 x xs hne ih =>
    have hrest : wordsToNat xs ≠ 0 := fun h => hne (ih.mpr h)
    simp [wordsToNat_cons, hrest]

/-- The highest digit is not zero, so there is one. -/
def Normal (ds : List UInt64) : Prop := ds.getLastD 0 ≠ 0

instance (ds : List UInt64) : Decidable (Normal ds) := inferInstanceAs (Decidable (_ ≠ _))

theorem Normal.ne_nil (hds : Normal ds) : ds ≠ [] := by
  rintro rfl
  exact hds rfl

theorem normal_singleton {d : UInt64} : Normal [d] ↔ d ≠ 0 := Iff.rfl

theorem normal_cons_iff (hne : ds ≠ []) (d : UInt64) : Normal (d :: ds) ↔ Normal ds := by
  cases ds with
  | nil => exact absurd rfl hne
  | cons e es => exact Iff.rfl

/-- The highest digit alone gives a number of this length. -/
theorem Normal.two_pow_le (hds : Normal ds) : 2 ^ (64 * (ds.length - 1)) ≤ wordsToNat ds := by
  induction ds with
  | nil => exact absurd rfl hds.ne_nil
  | cons d ds ih =>
    cases ds with
    | nil =>
      exact Nat.pos_of_ne_zero fun h => hds (UInt64.toNat_inj.mp h)
    | cons e es =>
      have hrest := ih ((normal_cons_iff (List.cons_ne_nil e es) d).mp hds)
      calc 2 ^ (64 * ((d :: e :: es).length - 1))
          = 2 ^ 64 * 2 ^ (64 * ((e :: es).length - 1)) := by
            rw [← pow_add]
            congr 1
            simp only [List.length_cons]
            omega
        _ ≤ 2 ^ 64 * wordsToNat (e :: es) := Nat.mul_le_mul_left _ hrest
        _ ≤ wordsToNat (d :: e :: es) := Nat.le_add_left _ _

theorem Normal.pos (hds : Normal ds) : 0 < wordsToNat ds :=
  (Nat.two_pow_pos _).trans_le hds.two_pow_le

/-- The shorter of two normal lists denotes less. -/
theorem Normal.lt_of_length_lt (hys : Normal ys) (hlength : xs.length < ys.length) :
    wordsToNat xs < wordsToNat ys := calc
  wordsToNat xs < 2 ^ (64 * xs.length) := wordsToNat_lt xs
  _ ≤ 2 ^ (64 * (ys.length - 1)) := Nat.pow_le_pow_right (by decide) (by omega)
  _ ≤ wordsToNat ys := hys.two_pow_le

/-- A normal list counts as larger than any shorter list. -/
theorem Normal.compare_eq_of_length_lt (hxs : Normal xs) (hlength : ys.length < xs.length) :
    compare xs ys = Ord.compare (wordsToNat xs) (wordsToNat ys) := by
  have hgt : compare xs ys = .gt := by
    by_contra hne
    exact Nat.not_le.mpr hlength (length_le_of_compare hne)
  rw [hgt, Nat.compare_eq_gt.mpr (hxs.lt_of_length_lt hlength)]

theorem compare_eq_of_normal (hxs : Normal xs) (hys : Normal ys) :
    compare xs ys = Ord.compare (wordsToNat xs) (wordsToNat ys) := by
  rcases Nat.lt_trichotomy xs.length ys.length with hlength | hlength | hlength
  · have hlt : compare xs ys = .lt := by
      by_contra hne
      exact Nat.not_le.mpr hlength (le_length_of_compare hne)
    rw [hlt, Nat.compare_eq_lt.mpr (hys.lt_of_length_lt hlength)]
  · exact compare_eq hlength
  · exact hxs.compare_eq_of_length_lt hlength

/-- A normal list is a single digit or denotes more than any digit. -/
theorem Normal.length_eq_one_or (hds : Normal ds) (d : UInt64) :
    ds.length = 1 ∨ d.toNat ≤ wordsToNat ds := by
  rcases Nat.lt_or_ge 1 ds.length with hlength | hlength
  · right
    have hlt : wordsToNat [d] < wordsToNat ds := hds.lt_of_length_lt hlength
    exact hlt.le
  · left
    exact Nat.le_antisymm hlength (List.length_pos_iff.mpr hds.ne_nil)

theorem normal_strip (hxs : strip xs ≠ []) : Normal (strip xs) := by
  fun_induction strip xs with
  | case1 => exact absurd rfl hxs
  | case2 x xs hrest hx ih => exact absurd rfl hxs
  | case3 x xs hrest hx ih => exact fun hzero => hx (beq_iff_eq.mpr hzero)
  | case4 x xs hne ih => exact (normal_cons_iff hne x).mpr (ih hne)

/-! ### Multiplication -/

/-- What one place of a multiplication keeps and what it passes on. -/
theorem toNat_mul_add_carry (x d c : UInt64) :
    (x * d + c).toNat + 2 ^ 64 * (Word.carry (x * d + c < c) + Word.mulHigh x d).toNat =
      x.toNat * d.toNat + c.toNat := by
  have hx := x.toNat_lt
  have hd := d.toNat_lt
  have hproduct : x.toNat * d.toNat ≤ (2 ^ 64 - 1) * (2 ^ 64 - 1) :=
    Nat.mul_le_mul (by omega) (by omega)
  have hhigh : (Word.mulHigh x d).toNat = x.toNat * d.toNat / 2 ^ 64 := by
    change (x.toNat * d.toNat / 2 ^ 64).toUInt64.toNat = _
    rw [UInt64.toNat_ofNat', Nat.mod_eq_of_lt (by omega)]
  have hcarry := Word.toNat_add_carry (x * d) c
  have hone := toNat_carry_le (x * d + c < c)
  rw [UInt64.toNat_mul] at hcarry
  rw [UInt64.toNat_add (Word.carry _)]
  omega

theorem wordsToNat_mulDigit (xs : List UInt64) (d c : UInt64) :
    wordsToNat (mulDigit xs d c) = wordsToNat xs * d.toNat + c.toNat := by
  induction xs generalizing c with
  | nil => simp [mulDigit, wordsToNat_singleton]
  | cons x xs ih =>
    have hplace := toNat_mul_add_carry x d c
    rw [mulDigit, wordsToNat_cons, wordsToNat_cons, ih]
    linarith

/-! ### Shifts -/

theorem wordsToNat_shiftLeftBits (hk : k < 64) (xs : List UInt64) (hc : c.toNat < 2 ^ k) :
    wordsToNat (shiftLeftBits k xs c) = wordsToNat xs * 2 ^ k + c.toNat := by
  induction xs generalizing c with
  | nil => simp [shiftLeftBits, wordsToNat_cons]
  | cons x xs ih =>
    have hpow : 2 ^ 64 = 2 ^ (64 - k) * 2 ^ k := by rw [← pow_add, Nat.sub_add_cancel hk.le]
    have hcarry : (Word.shr x (64 - k)).toNat = x.toNat * 2 ^ k / 2 ^ 64 := by
      rw [Word.toNat_shr, hpow, Nat.mul_div_mul_right _ _ (by positivity)]
    have hless : (Word.shr x (64 - k)).toNat < 2 ^ k := by
      rw [Word.toNat_shr, Nat.div_lt_iff_lt_mul (by positivity), mul_comm, ← hpow]
      exact x.toNat_lt
    have hsplit := Nat.mod_add_div (x.toNat * 2 ^ k) (2 ^ 64)
    rw [shiftLeftBits, wordsToNat_cons, wordsToNat_cons, ih hless, Word.toNat_or_shl hk.le hc]
    linarith

theorem wordsToNat_shiftRightBits (hk : k < 64) (xs : List UInt64) :
    wordsToNat (shiftRightBits k xs) = wordsToNat xs / 2 ^ k := by
  fun_induction shiftRightBits k xs with
  | case1 => simp
  | case2 x => simp [wordsToNat_cons, Word.toNat_shr]
  | case3 x y xs ih =>
    apply Nat.eq_of_testBit_eq
    intro j
    rw [testBit_wordsToNat_cons, ih, Nat.testBit_div_two_pow, Nat.testBit_div_two_pow,
      testBit_wordsToNat_cons x, UInt64.toNat_or, Nat.testBit_or, Word.testBit_shl,
      Word.testBit_shr]
    by_cases hj : j < 64
    · by_cases hjk : j + k < 64
      · simp [hj, hjk]
      · -- the bit comes from the next digit
        have hnext :
            (wordsToNat (y :: xs)).testBit (j + k - 64) = y.toNat.testBit (j + k - 64) := by
          rw [testBit_wordsToNat_cons, if_pos (by omega)]
        simp [hj, hjk, hnext, show 64 - k ≤ j by omega, show j - (64 - k) = j + k - 64 by omega,
          Word.testBit_of_le (Nat.le_of_not_lt hjk)]
    · simp [hj, show ¬ j + k < 64 by omega, show j - 64 + k = j + k - 64 by omega]

theorem length_shiftLeftBits (k : Nat) (xs : List UInt64) (c : UInt64) :
    (shiftLeftBits k xs c).length = xs.length + 1 := by
  induction xs generalizing c with
  | nil => rfl
  | cons x xs ih => rw [shiftLeftBits, List.length_cons, ih, List.length_cons]

theorem length_shiftRightBits (k : Nat) (xs : List UInt64) :
    (shiftRightBits k xs).length = xs.length := by
  fun_induction shiftRightBits k xs with
  | case1 => rfl
  | case2 => rfl
  | case3 x y xs ih => simpa using ih

section

variable (xs) (i)

theorem wordsToNat_shiftLeft : wordsToNat (shiftLeft xs i) = wordsToNat xs * 2 ^ i := by
  have hbits : wordsToNat (if i % 64 == 0 then xs else shiftLeftBits (i % 64) xs 0) =
      wordsToNat xs * 2 ^ (i % 64) := by
    split_ifs with hzero
    · rw [beq_iff_eq.mp hzero, pow_zero, mul_one]
    · rw [wordsToNat_shiftLeftBits (Nat.mod_lt _ (by decide)) _ (by simp),
        UInt64.toNat_zero, add_zero]
  unfold shiftLeft
  rw [wordsToNat_append, wordsToNat_replicate_zero, hbits, List.length_replicate, zero_add]
  calc 2 ^ (64 * (i / 64)) * (wordsToNat xs * 2 ^ (i % 64))
      = wordsToNat xs * 2 ^ (64 * (i / 64) + i % 64) := by ring
    _ = wordsToNat xs * 2 ^ i := by rw [Nat.div_add_mod]

theorem length_le_length_shiftLeft : xs.length ≤ (shiftLeft xs i).length := by
  unfold shiftLeft
  rw [List.length_append]
  split
  · exact Nat.le_add_left _ _
  · rw [length_shiftLeftBits]
    omega

theorem wordsToNat_shiftRight : wordsToNat (shiftRight xs i) = wordsToNat xs / 2 ^ i := by
  have hsplit : wordsToNat xs / 2 ^ i = wordsToNat (xs.drop (i / 64)) / 2 ^ (i % 64) := by
    rw [wordsToNat_drop, Nat.div_div_eq_div_mul, ← pow_add, Nat.div_add_mod]
  unfold shiftRight
  split_ifs with hzero
  · rw [hsplit, beq_iff_eq.mp hzero, pow_zero, Nat.div_one]
  · rw [hsplit, wordsToNat_shiftRightBits (Nat.mod_lt _ (by decide))]

theorem length_shiftRight : (shiftRight xs i).length = xs.length - i / 64 := by
  unfold shiftRight
  split <;> simp [length_shiftRightBits]

end

/-- The 64 bits from a position on lie in two neighbouring digits. -/
theorem toNat_or_neighbour (ds : List UInt64) (i : Nat) (hk : k < 64) :
    (Word.shr (ds.getD i 0) k ||| Word.shl (ds.getD (i + 1) 0) (64 - k)).toNat =
      wordsToNat ds / 2 ^ (64 * i + k) % 2 ^ 64 := by
  apply Nat.eq_of_testBit_eq
  intro j
  rw [UInt64.toNat_or, Nat.testBit_or, Word.testBit_shr, Word.testBit_shl, Nat.testBit_mod_two_pow,
    Nat.testBit_div_two_pow, testBit_wordsToNat]
  rcases Nat.lt_or_ge (j + k) 64 with hj | hj
  · have hdiv : (j + (64 * i + k)) / 64 = i := by omega
    have hmod : (j + (64 * i + k)) % 64 = j + k := by omega
    simp [hdiv, hmod, show j < 64 by omega, show ¬ 64 - k ≤ j by omega]
  · rcases Nat.lt_or_ge j 64 with hj' | hj'
    · have hdiv : (j + (64 * i + k)) / 64 = i + 1 := by omega
      have hmod : (j + (64 * i + k)) % 64 = j - (64 - k) := by omega
      rw [Word.testBit_of_le hj, hdiv, hmod]
      simp [show 64 - k ≤ j by omega]
    · rw [Word.testBit_of_le hj]
      simp [show ¬ j < 64 by omega]

theorem shl_neighbour_eq_zero (hnone : k = 0 ∨ ds.length ≤ i + 1) :
    Word.shl (ds.getD (i + 1) 0) (64 - k) = 0 := by
  rcases hnone with rfl | hlast
  · exact Word.shl_of_le (Nat.le_refl 64) _
  · rw [List.getD_eq_default _ _ hlast, Word.shl_zero_left]

/-! ### Bit by bit -/

/-- An operation on words that works on each bit on its own. -/
def BitByBit (f : UInt64 → UInt64 → UInt64) (g : Bool → Bool → Bool) : Prop :=
  ∀ x y k, (f x y).toNat.testBit k = g (x.toNat.testBit k) (y.toNat.testBit k)

/-- Digits are combined bit by bit as far as the second list goes. -/
theorem exists_combine {f : UInt64 → UInt64 → UInt64} {g : Bool → Bool → Bool} (hf : BitByBit f g)
    (hlength : ys.length ≤ xs.length) :
    ∃ out, combine f xs ys = .ok out ∧ out.length = xs.length ∧
      ∀ k, (wordsToNat out).testBit k =
        if k < 64 * ys.length then g ((wordsToNat xs).testBit k) ((wordsToNat ys).testBit k)
        else (wordsToNat xs).testBit k := by
  induction ys generalizing xs with
  | nil => exact ⟨xs, by cases xs <;> rfl, rfl, fun k => rfl⟩
  | cons y ys ih =>
    cases xs with
    | nil => cases hlength
    | cons x xs =>
      obtain ⟨out, hout, hlen, hbits⟩ := ih (Nat.le_of_succ_le_succ hlength)
      refine ⟨f x y :: out, by simp only [combine, hout]; rfl, by simp [hlen], fun k => ?_⟩
      rw [testBit_wordsToNat_cons, testBit_wordsToNat_cons, testBit_wordsToNat_cons, hbits, hf]
      rcases Nat.lt_or_ge k 64 with hk | hk
      · simp [hk, show k < 64 * (ys.length + 1) by omega]
      · have hrest : k - 64 < 64 * ys.length ↔ k < 64 * (ys.length + 1) := by omega
        simp [Nat.not_lt.mpr hk, hrest]

end Digits

end Jib
