import Mathlib.Data.Rat.Floor
import Jib.Rational

/-!
# Exactness of rational arithmetic

Fractions in lowest terms are the rational numbers: each operation gives the lowest terms of its
result, although none of them reduces what it has computed.
-/

namespace Jib.Rational

/-- The denominator is positive and shares nothing with the numerator. -/
def Lowest (a : Rational) : Prop := 0 < a.den ∧ Int.gcd a.num a.den = 1

instance (a : Rational) : Decidable a.Lowest := inferInstanceAs (Decidable (_ ∧ _))

/-- The number that a fraction stands for. -/
def value (a : Rational) : ℚ := a.num / a.den

/-- The fraction is a number in lowest terms. -/
def Is (a : Rational) (q : ℚ) : Prop := a.Lowest ∧ a.value = q

def ofRat (q : ℚ) : Rational := ⟨q.num, q.den⟩

theorem ofRat_is (q : ℚ) : (ofRat q).Is q :=
  ⟨⟨Int.natCast_pos.mpr q.den_pos, q.reduced⟩, q.num_div_den⟩

theorem Lowest.eq_ofRat {a : Rational} (h : a.Lowest) : a = ofRat a.value := by
  unfold ofRat value
  rw [Rat.num_div_eq_of_coprime h.1 h.2, Rat.den_div_eq_of_coprime h.1 h.2]

theorem gcd_eq {m n : Int} (h : n ≠ 0) : gcd m n = Int.gcd m n := by
  unfold gcd
  rw [if_neg]
  simpa using fun _ => h

theorem reduce_eq {m n : Int} (h : n ≠ 0) : reduce m n = (m / Int.gcd m n, n / Int.gcd m n) := by
  have hpos : 0 < Int.gcd m n := Int.gcd_pos_of_ne_zero_right m h
  simp only [reduce, gcd_eq h, Int.fdiv_eq_ediv_of_nonneg _ (Int.natCast_nonneg (Int.gcd m n))]
  rcases Nat.eq_or_lt_of_le (Nat.succ_le_of_lt hpos) with hone | hlarge
  · simp [← hone]
  · exact if_pos (by omega)

theorem make_ofRat (m : Int) {n : Nat} (hn : n ≠ 0) : make m n = ofRat (m / n) := by
  rw [← Rat.mkRat_eq_div, ← Rat.normalize_eq_mkRat hn, Rat.normalize_eq]
  unfold make
  simp only [gcd_eq (Int.natCast_ne_zero.mpr hn),
    Int.fdiv_eq_ediv_of_nonneg _ (Int.natCast_nonneg _)]
  rfl

theorem den_ne_zero (q : ℚ) : (q.den : Int) ≠ 0 := Int.natCast_ne_zero.mpr q.den_nz

variable (p q : ℚ)

/-! ### Arithmetic -/

theorem add_ofRat : add (ofRat p) (ofRat q) = ofRat (p + q) := by
  have hg : (Nat.gcd p.den q.den : Int) ≠ 0 := by
    simp [q.den_nz]
  change _ = ofRat (Rat.add p q)
  unfold Rat.add add combine ofRat
  simp only [gcd_eq (den_ne_zero q), Int.gcd_natCast_natCast, gcd_eq hg, Rat.maybeNormalize_eq,
    ← Int.ofNat_fdiv]
  split
  · simp_all
  · rename_i hne
    rw [dif_neg (by simpa using hne)]
    simp only [Int.divExact_eq_fdiv]
    split
    · simp_all [Int.gcd]
    · rw [Nat.mul_div_assoc]
      · rfl
      · exact (Nat.gcd_dvd_right _ _).trans (Nat.gcd_dvd_right _ _)

theorem sub_eq_add_neg (a b : Rational) : sub a b = add a (neg b) := by
  unfold sub add combine neg
  simp only [Int.neg_mul, Int.sub_eq_add_neg]

theorem mul_ofRat : mul (ofRat p) (ofRat q) = ofRat (p * q) := by
  change _ = ofRat (Rat.mul p q)
  unfold Rat.mul mul ofRat
  simp only [reduce_eq (den_ne_zero _)]
  rfl

variable {q}

theorem ofRat_inv (hq : q ≠ 0) :
    ofRat q⁻¹ = if q.num < 0 then ⟨-q.den, -q.num⟩ else ⟨q.den, q.num⟩ := by
  have hnum : q.num ≠ 0 := Rat.num_ne_zero.mpr hq
  unfold ofRat
  rw [Rat.num_inv, Rat.den_inv, if_neg hnum]
  split_ifs with hneg
  · rw [Int.sign_eq_neg_one_of_neg hneg, Int.neg_one_mul, Int.ofNat_natAbs_of_nonpos hneg.le]
  · rw [Int.sign_eq_one_of_pos (by omega), Int.one_mul, Int.natAbs_of_nonneg (by omega)]

theorem div_ofRat (hq : q ≠ 0) : div (ofRat p) (ofRat q) = .ok (ofRat (p / q)) := by
  have hnum : q.num ≠ 0 := Rat.num_ne_zero.mpr hq
  have hcut : 0 < (Int.gcd p.num q.num : Int) :=
    Int.natCast_pos.mpr (Int.gcd_pos_of_ne_zero_right _ hnum)
  have hden : 0 < (p.den : Int) / Int.gcd p.den q.den :=
    Int.ediv_pos_of_pos_of_dvd (Int.natCast_pos.mpr p.den_pos) (Int.natCast_nonneg _)
      (Int.gcd_dvd_left _ _)
  -- the product with the inverse, whose sign is put right before the multiplication
  rw [Rat.div_def, ← mul_ofRat, ofRat_inv hq]
  unfold div mul ofRat
  rw [if_neg (by simpa using hnum)]
  simp only [reduce_eq hnum, reduce_eq (den_ne_zero _)]
  by_cases hneg : q.num < 0
  · rw [if_pos (mul_neg_of_neg_of_pos (Int.ediv_neg_of_neg_of_pos hneg hcut) hden), if_pos hneg]
    simp only [reduce_eq (neg_ne_zero.mpr hnum), Int.gcd_neg, Int.gcd_comm,
      Int.neg_ediv_of_dvd (Int.gcd_dvd_right ..)]
    simp [mul_comm]
  · rw [if_neg (Int.not_lt.mpr (mul_nonneg (Int.ediv_nonneg (by omega) hcut.le) hden.le)),
      if_neg hneg]
    simp only [reduce_eq hnum, Int.gcd_comm, mul_comm]

theorem pow_ofRat {n : Int} (hn : isWord n) (h : p ≠ 0 ∨ 0 ≤ n) :
    pow (ofRat p) n = .ok (ofRat (p ^ n)) := by
  unfold pow
  rcases Int.lt_trichotomy n 0 with hneg | rfl | hpos
  · obtain ⟨k, rfl⟩ : ∃ k : Nat, n = -k := ⟨n.natAbs, by omega⟩
    have hk : k ≠ 0 := by omega
    have hp : p ≠ 0 := h.resolve_right (by omega)
    rw [zpow_neg, zpow_natCast, ofRat_inv (pow_ne_zero k hp)]
    simp [ofRat, hk, hn, hp]
  · rw [zpow_zero]
    rfl
  · obtain ⟨k, rfl⟩ : ∃ k : Nat, n = k := ⟨n.natAbs, by omega⟩
    have hk : k ≠ 0 := by omega
    simp [ofRat, hk, hn]

theorem pow_eq_error {a : Rational} {n : Int} (hn : ¬isWord n) :
    pow a n = .error (.assertion "exponent is out of range of INT") := by
  have hzero : n ≠ 0 := by
    rintro rfl
    exact hn rfl
  simp [pow, hzero, hn]

theorem abs_ofRat : abs (ofRat p) = ofRat |p| := by
  unfold abs ofRat
  simp

/-! ### Order and rounding -/

variable (q)

theorem eq_ofRat : eq (ofRat p) (ofRat q) = true ↔ p = q := by
  unfold eq ofRat
  rw [Bool.and_eq_true, beq_iff_eq, beq_iff_eq, Int.natCast_inj]
  exact ⟨fun h => Rat.ext h.1 h.2, fun h => h ▸ ⟨rfl, rfl⟩⟩

theorem lt_ofRat : lt (ofRat p) (ofRat q) = true ↔ p < q := by
  unfold lt ofRat
  rw [decide_eq_true_iff, Rat.lt_iff, mul_comm (p.den : Int)]

theorem not_lt_ofRat : (!lt (ofRat p) (ofRat q)) = true ↔ q ≤ p := by
  rw [Bool.not_eq_true', ← Bool.not_eq_true, lt_ofRat, Rat.not_lt]

theorem floor_ofRat : floor (ofRat p) = .ok ⌊p⌋ := by
  unfold floor floorDiv ofRat
  rw [Rat.floor_def', Int.fdiv_eq_ediv_of_nonneg _ (Int.natCast_nonneg _)]
  by_cases h : p.den = 1 <;> simp [h]

theorem ceil_ofRat : ceil (ofRat p) = .ok ⌈p⌉ := by
  rw [show ⌈p⌉ = p.ceil from (Rat.ceil_eq_neg_floor_neg p).symm]
  unfold ceil floorDiv ofRat Rat.ceil
  rw [Int.fdiv_eq_ediv_of_nonneg _ (Int.natCast_nonneg _)]
  by_cases h : p.den = 1 <;> simp [h]

/-- Arithmetic of fractions in lowest terms is that of rational numbers, again in lowest terms; an
exponent is a machine integer, and any other one is refused. -/
theorem lowest_terms_exact {a b : Rational} (ha : a.Lowest) (hb : b.Lowest) :
    (add a b).Is (a.value + b.value) ∧ (sub a b).Is (a.value - b.value) ∧
      (mul a b).Is (a.value * b.value) ∧
      (b.value ≠ 0 → ∃ r, div a b = .ok r ∧ r.Is (a.value / b.value)) ∧
      (neg a).Is (-a.value) ∧ (abs a).Is |a.value| ∧
      (∀ n : Int, isWord n → a.value ≠ 0 ∨ 0 ≤ n → ∃ r, pow a n = .ok r ∧ r.Is (a.value ^ n)) ∧
      (∀ n : Int, ¬isWord n → pow a n = .error (.assertion "exponent is out of range of INT")) ∧
      (eq a b = true ↔ a.value = b.value) ∧
      (lt a b = true ↔ a.value < b.value) ∧ (le a b = true ↔ a.value ≤ b.value) ∧
      (gt a b = true ↔ a.value > b.value) ∧ (ge a b = true ↔ a.value ≥ b.value) ∧
      floor a = .ok ⌊a.value⌋ ∧ ceil a = .ok ⌈a.value⌉ := by
  generalize hp : a.value = p, hq : b.value = q
  obtain rfl : a = ofRat p := hp ▸ ha.eq_ofRat
  obtain rfl : b = ofRat q := hq ▸ hb.eq_ofRat
  refine ⟨add_ofRat p q ▸ ofRat_is _, ?_, mul_ofRat p q ▸ ofRat_is _,
    fun h => ⟨_, div_ofRat p h, ofRat_is _⟩, ofRat_is (-p), abs_ofRat p ▸ ofRat_is _,
    fun n hn h => ⟨_, pow_ofRat p hn h, ofRat_is _⟩, fun n hn => pow_eq_error hn, eq_ofRat p q,
    lt_ofRat p q, not_lt_ofRat q p, lt_ofRat q p, not_lt_ofRat p q, floor_ofRat p, ceil_ofRat p⟩
  rw [sub_eq_add_neg, Rat.sub_eq_add_neg]
  exact add_ofRat p (-q) ▸ ofRat_is _

/-- Two fractions whose denominators share a factor, and so does their sum. -/
theorem lowest_terms_exact_sixth :
    add ⟨1, 6⟩ ⟨-3, 10⟩ = ⟨-2, 15⟩ ∧ (add ⟨1, 6⟩ ⟨-3, 10⟩).Is (value ⟨1, 6⟩ + value ⟨-3, 10⟩) :=
  ⟨by decide, (lowest_terms_exact (by decide) (by decide)).1⟩

/-- An exponent that is no machine integer is refused, also for a base all of whose powers are
known. -/
theorem pow_beyond_words : Lowest ⟨1, 1⟩ ∧ ∀ r, pow ⟨1, 1⟩ (2 ^ 63) ≠ .ok r := by
  refine ⟨by decide, fun r h => ?_⟩
  cases h

end Jib.Rational
