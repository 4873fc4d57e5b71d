import Mathlib.Analysis.Real.Sqrt
import Mathlib.Data.Rat.Sqrt
import Mathlib.Tactic.FieldSimp
import Mathlib.Tactic.Linarith
import Mathlib.Tactic.Rify
import Jib.Proofs.Rational

/-!
# Square roots of rationals

What the square of a Newton iterate exceeds its argument by is the square of the last step, and a
step is at most half as long as the one before.  So the iteration ends, from above, within the steps
that it is given.
-/

namespace Jib.Rational

variable {p b c : ℚ}

theorem isqrt_eq (n : Nat) : isqrt n = n.sqrt := by
  have hloop (x : Nat) : sqrtLoop n x = Nat.sqrt.iter n x := by
    fun_induction sqrtLoop n x with
    | case1 x hlt ih => rw [ih, Nat.sqrt.iter.eq_1 n x, dif_pos hlt]
    | case2 x hlt => rw [Nat.sqrt.iter, dif_neg hlt]
  unfold isqrt Nat.sqrt
  rw [hloop, Nat.one_shiftLeft]
  rcases n with _ | _ | n
  · rfl
  · decide +kernel
  · rfl

theorem sub_ofRat (p q : ℚ) : sub (ofRat p) (ofRat q) = ofRat (p - q) := by
  rw [sub_eq_add_neg, Rat.sub_eq_add_neg]
  exact add_ofRat p (-q)

/-! ### The iteration -/

/-- The guess after another one. -/
def mean (p c : ℚ) : ℚ := (c + p / c) / 2

theorem mean_sq (hc : c ≠ 0) : mean p c ^ 2 = p + (mean p c - c) ^ 2 := by
  unfold mean
  field_simp
  ring

theorem mean_pos (hp : 0 < p) (hc : 0 < c) : 0 < mean p c := by
  unfold mean
  positivity

theorem abs_mean_sub_le (hp : 0 < p) (hc : 0 < c) :
    |mean p (mean p c) - mean p c| ≤ |mean p c - c| / 2 := by
  have hm : 0 < mean p c := mean_pos hp hc
  have hsq := mean_sq (p := p) hc.ne'
  have hstep : mean p (mean p c) - mean p c = -((mean p c - c) ^ 2 / (2 * mean p c)) := by
    rw [← sub_eq_of_eq_add' hsq, mean]
    field_simp
    ring
  have hle : |mean p c - c| ≤ mean p c := abs_le_of_sq_le_sq (by linarith) hm.le
  rw [hstep, abs_neg, abs_of_nonneg (by positivity), div_le_iff₀ (by positivity), ← sq_abs]
  nlinarith [abs_nonneg (mean p c - c)]

theorem newton_succ (hc : c ≠ 0) (fuel : Nat) :
    newton (ofRat p) (ofRat b) (fuel + 1) (ofRat c) =
      if |mean p c - c| ≤ b then .ok (ofRat (mean p c))
      else newton (ofRat p) (ofRat b) fuel (ofRat (mean p c)) := by
  have hstep : newtonStep (ofRat p) (ofRat c) = .ok (ofRat (mean p c)) := by
    unfold newtonStep
    rw [div_ofRat p hc]
    exact (congrArg (div · (ofRat 2)) (add_ofRat c (p / c))).trans (div_ofRat _ two_ne_zero)
  rw [newton, hstep]
  simp only [bind, Except.bind, sub_ofRat, abs_ofRat, le, gt, not_lt_ofRat]
  rfl

theorem newton_of_le (hp : 0 < p) (hc : 0 < c) (h : |mean p c - c| ≤ b) (fuel : Nat) :
    ∃ r, newton (ofRat p) (ofRat b) (fuel + 1) (ofRat c) = .ok (ofRat r) ∧
      0 < r ∧ p ≤ r ^ 2 ∧ r ^ 2 - p ≤ b ^ 2 := by
  refine ⟨_, (newton_succ hc.ne' fuel).trans (if_pos h), mean_pos hp hc, ?_⟩
  rw [mean_sq hc.ne', add_sub_cancel_left]
  exact ⟨le_add_of_nonneg_right (sq_nonneg _), sq_le_sq' (abs_le.mp h).1 (abs_le.mp h).2⟩

theorem newton_stops (hp : 0 < p) (hc : 0 < c) {fuel : Nat} (h : |mean p c - c| ≤ 2 ^ fuel * b) :
    ∃ r, newton (ofRat p) (ofRat b) (fuel + 1) (ofRat c) = .ok (ofRat r) ∧
      0 < r ∧ p ≤ r ^ 2 ∧ r ^ 2 - p ≤ b ^ 2 := by
  induction fuel generalizing c with
  | zero => exact newton_of_le hp hc (by simpa using h) 0
  | succ fuel ih =>
    by_cases hle : |mean p c - c| ≤ b
    · exact newton_of_le hp hc hle _
    · rw [newton_succ hc.ne', if_neg hle]
      rw [pow_succ] at h
      exact ih (mean_pos hp hc) (by linarith [abs_mean_sub_le hp hc])

/-! ### The first guess -/

theorem sqrt_near (hp : 0 < p) : 0 < Rat.sqrt p ∧
    |mean p (Rat.sqrt p) - Rat.sqrt p| ≤ 2 ^ (p.num.natAbs.log2 + p.den.log2 + 199) *
    (p / 10 ^ 30) := by
  have hsqrt : Rat.sqrt p = p.num.toNat.sqrt / p.den.sqrt := Rat.mkRat_eq_div _ _
  have hnum : ((p.num.toNat : ℤ) : ℚ) = p * p.den := by
    rw [Rat.mul_den_eq_num, Int.toNat_of_nonneg (Rat.num_nonneg.mpr hp.le)]
  have hs : (1 : ℚ) ≤ p.num.toNat.sqrt := by
    have := Rat.num_pos.mpr hp
    exact_mod_cast Nat.sqrt_pos.mpr (by omega)
  have hsle : (p.num.toNat.sqrt : ℚ) ≤ p * p.den := hnum ▸ by exact_mod_cast Nat.sqrt_le_self _
  have ht : (1 : ℚ) ≤ p.den.sqrt := by exact_mod_cast Nat.sqrt_pos.mpr p.den_pos
  have htle : (p.den.sqrt : ℚ) ≤ p.den := by exact_mod_cast p.den.sqrt_le_self
  have hg : 0 < Rat.sqrt p := by
    rw [hsqrt]
    positivity
  have hle : Rat.sqrt p ≤ p * p.den := by
    rw [hsqrt]
    exact (div_le_self (by positivity) ht).trans hsle
  have hquot : p / Rat.sqrt p ≤ p * p.den := by
    rw [hsqrt, div_div_eq_mul_div]
    exact (div_le_self (by positivity) hs).trans (by gcongr)
  have hroom : p.den * (10 : ℚ) ^ 30 ≤ 2 ^ (p.num.natAbs.log2 + p.den.log2 + 199) :=
    calc
      p.den * (10 : ℚ) ^ 30 ≤ 2 ^ (p.den.log2 + 1) * 2 ^ 198 := by
        gcongr
        · exact_mod_cast Nat.lt_log2_self.le
        · norm_num
      _ ≤ _ := by
        rw [← pow_add]
        exact pow_le_pow_right₀ one_le_two (by omega)
  have hmul := mul_le_mul_of_nonneg_left ((le_div_iff₀ (by positivity)).mpr hroom) hp.le
  rw [mul_div_left_comm] at hmul
  have hpos := div_pos hp hg
  refine ⟨hg, le_trans (abs_le.mpr ⟨?_, ?_⟩) hmul⟩ <;> unfold mean <;> linarith

theorem sqrt_ofRat (hp : 0 < p) :
    sqrt (ofRat p) = if Rat.sqrt p * Rat.sqrt p = p then .ok (ofRat (Rat.sqrt p))
      else newton (ofRat p) (ofRat (p / 10 ^ 30)) (newtonFuel (ofRat p)) (ofRat (Rat.sqrt p)) := by
  have hnum : 0 < (ofRat p).num := Rat.num_pos.mpr hp
  have hguess :
      make (isqrt (ofRat p).num.toNat) (isqrt (ofRat p).den.toNat) = ofRat (Rat.sqrt p) := by
    change make (isqrt p.num.toNat) (isqrt p.den) = _
    rw [isqrt_eq, isqrt_eq, make_ofRat _ (Nat.sqrt_pos.mpr p.den_pos).ne', Rat.sqrt,
      Rat.mkRat_eq_div]
    rfl
  have hbound : mul ⟨1, 10 ^ 30⟩ (ofRat p) = ofRat (p / 10 ^ 30) := by
    rw [(show Lowest ⟨1, 10 ^ 30⟩ by decide).eq_ofRat, mul_ofRat, value, Int.cast_one,
      one_div_mul_eq_div]
    norm_num
  unfold sqrt isqrtInt
  rw [if_neg hnum.not_gt, if_neg (by simpa using hnum.ne'), if_neg hnum.not_gt, hbound]
  change (if eq (mul (make _ _) (make _ _)) _ = true then Except.ok (make _ _)
    else newton _ _ _ (make _ _)) = _
  rw [hguess, mul_ofRat]
  exact if_congr (eq_ofRat _ p) rfl rfl

theorem exists_sqrt (hp : 0 < p) :
    ∃ r, sqrt (ofRat p) = .ok (ofRat r) ∧ 0 < r ∧ (∀ q : ℚ, 0 ≤ q → q ^ 2 = p → r = q) ∧
      p ≤ r ^ 2 ∧ r ^ 2 - p ≤ (p / 10 ^ 30) ^ 2 := by
  have hroot {q : ℚ} (hq : 0 ≤ q) (h : q ^ 2 = p) : Rat.sqrt p = q := by
    rw [← h, sq, Rat.sqrt_eq, abs_of_nonneg hq]
  obtain ⟨hguess, hnear⟩ := sqrt_near hp
  rw [sqrt_ofRat hp]
  split_ifs with hsq
  · rw [← sq] at hsq
    exact ⟨_, rfl, hguess, fun _ => hroot, hsq.ge, by rw [hsq, sub_self]; positivity⟩
  · obtain ⟨r, hr, hpos, hspec⟩ := newton_stops hp hguess hnear
    refine ⟨r, hr, hpos, fun q hq h => ?_, hspec⟩
    rw [hroot hq h, ← sq] at hsq
    exact (hsq h).elim

/-- The square root of a rational square is exact; any other one is just above the root. -/
theorem sqrt_from_above {a : Rational} (ha : a.Lowest) (h : 0 ≤ a.value) :
    ∃ r, sqrt a = .ok r ∧ r.Lowest ∧ (∀ q : ℚ, 0 ≤ q → q ^ 2 = a.value → r.value = q) ∧
      (¬IsSquare a.value → 0 < r.value ∧ a.value < r.value ^ 2 ∧
        r.value ^ 2 - a.value ≤ (a.value / 10 ^ 30) ^ 2) := by
  generalize hp : a.value = p at h
  obtain rfl : a = ofRat p := hp ▸ ha.eq_ofRat
  rcases h.eq_or_lt with rfl | hpos
  · exact ⟨_, rfl, by decide, fun q _ hq => by simp_all [value, make], fun h => (h .zero).elim⟩
  obtain ⟨r, hr, hrpos, hexact, hle, hnear⟩ := exists_sqrt hpos
  refine ⟨_, hr, (ofRat_is r).1, ?_⟩
  rw [(ofRat_is r).2]
  exact ⟨hexact, fun h => ⟨hrpos, lt_of_le_of_ne hle fun heq => h ⟨r, heq.trans (sq r)⟩, hnear⟩⟩

/-- The root of two, which is no rational. -/
theorem sqrt_from_above_two :
    ∃ r, sqrt ⟨2, 1⟩ = .ok r ∧ 2 < r.value ^ 2 ∧ r.value ^ 2 - 2 ≤ (2 / 10 ^ 30) ^ 2 := by
  have hvalue : value ⟨2, 1⟩ = 2 := by norm_num [value]
  obtain ⟨r, hr, -, -, habove⟩ := sqrt_from_above (a := ⟨2, 1⟩) (by decide) (by simp [hvalue])
  rw [hvalue] at habove
  exact ⟨r, hr, (habove (by rw [Rat.isSquare_iff]; decide +kernel)).2⟩

/-- The tolerance is a share of the argument and not of its root.  Up to `2 * 10 ^ 30`, this gives
30 digits. -/
theorem sqrt_digits {a : Rational} (ha : a.Lowest) (hpos : 0 < a.value)
    (hle : a.value ≤ 2 * 10 ^ 30) :
    ∃ r, sqrt a = .ok r ∧ |(r.value : ℝ) - √a.value| ≤ √a.value / 10 ^ 30 := by
  generalize hp : a.value = p at hpos hle ⊢
  obtain rfl : a = ofRat p := hp ▸ ha.eq_ofRat
  obtain ⟨r, hr, hrpos, -, hbelow, hnear⟩ := exists_sqrt hpos
  refine ⟨_, hr, ?_⟩
  rw [(ofRat_is r).2]
  rify at hpos hle hrpos hbelow hnear
  have hs := Real.sqrt_pos.mpr hpos
  have hroot := Real.sqrt_le_iff.mpr ⟨hrpos.le, hbelow⟩
  have hsq := Real.sq_sqrt hpos.le
  rw [abs_of_nonneg (sub_nonneg.mpr hroot)]
  generalize √(p : ℝ) = s at hs hroot hsq ⊢
  rw [← hsq] at hnear hle
  -- `r - s` times at least `2 * s` is the difference of the squares
  refine le_of_mul_le_mul_right ?_ (mul_pos two_pos hs)
  calc
    (r - s) * (2 * s) ≤ r ^ 2 - s ^ 2 := by nlinarith
    _ ≤ (s ^ 2 / 10 ^ 30) ^ 2 := hnear
    _ ≤ s / 10 ^ 30 * (2 * s) := by nlinarith

theorem sqrt_digits_two : ∃ r, sqrt ⟨2, 1⟩ = .ok r ∧ |(r.value : ℝ) - √2| ≤ √2 / 10 ^ 30 := by
  have hvalue : value ⟨2, 1⟩ = 2 := by norm_num [value]
  obtain ⟨r, hr, hdigits⟩ :=
    sqrt_digits (a := ⟨2, 1⟩) (by decide) (by simp [hvalue]) (by norm_num [hvalue])
  exact ⟨r, hr, by simpa [hvalue] using hdigits⟩

/-- Here the first step is within the tolerance already. -/
theorem sqrt_far : Lowest ⟨10 ^ 62, 3⟩ ∧ ∃ r, sqrt ⟨10 ^ 62, 3⟩ = .ok r ∧
    √(10 ^ 62 / 3) / 10 ^ 30 < |(r.value : ℝ) - √(10 ^ 62 / 3)| := by
  refine ⟨by decide, ⟨2 * 10 ^ 31, 3⟩, by decide +kernel, lt_abs.mpr (.inl ?_)⟩
  have hlt : √(10 ^ 62 / 3) < 6 * 10 ^ 30 := by
    rw [Real.sqrt_lt' (by norm_num)]
    norm_num
  generalize √(10 ^ 62 / 3) = s at hlt ⊢
  norm_num [value] at hlt ⊢
  linarith

end Jib.Rational
