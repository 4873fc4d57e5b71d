import Jib.Interval
import Mathlib.Tactic.Linarith
import Mathlib.Algebra.Order.Ring.Int

/-!
# What intervals hold

An integer is a member of an interval if it lies between the bounds that are present.  Every
operation on intervals is sound: what the operation on integers gives for members is a member of the
result, and narrowing an interval by a comparison keeps the members for which the comparison holds.
-/

namespace Jib.Interval

variable {r s u : Interval} {low high : Option Int} {n x y : Int}
variable {c d k : Int} {surelyFalse surelyTrue : Bool}

instance : Membership Int Interval := ⟨fun r n => r.contains n = true⟩

instance : Decidable (n ∈ r) := inferInstanceAs (Decidable (r.contains n = true))

instance : LawfulBEq Interval where
  eq_of_beq {r s} hrs := by
    obtain ⟨low, high⟩ := r
    obtain ⟨low', high'⟩ := s
    have hbounds : (low == low' && high == high') = true := hrs
    simpa using hbounds
  rfl {r} := by
    obtain ⟨low, high⟩ := r
    change (low == low && high == high) = true
    simp

theorem mem_iff : n ∈ r ↔ (∀ l ∈ r.low, l ≤ n) ∧ ∀ h ∈ r.high, n ≤ h := by
  change r.contains n = true ↔ _
  unfold contains
  cases r.low <;> cases r.high <;> simp

theorem le_of_mem {l : Int} (hn : n ∈ r) (hl : r.low = some l) : l ≤ n :=
  (mem_iff.mp hn).1 l hl

theorem le_high_of_mem {h : Int} (hn : n ∈ r) (hh : r.high = some h) : n ≤ h :=
  (mem_iff.mp hn).2 h hh

/-- An interval can be made exactly if a number is in it. -/
theorem make_eq_ok_iff : make low high = .ok r ↔ r = ⟨low, high⟩ ∧ ∃ n, n ∈ r := by
  unfold make
  split
  · rename_i l h
    split_ifs with hle
    · refine ⟨fun hr => Except.ok.inj hr ▸ ⟨rfl, l, mem_iff.mpr (by simpa using hle)⟩,
        fun hr => hr.1 ▸ rfl⟩
    · refine iff_of_false nofun ?_
      rintro ⟨rfl, n, hn⟩
      exact hle ((le_of_mem hn rfl).trans (le_high_of_mem hn rfl))
  · refine ⟨fun hr => ?_, fun hr => hr.1 ▸ rfl⟩
    obtain rfl := Except.ok.inj hr
    refine ⟨rfl, low.getD (high.getD 0), ?_⟩
    cases low <;> simp_all [mem_iff]

/-- Bounds on either side of a number make an interval. -/
theorem exists_make (hlow : ∀ l ∈ low, l ≤ n) (hhigh : ∀ h ∈ high, n ≤ h) :
    ∃ u, make low high = .ok u ∧ n ∈ u :=
  have hn : n ∈ (⟨low, high⟩ : Interval) := mem_iff.mpr ⟨hlow, hhigh⟩
  ⟨_, make_eq_ok_iff.mpr ⟨rfl, n, hn⟩, hn⟩

/-- What is in an interval that can be made is in the interval that was made. -/
theorem mem_of_exists {e : Result Interval} (hexists : ∃ u, e = .ok u ∧ n ∈ u)
    (hu : e = .ok u) : n ∈ u := by
  obtain ⟨u', hu', hn⟩ := hexists
  exact Except.ok.inj (hu'.symm.trans hu) ▸ hn

theorem mem_unbounded (n : Int) : n ∈ unbounded :=
  mem_iff.mpr ⟨by simp [unbounded], by simp [unbounded]⟩

theorem mem_ofConst (n : Int) : n ∈ ofConst n := mem_iff.mpr ⟨by simp [ofConst], by simp [ofConst]⟩

theorem mem_from {l : Int} (hn : l ≤ n) : n ∈ (⟨some l, none⟩ : Interval) :=
  mem_iff.mpr ⟨by simpa using hn, by simp⟩

/-- The only member of an interval. -/
theorem eq_of_const? (hconst : r.const? = some c) (hn : n ∈ r) : n = c := by
  unfold const? at hconst
  split at hconst
  · rename_i l h hl hh
    split at hconst
    · rename_i heq
      obtain rfl : l = h := by simpa using heq
      cases hconst
      exact le_antisymm (le_high_of_mem hn hh) (le_of_mem hn hl)
    · cases hconst
  · cases hconst

/-! ### Bounds that are combined -/

theorem both_eq_some {f : Int → Int → Int} {p q : Option Int} {z : Int} :
    z ∈ both f p q ↔ ∃ x ∈ p, ∃ y ∈ q, f x y = z := by
  cases p <;> cases q <;> simp [both]

theorem related_eq_true {p : Int → Int → Bool} {b c : Option Int} :
    related p b c = true ↔ ∃ x ∈ b, ∃ y ∈ c, p x y = true := by
  cases b <;> cases c <;> simp [related]

/-! ### Sums -/

/-- Bounds of two intervals, combined, around a number. -/
theorem exists_both {f g : Int → Int → Int} (hlow : ∀ l ∈ r.low, ∀ k ∈ s.low, f l k ≤ n)
    (hhigh : ∀ h ∈ r.high, ∀ k ∈ s.high, n ≤ g h k) :
    ∃ u, make (both f r.low s.low) (both g r.high s.high) = .ok u ∧ n ∈ u := by
  refine exists_make ?_ ?_
  · intro _ hbound
    obtain ⟨l, hl, k, hk, rfl⟩ := both_eq_some.mp hbound
    exact hlow l hl k hk
  · intro _ hbound
    obtain ⟨h, hh, k, hk, rfl⟩ := both_eq_some.mp hbound
    exact hhigh h hh k hk

theorem exists_add (hx : x ∈ r) (hy : y ∈ s) : ∃ u, r.add s = .ok u ∧ x + y ∈ u :=
  exists_both (fun _ hl _ hk => Int.add_le_add (le_of_mem hx hl) (le_of_mem hy hk))
    fun _ hh _ hk => Int.add_le_add (le_high_of_mem hx hh) (le_high_of_mem hy hk)

theorem exists_neg (hx : x ∈ r) : ∃ u, r.neg = .ok u ∧ -x ∈ u := by
  refine exists_make ?_ ?_
  · intro _ hbound
    obtain ⟨h, hh, rfl⟩ := Option.map_eq_some_iff.mp hbound
    exact Int.neg_le_neg (le_high_of_mem hx hh)
  · intro _ hbound
    obtain ⟨l, hl, rfl⟩ := Option.map_eq_some_iff.mp hbound
    exact Int.neg_le_neg (le_of_mem hx hl)

theorem exists_sub (hx : x ∈ r) (hy : y ∈ s) : ∃ u, r.sub s = .ok u ∧ x - y ∈ u := by
  obtain ⟨t, hneg, hmem⟩ := exists_neg hy
  rw [sub, hneg]
  exact exists_add hx hmem

/-! ### Operations that are monotone in either operand -/

/-- A number between two others, whichever of them is the larger one. -/
def Between (p q z : Int) : Prop := min p q ≤ z ∧ z ≤ max p q

theorem Between.of_le {p q z : Int} (hp : p ≤ z) (hq : z ≤ q) : Between p q z :=
  ⟨(min_le_left p q).trans hp, hq.trans (le_max_right p q)⟩

theorem Between.of_ge {p q z : Int} (hp : z ≤ p) (hq : q ≤ z) : Between p q z :=
  ⟨(min_le_right p q).trans hq, hp.trans (le_max_left p q)⟩

/-- An operation that is monotone or antitone in each operand has its extreme values at the
corners. -/
theorem mem_hull {f : Int → Int → Int} {a b : Int} (hfirst : Between (f a y) (f b y) (f x y))
    (hsecond : ∀ z, Between (f z c) (f z d) (f z y)) :
    f x y ∈ hull (f a c) (f b c) (f a d) (f b d) := by
  have hlow := hsecond a
  have hhigh := hsecond b
  unfold Between at hfirst hlow hhigh
  refine mem_iff.mpr ⟨?_, ?_⟩
  · rintro _ ⟨⟩
    omega
  · rintro _ ⟨⟩
    omega

theorem between_mul_left {a b : Int} (ha : a ≤ x) (hb : x ≤ b) (y : Int) :
    Between (a * y) (b * y) (x * y) := by
  rcases Int.le_total 0 y with hy | hy
  · exact .of_le (Int.mul_le_mul_of_nonneg_right ha hy) (Int.mul_le_mul_of_nonneg_right hb hy)
  · exact .of_ge (Int.mul_le_mul_of_nonpos_right ha hy) (Int.mul_le_mul_of_nonpos_right hb hy)

theorem between_mul_right (hc : c ≤ y) (hd : y ≤ d) (x : Int) :
    Between (x * c) (x * d) (x * y) := by
  simpa only [Int.mul_comm] using between_mul_left hc hd x

theorem mem_mul (hx : x ∈ r) (hy : y ∈ s) : x * y ∈ r.mul s := by
  unfold mul
  split
  · rename_i a b c d ha hb hc hd
    exact mem_hull (between_mul_left (le_of_mem hx ha) (le_high_of_mem hx hb) y)
      (between_mul_right (le_of_mem hy hc) (le_high_of_mem hy hd))
  · split
    · rename_i l hl
      obtain ⟨a, ha, c, hc, rfl⟩ := both_eq_some.mp hl
      obtain ⟨ha, ha₀⟩ := Option.filter_eq_some_iff.mp ha
      obtain ⟨hc, hc₀⟩ := Option.filter_eq_some_iff.mp hc
      exact mem_from (Int.mul_le_mul (le_of_mem hx ha) (le_of_mem hy hc) (of_decide_eq_true hc₀)
        ((of_decide_eq_true ha₀).trans (le_of_mem hx ha)))
    · split
      · rename_i l hl
        obtain ⟨b, hb, d, hd, rfl⟩ := both_eq_some.mp hl
        obtain ⟨hb, hb₀⟩ := Option.filter_eq_some_iff.mp hb
        obtain ⟨hd, hd₀⟩ := Option.filter_eq_some_iff.mp hd
        have hxb := le_high_of_mem hx hb
        have hyd := le_high_of_mem hy hd
        have hb₀ := of_decide_eq_true hb₀
        have hd₀ := of_decide_eq_true hd₀
        exact mem_from (by nlinarith)
      · exact mem_unbounded _

/-! ### Division -/

theorem one_le_of_isPositive (hs : s.isPositive = true) (hy : y ∈ s) : 1 ≤ y := by
  unfold isPositive at hs
  split at hs
  · rename_i l hl
    exact (of_decide_eq_true hs).trans (le_of_mem hy hl)
  · cases hs

theorem quotient_eq (hy : 1 ≤ y) (x : Int) : quotient x y = x.tdiv y := by
  have hsigns : (decide (x < 0) != decide (y < 0)) = decide (x < 0) := by
    rw [decide_eq_false (p := y < 0) (by omega), Bool.bne_false]
  unfold quotient
  rw [Int.tdiv_eq_fdiv, hsigns]
  by_cases hx : x < 0
  · have hsign : y.sign = 1 := Int.sign_eq_one_of_pos hy
    by_cases hrest : x.fmod y = 0 <;>
      simp [Int.dvd_iff_fmod_eq_zero, hrest, hx, hsign, show ¬ 0 ≤ x by omega, show 0 ≤ y by omega]
  · simp [hx, show 0 ≤ y by omega]

/-- A larger divisor brings the quotient closer to zero. -/
theorem between_tdiv_right (hc₀ : 1 ≤ c) (hc : c ≤ y) (hd : y ≤ d) (x : Int) :
    Between (x.tdiv c) (x.tdiv d) (x.tdiv y) := by
  have hanti {k m z : Int} (hk : 1 ≤ k) (hkm : k ≤ m) (hz : 0 ≤ z) : z.tdiv m ≤ z.tdiv k := by
    rw [Int.tdiv_eq_ediv_of_nonneg hz, Int.tdiv_eq_ediv_of_nonneg hz]
    have hquotient : 0 ≤ z / m := Int.ediv_nonneg hz (by omega)
    exact Int.le_ediv_of_mul_le (by omega)
      ((Int.mul_le_mul_of_nonneg_left hkm hquotient).trans (Int.ediv_mul_le _ (by omega)))
  rcases Int.le_total 0 x with hx | hx
  · exact .of_ge (hanti hc₀ hc hx) (hanti (hc₀.trans hc) hd hx)
  · have hx' : 0 ≤ -x := by omega
    have hlow := hanti hc₀ hc hx'
    have hhigh := hanti (hc₀.trans hc) hd hx'
    rw [Int.neg_tdiv, Int.neg_tdiv] at hlow hhigh
    exact .of_le (by omega) (by omega)

theorem tdiv_bounds (hy : 1 ≤ y) :
    (0 ≤ x → 0 ≤ x.tdiv y ∧ x.tdiv y ≤ x) ∧ (x ≤ 0 → x ≤ x.tdiv y ∧ x.tdiv y ≤ 0) := by
  have hpos {z : Int} (hz : 0 ≤ z) : 0 ≤ z.tdiv y ∧ z.tdiv y ≤ z := by
    rw [Int.tdiv_eq_ediv_of_nonneg hz]
    exact ⟨Int.ediv_nonneg hz (by omega), Int.ediv_le_self _ hz⟩
  refine ⟨hpos, fun hx => ?_⟩
  have hneg := hpos (show 0 ≤ -x by omega)
  rw [Int.neg_tdiv] at hneg
  omega

theorem exists_tdiv (hx : x ∈ r) (hy : y ∈ s) : ∃ u, r.tdiv s = .ok u ∧ x.tdiv y ∈ u := by
  unfold tdiv
  split
  · rename_i hs
    have hy₁ := one_le_of_isPositive hs hy
    split
    · rename_i a b c d ha hb hc hd
      have hc₁ : 1 ≤ c := one_le_of_isPositive hs (mem_iff.mpr ⟨by simp [hc], by
        rintro h hh
        cases hd.symm.trans hh
        exact (le_of_mem hy hc).trans (le_high_of_mem hy hd)⟩)
      have hd₁ : 1 ≤ d := hy₁.trans (le_high_of_mem hy hd)
      rw [quotient_eq hc₁, quotient_eq hc₁, quotient_eq hd₁, quotient_eq hd₁]
      exact ⟨_, rfl, mem_hull
        (.of_le (Int.tdiv_le_tdiv hy₁ (le_of_mem hx ha))
          (Int.tdiv_le_tdiv hy₁ (le_high_of_mem hx hb)))
        (between_tdiv_right hc₁ (le_of_mem hy hc) (le_high_of_mem hy hd))⟩
    · split
      · rename_i hlow
        obtain ⟨l, hl, hl₀⟩ := (Option.any_eq_true _ _).mp hlow
        have hx₀ := (of_decide_eq_true hl₀).trans (le_of_mem hx hl)
        obtain ⟨hnonneg, hle⟩ := (tdiv_bounds hy₁).1 hx₀
        exact exists_make (by simpa using hnonneg) fun h hh => hle.trans (le_high_of_mem hx hh)
      · split_ifs with hhigh
        · obtain ⟨h, hh, hh₀⟩ := (Option.any_eq_true _ _).mp hhigh
          have hx₀ := (le_high_of_mem hx hh).trans (of_decide_eq_true hh₀)
          obtain ⟨hle, hnonpos⟩ := (tdiv_bounds hy₁).2 hx₀
          exact exists_make (fun l hl => (le_of_mem hx hl).trans hle) (by simpa using hnonpos)
        · exact ⟨_, rfl, mem_unbounded _⟩
  · exact ⟨_, rfl, mem_unbounded _⟩

theorem exists_ediv (hx : x ∈ r) (hy : y ∈ s) : ∃ u, r.ediv s = .ok u ∧ x / y ∈ u := by
  unfold ediv
  split_ifs with hboth
  · obtain ⟨hs, hlow⟩ := Bool.and_eq_true_iff.mp hboth
    have hy₁ := one_le_of_isPositive hs hy
    obtain ⟨l, hl, hl₀⟩ := (Option.any_eq_true _ _).mp hlow
    have hx₀ := (of_decide_eq_true hl₀).trans (le_of_mem hx hl)
    have hnonneg : 0 ≤ x / y := Int.ediv_nonneg hx₀ (by omega)
    exact exists_make (by simpa using hnonneg)
      fun h hh => (Int.ediv_le_self _ hx₀).trans (le_high_of_mem hx hh)
  · exact ⟨_, rfl, mem_unbounded _⟩

/-! ### Shifts -/

theorem shiftLeft_mono_right {m : Int} (hk : k ≤ m) (hx : 0 ≤ x) : shiftLeft x k ≤ shiftLeft x m :=
  Int.mul_le_mul_of_nonneg_left (pow_le_pow_right₀ (by decide) (Int.toNat_le_toNat hk)) hx

theorem between_shiftLeft_right (hc : c ≤ y) (hd : y ≤ d) (x : Int) :
    Between (shiftLeft x c) (shiftLeft x d) (shiftLeft x y) := by
  rcases Int.le_total 0 x with hx | hx
  · exact .of_le (shiftLeft_mono_right hc hx) (shiftLeft_mono_right hd hx)
  · have hx' : 0 ≤ -x := by omega
    have hlow := shiftLeft_mono_right hc hx'
    have hhigh := shiftLeft_mono_right hd hx'
    simp only [shiftLeft, Int.neg_mul] at hlow hhigh ⊢
    exact .of_ge (by omega) (by omega)

theorem le_shiftLeft (hx : 0 ≤ x) (k : Int) : x ≤ shiftLeft x k :=
  le_mul_of_one_le_right hx (one_le_pow₀ (by decide))

theorem mem_lshift (hx : x ∈ r) (hy : y ∈ s) : shiftLeft x y ∈ r.lshift s := by
  unfold lshift
  extract_lets half
  have hhalf : shiftLeft x y ∈ half := by
    unfold half
    split
    · rename_i a c ha hc
      obtain ⟨ha, ha₀⟩ := Option.filter_eq_some_iff.mp ha
      have ha₀ := of_decide_eq_true ha₀
      have hax := le_of_mem hx ha
      split
      · refine mem_from ((shiftLeft_mono_right (le_of_mem hy hc) ha₀).trans ?_)
        exact Int.mul_le_mul_of_nonneg_right hax (Int.pow_nonneg (by decide))
      · exact mem_from (hax.trans (le_shiftLeft (ha₀.trans hax) y))
    · exact mem_unbounded _
  split
  · rename_i a b c d ha hb hc hd
    split
    · exact mem_hull (between_mul_left (le_of_mem hx ha) (le_high_of_mem hx hb) _)
        (between_shiftLeft_right (le_of_mem hy hc) (le_high_of_mem hy hd))
    · exact hhalf
  · exact hhalf

/-- Shifting to the right is division by a power of two that rounds down. -/
theorem shiftRight_eq (x k : Int) : shiftRight x k = x / 2 ^ k.toNat := by
  have hpos : (0 : Int) < 2 ^ k.toNat := Int.pow_pos (by decide)
  unfold shiftRight
  split
  · rename_i hbits
    have hlt : x.natAbs < 2 ^ k.toNat :=
      Nat.lt_log2_self.trans (Nat.pow_lt_pow_right (by decide) hbits)
    have hlt' : (x.natAbs : Int) < 2 ^ k.toNat := by exact_mod_cast hlt
    split_ifs with hneg
    · have hupper : x / 2 ^ k.toNat < 0 := Int.ediv_neg_of_neg_of_pos hneg hpos
      have hlower : -1 ≤ x / 2 ^ k.toNat := Int.le_ediv_of_mul_le hpos (by omega)
      omega
    · exact (Int.ediv_eq_zero_of_lt (by omega) (by omega)).symm
  · exact Int.fdiv_eq_ediv_of_nonneg _ hpos.le

theorem between_shiftRight_right (hc : c ≤ y) (hd : y ≤ d) (x : Int) :
    Between (shiftRight x c) (shiftRight x d) (shiftRight x y) := by
  have hpos (k : Int) : (0 : Int) < 2 ^ k.toNat := Int.pow_pos (by decide)
  -- a larger amount brings the quotient closer to zero, or to minus one
  have hstep {k m : Int} (hkm : k ≤ m) :
      (0 ≤ x → shiftRight x m ≤ shiftRight x k) ∧ (x < 0 → shiftRight x k ≤ shiftRight x m) := by
    have hpow : (2 : Int) ^ k.toNat ≤ 2 ^ m.toNat :=
      pow_le_pow_right₀ (by decide) (Int.toNat_le_toNat hkm)
    have hbound := Int.ediv_mul_le x (hpos k).ne'
    have hbound' := Int.ediv_mul_le x (hpos m).ne'
    rw [shiftRight_eq, shiftRight_eq]
    refine ⟨fun hx => Int.le_ediv_of_mul_le (hpos k) ?_,
      fun hx => Int.le_ediv_of_mul_le (hpos m) ?_⟩
    · have hquotient : 0 ≤ x / 2 ^ m.toNat := Int.ediv_nonneg hx (hpos m).le
      exact (Int.mul_le_mul_of_nonneg_left hpow hquotient).trans hbound'
    · have hquotient : x / 2 ^ k.toNat ≤ 0 := (Int.ediv_neg_of_neg_of_pos hx (hpos k)).le
      exact (Int.mul_le_mul_of_nonpos_left hquotient hpow).trans hbound
  rcases Int.lt_or_le x 0 with hx | hx
  · exact .of_le ((hstep hc).2 hx) ((hstep hd).2 hx)
  · exact .of_ge ((hstep hc).1 hx) ((hstep hd).1 hx)

theorem mem_rshift (hx : x ∈ r) (hy : y ∈ s) : shiftRight x y ∈ r.rshift s := by
  have hmono {a b : Int} (hab : a ≤ b) : shiftRight a y ≤ shiftRight b y := by
    rw [shiftRight_eq, shiftRight_eq]
    exact Int.ediv_le_ediv (Int.pow_pos (by decide)) hab
  unfold rshift
  split
  · rename_i a b c d ha hb hc hd
    split
    · exact mem_hull (.of_le (hmono (le_of_mem hx ha)) (hmono (le_high_of_mem hx hb)))
        (between_shiftRight_right (le_of_mem hy hc) (le_high_of_mem hy hd))
    · exact mem_unbounded _
  · exact mem_unbounded _

/-! ### Joins -/

theorem exists_union (hn : n ∈ r ∨ n ∈ s) : ∃ u, r.union s = .ok u ∧ n ∈ u := by
  refine exists_both (fun l hl k hk => ?_) fun h hh k hk => ?_
  · exact min_le_iff.mpr (hn.imp (le_of_mem · hl) (le_of_mem · hk))
  · exact le_max_iff.mpr (hn.imp (le_high_of_mem · hh) (le_high_of_mem · hk))

theorem mem_union (hu : r.union s = .ok u) (hn : n ∈ r ∨ n ∈ s) : n ∈ u :=
  mem_of_exists (exists_union hn) hu

/-! ### Comparisons -/

/-- A truth value as a number. -/
def ofBool (b : Bool) : Int := if b then 1 else 0

theorem ofBool_injective : Function.Injective ofBool := by
  intro b c hbc
  cases b <;> cases c <;> first | rfl | cases hbc

theorem ofBool_mem_bool (b : Bool) : ofBool b ∈ bool := by
  cases b <;> decide

theorem mem_yes : n ∈ yes ↔ n = 1 := by
  rw [mem_iff]
  simp only [yes, Option.mem_some_iff, forall_eq']
  omega

theorem mem_no : n ∈ no ↔ n = 0 := by
  rw [mem_iff]
  simp only [no, Option.mem_some_iff, forall_eq']
  omega

theorem mem_decided {b : Bool} (htrue : surelyTrue = true → b = true)
    (hfalse : surelyFalse = true → b = false) : ofBool b ∈ decided surelyTrue surelyFalse := by
  unfold decided
  split
  · rename_i h
    rw [htrue h]
    decide
  · split_ifs with h
    · rw [hfalse h]
      decide
    · exact ofBool_mem_bool b

/-- A comparison is decided by the bounds that face each other. -/
theorem mem_compared {p q : Int → Int → Bool} {b : Bool} (hx : x ∈ r) (hy : y ∈ s)
    (htrue : ∀ h l, x ≤ h → l ≤ y → p h l = true → b = true)
    (hfalse : ∀ h l, y ≤ h → l ≤ x → q h l = true → b = false) :
    ofBool b ∈ decided (related p r.high s.low) (related q s.high r.low) := by
  refine mem_decided (fun hrelated => ?_) (fun hrelated => ?_)
  · obtain ⟨h, hh, l, hl, hp⟩ := related_eq_true.mp hrelated
    exact htrue h l (le_high_of_mem hx hh) (le_of_mem hy hl) hp
  · obtain ⟨h, hh, l, hl, hq⟩ := related_eq_true.mp hrelated
    exact hfalse h l (le_high_of_mem hy hh) (le_of_mem hx hl) hq

theorem mem_le (hx : x ∈ r) (hy : y ∈ s) : ofBool (decide (x ≤ y)) ∈ r.le s :=
  mem_compared hx hy (by simp only [decide_eq_true_eq]; omega)
    (by simp only [decide_eq_true_eq, decide_eq_false_iff_not]; omega)

theorem mem_lt (hx : x ∈ r) (hy : y ∈ s) : ofBool (decide (x < y)) ∈ r.lt s :=
  mem_compared hx hy (by simp only [decide_eq_true_eq]; omega)
    (by simp only [decide_eq_true_eq, decide_eq_false_iff_not]; omega)

theorem related_comm (p : Int → Int → Bool) (b c : Option Int) :
    related p b c = related (fun x y => p y x) c b := by
  cases b <;> cases c <;> rfl

theorem ge_eq_le (r s : Interval) : r.ge s = s.le r := by
  rw [ge, le, related_comm, related_comm _ s.low]

theorem gt_eq_lt (r s : Interval) : r.gt s = s.lt r := by
  rw [gt, lt, related_comm, related_comm _ s.low]

/-! ### Narrowing -/

variable {P Q : Int → Prop} {e : Result Interval}

/-- The computation gives the interval of the numbers with a property, and fails if there are
none. -/
def Selects (P : Int → Prop) : Result Interval → Prop
  | .ok u => (∃ n, P n) ∧ ∀ n, n ∈ u ↔ P n
  | .error _ => ∀ n, ¬ P n

theorem Selects.exists_mem (h : Selects P e) (hx : P x) : ∃ u, e = .ok u ∧ x ∈ u := by
  cases e with
  | ok u => exact ⟨u, rfl, (h.2 x).mpr hx⟩
  | error _ => exact absurd hx (h x)

theorem Selects.exists_of_ok (h : Selects P e) (hu : e = .ok u) : ∃ n, P n := by
  subst hu
  exact h.1

theorem Selects.congr (h : Selects P e) (hPQ : ∀ n, P n ↔ Q n) : Selects Q e := by
  obtain rfl : P = Q := funext fun n => propext (hPQ n)
  exact h

theorem selects_make (low high : Option Int) :
    Selects (· ∈ (⟨low, high⟩ : Interval)) (make low high) := by
  cases hmake : make low high with
  | ok u =>
    obtain ⟨rfl, hn⟩ := make_eq_ok_iff.mp hmake
    exact ⟨hn, fun _ => Iff.rfl⟩
  | error f =>
    intro n hn
    cases hmake.symm.trans (make_eq_ok_iff.mpr ⟨rfl, n, hn⟩)

theorem selects_atMost (hx : x ∈ r) (k : Int) : Selects (fun n => n ∈ r ∧ n ≤ k) (r.atMost k) := by
  unfold atMost
  split
  · refine (selects_make r.low (some k)).congr fun n => ?_
    rw [mem_iff, mem_iff]
    cases hhigh : r.high <;> simp_all; grind
  · obtain ⟨h, hh, hk⟩ : ∃ h, r.high = some h ∧ h ≤ k := by
      cases hhigh : r.high <;> simp_all
    have hle {n : Int} (hn : n ∈ r) := (le_high_of_mem hn hh).trans hk
    exact ⟨⟨x, hx, hle hx⟩, fun n => ⟨fun hn => ⟨hn, hle hn⟩, And.left⟩⟩

theorem selects_atLeast (hx : x ∈ r) (k : Int) :
    Selects (fun n => n ∈ r ∧ k ≤ n) (r.atLeast k) := by
  unfold atLeast
  split
  · refine (selects_make (some k) r.high).congr fun n => ?_
    rw [mem_iff, mem_iff]
    cases hlow : r.low <;> simp_all <;> grind
  · obtain ⟨l, hl, hk⟩ : ∃ l, r.low = some l ∧ k ≤ l := by
      cases hlow : r.low <;> simp_all
    have hle {n : Int} (hn : n ∈ r) := hk.trans (le_of_mem hn hl)
    exact ⟨⟨x, hx, hle hx⟩, fun n => ⟨fun hn => ⟨hn, hle hn⟩, And.left⟩⟩

theorem exists_ge_iff (hy : y ∈ s) (k : Int) : (∃ z ∈ s, k ≤ z) ↔ ∀ h ∈ s.high, k ≤ h := by
  refine ⟨fun ⟨z, hz, hk⟩ h hh => hk.trans (le_high_of_mem hz hh), fun hk => ?_⟩
  exact ⟨max y k, mem_iff.mpr ⟨fun _ hl => (le_of_mem hy hl).trans (le_max_left y k),
    fun h hh => max_le (le_high_of_mem hy hh) (hk h hh)⟩, le_max_right y k⟩

theorem exists_le_iff (hy : y ∈ s) (k : Int) : (∃ z ∈ s, z ≤ k) ↔ ∀ l ∈ s.low, l ≤ k := by
  refine ⟨fun ⟨z, hz, hk⟩ l hl => (le_of_mem hz hl).trans hk, fun hk => ?_⟩
  exact ⟨min y k, mem_iff.mpr ⟨fun l hl => le_min (le_of_mem hy hl) (hk l hl),
    fun _ hh => (min_le_left y k).trans (le_high_of_mem hy hh)⟩, min_le_right y k⟩

section

variable (hx : x ∈ r) (hy : y ∈ s)
include hx hy

/-- Narrowing an interval keeps the members that compare in this way with some member of the other
one. -/
theorem selects_below (gap : Int) :
    Selects (fun n => n ∈ r ∧ ∃ z ∈ s, n + gap ≤ z) (r.below gap s) := by
  simp only [exists_ge_iff hy]
  unfold below
  cases s.high with
  | some h => simpa [le_sub_iff_add_le] using selects_atMost hx (h - gap)
  | none => exact ⟨⟨x, hx, nofun⟩, fun n => by simp⟩

theorem selects_above (gap : Int) :
    Selects (fun n => n ∈ r ∧ ∃ z ∈ s, z + gap ≤ n) (r.above gap s) := by
  simp only [← le_sub_iff_add_le, exists_le_iff hy]
  unfold above
  cases s.low with
  | some l => simpa [le_sub_iff_add_le] using selects_atLeast hx (l + gap)
  | none => exact ⟨⟨x, hx, nofun⟩, fun n => by simp⟩

end

/-- An outcome that is open has both truth values. -/
theorem decided_eq_bool_of_mem (hboth : ∀ b, ofBool b ∈ decided surelyTrue surelyFalse) :
    decided surelyTrue surelyFalse = bool := by
  have htrue := hboth true
  have hfalse := hboth false
  revert htrue hfalse
  cases surelyTrue <;> cases surelyFalse <;> decide

/-! ### Smallest intervals -/

variable {f : Int → Int → Int} {a b : Int}

/-- The computation gives the smallest interval with all values of an operation on members. -/
def Tight (f : Int → Int → Int) (r s : Interval) (e : Result Interval) : Prop :=
  ∃ u, e = .ok u ∧ ∀ v : Interval, (∀ x ∈ r, ∀ y ∈ s, f x y ∈ v) ↔ ∀ n ∈ u, n ∈ v

/-- A value of an operation on members. -/
def IsValue (f : Int → Int → Int) (r s : Interval) (z : Int) : Prop := ∃ x ∈ r, ∃ y ∈ s, f x y = z

/-- Bounds that are values of the operation cannot be improved. -/
theorem tight_of_values {l h : Int} (hlow : IsValue f r s l) (hhigh : IsValue f r s h)
    (hsound : ∀ x ∈ r, ∀ y ∈ s, f x y ∈ (⟨some l, some h⟩ : Interval)) :
    Tight f r s (.ok ⟨some l, some h⟩) := by
  refine ⟨_, rfl, fun v => ⟨fun hv n hn => ?_, fun hv x hx y hy => hv _ (hsound x hx y hy)⟩⟩
  obtain ⟨x, hx, y, hy, rfl⟩ := hlow
  obtain ⟨x', hx', y', hy', rfl⟩ := hhigh
  refine mem_iff.mpr ⟨fun k hk => ?_, fun k hk => ?_⟩
  · exact (le_of_mem (hv x hx y hy) hk).trans (le_of_mem hn rfl)
  · exact (le_high_of_mem hn rfl).trans (le_high_of_mem (hv x' hx' y' hy') hk)

theorem tight_hull (ha : a ∈ r) (hb : b ∈ r) (hc : c ∈ s) (hd : d ∈ s)
    (hsound : ∀ x ∈ r, ∀ y ∈ s, f x y ∈ hull (f a c) (f b c) (f a d) (f b d)) :
    Tight f r s (.ok (hull (f a c) (f b c) (f a d) (f b d))) := by
  have hcorner {x y : Int} (hx : x ∈ r) (hy : y ∈ s) : IsValue f r s (f x y) := ⟨x, hx, y, hy, rfl⟩
  exact tight_of_values
    (min_rec' _ (min_rec' _ (hcorner ha hc) (hcorner hb hc))
      (min_rec' _ (hcorner ha hd) (hcorner hb hd)))
    (max_rec' _ (max_rec' _ (hcorner ha hc) (hcorner hb hc))
      (max_rec' _ (hcorner ha hd) (hcorner hb hd))) hsound

theorem tight_make {l h : Int} (hlow : IsValue f r s l) (hhigh : IsValue f r s h)
    (hsound : ∀ x ∈ r, ∀ y ∈ s, ∃ u, make (some l) (some h) = .ok u ∧ f x y ∈ u) :
    Tight f r s (make (some l) (some h)) := by
  obtain ⟨x, hx, y, hy, hl⟩ := id hlow
  obtain ⟨u, hu, -⟩ := hsound x hx y hy
  obtain ⟨rfl, -⟩ := make_eq_ok_iff.mp hu
  rw [hu]
  exact tight_of_values hlow hhigh fun x hx y hy => mem_of_exists (hsound x hx y hy) hu

/-- A decided comparison is decided for all members. -/
theorem decided_for_all {R : Int → Int → Prop} [∀ x y, Decidable (R x y)]
    (hmem : ∀ x ∈ r, ∀ y ∈ s, ofBool (decide (R x y)) ∈ u) :
    (u = yes → ∀ x ∈ r, ∀ y ∈ s, R x y) ∧ (u = no → ∀ x ∈ r, ∀ y ∈ s, ¬ R x y) := by
  constructor
  all_goals
    rintro rfl x hx y hy
    by_cases hR : R x y <;> simp_all [mem_yes, mem_no, ofBool]

/-- Operations on intervals hold every value on members, a comparison is decided only if it comes
out the same for all members, and narrowing keeps exactly the members that compare in this way with
a member of the other interval.  For bounded operands the interval of values is the smallest one. -/
theorem operations_exact (r s : Interval) (hr : ∃ n, n ∈ r) (hs : ∃ n, n ∈ s) :
    (∀ x ∈ r, ∀ y ∈ s,
      (∀ e ∈ [(r.add s, x + y), (r.sub s, x - y), (r.neg, -x), (.ok (r.mul s), x * y),
          (r.tdiv s, x.tdiv y), (r.ediv s, x / y), (r.union s, x), (r.union s, y)],
        ∃ u, e.1 = .ok u ∧ e.2 ∈ u) ∧
      (0 ≤ y → x * 2 ^ y.toNat ∈ r.lshift s ∧ x / 2 ^ y.toNat ∈ r.rshift s)) ∧
    (∀ o ∈ [(le, makeLe, (· ≤ ·)), (lt, makeLt, (· < ·)), (ge, makeGe, (· ≥ ·)),
      (gt, makeGt, (· > ·))], (o.1 r s = yes → ∀ x ∈ r, ∀ y ∈ s, o.2.2 x y) ∧
      (o.1 r s = no → ∀ x ∈ r, ∀ y ∈ s, ¬ o.2.2 x y) ∧
      Selects (fun x => x ∈ r ∧ ∃ y ∈ s, o.2.2 x y) (o.2.1 r s)) ∧
    (r.isBounded → s.isBounded →
      Tight (· + ·) r s (r.add s) ∧ Tight (· - ·) r s (r.sub s) ∧ Tight (fun x _ => -x) r s r.neg ∧
      Tight (· * ·) r s (.ok (r.mul s)) ∧
      ((∀ y ∈ s, 1 ≤ y) → Tight Int.tdiv r s (r.tdiv s)) ∧
      ((∀ y ∈ s, 0 ≤ y ∧ y ≤ 64) → Tight (fun x y => x * 2 ^ y.toNat) r s (.ok (r.lshift s))) ∧
      ((∀ y ∈ s, 0 ≤ y ∧ y ≤ 2 ^ 63 - 1) →
        Tight (fun x y => x / 2 ^ y.toNat) r s (.ok (r.rshift s)))) := by
  obtain ⟨p, hp⟩ := hr
  obtain ⟨q, hq⟩ := hs
  refine ⟨fun x hx y hy => ⟨?_, ?_⟩, ?_, ?_⟩
  · simp only [List.forall_mem_cons]
    exact ⟨exists_add hx hy, exists_sub hx hy, exists_neg hx, ⟨_, rfl, mem_mul hx hy⟩,
      exists_tdiv hx hy, exists_ediv hx hy, exists_union (.inl hx), exists_union (.inr hy), nofun⟩
  · intro _
    exact ⟨mem_lshift hx hy, shiftRight_eq x y ▸ mem_rshift hx hy⟩
  · simp only [List.forall_mem_cons, ge_eq_le, gt_eq_lt, ge_iff_le, gt_iff_lt]
    have hle := decided_for_all (u := r.le s) fun x hx y hy => mem_le hx hy
    have hlt := decided_for_all (u := r.lt s) fun x hx y hy => mem_lt hx hy
    have hge := decided_for_all (u := s.le r) fun y hy x hx => mem_le hy hx
    have hgt := decided_for_all (u := s.lt r) fun y hy x hx => mem_lt hy hx
    have hbelow := selects_below hp hq 0
    have habove := selects_above hp hq 0
    simp only [add_zero] at hbelow habove
    exact ⟨⟨hle.1, hle.2, hbelow⟩, ⟨hlt.1, hlt.2, selects_below hp hq 1⟩,
      ⟨fun h x hx y hy => hge.1 h y hy x hx, fun h x hx y hy => hge.2 h y hy x hx, habove⟩,
      ⟨fun h x hx y hy => hgt.1 h y hy x hx, fun h x hx y hy => hgt.2 h y hy x hx,
        selects_above hp hq 1⟩,
      nofun⟩
  · intro hr hs
    obtain ⟨_ | a, _ | b⟩ := r <;> try cases hr
    obtain ⟨_ | c, _ | d⟩ := s <;> try cases hs
    have hab := (le_of_mem hp rfl).trans (le_high_of_mem hp rfl)
    have hcd := (le_of_mem hq rfl).trans (le_high_of_mem hq rfl)
    have ha : a ∈ (⟨some a, some b⟩ : Interval) := mem_iff.mpr (by simpa using hab)
    have hb : b ∈ (⟨some a, some b⟩ : Interval) := mem_iff.mpr (by simpa using hab)
    have hc : c ∈ (⟨some c, some d⟩ : Interval) := mem_iff.mpr (by simpa using hcd)
    have hd : d ∈ (⟨some c, some d⟩ : Interval) := mem_iff.mpr (by simpa using hcd)
    refine ⟨?_, ?_, ?_, ?_, fun hpos => ?_, fun hamount => ?_, fun hamount => ?_⟩
    · exact tight_make ⟨a, ha, c, hc, rfl⟩ ⟨b, hb, d, hd, rfl⟩ fun x hx y hy => exists_add hx hy
    · have hneg : neg ⟨some c, some d⟩ = .ok ⟨some (-d), some (-c)⟩ := if_pos (Int.neg_le_neg hcd)
      have hsub : sub ⟨some a, some b⟩ ⟨some c, some d⟩ = make (some (a + -d)) (some (b + -c)) := by
        rw [sub, hneg]
        rfl
      rw [hsub]
      exact tight_make ⟨a, ha, d, hd, rfl⟩ ⟨b, hb, c, hc, rfl⟩ fun x hx y hy =>
        hsub ▸ exists_sub hx hy
    · exact tight_make ⟨b, hb, d, hd, rfl⟩ ⟨a, ha, d, hd, rfl⟩ fun x hx y hy => exists_neg hx
    · exact tight_hull ha hb hc hd fun x hx y hy => mem_mul hx hy
    · have htdiv : tdiv ⟨some a, some b⟩ ⟨some c, some d⟩ = .ok (hull _ _ _ _) :=
        if_pos (decide_eq_true (hpos c hc))
      rw [quotient_eq (hpos c hc), quotient_eq (hpos c hc), quotient_eq (hpos d hd),
        quotient_eq (hpos d hd)] at htdiv
      rw [htdiv]
      exact tight_hull ha hb hc hd fun x hx y hy => mem_of_exists (exists_tdiv hx hy) htdiv
    · have hshift : lshift ⟨some a, some b⟩ ⟨some c, some d⟩ = hull _ _ _ _ :=
        if_pos (by simpa using ⟨(hamount c hc).1, (hamount d hd).2⟩)
      rw [hshift]
      exact tight_hull ha hb hc hd fun x hx y hy => hshift ▸ mem_lshift hx hy
    · have hshift : rshift ⟨some a, some b⟩ ⟨some c, some d⟩ = hull _ _ _ _ :=
        if_pos (by simpa using ⟨(hamount c hc).1, (hamount d hd).2⟩)
      rw [hshift]
      simp only [← shiftRight_eq]
      exact tight_hull ha hb hc hd fun x hx y hy => hshift ▸ mem_rshift hx hy

/-- Numbers of either sign times numbers of either sign. -/
theorem operations_exact_mixed :
    Tight (· * ·) ⟨some (-2), some 3⟩ ⟨some (-5), some 4⟩ (.ok ⟨some (-15), some 12⟩) :=
  ((operations_exact ⟨some (-2), some 3⟩ ⟨some (-5), some 4⟩ ⟨0, by decide⟩ ⟨0, by decide⟩).2.2
    rfl rfl).2.2.2.1

end Jib.Interval
