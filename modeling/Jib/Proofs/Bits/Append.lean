import Jib.Bits.Append
import Jib.Proofs.Bits.Extension
import Jib.Proofs.Bits.Logic

/-!
# Concatenation of bit vectors

The concatenation of two vectors has the sum of their widths and the bits of the second below those
of the first.  It goes to a cell of its own, or is the first vector itself if the second is empty,
and no cell that there was is changed.  An empty vector in front of one of more than 64 bits is
refused.
-/

namespace Jib.Bits

variable {s t : Cells} {p q : Nat} {a b c : Bits} {u w : Nat}

/-! ### Cells -/

def Keeps (s t : Cells) : Prop := ∀ (k : Nat) (d : Bits), s[k]? = some d → t[k]? = some d

theorem Keeps.refl (s : Cells) : Keeps s s := fun _ _ hk => hk

theorem Keeps.append (hst : Keeps s t) (ds : List Bits) : Keeps s (t ++ ds) := fun k d hk => by
  have ht := hst k d hk
  rw [List.getElem?_append_left (List.getElem?_eq_some_iff.mp ht).1, ht]

/-- A cell that was not there can be overwritten. -/
theorem Keeps.set (hst : Keeps s t) (hp : s.length ≤ p) (d : Bits) : Keeps s (t.set p d) :=
  fun k e hk => by
    have hlt := (List.getElem?_eq_some_iff.mp hk).1
    rw [List.getElem?_set_ne (by omega), hst k e hk]

theorem read_eq (hp : s[p]? = some a) : s.read p = a := by
  rw [Cells.read, List.getD_eq_getElem?_getD, hp, Option.getD_some]

theorem set_eq_self (hp : s[p]? = some a) : s.set p a = s := by
  obtain ⟨hlt, rfl⟩ := List.getElem?_eq_some_iff.mp hp
  exact List.set_getElem_self hlt

/-! ### Bits in place -/

theorem wordsToNat_heldWords (b : Bits) : wordsToNat (heldWords b) = b.toNat := by
  cases b with
  | small w v | sparse w v => exact wordsToNat_singleton v
  | wide w ws => exact (toNat_wide w ws).symm

theorem length_heldWords_le (hb : b.WellFormed) (hw : 64 < w) (hle : b.width ≤ w) :
    (heldWords b).length ≤ wordCount w := by
  have hone : 1 ≤ wordCount w := by
    rw [wordCount]
    omega
  cases b with
  | small u v => exact hone
  | sparse u v => exact hone
  | wide u ws =>
    have hle' : u ≤ w := hle
    rw [heldWords, hb.2.1, wordCount, wordCount]
    omega

theorem wordsToNat_or {xs : List UInt64} (hx : (wide w xs).WellFormed) (hb : b.WellFormed)
    (hle : b.width ≤ w) :
    ∃ out, Digits.combine (· ||| ·) xs (heldWords b) = .ok out ∧ (wide w out).WellFormed ∧
      wordsToNat out = wordsToNat xs ||| b.toNat := by
  obtain ⟨out, hout, hlength, hbits⟩ := Digits.exists_combine bitByBit_or
    (show (heldWords b).length ≤ xs.length by
      rw [hx.2.1]
      exact length_heldWords_le hb hx.1 hle)
  have hvalue : wordsToNat out = wordsToNat xs ||| b.toNat := by
    apply Nat.eq_of_testBit_eq
    intro k
    rw [hbits, wordsToNat_heldWords, Nat.testBit_or]
    split_ifs with hk
    · rfl
    · have hlt := wordsToNat_lt (heldWords b)
      rw [wordsToNat_heldWords] at hlt
      rw [Nat.testBit_lt_two_pow
        (hlt.trans_le (Nat.pow_le_pow_right (by decide) (Nat.le_of_not_lt hk))), Bool.or_false]
  refine ⟨out, hout, ⟨hx.1, hlength.trans hx.2.1, ?_⟩, hvalue⟩
  rw [hvalue]
  exact Nat.or_lt_two_pow hx.2.2 (hb.toNat_lt.trans_le (Nat.pow_le_pow_right (by decide) hle))

/-- Bits can be put into a list of words, and those of one word into a sparse vector too. -/
theorem exists_orInto {y : Bits} (hp : s[p]? = some y) (hy : y.WellFormed) (hw : 64 < y.width)
    (hb : b.WellFormed) (hle : b.width ≤ y.width) (hform : b.width ≤ 64 ∨ y.IsList) :
    ∃ z, orInto s p b = .ok (s.set p z) ∧ z.WellFormed ∧ z.width = y.width ∧
      z.toNat = y.toNat ||| b.toNat ∧ (z.IsList ↔ y.IsList) := by
  unfold orInto
  rw [read_eq hp]
  cases y with
  | small w v => exact absurd hy.1 (Nat.not_le.mpr hw)
  | sparse w v =>
    obtain ⟨u, hu⟩ := hb.eq_small rfl (hform.resolve_right id)
    rw [hu]
    exact ⟨sparse w (v ||| u), rfl, hy, rfl, UInt64.toNat_or v u, Iff.rfl⟩
  | wide w xs =>
    obtain ⟨out, hout, hwell, hvalue⟩ := wordsToNat_or hy hb hle
    dsimp only
    rw [hout]
    exact ⟨wide w out, rfl, hwell, rfl, by rw [toNat_wide, toNat_wide, hvalue], Iff.rfl⟩

/-! ### The concatenation of two vectors -/

/-- The vector has the bits of the second below those of the first. -/
structure IsConcat (a b c : Bits) : Prop where
  wellFormed : c.WellFormed
  width_eq : c.width = a.width + b.width
  toNat_eq : c.toNat = a.toNat * 2 ^ b.width + b.toNat

/-- The computation gives a cell with the concatenation of two vectors and keeps all cells that
there were. -/
def Concatenates (r : Result (Nat × Cells)) (s : Cells) (a b : Bits) : Prop :=
  ∃ k t c, r = .ok (k, t) ∧ t[k]? = some c ∧ IsConcat a b c ∧ Keeps s t

theorem concat_lt (ha : a.WellFormed) (hb : b.WellFormed) :
    a.toNat * 2 ^ b.width + b.toNat < 2 ^ (a.width + b.width) := by
  have hlt := ha.toNat_lt
  calc a.toNat * 2 ^ b.width + b.toNat
      < a.toNat * 2 ^ b.width + 2 ^ b.width := Nat.add_lt_add_left hb.toNat_lt _
    _ = (a.toNat + 1) * 2 ^ b.width := by ring
    _ ≤ 2 ^ a.width * 2 ^ b.width := Nat.mul_le_mul_right _ hlt
    _ = 2 ^ (a.width + b.width) := (pow_add 2 a.width b.width).symm

theorem Makes.concatenates {r : Result Bits} (ha : a.WellFormed) (hb : b.WellFormed)
    (hr : Makes r (a.width + b.width) (a.toNat * 2 ^ b.width + b.toNat : Nat)) :
    Concatenates (do return s.add (← r)) s a b := by
  obtain ⟨c, rfl, hwell, hwidth, hvalue⟩ := hr.exists_toNat_eq (concat_lt ha hb)
  exact ⟨s.length, s ++ [c], c, rfl, List.getElem?_concat_length, ⟨hwell, hwidth, hvalue⟩,
    (Keeps.refl s).append [c]⟩

theorem makes_mkWide_cons (ha : a.WellFormed) (hpos : 0 < a.width) (v : UInt64) :
    Makes (mkWide (a.width + 64) (v :: words a)) (a.width + 64)
    (a.toNat * 2 ^ 64 + v.toNat : Nat) := by
  have hlt := concat_lt ha (b := small 64 v) ⟨Nat.le_refl 64, v.toNat_lt⟩
  have hvalue : wordsToNat (v :: words a) = a.toNat * 2 ^ 64 + v.toNat := by
    rw [wordsToNat_cons, wordsToNat_words]
    ring
  have hlength : (v :: words a).length = wordCount (a.width + 64) := by
    rw [List.length_cons, length_words ha hpos, wordCount, wordCount]
    omega
  have hwide : 64 < a.width + 64 := by omega
  rw [← hvalue]
  exact makes_mkWide hwide hlength (by rw [hvalue]; exact hlt)

theorem makes_appendWord (ha : a.WellFormed) (v : UInt64) :
    Makes (appendWord a v) (a.width + 64) (a.toNat * 2 ^ 64 + v.toNat : Nat) := by
  have hzero {n : Nat} (hn : n = 0) : n * 2 ^ 64 + v.toNat = v.toNat := by
    rw [hn, Nat.zero_mul, Nat.zero_add]
  cases a with
  | small w u =>
    rw [appendWord]
    split_ifs with hu
    · rw [hzero (by rw [beq_iff_eq.mp hu]; rfl)]
      exact makes_ofWord (w + 64) v
    · have hpos : 0 < w := by
        apply Nat.pos_of_ne_zero
        rintro rfl
        have hone : u.toNat < 1 := ha.2
        exact hu (beq_iff_eq.mpr (UInt64.toNat_inj.mp (by rw [UInt64.toNat_zero]; omega)))
      exact makes_mkWide_cons ha hpos v
  | sparse w u =>
    have hw : 64 < w := ha
    have hw' : 64 < w + 64 := by omega
    rw [appendWord]
    split_ifs with hu
    · rw [hzero (by rw [beq_iff_eq.mp hu]; rfl)]
      exact makes_mkSparse hw' v
    · have hcount : wordCount (w + 64) - 2 = wordCount w - 1 := by
        rw [wordCount, wordCount]
        omega
      rw [hcount]
      exact makes_mkWide_cons ha (Nat.zero_lt_of_lt hw) v
  | wide w ws => exact makes_mkWide_cons ha (Nat.zero_lt_of_lt ha.1) v

/-- Two vectors that fit one word together. -/
theorem makes_joined {v x : UInt64} (ha : (small w v).WellFormed) (hb : (small u x).WellFormed)
    (hsum : w + u ≤ 64) :
    Makes (ofWord (w + u) (Word.shl v u ||| x)) (w + u) (v.toNat * 2 ^ u + x.toNat : Nat) := by
  rw [← Word.toNat_shl_or ha.2 hb.2 hsum]
  exact makes_ofWord (w + u) _

/-! ### By extension and shift -/

theorem shiftLeft_sparse_of_le {i : Nat} (hi : 64 ≤ i) (v : UInt64) :
    shiftLeft (sparse w v) i = shiftLeftWide w (words (sparse w v)) i := by
  have hfits : ¬ (decide ((i : Int) < 64) && Word.shr v (64 - (i : Int).toNat) == 0) = true := by
    rw [decide_eq_false (by omega)]
    exact Bool.false_ne_true
  rw [shiftLeft, if_neg (by omega), if_neg (by rw [beq_iff_eq]; omega), if_neg hfits]

/-- Only a shift by the whole width gives a sparse vector, from one word on. -/
theorem isList_of_shiftLeft (ha : a.WellFormed) (hw : 64 < a.width) {i : Nat} (hi : 64 ≤ i)
    (hlt : i < a.width) (hb : shiftLeft a i = .ok b) : b.IsList := by
  have hwide {w : Nat} (hiw : i < w) {ws : List UInt64} (hb : shiftLeftWide w ws i = .ok b) :
      b.IsList := by
    rw [shiftLeftWide, if_neg (by omega), if_neg (by rw [beq_iff_eq]; omega), if_neg (by omega)]
      at hb
    exact isList_of_mkWideMasked hb
  cases a with
  | small w v => exact absurd ha.1 (Nat.not_le.mpr hw)
  | sparse w v =>
    rw [shiftLeft_sparse_of_le hi] at hb
    exact hwide hlt hb
  | wide w ws => exact hwide hlt hb

section

variable (hp : s[p]? = some a)
include hp

theorem shiftLeftAt_eq {i : Int} (hi : i ≠ 0) :
    shiftLeftAt s p i = do return s.add (← shiftLeft a i) := by
  unfold shiftLeftAt
  rw [read_eq hp]
  cases a with
  | small w v => rfl
  | sparse w v => exact if_neg (by rwa [beq_iff_eq])
  | wide w ws => exact if_neg (by rwa [beq_iff_eq])

theorem zeroExtendAt_eq {i : Int} (hi : i ≠ a.width) :
    zeroExtendAt s p i = do return s.add (← zeroExtend a i) := by
  unfold zeroExtendAt
  rw [read_eq hp, if_neg (by rwa [beq_iff_eq])]

theorem appendShifted_eq {s₁ s₂ : Cells} {x y : Nat} (hq : s[q]? = some b)
    (hx : zeroExtendAt s p (a.width + b.width) = .ok (x, s₁))
    (hy : shiftLeftAt s₁ x b.width = .ok (y, s₂)) :
    appendShifted s p q = do return (y, ← orInto s₂ y b) := by
  simp only [appendShifted, read_eq hp, read_eq hq, hx]
  change (do let r ← shiftLeftAt s₁ x b.width; return (r.1, ← orInto r.2 r.1 b)) = _
  rw [hy]
  rfl

/-- An empty vector leaves the other in its cell. -/
theorem appendShifted_empty (hq : s[q]? = some b) (ha : a.WellFormed) (hb : b.WellFormed)
    (hw : 64 < a.width) (hempty : b.width = 0) : appendShifted s p q = .ok (p, s) := by
  have hextend : zeroExtendAt s p (a.width + b.width) = .ok (p, s) := by
    unfold zeroExtendAt
    rw [read_eq hp, if_pos (by simp [hempty])]
  have hshift : shiftLeftAt s p b.width = .ok (p, s) := by
    unfold shiftLeftAt
    rw [read_eq hp, hempty]
    cases a with
    | small w v => exact absurd ha.1 (Nat.not_le.mpr hw)
    | sparse w v => rfl
    | wide w ws => rfl
  -- the bits go into the first vector itself, but there are none
  obtain ⟨z, hor, hwell, hwidth, hvalue, hform⟩ :=
    exists_orInto hp ha hw hb (by omega) (.inl (by omega))
  rw [hb.toNat_eq_zero hempty, Nat.or_zero] at hvalue
  obtain rfl := eq_of_toNat_eq hwell ha hwidth rfl hvalue hform
  rw [set_eq_self hp] at hor
  rw [appendShifted_eq hp hq hextend hshift, hor]
  rfl

/-- Extension and shift go to cells of their own, and give a list of words if the bits that have to
go below are more than a word. -/
theorem exists_extended_shifted (ha : a.WellFormed) (hfront : 0 < a.width) (hu : 0 < u)
    (hsum : 64 < a.width + u) :
    ∃ x y, zeroExtendAt s p (a.width + u) = .ok (s.length, s ++ [x]) ∧
      shiftLeftAt (s ++ [x]) s.length u = .ok (s.length + 1, s ++ [x] ++ [y]) ∧ y.WellFormed ∧
      y.width = a.width + u ∧ y.toNat = a.toNat * 2 ^ u ∧ (u ≤ 64 ∨ y.IsList) := by
  have hin : a.toNat < 2 ^ (a.width + u) :=
    ha.toNat_lt.trans_le (Nat.pow_le_pow_right (by decide) (Nat.le_add_right _ _))
  have hlt : a.toNat * 2 ^ u < 2 ^ (a.width + u) := by
    rw [pow_add]
    exact Nat.mul_lt_mul_of_pos_right ha.toNat_lt (Nat.two_pow_pos u)
  obtain ⟨x, hx, hxwell, hxwidth, hxvalue⟩ :=
    (makes_zeroExtend ha (Nat.le_add_right a.width u)).exists_toNat_eq hin
  have hshifted := makes_shiftLeft hxwell u
  rw [hxwidth, hxvalue] at hshifted
  obtain ⟨y, hy, hywell, hywidth, hyvalue⟩ :=
    Makes.exists_toNat_eq (by exact hshifted) hlt
  refine ⟨x, y, ?_, ?_, hywell, hywidth, hyvalue, ?_⟩
  · rw [zeroExtendAt_eq hp (by omega), ← Nat.cast_add, hx]
    rfl
  · rw [shiftLeftAt_eq List.getElem?_concat_length (by omega), hy]
    simp only [Cells.add, List.length_append]
    rfl
  · rcases Nat.lt_or_ge 64 u with hwide | hword
    · exact .inr (isList_of_shiftLeft hxwell (by omega) hwide.le (by omega) hy)
    · exact .inl hword

theorem concatenates_appendShifted (hq : s[q]? = some b) (ha : a.WellFormed) (hb : b.WellFormed)
    (hfront : 0 < a.width) (hsum : 64 < a.width + b.width) :
    Concatenates (appendShifted s p q) s a b := by
  rcases Nat.eq_zero_or_pos b.width with hempty | hpos
  · rw [appendShifted_empty hp hq ha hb (by omega) hempty]
    refine ⟨p, s, a, rfl, hp, ⟨ha, by omega, ?_⟩, Keeps.refl s⟩
    rw [hempty, hb.toNat_eq_zero hempty, pow_zero, mul_one, add_zero]
  · obtain ⟨x, y, hextend, hshift, hy, hywidth, hyvalue, hform⟩ :=
      exists_extended_shifted hp ha hfront hpos hsum
    have hplace : (s ++ [x] ++ [y])[s.length + 1]? = some y := by simp
    obtain ⟨z, hor, hwell, hwidth, hvalue, -⟩ :=
      exists_orInto hplace hy (by omega) hb (by omega) hform
    rw [appendShifted_eq hp hq hextend hshift, hor]
    refine ⟨s.length + 1, _, z, rfl, ?_, ⟨hwell, hwidth.trans hywidth, ?_⟩, ?_⟩
    · rw [List.getElem?_set_self (by simp)]
    · rw [hvalue, hyvalue, mul_comm, Nat.two_pow_add_eq_or_of_lt hb.toNat_lt]
    · -- the cell that is written is a new one, so it is neither operand's
      exact (((Keeps.refl s).append [x]).append [y]).set (Nat.le_succ _) z

end

/-! ### Vectors in cells -/

theorem appendAt_eq_appendShifted (hp : s[p]? = some a) (hq : s[q]? = some b) (hb : b.WellFormed)
    (hw : 64 < b.width) : appendAt s p q = appendShifted s p q := by
  unfold appendAt
  rw [read_eq hp, read_eq hq]
  obtain ⟨x, hx⟩ | ⟨us, hus⟩ := hb.sparse_or_wide rfl hw
  · rw [hx]
    cases a <;> rfl
  · rw [hus]
    cases a <;> rfl

theorem concatenates_below {x : UInt64} (hp : s[p]? = some a) (hq : s[q]? = some (small u x))
    (ha : a.WellFormed) (hb : (small u x).WellFormed) (hfront : 0 < a.width)
    (hsum : 64 < a.width + u) :
    Concatenates (if u == 64 then do return s.add (← appendWord a x) else appendShifted s p q) s a
      (small u x) := by
  split_ifs with hword
  · obtain rfl := beq_iff_eq.mp hword
    exact (makes_appendWord ha x).concatenates ha hb
  · exact concatenates_appendShifted hp hq ha hb hfront hsum

theorem concatenates_appendAt (hp : s[p]? = some a) (hq : s[q]? = some b) (ha : a.WellFormed)
    (hb : b.WellFormed) (hfront : a.width = 0 → b.width ≤ 64) :
    Concatenates (appendAt s p q) s a b := by
  rcases Nat.lt_or_ge 64 b.width with hwide | hword
  · rw [appendAt_eq_appendShifted hp hq hb hwide]
    have hpos : 0 < a.width := Nat.pos_of_ne_zero fun hempty => Nat.not_lt.mpr (hfront hempty) hwide
    exact concatenates_appendShifted hp hq ha hb hpos (by omega)
  · obtain ⟨x, hx⟩ := hb.eq_small rfl hword
    generalize b.width = u at hx hword
    subst hx
    unfold appendAt
    rw [read_eq hp, read_eq hq]
    cases a with
    | small w v =>
      dsimp only
      split
      · rename_i hsum
        exact (makes_joined ha hb hsum).concatenates ha hb
      · exact concatenates_below hp hq ha hb (by rw [width]; omega) (by rw [width]; omega)
    | sparse w v =>
      exact concatenates_below hp hq ha hb (Nat.zero_lt_of_lt ha) (Nat.lt_add_right u ha)
    | wide w ws =>
      exact concatenates_below hp hq ha hb (Nat.zero_lt_of_lt ha.1) (Nat.lt_add_right u ha.1)

theorem zeroExtend_empty (hu : 64 < u) (v : UInt64) :
    zeroExtend (small 0 v) u = .ok (sparse u v) := by
  rw [zeroExtend, width, if_neg (by rw [beq_iff_eq]; omega), if_neg (by omega), ofWord,
    if_neg (by omega), mkSparse_eq hu]

theorem shiftLeft_sparse_width (hu : 64 < u) (v : UInt64) :
    shiftLeft (sparse u v) u = .ok (sparse u 0) := by
  rw [shiftLeft_sparse_of_le hu.le, shiftLeftWide, if_neg (by omega),
    if_neg (by rw [beq_iff_eq]; omega), if_pos (by omega), mkSparse_eq hu]

/-- An empty vector is shifted by its whole width, which gives a sparse vector, and into this more
than one word cannot go. -/
theorem appendAt_empty_front (hp : s[p]? = some a) (hq : s[q]? = some b) (ha : a.WellFormed)
    (hb : b.WellFormed) (hempty : a.width = 0) (hw : 64 < b.width) :
    appendAt s p q = .error .assertion := by
  obtain ⟨v, rfl⟩ := ha.eq_small hempty (Nat.zero_le 64)
  have hextend : zeroExtendAt s p ((small 0 v).width + b.width) =
      .ok (s.length, s ++ [sparse b.width v]) := by
    rw [zeroExtendAt_eq hp (by omega), hempty, Nat.cast_zero, zero_add, zeroExtend_empty hw]
    rfl
  have hshift : shiftLeftAt (s ++ [sparse b.width v]) s.length b.width =
      .ok (s.length + 1, s ++ [sparse b.width v] ++ [sparse b.width 0]) := by
    rw [shiftLeftAt_eq List.getElem?_concat_length (by omega), shiftLeft_sparse_width hw]
    simp only [Cells.add, List.length_append]
    rfl
  have hplace : (s ++ [sparse b.width v] ++ [sparse b.width 0])[s.length + 1]? =
      some (sparse b.width 0) := by simp
  have hrefused : orInto (s ++ [sparse b.width v] ++ [sparse b.width 0]) (s.length + 1) b =
      .error .assertion := by
    unfold orInto
    rw [read_eq hplace]
    cases b with
    | small u x => exact absurd hb.1 (Nat.not_le.mpr hw)
    | sparse u x => rfl
    | wide u us => rfl
  rw [appendAt_eq_appendShifted hp hq hb hw, appendShifted_eq hp hq hextend hshift, hrefused]
  rfl

/-! ### Two vectors -/

theorem append_eq : append a b = do
    let r ← appendAt [a, b] 0 1
    return r.2.read r.1 := rfl

section

variable (ha : a.WellFormed) (hb : b.WellFormed)
include ha hb

theorem exists_append (hfront : a.width = 0 → b.width ≤ 64) :
    ∃ c, append a b = .ok c ∧ IsConcat a b c := by
  obtain ⟨k, t, c, happend, hk, hconcat, -⟩ :=
    concatenates_appendAt (s := [a, b]) (p := 0) (q := 1) rfl rfl ha hb hfront
  refine ⟨c, ?_, hconcat⟩
  rw [append_eq, happend, ← read_eq hk]
  rfl

theorem append_empty_front (hempty : a.width = 0) (hw : 64 < b.width) :
    append a b = .error .assertion := by
  rw [append_eq, appendAt_empty_front rfl rfl ha hb hempty hw]
  rfl

theorem isConcat_of_append (hc : append a b = .ok c) :
    (a.width = 0 → b.width ≤ 64) ∧ IsConcat a b c := by
  have hfront : a.width = 0 → b.width ≤ 64 := by
    intro hempty
    by_contra hw
    rw [append_empty_front ha hb hempty (Nat.lt_of_not_le hw)] at hc
    cases hc
  obtain ⟨d, hd, hconcat⟩ := exists_append ha hb hfront
  rw [hc] at hd
  cases hd
  exact ⟨hfront, hconcat⟩

end

/-! ### Empty vectors -/

section

variable (ha : a.WellFormed) (hb : b.WellFormed)
include ha hb

theorem eq_of_toNat_eq_of_le (hwidth : a.width = b.width) (hw : b.width ≤ 64)
    (hvalue : a.toNat = b.toNat) : a = b :=
  eq_of_toNat_eq ha hb hwidth rfl hvalue
    (iff_of_false (ha.not_isList (hwidth.trans_le hw)) (hb.not_isList hw))

theorem append_empty_back (hempty : b.width = 0) : append a b = .ok a := by
  rcases Nat.lt_or_ge 64 a.width with hwide | hword
  · have hshifted : appendAt [a, b] 0 1 = appendShifted [a, b] 0 1 := by
      obtain ⟨x, rfl⟩ := hb.eq_small hempty (Nat.zero_le 64)
      obtain ⟨v, hv⟩ | ⟨ws, hws⟩ := ha.sparse_or_wide rfl hwide
      · rw [hv]
        rfl
      · rw [hws]
        rfl
    rw [append_eq, hshifted, appendShifted_empty rfl rfl ha hb hwide hempty]
    rfl
  · obtain ⟨c, hc, hconcat⟩ := exists_append ha hb (by omega)
    obtain rfl : c = a := by
      refine eq_of_toNat_eq_of_le hconcat.wellFormed ha ?_ hword ?_
      · rw [hconcat.width_eq, hempty, add_zero]
      · rw [hconcat.toNat_eq, hempty, hb.toNat_eq_zero hempty, pow_zero, mul_one, add_zero]
    exact hc

theorem append_empty_front_iff (hempty : a.width = 0) : append a b = .ok b ↔ b.width ≤ 64 := by
  constructor
  · intro hc
    exact (isConcat_of_append ha hb hc).1 hempty
  · intro hw
    obtain ⟨c, hc, hconcat⟩ := exists_append ha hb fun _ => hw
    obtain rfl : c = b := by
      refine eq_of_toNat_eq_of_le hconcat.wellFormed hb ?_ hw ?_
      · rw [hconcat.width_eq, hempty, zero_add]
      · rw [hconcat.toNat_eq, ha.toNat_eq_zero hempty, zero_mul, zero_add]
    exact hc

end

/-! ### Three vectors -/

/-- Both ways to concatenate three vectors give a vector, and the two compare equal. -/
def Associates (a b c : Bits) : Prop :=
  ∃ ab bc l r, append a b = .ok ab ∧ append ab c = .ok l ∧ append b c = .ok bc ∧
    append a bc = .ok r ∧ eq l r = .ok true

theorem IsConcat.assoc {ab bc l r : Bits} (hab : IsConcat a b ab) (hbc : IsConcat b c bc)
    (hl : IsConcat ab c l) (hr : IsConcat a bc r) : l.width = r.width ∧ l.toNat = r.toNat := by
  constructor
  · rw [hl.width_eq, hab.width_eq, hr.width_eq, hbc.width_eq, add_assoc]
  · calc l.toNat
        = (a.toNat * 2 ^ b.width + b.toNat) * 2 ^ c.width + c.toNat := by
          rw [hl.toNat_eq, hab.toNat_eq]
      _ = a.toNat * 2 ^ (b.width + c.width) + (b.toNat * 2 ^ c.width + c.toNat) := by ring
      _ = r.toNat := by rw [hr.toNat_eq, hbc.toNat_eq, hbc.width_eq]

theorem associates_iff (ha : a.WellFormed) (hb : b.WellFormed) (hc : c.WellFormed) :
    Associates a b c ↔
      (a.width = 0 → b.width + c.width ≤ 64) ∧ (b.width = 0 → c.width ≤ 64) := by
  constructor
  · rintro ⟨ab, bc, l, r, -, -, hbc, hr, -⟩
    obtain ⟨hback, hconcat⟩ := isConcat_of_append hb hc hbc
    have hfront := (isConcat_of_append ha hconcat.wellFormed hr).1
    rw [hconcat.width_eq] at hfront
    exact ⟨hfront, hback⟩
  · rintro ⟨hfront, hback⟩
    obtain ⟨ab, hab, habc⟩ := exists_append ha hb (by omega)
    obtain ⟨bc, hbc, hbcc⟩ := exists_append hb hc hback
    obtain ⟨l, hl, hlc⟩ := exists_append habc.wellFormed hc (by rw [habc.width_eq]; omega)
    obtain ⟨r, hr, hrc⟩ := exists_append ha hbcc.wellFormed (by rw [hbcc.width_eq]; omega)
    obtain ⟨hwidth, hvalue⟩ := IsConcat.assoc habc hbcc hlc hrc
    refine ⟨ab, bc, l, r, hab, hl, hbc, hr, ?_⟩
    rw [eq_eq hlc.wellFormed hrc.wellFormed hwidth rfl, decide_eq_true hvalue]

/-- Concatenation is exact, changes no cell and is associative, with empty vectors as units, but for
an empty vector in front of one of more than 64 bits. -/
theorem append_exact_iff (ha : a.WellFormed) (hb : b.WellFormed) (hc : c.WellFormed) :
    ((∀ (s : Cells) (p q : Nat), s[p]? = some a → s[q]? = some b →
        Concatenates (appendAt s p q) s a b) ↔ (a.width = 0 → b.width ≤ 64)) ∧
      ((∃ d, append a b = .ok d ∧ IsConcat a b d) ↔ (a.width = 0 → b.width ≤ 64)) ∧
      (b.width = 0 → append a b = .ok a) ∧
      (a.width = 0 → (append a b = .ok b ↔ b.width ≤ 64)) ∧
      (Associates a b c ↔
        (a.width = 0 → b.width + c.width ≤ 64) ∧ (b.width = 0 → c.width ≤ 64)) := by
  refine ⟨⟨?_, ?_⟩, ⟨?_, exists_append ha hb⟩, append_empty_back ha hb,
    append_empty_front_iff ha hb, associates_iff ha hb hc⟩
  · intro hcells hempty
    by_contra hw
    obtain ⟨k, t, d, hd, -⟩ := hcells [a, b] 0 1 rfl rfl
    rw [appendAt_empty_front rfl rfl ha hb hempty (Nat.lt_of_not_le hw)] at hd
    cases hd
  · intro hfront s p q hp hq
    exact concatenates_appendAt hp hq ha hb hfront
  · rintro ⟨d, hd, -⟩
    exact (isConcat_of_append ha hb hd).1

/-- A word of three bits, a list of words and a sparse vector, the list in the first cell. -/
theorem append_exact_iff_mixed :
    Concatenates (appendAt [wide 70 [5, 1], small 3 5] 1 0) [wide 70 [5, 1], small 3 5] (small 3 5)
        (wide 70 [5, 1]) ∧
      Associates (small 3 5) (wide 70 [5, 1]) (sparse 66 9) ∧
      append (wide 70 [5, 1]) (small 0 0) = .ok (wide 70 [5, 1]) ∧
      append (small 0 0) (small 3 5) = .ok (small 3 5) :=
  have hsmall : (small 3 5).WellFormed := by decide
  have hwide : (wide 70 [5, 1]).WellFormed := by decide
  have hsparse : (sparse 66 9).WellFormed := by decide
  have hempty : (small 0 0).WellFormed := by decide
  have hmixed := append_exact_iff hsmall hwide hsparse
  ⟨hmixed.1.mpr (by decide) _ 1 0 rfl rfl, hmixed.2.2.2.2.mpr (by decide),
    (append_exact_iff hwide hempty hsparse).2.2.1 rfl,
    ((append_exact_iff hempty hsmall hsparse).2.2.2.1 rfl).mpr (by decide)⟩

/-- No concatenation with an empty vector in front. -/
theorem append_empty_front_wide :
    append (small 0 0) (wide 65 [5, 1]) = .error (.assertion "") ∧
      append (small 0 0) (sparse 70 5) = .error (.assertion "") := by decide

end Jib.Bits
