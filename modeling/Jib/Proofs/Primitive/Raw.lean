import Jib.Proofs.Bits.Addition
import Jib.Proofs.Bits.Append
import Jib.Proofs.Bits.Update
import Jib.Proofs.Primitive.Table

/-!
# Raw words in place of vectors

A bit vector of a known width of at most 64 may be handled as a bare word.  The primitives on raw
words take the width as an operand, rely on words that have no bit above it, and give such words
again.  They agree with the primitives on vectors, with one exception: a shift to the left by a
negative amount, which is refused for words and made with the absolute value for vectors.
-/

namespace Jib.Raw

open Bits

variable {w m n : Nat} {a b v : UInt64} {raw : Result UInt64} {boxed : Result Bits} {z : Int}

/-- Two computations succeed, and the second gives the vector of a width that holds the word which
the first gives.  No bit of the word lies above the width. -/
def Agree (w : Nat) (raw : Result UInt64) (boxed : Result Bits) : Prop :=
  ∃ v, raw = .ok v ∧ boxed = .ok (small w v) ∧ v.toNat < 2 ^ w

/-- A vector that is known by its value holds the word with this value. -/
theorem agree_of_makes (hw : w ≤ 64) (hboxed : Makes boxed w z) (hraw : raw = .ok v)
    (hv : (v.toNat : Int) = z % 2 ^ w) : Agree w raw boxed := by
  obtain ⟨c, hc, hwell, hwidth, hvalue⟩ := hboxed
  obtain ⟨u, rfl⟩ := hwell.eq_small hwidth hw
  obtain rfl : u = v := by
    apply UInt64.toNat_inj.mp
    exact_mod_cast hvalue.trans hv.symm
  exact ⟨u, hraw, hc, hwell.2⟩

/-- A word that has no bit above the width. -/
theorem agree_of_lt (hw : w ≤ 64) (hboxed : Makes boxed w v.toNat) (hv : v.toNat < 2 ^ w) :
    Agree w (.ok v) boxed :=
  agree_of_makes hw hboxed rfl
    (Int.emod_eq_of_lt (Int.natCast_nonneg _) (by exact_mod_cast hv)).symm

/-- A word that is cut to the width at the end. -/
theorem agree_mask (hw : w ≤ 64) (hboxed : Makes boxed w z)
    (hv : (v.toNat : Int) ≡ z [ZMOD 2 ^ w]) : Agree w (Word.mask w v) boxed := by
  obtain ⟨u, hu, hvalue⟩ := Integer.mask_spec hw hv
  exact agree_of_makes hw hboxed hu hvalue

theorem agree_mkMasked (hw : w ≤ 64) (v : UInt64) : Agree w (Word.mask w v) (mkMasked w v) :=
  agree_mask hw (makes_mkMasked hw v) rfl

/-! ### Arithmetic -/

theorem agree_add (hw : w ≤ 64) : Agree w (add a b w) (Bits.add (small w a) (small w b)) := by
  have hboxed : Bits.add (small w a) (small w b) = mkMasked w (a + b) := by
    simp [Bits.add, remade, width]
  rw [hboxed]
  exact agree_mkMasked hw (a + b)

theorem agree_sub (hw : w ≤ 64) : Agree w (sub a b w) (Bits.sub (small w a) (small w b)) := by
  have hboxed : Bits.sub (small w a) (small w b) = mkMasked w (a - b) := by
    simp [Bits.sub, remade, width]
  rw [hboxed]
  exact agree_mkMasked hw (a - b)

theorem agree_addInt (ha : (small w a).WellFormed) {y : Integer} (hy : y.WellFormed) :
    Agree w (addInt a w y.toInt) (Bits.addInt (small w a) y) := by
  apply agree_mask ha.1 (makes_addInt ha hy)
  refine .of_dvd (pow_dvd_pow 2 ha.1) ((Word.toNat_add_modEq _ _).trans (.add_left _ ?_))
  rw [Word.toNat_ofInt]
  exact Int.mod_modEq _ _

theorem agree_subInt (ha : (small w a).WellFormed) {y : Integer} (hy : y.WellFormed) :
    Agree w (subInt a w y.toInt) (Bits.subInt (small w a) y) := by
  apply agree_mask ha.1 (makes_subInt ha hy)
  refine .of_dvd (pow_dvd_pow 2 ha.1) ((Word.toNat_sub_modEq _ _).trans (.sub_left _ ?_))
  rw [Word.toNat_ofInt]
  exact Int.mod_modEq _ _

theorem agree_not (hw : w ≤ 64) : Agree w (not a w) (Bits.not (small w a)) :=
  agree_mkMasked hw (~~~a)

/-! ### Signed values -/

/-- A word is read as the number in the machine range that it stands for modulo two to the 64. -/
theorem toInt_eq_of_modEq (hv : (v.toNat : Int) ≡ z [ZMOD 2 ^ 64]) (hlow : -2 ^ 63 ≤ z)
    (hhigh : z < 2 ^ 63) : Word.toInt v = z := by
  have hword : Word.toInt v = Int.bmod v.toNat (2 ^ 64) := BitVec.toInt_eq_toNat_bmod _
  have hmod : (v.toNat : Int) % (2 ^ 64 : Nat) = z % (2 ^ 64 : Nat) := hv
  rw [hword, ← Int.emod_bmod, hmod, Int.emod_bmod]
  exact Int.bmod_eq_of_le (by simpa using hlow) (by simpa using hhigh)

/-- The signed value of a vector of at most 64 bits is a machine integer. -/
theorem exists_toInt_eq (ha : (small w a).WellFormed) (hpos : 0 < w) :
    ∃ i : Int64, (small w a).toInt = i.toInt := by
  obtain ⟨hlow, hhigh⟩ := toInt_bounds ha hpos
  have hw := ha.1
  have hpow : (2 : Int) ^ (w - 1) ≤ 2 ^ 63 := pow_le_pow_right₀ (by decide) (by omega)
  rw [width] at hlow hhigh
  exact ⟨Int64.ofInt _, (Int64.toInt_ofInt_of_le (by omega) (by omega)).symm⟩

theorem toInt_word (a : UInt64) : Word.toInt a = (small 64 a).toInt := by
  obtain ⟨hlow, hhigh⟩ :=
    toInt_bounds (b := small 64 a) ⟨by decide, a.toNat_lt⟩ (Nat.zero_lt_succ 63)
  exact toInt_eq_of_modEq (toInt_modEq (small 64 a)).symm hlow hhigh

section

variable (ha : (small w a).WellFormed) (hpos : 0 < w)
include ha hpos

/-- A word whose highest bit was flipped and had its weight taken away is read as the signed
value. -/
theorem toInt_xor_sub :
    Word.toInt ((a ^^^ Word.shl 1 (w - 1)) - Word.shl 1 (w - 1)) = (small w a).toInt := by
  obtain ⟨i, hi⟩ := exists_toInt_eq ha hpos
  apply toInt_eq_of_modEq (toNat_xor_sub_modEq hpos ha.1 ha.2)
  · rw [hi]
    exact i.le_toInt
  · rw [hi]
    exact i.toInt_lt

theorem signed_eq : signed a w = .ok (small w a).toInt := by
  have hw := ha.1
  have hlow : a &&& (Word.shl 1 w - 1) = a := by
    rw [← UInt64.toNat_inj, UInt64.toNat_and, Word.toNat_shl_one_sub_one hw,
      Nat.and_two_pow_sub_one_eq_mod, Nat.mod_eq_of_lt ha.2]
  rcases Nat.eq_or_lt_of_le hw with rfl | hlt
  · rw [← toInt_word]
    rfl
  · have hne : ((w : Int) == 64) = false := beq_false_of_ne (by omega)
    have hpred : (w : Int) - 1 = (w - 1 : Nat) := by omega
    have hle : ¬ (w : Int) ≤ 0 := by omega
    simp only [signed, hne, hpred, hle]
    change Except.ok (Word.toInt
      (((a &&& (Word.shl 1 w - 1)) ^^^ Word.shl 1 (w - 1)) - Word.shl 1 (w - 1))) = _
    rw [hlow, toInt_xor_sub ha hpos]

theorem signed_small : Bits.signed (small w a) = Integer.ofWord (small w a).toInt := by
  rw [Bits.signed]
  split
  · rename_i hw
    obtain rfl := beq_iff_eq.mp hw
    rw [toInt_word]
  · rw [if_neg (by rw [beq_iff_eq]; omega)]
    exact congrArg Integer.ofWord (toInt_xor_sub ha hpos)

end

theorem ofWord_toInt (i : Int64) : Integer.ofWord i.toInt = .ok (.small i) := by
  obtain ⟨y, hy, -⟩ := Integer.yields_ofWord i.le_toInt i.toInt_lt
  unfold Integer.ofWord at hy ⊢
  split_ifs with hfits
  · rw [Int64.ofInt_toInt]
  · rw [if_neg hfits] at hy
    cases hy

/-! ### Shifts -/

theorem agree_shiftLeft (ha : (small w a).WellFormed) (i : Nat) :
    Agree w (shiftLeft a w i) (Bits.shiftLeft (small w a) i) := by
  apply agree_mask ha.1 (makes_shiftLeft ha i)
  rw [Word.toNat_shl]
  push_cast
  exact (Int.mod_modEq _ _).of_dvd (pow_dvd_pow 2 ha.1)

theorem agree_shiftRight (ha : (small w a).WellFormed) (i : Nat) :
    Agree w (shiftRight a w i) (Bits.shiftRight (small w a) i) := by
  apply agree_mask ha.1 (makes_shiftRight ha i)
  rw [Word.toNat_shr]
  rfl

theorem agree_arithShiftRight (ha : (small w a).WellFormed) (hpos : 0 < w) (i : Nat) :
    Agree w (arithShiftRight a w i) (Bits.arithShiftRight (small w a) i) := by
  have hraw : arithShiftRight a w i = Word.mask w (Word.ofInt ((small w a).toInt / 2 ^ i)) := by
    rw [arithShiftRight, signed_eq ha hpos]
    change (Integer.scaleDown _ _ >>= fun y => Word.mask w (Word.ofInt y)) = _
    rw [Integer.scaleDown_eq]
    rfl
  rw [hraw]
  apply agree_mask ha.1 (makes_arithShiftRight ha hpos i)
  rw [Word.toNat_ofInt]
  exact (Int.mod_modEq _ _).of_dvd (pow_dvd_pow 2 ha.1)

/-! ### Extension, concatenation and parts -/

section

variable (ha : (small w a).WellFormed)
include ha

theorem agree_signExtend (hpos : 0 < w) (hwm : w ≤ m) (hm : m ≤ 64) :
    Agree m (signExtend a w m) (Bits.signExtend (small w a) m) := by
  have hpred : (w : Int) - 1 = (w - 1 : Nat) := by omega
  rw [signExtend, hpred]
  apply agree_mask hm (makes_signExtend ha hpos hwm)
  exact (toNat_xor_sub_modEq hpos ha.1 ha.2).of_dvd (pow_dvd_pow 2 hm)

theorem agree_zeroExtend (hwm : w ≤ m) (hm : m ≤ 64) :
    Agree m (.ok a) (Bits.zeroExtend (small w a) m) :=
  agree_of_lt hm (makes_zeroExtend ha hwm) (ha.2.trans_le (Nat.pow_le_pow_right (by decide) hwm))

theorem agree_truncate (hm : m ≤ w) : Agree m (Word.mask m a) (Bits.truncate (small w a) m) :=
  agree_mask (hm.trans ha.1) (makes_truncate ha hm) rfl

theorem agree_append {u : Nat} (hb : (small u b).WellFormed) (hsum : w + u ≤ 64) :
    Agree (w + u) (append a u b) (Bits.append (small w a) (small u b)) := by
  have hmakes := makes_joined ha hb hsum
  have hvalue := Word.toNat_shl_or ha.2 hb.2 hsum
  have hlt : a.toNat * 2 ^ u + b.toNat < 2 ^ (w + u) := by
    have := ha.2
    have := hb.2
    rw [pow_add]
    nlinarith
  have hboxed : Bits.append (small w a) (small u b) = ofWord (w + u) (Word.shl a u ||| b) := by
    obtain ⟨c, hc, -⟩ := hmakes
    have hat : appendAt [small w a, small u b] 0 1 = .ok (Cells.add [small w a, small u b] c) := by
      change (if w + u ≤ 64 then _ else _) = _
      rw [if_pos hsum, hc]
      rfl
    rw [Bits.append, hat, hc]
    rfl
  rw [hboxed]
  rw [← hvalue] at hmakes hlt
  exact agree_of_lt hsum hmakes hlt

theorem agree_subrange (hmn : m ≤ n) (hn : n < w) :
    Agree (n - m + 1) (subrange a n m) (Bits.subrange (small w a) n m) := by
  have hw := ha.1
  have hcast : (n : Int) - m + 1 = (n - m + 1 : Nat) := by omega
  have hraw : subrange a n m = Word.mask (n - m + 1 : Nat) (Word.shr a m) := by
    rw [subrange, hcast]
    rfl
  rw [hraw]
  apply agree_mask (by omega) (makes_subrange ha hmn hn)
  rw [Word.toNat_shr]
  rfl

theorem agree_updateSubrange (hmn : m ≤ n) (hn : n < w) (hv : v.toNat < 2 ^ (n - m + 1)) :
    Agree w (updateSubrange a n m v)
      (Bits.updateSubrange (small w a) n m (small (n - m + 1) v)) := by
  have hw := ha.1
  have hsize : n - m + 1 ≤ 64 := by omega
  have hcast : (n : Int) - m + 1 = (n - m + 1 : Nat) := by omega
  obtain ⟨c, hc, hwell, hwidth, hbits⟩ :=
    hasBits_updateSubrange_small ha (s := small (n - m + 1) v) ⟨hsize, hv⟩ hmn hn rfl
  obtain ⟨u, rfl⟩ := hwell.eq_small hwidth hw
  refine ⟨u, ?_, hc, hwell.2⟩
  simp only [updateSubrange, hcast, Word.mask_eq hsize]
  change Except.ok ((a &&& ~~~(Word.shl (Word.low (n - m + 1) (0 - 1)) m)) ||| Word.shl v m) = _
  congr 1
  apply UInt64.toNat_inj.mp
  apply Nat.eq_of_testBit_eq
  intro k
  rw [show u.toNat.testBit k = _ from hbits k]
  rcases Nat.lt_or_ge k 64 with hk | hk
  · exact testBit_patched (Word.toNat_low_ones hsize) hmn hv hk (by omega)
  · rw [Word.testBit_of_le hk, replacedBits_of_le ha.2 hn (by omega)]

end

/-! ### Single bits -/

theorem readBit_eq (a : UInt64) (k : Nat) : readBit a k = .ok (Word.carry (a.toNat.testBit k)) := by
  rw [← shr_and_one, UInt64.and_comm]
  cases k with
  | zero =>
    rw [UInt64.and_comm]
    rfl
  | succ k =>
    rfl

theorem agree_updateBit (ha : (small w a).WellFormed) {k : Nat} (hk : k < w) (bit : Bool) :
    Agree w (updateBit a k bit) (Bits.updateBit (small w a) k bit) := by
  have hw := ha.1
  have hin : ¬ (k : Int) ≥ w := by omega
  have hword :
      updateBit a k bit = .ok (if bit then a ||| Word.shl 1 k else a &&& ~~~(Word.shl 1 k)) := by
    rw [updateBit, if_pos (by rw [Bool.and_eq_true, decide_eq_true_iff, decide_eq_true_iff]; omega),
      Int.toNat_natCast]
  rw [hword]
  cases bit with
  | false =>
    have hlt : (a &&& ~~~(Word.shl 1 k)).toNat < 2 ^ w := by
      exact Nat.and_le_left.trans_lt ha.2
    simp only [Bits.updateBit, hin]
    exact agree_of_lt hw (makes_mkMasked hw _) hlt
  | true =>
    have hlt : (a ||| Word.shl 1 k).toNat < 2 ^ w := by
      rw [UInt64.toNat_or, Word.toNat_shl_one (by omega)]
      exact Nat.or_lt_two_pow ha.2 (Nat.pow_lt_pow_right (by decide) hk)
    simp only [Bits.updateBit, hin]
    exact agree_of_lt hw (makes_mkSmall hw hlt) hlt

/-! ### Primitives by their names -/

/-- A call of a primitive: its name and its operands. -/
abbrev Call := String × List Datum

/-- In every state of a run two calls give a word without bits above a width and the vector of that
width which holds it. -/
def SameBits (w : Nat) (raw boxed : Call) : Prop :=
  ∃ v, Primitive.Gives raw.1 raw.2 (.word v) ∧ Primitive.Gives boxed.1 boxed.2 (.bits (small w v)) ∧
    v.toNat < 2 ^ w

/-- Two calls give the same bits, or both fail. -/
def SameAnswer (w : Nat) (raw boxed : Call) : Prop :=
  SameBits w raw boxed ∨ Primitive.Fails raw.1 raw.2 ∧ Primitive.Fails boxed.1 boxed.2

open Primitive

variable {f g : Primitive.Function} {ds es : List Datum} {c : Bits} {rawName boxedName : String}

theorem refusesPlain_word (name : String) (a : UInt64) (ds : List Datum) :
    refusesPlain name (.word a :: ds) = false := Bool.and_false _

theorem refusesPlain_bits (name : String) (c : Bits) (ds : List Datum) :
    refusesPlain name (.bits c :: ds) = false := Bool.and_false _

/-- What two computations agree on is what the primitives give that are made from them. -/
theorem Agree.sameBits (hagree : Agree w raw boxed) (hf : (rawName, f) ∈ functions)
    (hg : (boxedName, g) ∈ functions) (hraw : f (.word a :: ds) = do return .word (← raw))
    (hboxed : g (.bits c :: es) = do return .bits (← boxed)) :
    SameBits w (rawName, .word a :: ds) (boxedName, .bits c :: es) := by
  obtain ⟨v, hv, hv', hlt⟩ := hagree
  exact ⟨v, gives_of_answer hf (refusesPlain_word ..) hraw hv,
    gives_of_answer hg (refusesPlain_bits ..) hboxed hv', hlt⟩

theorem vector_access_same (ha : (small w a).WellFormed) {k : Nat} (hk : k < w) :
    ∃ v, Gives "vector_access_bv_i" [.word a, .int k] (.word v) ∧
      Gives "vector_access_o_i" [.bits (small w a), .int k] (.word v) := by
  have hf : ("vector_access_bv_i", fn2 readBit) ∈ functions := mem_of_vector (by repeat constructor)
  have hg : ("vector_access_o_i", fn2 Primitive.readBit) ∈ functions :=
    mem_of_wordForm (show ("vector_access", _) ∈ _ by repeat constructor) rfl
  have hboxed : Primitive.readBit (small w a) k = .ok (.word (Word.carry (a.toNat.testBit k))) := by
    rw [Primitive.readBit, Bits.readBit_eq ha hk, Bits.toNat]
    cases a.toNat.testBit k <;> rfl
  exact ⟨_, gives_of_answer hf (refusesPlain_word ..) rfl (readBit_eq a k),
    gives_of_answer (g := id) hg (refusesPlain_bits ..) rfl hboxed⟩

theorem signed_same (ha : (small w a).WellFormed) (hpos : 0 < w) :
    ∃ i : Int64, Gives "signed_bv" [.word a, .int w] (.int i.toInt) ∧
      Gives "sail_signed" [.bits (small w a)] (.integer (.small i)) := by
  have hf : ("signed_bv", fn2 signed) ∈ functions := mem_of_vector (by repeat constructor)
  have hg : ("sail_signed", fn1 Bits.signed) ∈ functions := mem_of_vector (by repeat constructor)
  obtain ⟨i, hi⟩ := exists_toInt_eq ha hpos
  have hraw := signed_eq ha hpos
  have hboxed := signed_small ha hpos
  rw [hi] at hraw hboxed
  rw [ofWord_toInt] at hboxed
  exact ⟨i, gives_of_answer hf (refusesPlain_word ..) rfl hraw,
    gives_of_answer hg (refusesPlain_bits ..) rfl hboxed⟩

theorem unsigned_same (hlow : a.toNat < 2 ^ 63) :
    ∃ i : Int64, Gives "unsigned_bv" [.word a, .int w] (.int i.toInt) ∧
      Gives "sail_unsigned" [.bits (small w a)] (.integer (.small i)) := by
  have hf : ("unsigned_bv", fn2 unsigned) ∈ functions := mem_of_vector (by repeat constructor)
  have hg : ("sail_unsigned", fn1 Bits.unsigned) ∈ functions :=
    mem_of_vector (by repeat constructor)
  have htop : (a &&& 0x8000000000000000 != 0) = false := by
    rw [Word.and_high_ne_zero]
    exact decide_eq_false (by omega)
  have hraw : unsigned a w = .ok a.toInt64.toInt := by
    rw [unsigned, htop, Bool.and_false]
    rfl
  have hboxed : Bits.unsigned (small w a) = .ok (.small a.toInt64) := by
    rw [Bits.unsigned, Integer.ofUnsigned, htop]
    rfl
  exact ⟨_, gives_of_answer hf (refusesPlain_word ..) rfl hraw,
    gives_of_answer hg (refusesPlain_bits ..) rfl hboxed⟩

/-- Away from shifts the primitives on raw words without bits above the width give the contents of
what the primitives on vectors give. -/
theorem raw_operations_match (hpos : 0 < w) (hw : w ≤ 64) (ha : a.toNat < 2 ^ w) :
    SameBits w ("add_bits_bv_bv", [.word a, .word b, .int w])
        ("add_bits", [.bits (small w a), .bits (small w b)]) ∧
      SameBits w ("sub_bits_bv_bv", [.word a, .word b, .int w])
        ("sub_bits", [.bits (small w a), .bits (small w b)]) ∧
      (∀ y : Integer, y.WellFormed →
        SameBits w ("add_bits_int_bv_i", [.word a, .int w, .int y.toInt])
          ("add_bits_int", [.bits (small w a), .integer y]) ∧
        SameBits w ("sub_bits_int_bv_i", [.word a, .int w, .int y.toInt])
          ("sub_bits_int", [.bits (small w a), .integer y])) ∧
      SameBits w ("not_vec_bv", [.word a, .int w]) ("not_bits", [.bits (small w a)]) ∧
      (∀ m, w ≤ m → m ≤ 64 →
        SameBits m ("sign_extend_bv_i_i", [.word a, .int w, .int m])
          ("sign_extend_o_i", [.bits (small w a), .int m]) ∧
        SameBits m ("zero_extend_bv_i_i", [.word a, .int w, .int m])
          ("zero_extend_o_i", [.bits (small w a), .int m])) ∧
      (∀ m ≤ w, SameBits m ("truncate_bv_i", [.word a, .int m])
        ("sail_truncate_o_i", [.bits (small w a), .int m])) ∧
      (∀ (u : Nat) (c : UInt64), w + u ≤ 64 → c.toNat < 2 ^ u →
        SameBits (w + u) ("bitvector_concat_bv_bv", [.word a, .int u, .word c])
          ("append", [.bits (small w a), .bits (small u c)])) ∧
      (∀ n m, m ≤ n → n < w →
        SameBits (n - m + 1) ("vector_subrange_fixed_bv_i_i", [.word a, .int n, .int m])
          ("vector_subrange_o_i_i", [.bits (small w a), .int n, .int m]) ∧
        ∀ s : UInt64, s.toNat < 2 ^ (n - m + 1) →
          SameBits w ("vector_update_subrange_fixed_bv_i_i_bv", [.word a, .int n, .int m, .word s])
            ("vector_update_subrange_o_i_i_o",
              [.bits (small w a), .int n, .int m, .bits (small (n - m + 1) s)])) ∧
      (∀ start len : Nat, 0 < len → start + len ≤ w →
        SameBits len ("slice_fixed_bv_i_i", [.word a, .int start, .int len])
          ("slice_o_i_i", [.bits (small w a), .int start, .int len])) ∧
      (∀ k < w, (∃ v, Gives "vector_access_bv_i" [.word a, .int k] (.word v) ∧
          Gives "vector_access_o_i" [.bits (small w a), .int k] (.word v)) ∧
        ∀ bit : Datum, SameBits w ("zupdate_fbits", [.word a, .int k, bit])
          ("vector_update_o_i_o", [.bits (small w a), .int k, bit])) ∧
      (∃ i : Int64, Gives "signed_bv" [.word a, .int w] (.int i.toInt) ∧
        Gives "sail_signed" [.bits (small w a)] (.integer (.small i))) ∧
      (a.toNat < 2 ^ 63 → ∃ i : Int64, Gives "unsigned_bv" [.word a, .int w] (.int i.toInt) ∧
        Gives "sail_unsigned" [.bits (small w a)] (.integer (.small i))) := by
  have hwell : (small w a).WellFormed := ⟨hw, ha⟩
  refine ⟨?_, ?_, fun y hy => ⟨?_, ?_⟩, ?_, fun m hwm hm => ⟨?_, ?_⟩, fun m hm => ?_,
    fun u c hsum hc => ?_, fun n m hmn hn => ⟨?_, fun s hs => ?_⟩, fun start len hlen hsum => ?_,
    fun k hk => ⟨vector_access_same hwell hk, fun bit => ?_⟩, signed_same hwell hpos, unsigned_same⟩
  · exact (agree_add hw).sameBits (mem_of_vector (by repeat constructor))
      (mem_of_vector (by repeat constructor)) rfl rfl
  · exact (agree_sub hw).sameBits (mem_of_vector (by repeat constructor))
      (mem_of_vector (by repeat constructor)) rfl rfl
  · exact (agree_addInt hwell hy).sameBits (mem_of_vector (by repeat constructor))
      (mem_of_vector (by repeat constructor)) rfl rfl
  · exact (agree_subInt hwell hy).sameBits (mem_of_vector (by repeat constructor))
      (mem_of_vector (by repeat constructor)) rfl rfl
  · exact (agree_not hw).sameBits (mem_of_vector (by repeat constructor))
      (mem_of_vector (by repeat constructor)) rfl rfl
  · exact (agree_signExtend hwell hpos hwm hm).sameBits (mem_of_vector (by repeat constructor))
      (mem_of_wordForm (show ("sign_extend", _) ∈ _ by repeat constructor) rfl) rfl rfl
  · exact (agree_zeroExtend hwell hwm hm).sameBits (mem_of_vector (by repeat constructor))
      (mem_of_wordForm (show ("zero_extend", _) ∈ _ by repeat constructor) rfl) rfl rfl
  · exact (agree_truncate hwell hm).sameBits (mem_of_vector (by repeat constructor))
      (mem_of_wordForm (show ("sail_truncate", _) ∈ _ by repeat constructor) rfl) rfl rfl
  · exact (agree_append hwell ⟨by omega, hc⟩ hsum).sameBits (mem_of_vector (by repeat constructor))
      (mem_of_vector (by repeat constructor)) rfl rfl
  · exact (agree_subrange hwell hmn hn).sameBits (mem_of_vector (by repeat constructor))
      (mem_of_wordForm (show ("vector_subrange", _) ∈ _ by repeat constructor) rfl) rfl rfl
  · exact (agree_updateSubrange hwell hmn hn hs).sameBits (mem_of_vector (by repeat constructor))
      (mem_of_wordForm (show ("vector_update_subrange", _) ∈ _ by repeat constructor) rfl) rfl rfl
  · have hcast : ((start + len - 1 : Nat) : Int) = start + len - 1 := by omega
    have hagree := agree_subrange hwell (show start ≤ start + len - 1 by omega) (by omega)
    rw [show start + len - 1 - start + 1 = len by omega, hcast] at hagree
    exact hagree.sameBits (mem_of_vector (by repeat constructor))
      (mem_of_wordForm (show ("slice", _) ∈ _ by repeat constructor) rfl) rfl rfl
  · exact (agree_updateBit hwell hk bit.truth).sameBits (mem_of_vector (by repeat constructor))
      (mem_of_wordForm (show ("vector_update", _) ∈ _ by repeat constructor) rfl) rfl rfl

theorem raw_operations_match_four :
    (0 < 4 ∧ 4 ≤ 64 ∧ (13 : UInt64).toNat < 2 ^ 4) ∧
      SameBits 4 ("add_bits_bv_bv", [.word 13, .word 7, .int 4])
        ("add_bits", [.bits (small 4 13), .bits (small 4 7)]) ∧
      SameBits 4 ("vector_update_subrange_fixed_bv_i_i_bv", [.word 13, .int 2, .int 1, .word 3])
        ("vector_update_subrange_o_i_i_o",
          [.bits (small 4 13), .int 2, .int 1, .bits (small 2 3)]) := by
  obtain ⟨hadd, -, -, -, -, -, -, hrange, -⟩ :=
    raw_operations_match (w := 4) (a := 13) (b := 7) (by decide) (by decide) (by decide)
  exact ⟨by decide, hadd, (hrange 2 1 (by decide) (by decide)).2 3 (by decide)⟩

/-! ### Shifts by name -/

/-- Two computations that refuse their operands. -/
theorem sameAnswer_of_errors {x y : Fault} (hf : (rawName, f) ∈ functions)
    (hg : (boxedName, g) ∈ functions) (hraw : f (.word a :: ds) = do return .word (← raw))
    (hboxed : g (.bits c :: es) = do return .bits (← boxed)) (hx : raw = .error x)
    (hy : boxed = .error y) : SameAnswer w (rawName, .word a :: ds) (boxedName, .bits c :: es) :=
  .inr ⟨fails_of_answer hf (refusesPlain_word ..) hraw hx,
    fails_of_answer hg (refusesPlain_bits ..) hboxed hy⟩

theorem mem_shiftLeft_word : ("shiftl_bv_i", fn3 shiftLeft) ∈ functions :=
  mem_of_vector (by repeat constructor)

theorem mem_shiftLeft_vector :
    ("shiftl_o_i", fn2 fun (b : Bits) (i : Int) => b.shiftLeft i.natAbs) ∈ functions :=
  mem_of_wordForm (show ("shiftl", _) ∈ _ by repeat constructor) rfl

theorem fails_shiftLeft_word {i : Int} (hi : i < 0) :
    Fails "shiftl_bv_i" [.word a, .int w, .int i] := by
  have hraw : shiftLeft a w i = .error Word.negativeShift := by
    rw [shiftLeft, Word.shiftLeft, if_pos hi]
    rfl
  exact fails_of_answer mem_shiftLeft_word (refusesPlain_word ..) rfl hraw

theorem sameAnswer_shiftLeft_iff (ha : (small w a).WellFormed) (i : Int) :
    SameAnswer w ("shiftl_bv_i", [.word a, .int w, .int i])
    ("shiftl_o_i", [.bits (small w a), .int i]) ↔ 0 ≤ i := by
  constructor
  · intro hsame
    by_contra hneg
    obtain ⟨v, -, hv, -⟩ := agree_shiftLeft ha i.natAbs
    have hboxed : Gives "shiftl_o_i" [.bits (small w a), .int i] (.bits (small w v)) :=
      gives_of_answer mem_shiftLeft_vector (refusesPlain_bits ..) rfl hv
    rcases hsame with ⟨u, hu, -⟩ | ⟨-, hfails⟩
    · exact not_fails_of_gives hu (fails_shiftLeft_word (not_le.mp hneg))
    · exact not_fails_of_gives hboxed hfails
  · intro hi
    lift i to Nat using hi
    exact .inl ((agree_shiftLeft ha i).sameBits mem_shiftLeft_word mem_shiftLeft_vector rfl rfl)

theorem sameAnswer_shiftRight (ha : (small w a).WellFormed) (i : Int) :
    SameAnswer w ("shiftr_bv_i", [.word a, .int w, .int i])
      ("shiftr_o_i", [.bits (small w a), .int i]) := by
  have hf : ("shiftr_bv_i", fn3 shiftRight) ∈ functions := mem_of_vector (by repeat constructor)
  have hg : ("shiftr_o_i", fn2 Bits.shiftRight) ∈ functions :=
    mem_of_wordForm (show ("shiftr", _) ∈ _ by repeat constructor) rfl
  rcases Int.lt_or_le i 0 with hneg | hi
  · have hraw : shiftRight a w i = .error Word.negativeShift := by
      rw [shiftRight, Word.shiftRight, if_pos hneg]
      rfl
    have hboxed : Bits.shiftRight (small w a) i = .error Word.negativeShift := if_pos hneg
    exact sameAnswer_of_errors hf hg rfl rfl hraw hboxed
  · lift i to Nat using hi
    exact .inl ((agree_shiftRight ha i).sameBits hf hg rfl rfl)

theorem sameAnswer_arithShiftRight (ha : (small w a).WellFormed) (hpos : 0 < w) (i : Int) :
    SameAnswer w ("arith_shiftr_bv_i", [.word a, .int w, .int i])
      ("arith_shiftr_o_i", [.bits (small w a), .int i]) := by
  have hf : ("arith_shiftr_bv_i", fn3 arithShiftRight) ∈ functions :=
    mem_of_vector (by repeat constructor)
  have hg : ("arith_shiftr_o_i", fn2 Bits.arithShiftRight) ∈ functions :=
    mem_of_wordForm (show ("arith_shiftr", _) ∈ _ by repeat constructor) rfl
  rcases Int.lt_or_le i 0 with hneg | hi
  · have hraw : arithShiftRight a w i = .error .badValue := by
      rw [arithShiftRight, signed_eq ha hpos]
      change (Integer.scaleDown _ i >>= fun y => Word.mask w (Word.ofInt y)) = _
      rw [Integer.scaleDown, if_pos hneg]
      rfl
    have hboxed : Bits.arithShiftRight (small w a) i = .error Word.negativeShift := by
      rw [Bits.arithShiftRight, if_pos hneg]
      rfl
    exact sameAnswer_of_errors hf hg rfl rfl hraw hboxed
  · lift i to Nat using hi
    exact .inl ((agree_arithShiftRight ha hpos i).sameBits hf hg rfl rfl)

/-- Shifts of raw words and of vectors agree for every amount, with failures for the negative ones,
except that a vector is shifted to the left by the absolute value of a negative amount. -/
theorem shifts_match_iff (hpos : 0 < w) (hw : w ≤ 64) (ha : a.toNat < 2 ^ w) (i : Int64) :
    (SameAnswer w ("shiftl_bv_i", [.word a, .int w, .int i.toInt])
        ("shiftl_o_i", [.bits (small w a), .int i.toInt]) ↔ 0 ≤ i.toInt) ∧
      SameAnswer w ("shiftr_bv_i", [.word a, .int w, .int i.toInt])
        ("shiftr_o_i", [.bits (small w a), .int i.toInt]) ∧
      SameAnswer w ("arith_shiftr_bv_i", [.word a, .int w, .int i.toInt])
        ("arith_shiftr_o_i", [.bits (small w a), .int i.toInt]) :=
  ⟨sameAnswer_shiftLeft_iff ⟨hw, ha⟩ _, sameAnswer_shiftRight ⟨hw, ha⟩ _,
    sameAnswer_arithShiftRight ⟨hw, ha⟩ hpos _⟩

theorem shifts_match_iff_full_width :
    (0 < 64 ∧ 64 ≤ 64 ∧ (0x8000000000000001 : UInt64).toNat < 2 ^ 64) ∧
      SameAnswer 64 ("arith_shiftr_bv_i", [.word 0x8000000000000001, .int 64, .int 70])
        ("arith_shiftr_o_i", [.bits (small 64 0x8000000000000001), .int 70]) :=
  ⟨by decide, (shifts_match_iff (by decide) (by decide) (by decide) 70).2.2⟩

/-- Three in eight bits, shifted to the left by minus one. -/
theorem shiftLeft_minus_one_differs :
    Fails "shiftl_bv_i" [.word 3, .int (8 : Nat), .int (-1)] ∧
      Gives "shiftl_o_i" [.bits (small 8 3), .int (-1)] (.bits (small 8 6)) :=
  ⟨fails_shiftLeft_word (by decide), gives_of_mem mem_shiftLeft_vector (refusesPlain_bits ..) rfl⟩

end Jib.Raw
