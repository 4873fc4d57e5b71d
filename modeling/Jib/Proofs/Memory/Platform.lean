import Jib.Primitive.Effect
import Jib.Proofs.Bits.Append
import Jib.Proofs.Bits.Update
import Jib.Proofs.Memory.Access

/-!
# Vectors in memory

A vector of whole bytes is read back from where it was written, whatever its size, and whether it
takes one access or one for each byte.
-/

namespace Jib.Primitive

/-- A store of bytes after the `n` lowest ones of a number were put over it from an address on. -/
def spelled (bytes : UInt64 → Nat) (a : UInt64) (n z : Nat) : UInt64 → Nat :=
  fun x => if (x - a).toNat < n then z / 256 ^ (x - a).toNat % 256 else bytes x

/-- There is a memory, and it has the `n` bytes from an address on. -/
structure Covers (w : World) (a : UInt64) (n : Nat) : Prop where
  attached : w.attached = true
  valid : w.memory.Valid
  /-- There are so many addresses: else some bytes would be the same. -/
  fits : n ≤ 2 ^ 64
  holds : ∀ i < n, w.memory.Holds (a + UInt64.ofNat i)

/-- The computation succeeds and changes nothing but the bytes in memory. -/
def Leads {α : Type} (x : RunM α) (w : World) (r : α) (bytes : UInt64 → Nat) : Prop :=
  ∃ m, x w = .ok r { w with memory := m } ∧ w.memory.Becomes m bytes

/-- The vector of `n` bytes that denotes a number. -/
def Spells (r : Bits) (n z : Nat) : Prop := r.WellFormed ∧ r.width = 8 * n ∧ r.toNat = z

variable {α β : Type} {x : RunM α} {r : α} {w : World} {m : Memory} {a v : UInt64} {n k z i : Nat}
  {data : Bits} {bytes : UInt64 → Nat}

theorem Leads.bind {g : α → RunM β} {s : β} {after : UInt64 → Nat}
    (hx : x w = .ok r { w with memory := m })
    (hm : w.memory.Becomes m bytes) (hg : Leads (g r) { w with memory := m } s after) :
    Leads (x >>= g) w s after := by
  obtain ⟨m', hrun, hm'⟩ := hg
  exact ⟨m', (bind_ok hx).trans hrun, hm.trans hm'⟩

theorem spelled_spelled (hi : i < 2 ^ 64) :
    spelled (spelled bytes a i z) (a + UInt64.ofNat i) 1 (z / 256 ^ i % 256) =
      spelled bytes a (i + 1) z := by
  funext x
  have hx := (x - a).toNat_lt
  unfold spelled
  rw [show x - (a + UInt64.ofNat i) = x - a - UInt64.ofNat i by grind, UInt64.toNat_sub,
    UInt64.toNat_ofNat_of_lt' hi]
  rcases lt_trichotomy (x - a).toNat i with hlt | rfl | hlt
  · rw [if_neg (by omega), if_pos hlt, if_pos (by omega)]
  · simp [Nat.sub_add_cancel hx.le]
  · rw [if_neg (by omega), if_neg (by omega), if_neg (by omega)]

theorem littleEndian_spelled (hk : k ≤ n) (hn : n ≤ 2 ^ 64) :
    littleEndian (spelled bytes a n z) a k = z % 256 ^ k := by
  induction k with
  | zero => exact (Nat.mod_one z).symm
  | succ k ih =>
    rw [littleEndian_succ, ih (Nat.le_of_succ_le hk), spelled, toNat_add_sub (hk.trans hn),
      if_pos (Nat.lt_of_succ_le hk), Nat.mod_pow_succ, mul_comm]

section

variable (h : Covers w a n)
include h

theorem Covers.becomes (hm : w.memory.Becomes m bytes) (hk : k ≤ n) :
    Covers { w with memory := m } a k :=
  ⟨h.attached, hm.valid, hk.trans h.fits, fun i hi => (hm.holds _).mpr (h.holds i (hi.trans_le hk))⟩

theorem Covers.part (hi : i + k ≤ n) : Covers w (a + UInt64.ofNat i) k := by
  have hfits := h.fits
  refine ⟨h.attached, h.valid, by omega, fun j hj => ?_⟩
  rw [UInt64.add_assoc, ← UInt64.ofNat_add]
  exact h.holds _ (by omega)

theorem Covers.leads {f : Memory → Result α × Memory}
    (hf : ∃ m, f w.memory = (.ok r, m) ∧ w.memory.Becomes m bytes) :
    Leads (RunM.onMemory f) w r bytes := by
  obtain ⟨m, hf, hm⟩ := hf
  refine ⟨m, ?_, hm⟩
  unfold RunM.onMemory
  rw [if_pos h.attached]
  simp only [hf]

theorem Covers.reads (hn : IsSize n) (fetch : Bool) :
    ∃ v r, Leads (RunM.readMemory a n fetch) w v w.memory.byteAt ∧
      Bits.mkSmall (8 * n : Nat) v = .ok r ∧ Spells r n (littleEndian w.memory.byteAt a n) := by
  obtain ⟨v, m, hread, hv, hm⟩ := Memory.read_eq h.valid hn h.holds fetch
  have hlt : v.toNat < 2 ^ (8 * n) := hv ▸ pow_bytes n ▸ littleEndian_lt w.memory.byteAt_lt a n
  have hle := hn.le_eight
  obtain ⟨r, hr, hwell, hwidth, hnat⟩ := (Bits.makes_mkSmall (by omega) hlt).exists_toNat_eq hlt
  exact ⟨v, r, h.leads ⟨m, hread, hm⟩, hr, hwell, hwidth, hnat.trans hv⟩

theorem Covers.writes (hn : IsSize n) (hv : v.toNat < 256 ^ n) :
    Leads (RunM.writeMemory a n v) w () (spelled w.memory.byteAt a n v.toNat) :=
  h.leads (Memory.write_eq h.valid hn h.holds hv)

/-! ### Byte by byte -/

/-- Nothing read so far counts as the vector without bits. -/
theorem readByteWise_eq (fetch : Bool) (acc : Option Bits)
    (hacc : Spells (acc.getD (.small 0 0)) k z) (hpos : acc = none → 0 < n) :
    ∃ r, Leads (readByteWise a fetch n acc) w (some r) w.memory.byteAt ∧
      Spells r (k + n) (z * 256 ^ n + littleEndian w.memory.byteAt a n) := by
  induction n generalizing w acc k z with
  | zero =>
    cases acc with
    | none => cases hpos rfl
    | some b =>
      exact ⟨b, ⟨w.memory, rfl, h.valid, fun _ => Iff.rfl, rfl⟩, by simpa [littleEndian] using hacc⟩
  | succ n ih =>
    obtain ⟨v, b, ⟨m, hread, hm⟩, hb, hwell, hwidth, hvalue⟩ :=
      (h.part le_rfl).reads (.inl rfl) fetch
    obtain ⟨c, hc, hconcat⟩ := Bits.exists_append hacc.1 hwell (by omega)
    have hspells : Spells c (k + 1) (z * 256 + w.memory.byteAt (a + UInt64.ofNat n)) := by
      refine ⟨hconcat.wellFormed, ?_, ?_⟩
      · rw [hconcat.width_eq, hacc.2.1, hwidth, Nat.mul_add]
      · rw [hconcat.toNat_eq, hacc.2.2, hwidth, hvalue, littleEndian_one]
        rfl
    obtain ⟨r, hr, hlast⟩ := ih (h.becomes hm n.le_succ) (some c) hspells (by simp)
    rw [hm.bytes] at hr hlast
    refine ⟨r, .bind hread hm ?_, ?_⟩
    · rw [show Bits.mkSmall 8 v = _ from hb]
      cases acc with
      | none =>
        obtain rfl : b = c := by
          have hsame := (Bits.append_empty_front_iff hacc.1 hwell rfl).mpr (by omega)
          exact Except.ok.inj (hsame.symm.trans hc)
        exact hr
      | some d =>
        change Leads (RunM.ofExcept (d.append b) >>= fun c => readByteWise a fetch n (some c)) _ _ _
        rw [show d.append b = _ from hc]
        exact hr
    · rw [littleEndian_succ]
      convert hlast using 1 <;> ring

theorem readByteWise_whole (hpos : 0 < n) (fetch : Bool) :
    ∃ r, Leads (readByteWise a fetch n none) w (some r) w.memory.byteAt ∧
      Spells r n (littleEndian w.memory.byteAt a n) := by
  have hempty : Spells (.small 0 0) 0 0 := ⟨by decide, rfl, rfl⟩
  simpa using readByteWise_eq h fetch none hempty fun _ => hpos

variable (hdata : Spells data n z)
include hdata

theorem writeByteWise_eq (hi : i + k = n) (hbytes : w.memory.byteAt = spelled bytes a i z) :
    Leads (writeByteWise a data k (8 * i)) w () (spelled bytes a n z) := by
  obtain ⟨hwell, hwidth, rfl⟩ := hdata
  have hfits := h.fits
  induction k generalizing w i with
  | zero =>
    refine ⟨w.memory, ?_, h.valid, fun _ => Iff.rfl, hi ▸ hbytes⟩
    rw [writeByteWise, if_pos (by simp [hwidth, ← hi])]
    rfl
  | succ k ih =>
    obtain ⟨v, hword, hv⟩ :=
      Bits.subrangeWord_spec (n := 8 * i + 7) (m := 8 * i) hwell (by omega) (by omega) (by omega)
    rw [← pow_bytes, show 8 * i + 7 - 8 * i + 1 = 8 by omega] at hv
    obtain ⟨m, hwrite, hm⟩ := (h.part (i := i) (by omega)).writes (.inl rfl)
      (hv.trans_lt (Nat.mod_lt _ (by decide)))
    rw [hbytes, hv, show 2 ^ 8 = 256 from rfl, spelled_spelled (by omega)] at hm
    rw [writeByteWise, Nat.mul_div_cancel_left i (by decide),
      show data.subrangeWord ((8 * i : Nat) + 7) (8 * i : Nat) = .ok v from hword]
    change Leads (RunM.writeMemory _ 1 v >>= fun _ => writeByteWise a data k (8 * (i + 1))) w _ _
    exact .bind hwrite hm (ih (h.becomes hm le_rfl) (by omega) hm.bytes)

theorem writeByteWise_whole :
    Leads (writeByteWise a data n 0) w () (spelled w.memory.byteAt a n z) :=
  writeByteWise_eq h hdata (zero_add n) rfl

/-- What is read back from where a vector was written. -/
theorem Leads.back {y : RunM β} {f : Bits → β} (hx : Leads x w r (spelled w.memory.byteAt a n z))
    (hy : ∀ {w}, Covers w a n → ∃ r, Leads y w (f r) w.memory.byteAt ∧
      Spells r n (littleEndian w.memory.byteAt a n)) :
    ∃ r, Leads (do let _ ← x; y) w (f r) (spelled w.memory.byteAt a n z) ∧ Spells r n z := by
  obtain ⟨hwell, hwidth, rfl⟩ := hdata
  have hlt := hwell.toNat_lt
  rw [hwidth, ← pow_bytes] at hlt
  obtain ⟨m, hwrite, hm⟩ := hx
  obtain ⟨r, hread, hr⟩ := hy (h.becomes hm le_rfl)
  rw [hm.bytes] at hread hr
  rw [littleEndian_spelled le_rfl h.fits, Nat.mod_eq_of_lt hlt] at hr
  exact ⟨r, .bind hwrite hm hread, hr⟩

end

/-! ### All sizes -/

theorem isAccessSize_iff : isAccessSize n = true ↔ IsSize n := by
  unfold isAccessSize
  simp only [Bool.or_eq_true, beq_iff_eq, or_assoc]
  norm_cast

theorem operand_int (n : Int) : (operand (.int n) : RunM Int) = pure n := rfl

section

variable {size address : Datum} (hsize : isAddressSize size = true)
    (haddress : addressOf address = pure a)
  (h : Covers w a n) (kind : Datum)
include hsize haddress h

theorem readPlatform_eq (hpos : 0 < n) :
    ∃ r, Leads (readPlatform [kind, size, address, .int n]) w (.bits r) w.memory.byteAt ∧
      Spells r n (littleEndian w.memory.byteAt a n) := by
  simp only [readPlatform, hsize, haddress, operand_int, pure_bind, Bool.not_true,
    Bool.false_eq_true, if_false]
  simp only [isAccessSize_iff]
  split_ifs with hn
  · obtain ⟨v, r, ⟨m, hread, hm⟩, hr, hspells⟩ := h.reads hn (kind.same w.fetchKind)
    refine ⟨r, ⟨m, (bind_ok hread).trans ?_, hm⟩, hspells⟩
    rw [show (n : Int) * 8 = (8 * n : Nat) by omega, hr]
    rfl
  · obtain ⟨r, ⟨m, hread, hm⟩, hspells⟩ := readByteWise_whole h hpos (kind.same w.fetchKind)
    exact ⟨r, ⟨m, bind_ok hread, hm⟩, hspells⟩

theorem writePlatform_eq (hdata : Spells data n z) :
    Leads (writePlatform [kind, size, address, .int n, .bits data]) w (.bool true)
      (spelled w.memory.byteAt a n z) := by
  simp only [writePlatform, hsize, haddress, operand_int, pure_bind, Bool.not_true,
    Bool.false_eq_true,
    if_false, isAccessSize_iff, show (operand (.bits data) : RunM Bits) = pure data from rfl]
  rw [if_neg (by simp [hdata.2.1, mul_comm])]
  split_ifs with hsmall
  · obtain ⟨hwell, hwidth, rfl⟩ := hdata
    have hle := hsmall.le_eight
    obtain ⟨v, hword, hv⟩ := Bits.exists_toUnsigned hwell (by omega)
    have hlt := hwell.toNat_lt
    rw [hwidth, ← pow_bytes, hv] at hlt
    obtain ⟨m, hwrite, hm⟩ := h.writes hsmall hlt
    rw [hword, hv]
    exact ⟨m, bind_ok hwrite, hm⟩
  · obtain ⟨m, hwrite, hm⟩ := writeByteWise_whole h hdata
    exact ⟨m, bind_ok hwrite, hm⟩

/-- A vector is read back from where it was written, and all other bytes stay as they were.  In the
sizes of one access, to go byte by byte makes no difference. -/
theorem write_reads_back (hpos : 0 < n) (hdata : data.WellFormed) (hwidth : data.width = 8 * n)
    (kind' : Datum) (fetch : Bool) :
    ∃ r, Leads (do
        let _ ← writePlatform [kind, size, address, .int n, .bits data]
        readPlatform [kind', size, address, .int n]) w (.bits r)
        (spelled w.memory.byteAt a n data.toNat) ∧
      Spells r n data.toNat ∧
      (IsSize n → Leads (do
        writeByteWise a data n 0
        readByteWise a fetch n none) w (some r) (spelled w.memory.byteAt a n data.toNat)) := by
  have hspells : Spells data n data.toNat := ⟨hdata, hwidth, rfl⟩
  obtain ⟨r, hback, hr⟩ := Leads.back h hspells (writePlatform_eq hsize haddress h kind hspells)
    fun h => readPlatform_eq hsize haddress h kind' hpos
  refine ⟨r, hback, hr, fun hsmall => ?_⟩
  obtain ⟨r', hback', hr'⟩ := Leads.back h hspells (writeByteWise_whole h hspells)
    fun h => readByteWise_whole h hpos fetch
  obtain rfl : r' = r := by
    have hle := hsmall.le_eight
    exact Bits.eq_of_toNat_eq_of_le hr'.1 hr.1 (hr'.2.1.trans hr.2.1.symm)
      (hr.2.1.trans_le (by omega)) (hr'.2.2.trans hr.2.2.symm)
  exact hback'

end

/-- Three bytes at an odd address. -/
theorem write_reads_back_three :
    ∃ r, Leads (do
        let _ ← writePlatform [.unit, .int 64, .bits (.small 64 1), .int 3,
          .bits (.small 24 0x30201)]
        readPlatform [.unit, .int 64, .bits (.small 64 1), .int 3]) {} (.bits r)
          (spelled (Memory.sparse .empty).byteAt 1 3 0x30201) ∧ Spells r 3 0x30201 := by
  have hcovers : Covers {} 1 3 := ⟨rfl, SparseMemory.valid_empty, by decide, fun _ _ => trivial⟩
  have hsize : isAddressSize (.int 64) = true := by decide
  have haddress : addressOf (.bits (.small 64 1)) = pure 1 := rfl
  have hdata : (Bits.small 24 0x30201).WellFormed := by decide
  obtain ⟨r, hback, hr, -⟩ :=
    write_reads_back hsize haddress hcovers .unit (by decide) hdata rfl .unit false
  exact ⟨r, hback, hr⟩

end Jib.Primitive
