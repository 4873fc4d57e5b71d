import Jib.Platform.Riscv.Boot
import Jib.Proofs.DeviceTree.Format
import Jib.Proofs.Loading
import Jib.Proofs.Memory.Platform
import Mathlib.Algebra.BigOperators.Ring.Finset

/-!
# The memory that the machine starts from

The instructions at the reset address find the entry address and the device tree where they look for
them.  The read-only memory ends with zeros at the end of a page, and no other byte is written.
-/

namespace Jib.Riscv

open Elf (overlaid add_ofNat_succ)
open Primitive (Covers)

/-- Bytes stand one after the other from an address on. -/
def Stored (bytes : UInt64 → Nat) (a : UInt64) (bs : Bytes) : Prop :=
  ∀ i b, bs[i]? = some b → bytes (a + UInt64.ofNat i) = b.toNat

/-- What the instructions in a read-only memory with so many bytes expect there. -/
structure Laid (bytes : UInt64 → Nat) (entry : UInt64) (blob : Bytes) (size : Nat) : Prop where
  entryAt : littleEndian bytes (resetAddress + 24) 8 = entry.toNat
  blobAt : Stored bytes (resetAddress + 32) blob
  zeros : Stored bytes (resetAddress + UInt64.ofNat (32 + blob.length))
    (List.replicate (size - (32 + blob.length)) 0)

variable {w : World} {m : Memory} {a entry : UInt64} {bs front back blob : Bytes} {wide : Bool}
    {size : Nat}
  {bytes : UInt64 → Nat} {tree old : Datum}

theorem Stored.littleEndian (h : Stored bytes a bs) :
    littleEndian bytes a bs.length = bs.toNatLow := by
  induction bs generalizing a with
  | nil => rfl
  | cons b bs ih =>
    have hrest : Stored bytes (a + 1) bs := fun i c hc => add_ofNat_succ a i ▸ h (i + 1) c hc
    have hshift : ∑ i ∈ Finset.range bs.length, bytes (a + UInt64.ofNat (i + 1)) * 256 ^ (i + 1) =
        256 * littleEndian bytes (a + 1) bs.length := by
      rw [littleEndian, Finset.mul_sum]
      refine Finset.sum_congr rfl fun i _ => ?_
      rw [add_ofNat_succ, pow_succ']
      ac_rfl
    rw [littleEndian, List.length_cons, Finset.sum_range_succ', hshift, ih hrest,
      h 0 b rfl, pow_zero, mul_one, Nat.add_comm, Bytes.toNatLow]

theorem stored_overlaid (bytes : UInt64 → Nat) (a : UInt64)
    (hlen : (front ++ bs ++ back).length ≤ 2 ^ 64) :
    Stored (overlaid bytes a (front ++ bs ++ back)) (a + UInt64.ofNat front.length) bs := by
  intro i b hb
  have hi := (List.getElem?_eq_some_iff.mp hb).1
  simp at hlen
  rw [UInt64.add_assoc, ← UInt64.ofNat_add, overlaid, toNat_add_sub (by omega)]
  rw [List.append_assoc, List.getElem?_append_right (by omega), Nat.add_sub_cancel_left,
    List.getElem?_append_left hi, hb]
  rfl

theorem writeBytes_eq (hattached : w.attached = true) (h : Elf.writeBytes w.memory a bs = .ok m) :
    writeBytes a bs w = .ok () { w with memory := m } := by
  induction bs generalizing w a with
  | nil =>
    cases h
    rfl
  | cons b bs ih =>
    unfold Elf.writeBytes at h
    split at h
    · next m₁ hwrite =>
      have hfirst : RunM.writeMemory a 1 b.toUInt64 w = .ok () { w with memory := m₁ } := by
        unfold RunM.writeMemory RunM.onMemory
        rw [if_pos hattached]
        simp only [hwrite]
      exact (bind_ok hfirst).trans (ih hattached h)
    · cases h

theorem setting_eq {name : String} {d : Datum} (h : w.slots[settingSlot name]? = some d) :
    RunM.setting name w = .ok d w := by
  refine (bind_ok rfl).trans ?_
  simp only [h]
  rfl

theorem number?_of_same {n : Int} (h : old.same (.int n) = true) : old.number? = some n := by
  unfold Datum.same at h
  cases hold : old.number? <;> simp_all [Datum.number?]

theorem enterRom_eq (hold : w.slots[settingSlot "rv_rom_size"]? = some old) (hlt : size < 2 ^ 64) :
    ∃ slots d, enterRom size w = .ok () { w with slots } ∧
    slots["_reg_zPC"]? = some (.word 0x1000) ∧
      slots[settingSlot "rv_rom_size"]? = some d ∧ d.number? = some (size : Int) := by
  unfold enterRom
  rw [bind_ok (setting_eq hold)]
  cases hsame : old.same (.int size) with
  | true =>
    refine ⟨_, old, rfl, Std.HashMap.getElem?_insert_self, ?_, number?_of_same hsame⟩
    rw [Std.HashMap.getElem?_insert, if_neg (by decide), hold]
  | false =>
    refine ⟨_, .word size.toUInt64, rfl, Std.HashMap.getElem?_insert_self, ?_, ?_⟩
    · rw [Std.HashMap.getElem?_insert]
      exact Std.HashMap.getElem?_insert_self
    · exact congrArg some (Nat.cast_inj.mpr (UInt64.toNat_ofNat_of_lt' hlt))

/-- The words that load the entry address from behind them. -/
def codeBytes (wide : Bool) (entry : UInt64) : Bytes :=
  ((resetWords wide entry).take 6).flatMap (Bytes.ofNatLow 4)

theorem length_codeBytes : (codeBytes wide entry).length = 24 := by
  simp [codeBytes, resetWords, Bytes.length_ofNatLow]

section

variable (hsize : IsLeast { n | 4096 ∣ n ∧ 32 + blob.length ≤ n } size)
include hsize

theorem romBytes_eq : romBytes wide entry blob =
    codeBytes wide entry ++ Bytes.ofNatLow 8 entry.toNat ++ blob ++
      List.replicate (size - (32 + blob.length)) 0 := by
  have hwords : (resetWords wide entry).flatMap (Bytes.ofNatLow 4) =
      codeBytes wide entry ++ Bytes.ofNatLow 8 entry.toNat := by
    rw [Bytes.ofNatLow_add 4 4]
    simp [codeBytes, resetWords]
  have hlength :
      (codeBytes wide entry ++ Bytes.ofNatLow 8 entry.toNat ++ blob).length = 32 + blob.length := by
    simp +arith [length_codeBytes, Bytes.length_ofNatLow]
  obtain ⟨⟨hdvd, hle⟩, hleast⟩ := hsize
  have hupper : size ≤ 32 + blob.length + (4096 - (32 + blob.length) % 4096) % 4096 :=
    hleast ⟨by omega, by omega⟩
  have hpad : (pageSize - (32 + blob.length) % pageSize) % pageSize =
      size - (32 + blob.length) := by
    unfold pageSize
    omega
  simp only [romBytes, hwords, hlength, hpad]

theorem length_romBytes : (romBytes wide entry blob).length = size := by
  have hle := hsize.1.2
  simp [romBytes_eq hsize, length_codeBytes, Bytes.length_ofNatLow]
  omega

theorem laid_overlaid (hlt : size < 2 ^ 64) :
    Laid (overlaid bytes resetAddress (romBytes wide entry blob)) entry blob size := by
  have hlength : (romBytes wide entry blob).length = size := length_romBytes hsize
  rw [romBytes_eq hsize] at hlength ⊢
  constructor
  · rw [List.append_assoc] at hlength ⊢
    have hentry := (stored_overlaid bytes resetAddress (hlength ▸ hlt.le)).littleEndian
    rw [Bytes.toNatLow_ofNatLow, length_codeBytes] at hentry
    exact hentry.trans (Nat.mod_eq_of_lt entry.toNat_lt)
  · have hblob := stored_overlaid bytes resetAddress (hlength ▸ hlt.le)
    rwa [List.length_append, length_codeBytes] at hblob
  · rw [← List.append_nil (_ ++ _)] at hlength ⊢
    have hrest := stored_overlaid bytes resetAddress (hlength ▸ hlt.le)
    rwa [List.length_append, List.length_append, length_codeBytes] at hrest

end

/-- After a reset, the entry address and the device tree are in their places in the read-only
memory, which ends with zeros and has the least size that is possible in pages.  Its size is
recorded, the program counter is at its start, and no other byte has changed. -/
theorem reset_layout (wide : Bool) (entry : UInt64)
    (htree : w.slots[settingSlot "dtb"]? = some tree)
    (hold : w.slots[settingSlot "rv_rom_size"]? = some old)
    (hsize : IsLeast { n | 4096 ∣ n ∧ 32 + (blobOf tree).length ≤ n } size) (hlt : size < 2 ^ 64)
    (h : Covers w resetAddress size) :
    ∃ v d, resetTo wide entry w = .ok () v ∧ Laid v.memory.byteAt entry (blobOf tree) size ∧
      (∀ x, size ≤ (x - resetAddress).toNat → v.memory.byteAt x = w.memory.byteAt x) ∧
      v.slots["_reg_zPC"]? = some (.word 0x1000) ∧
      v.slots[settingSlot "rv_rom_size"]? = some d ∧ d.number? = some (size : Int) := by
  have hlength : (romBytes wide entry (blobOf tree)).length = size := length_romBytes hsize
  obtain ⟨m, hwrite, hm⟩ := Elf.writeBytes_eq h.valid (hlength ▸ hlt.le) (hlength ▸ h.holds)
  obtain ⟨slots, d, henter, hslots⟩ := enterRom_eq (w := { w with memory := m }) hold hlt
  refine ⟨{ w with memory := m, slots }, d, ?_, ?_, fun x hx => ?_, hslots⟩
  · unfold resetTo
    rw [bind_ok (setting_eq htree), bind_ok (writeBytes_eq h.attached hwrite), hlength]
    exact henter
  · exact hm.bytes ▸ laid_overlaid hsize hlt
  · change m.byteAt x = _
    rw [hm.bytes, overlaid, List.getElem?_eq_none (hlength ▸ hx)]
    rfl

/-- A machine with a tree of two bytes. -/
def smallTree : World where
  slots := ((∅ : Std.HashMap String Datum).insert "g.dtb" (.text "ab")).insert "g.rv_rom_size"
    (.word 0x100)

theorem reset_layout_small :
    ∃ v d, resetTo true 0x80000000 smallTree = .ok () v ∧
    Laid v.memory.byteAt 0x80000000 [97, 98] 4096 ∧
      (∀ x, 4096 ≤ (x - resetAddress).toNat → v.memory.byteAt x = smallTree.memory.byteAt x) ∧
      v.slots["_reg_zPC"]? = some (.word 0x1000) ∧
      v.slots[settingSlot "rv_rom_size"]? = some d ∧ d.number? = some 4096 := by
  have htree : smallTree.slots["g.dtb"]? = some (.text "ab") := by
    unfold smallTree
    rw [Std.HashMap.getElem?_insert, if_neg (by decide)]
    exact Std.HashMap.getElem?_insert_self
  have hold : smallTree.slots["g.rv_rom_size"]? = some (.word 0x100) :=
    Std.HashMap.getElem?_insert_self
  have hsize : IsLeast { n | 4096 ∣ n ∧ 32 + (blobOf (.text "ab")).length ≤ n } 4096 :=
    ⟨by decide, fun n hn => Nat.le_of_dvd (Nat.lt_of_lt_of_le (by decide) hn.2) hn.1⟩
  exact reset_layout true 0x80000000 htree hold hsize (by decide)
    ⟨rfl, SparseMemory.valid_empty, by decide, fun _ _ => trivial⟩

end Jib.Riscv
