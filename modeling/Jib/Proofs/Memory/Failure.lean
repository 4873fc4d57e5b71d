import Jib.Proofs.Memory.Store
import Jib.Proofs.Memory.Versions

/-!
# Writes that fail

A write fails if its value is too large or if the memory lacks one of its bytes.  An aligned write
finds out before it changes anything.  One that is not aligned goes byte by byte and leaves behind
the bytes up to the first one that is lacking, so it leaves the memory as it was only if those bytes
were there already.
-/

namespace Jib.Memory

/-- Memories that can come about.  Nothing is asked of the memories behind the regions of a split
one. -/
inductive Reachable : Memory → Prop where
  | bare : Reachable .bare
  | flat (size : Nat) : Reachable (.flat (.ofSize size))
  | sparse : Reachable (.sparse .empty)
  | split {m₁ m₂ m : Memory} {base₁ size₁ base₂ size₂ : UInt64} (h₁ : Reachable m₁)
    (h₂ : Reachable m₂) (hsplit : mkSplit m₁ base₁ size₁ m₂ base₂ size₂ = .ok m) : Reachable m
  | after {m : Memory} (h : Reachable m) (operation : Operation) : Reachable (m.after operation)

variable {m m' : Memory} {a v x : UInt64} {n k : Nat}

/-- The byte at an address can be read, and is a given one. -/
def Reads (m : Memory) (x : UInt64) (byte : Nat) : Prop :=
  ∀ fetch, (m.read x 1 fetch).1.map (·.toNat) = .ok byte

/-! ### Bytes that can be read -/

theorem reads_iff (hm : m.Consistent) {byte : Nat} :
    m.Reads x byte ↔ m.Has x ∧ m.byteAt x = byte := by
  have hread (fetch : Bool) (w : UInt64) :
      (m.read x 1 fetch).1 = .ok w ↔ m.Has x ∧ w.toNat = m.byteAt x :=
    littleEndian_one m.byteAt x ▸ alignedRead_eq_ok_iff hm (.inl rfl) (Nat.mod_one _) fetch
  constructor
  · intro h
    have hbyte := h false
    cases hr : (m.read x 1 false).1 with
      rw [hr] at hbyte
    | error e => cases hbyte
    | ok w =>
      obtain ⟨hhas, hw⟩ := (hread false w).mp hr
      exact ⟨hhas, hw.symm.trans (Except.ok.inj hbyte)⟩
  · rintro ⟨hhas, rfl⟩ fetch
    have hlt : m.byteAt x < 2 ^ 64 := (m.byteAt_lt x).trans (by decide)
    have hw : (UInt64.ofNat (m.byteAt x)).toNat = m.byteAt x := UInt64.toNat_ofNat_of_lt' hlt
    rw [(hread fetch _).mpr ⟨hhas, hw⟩]
    exact congrArg Except.ok hw

/-! ### Memories that can come about -/

theorem consistent_write (hm : m.Consistent) (a : UInt64) (bytes : Int) (v : UInt64) :
    (m.write a bytes v).2.Consistent := by
  unfold write
  cases haligned : isAligned a bytes with
  | error e => exact hm
  | ok aligned =>
    obtain ⟨n, hn, rfl, -⟩ := isAligned_eq_ok haligned
    obtain ⟨k, -, -, hleaves⟩ := write_found hm hn
    unfold write at hleaves
    rw [haligned] at hleaves
    exact hleaves.consistent

theorem consistent_after (hm : m.Consistent) (operation : Operation) :
    (m.after operation).Consistent := by
  cases operation with
  | read a bytes fetch => exact (leaves_read hm a bytes fetch).consistent
  | write a bytes v => exact consistent_write hm a bytes v
  | mark a =>
    cases m with
    | flat m =>
      cases hmark : m.markImmutable a with
      | error e => simpa only [after, markImmutable, hmark, Except.map] using hm
      | ok m' =>
        have hvalid : (flat m').Consistent := (FlatMemory.marks_of_markImmutable hmark).valid hm
        simpa only [after, markImmutable, hmark, Except.map] using hvalid
    | bare => exact hm
    | sparse m => exact hm
    | split m₁ b₁ e₁ m₂ b₂ e₂ => exact hm

theorem dvd_toInt {w : UInt64} (hw : (w &&& 7 == 0) = true) : 8 ∣ Word.toInt w := by
  rw [and_low_eq_zero w (k := 3) rfl, decide_eq_true_iff] at hw
  have hsigned : Word.toInt w =
      if 2 * w.toNat < 2 ^ 64 then (w.toNat : Int) else w.toNat - (2 ^ 64 : Nat) :=
    BitVec.toInt_eq_toNat_cond w.toBitVec
  rw [hsigned]
  split <;> omega

theorem Reachable.consistent (hm : m.Reachable) : m.Consistent := by
  induction hm with
  | bare => trivial
  | flat size => exact FlatMemory.valid_ofSize size
  | sparse => exact SparseMemory.valid_empty
  | split _ _ hsplit ih₁ ih₂ =>
    obtain ⟨hfits₁, hfits₂, rfl⟩ := mkSplit_eq_ok hsplit
    have hregion {base size : UInt64} (hfits : regionFits base size = true) :
        8 ∣ Word.toInt base ∧ 8 ∣ Word.toInt (base + size) := by
      unfold regionFits at hfits
      rw [Bool.and_eq_true, Bool.and_eq_true] at hfits
      apply And.intro (dvd_toInt hfits.1.1)
      apply dvd_toInt
      have hbase := hfits.1.1
      have hsize := hfits.1.2
      rw [and_low_eq_zero _ (k := 3) rfl, decide_eq_true_iff] at hbase hsize ⊢
      rw [UInt64.toNat_add]
      omega
    exact ⟨⟨ih₁, hregion hfits₁⟩, ih₂, hregion hfits₂⟩
  | after _ operation ih => exact consistent_after ih operation

/-! ### Failing writes -/

theorem forall_reads_iff {bytes : UInt64 → Nat} (hm : m.Consistent) (h : Leaves m m' bytes) :
    (∀ x b, m.Reads x b → m'.Reads x b) ↔ ∀ x, m.Has x → bytes x = m.byteAt x := by
  constructor
  · intro hkeeps x hx
    have hread := hkeeps x _ ((reads_iff hm).mpr ⟨hx, rfl⟩)
    rw [← h.bytes]
    exact ((reads_iff h.consistent).mp hread).2
  · intro hkeeps x b hread
    obtain ⟨hhas, rfl⟩ := (reads_iff hm).mp hread
    rw [reads_iff h.consistent, h.bytes]
    exact ⟨(h.has x).mpr hhas, hkeeps x hhas⟩

theorem exists_reads_iff (hm : m.Consistent) : (∃ b, m.Reads x b) ↔ m.Has x := by
  simp [reads_iff hm]

/-- Overwriting bytes that are there keeps them exactly if they are the same. -/
theorem overwritten_eq_iff (hn : IsSize n) (hk : k ≤ n)
    (hhas : ∀ i < k, m.Has (a + UInt64.ofNat i)) :
    (∀ x, m.Has x → overwritten m.byteAt a k v x = m.byteAt x) ↔
      ∀ i < k, m.byteAt (a + UInt64.ofNat i) = byteOf v i := by
  unfold overwritten
  constructor
  · intro h i hi
    have hbyte := h _ (hhas i hi)
    have hle := hn.le_eight
    rw [toNat_add_sub (by omega), if_pos hi] at hbyte
    exact hbyte.symm
  · intro h x _
    split_ifs with hx
    · have hbyte := h _ hx
      rw [UInt64.ofNat_toNat, show a + (x - a) = x by grind] at hbyte
      exact hbyte.symm
    · rfl

theorem Found.lt_iff {i : Nat} (h : m.Found a n k) (hi : i < n) :
    i < k ↔ ∀ j ≤ i, m.Has (a + UInt64.ofNat j) := by
  constructor
  · intro hik j hj
    exact h.has j (hj.trans_lt hik)
  · intro hall
    by_contra hki
    have hle : k ≤ i := Nat.le_of_not_lt hki
    exact h.stop (hle.trans_lt hi) (hall k hle)

/-- A write that fails leaves the bytes that it finds if it is not aligned, and the memory as it was
if it is. -/
theorem write_failing (hm : m.Consistent) (hn : IsSize n) :
    ((∃ e, (m.write a n v).1 = .error e) ↔ 256 ^ n ≤ v.toNat ∨
      ∃ i < n, ¬ m.Has (a + UInt64.ofNat i)) ∧
      ((∃ e, (m.write a n v).1 = .error e) → ∃ k, m.Found a n k ∧
        Leaves m (m.write a n v).2
          (if a.toNat % n = 0 then m.byteAt else overwritten m.byteAt a k v)) := by
  obtain ⟨k, hfound, hfails, hleaves⟩ := write_found hm hn
  refine ⟨?_, fun hfailed => ⟨k, hfound, ?_⟩⟩
  · rw [hfails, hfound.lt_size_iff, or_comm]
  · simpa only [hfails.mp hfailed, and_true] using hleaves

/-- A write fails exactly if its value is too large or a byte of it cannot be read, and one that
fails keeps all bytes exactly if it is aligned or those before the first that cannot be read had
their values already. -/
theorem failed_write_keeps_iff (hm : m.Reachable) (hn : IsSize n) :
    ((∃ e, (m.write a n v).1 = .error e) ↔
        256 ^ n ≤ v.toNat ∨ ∃ i < n, ∀ byte, ¬ m.Reads (a + UInt64.ofNat i) byte) ∧
      ((∃ e, (m.write a n v).1 = .error e) →
        ((∀ x byte, m.Reads x byte → (m.write a n v).2.Reads x byte) ↔
          a.toNat % n = 0 ∨ ∀ i < n, (∀ j ≤ i, ∃ byte, m.Reads (a + UInt64.ofNat j) byte) →
            m.Reads (a + UInt64.ofNat i) (byteOf v i))) := by
  have hc := hm.consistent
  obtain ⟨hfails, hleft⟩ := write_failing (a := a) (v := v) hc hn
  simp only [← not_exists, exists_reads_iff hc]
  apply And.intro hfails
  intro hfailed
  obtain ⟨k, hfound, hleaves⟩ := hleft hfailed
  rw [forall_reads_iff hc hleaves]
  by_cases ha : a.toNat % n = 0
  · simp [ha]
  · simp only [if_neg ha, or_iff_right ha]
    rw [overwritten_eq_iff hn hfound.le hfound.has]
    constructor
    · intro h i hi hall
      have hik := (hfound.lt_iff hi).mpr hall
      exact (reads_iff hc).mpr ⟨hfound.has i hik, h i hik⟩
    · intro h i hik
      have hi := hik.trans_le hfound.le
      exact ((reads_iff hc).mp (h i hi ((hfound.lt_iff hi).mp hik))).2

/-- Eight bytes in front of eight others. -/
def twoRegions : Memory :=
  .split (.flat (.ofSize 8)) 0 8 (.flat (.ofSize 8)) 8 16

/-- Four bytes at address fourteen, of which the second region has only two, which are zero
already. -/
theorem failed_write_keeps_iff_straddling :
    twoRegions.Reachable ∧
      (∃ e, (twoRegions.write 14 4 0xAABB0000).1 = .error e) ∧
      ∀ x byte, twoRegions.Reads x byte → (twoRegions.write 14 4 0xAABB0000).2.Reads x byte := by
  have hsplit : mkSplit (.flat (.ofSize 8)) 0 8 (.flat (.ofSize 8)) 8 8 = .ok twoRegions := rfl
  have hreachable : twoRegions.Reachable := .split (.flat 8) (.flat 8) hsplit
  have hfails : ∃ e, (twoRegions.write 14 4 0xAABB0000).1 = .error e := ⟨_, rfl⟩
  apply And.intro hreachable
  apply And.intro hfails
  apply ((failed_write_keeps_iff hreachable (n := 4) (by decide)).2 hfails).mpr
  apply Or.inr
  intro i _ hall fetch
  rcases i with _ | _ | i
  · cases fetch <;> rfl
  · cases fetch <;> rfl
  · -- the third byte cannot be read
    obtain ⟨byte, hread⟩ := hall 2 (Nat.le_add_left 2 i)
    cases hread false

/-- A value of three bytes at an odd address: the write fails, and its lower two bytes are there. -/
theorem failed_write_overwrites :
    ¬ ∀ (m : Memory) (a v : UInt64) (n : Nat), m.Reachable → IsSize n →
      (∃ e, (m.write a n v).1 = .error e) → ∀ x byte, m.Reads x byte →
      (m.write a n v).2.Reads x byte := by
  intro hkeeps
  have hread : (flat (.ofSize 16)).Reads 1 0 := fun fetch => by cases fetch <;> rfl
  have hafter := hkeeps _ 1 0x12345 2 (.flat 16) (by decide) ⟨_, rfl⟩ 1 0 hread false
  exact absurd hafter (by decide)

end Jib.Memory
