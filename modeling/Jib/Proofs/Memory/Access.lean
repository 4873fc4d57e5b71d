import Jib.Memory.Basic
import Jib.Proofs.Memory.Flat
import Jib.Proofs.Memory.Sparse
import Mathlib.Tactic.Ring

/-!
# Accesses to memories

Every memory is a store of bytes at the addresses that it has.  A read gives the number that its
bytes spell if the memory has them, and keeps all bytes.  A write overwrites its bytes.  It fails if
its value is too large or if the memory lacks one of its bytes.  An aligned write finds out before
it changes anything, and one that is not aligned goes byte by byte and leaves behind the bytes up to
the first one that is lacking.
-/

namespace Jib.Memory

variable {m m' m₁ m₂ : Memory} {a v w x : UInt64} {n k : Nat} {f : UInt64 → Nat}

/-- Whether a memory has the byte at an address.  A flat memory has the bytes of its words, and a
split one those of its regions. -/
def Holds : Memory → UInt64 → Prop
  | bare, _ => False
  | flat m, a => a.toNat < 8 * m.words.size
  | sparse _, _ => True
  | split _ b₁ e₁ _ b₂ e₂, a => inRegion b₁ e₁ a = true ∨ inRegion b₂ e₂ a = true

def byteAt : Memory → UInt64 → Nat
  | bare, _ => 0
  | flat m, a => bytesIn m.wordAt a
  | sparse m, a => bytesIn m.wordAt a
  | split m₁ b₁ e₁ m₂ b₂ _, a =>
    if inRegion b₁ e₁ a then m₁.byteAt (a - Word.ofInt b₁) else m₂.byteAt (a - Word.ofInt b₂)

/-- A region consists of whole words, and the memory behind it has all its bytes. -/
structure Backs (m : Memory) (base stop : Int) : Prop where
  base_dvd : 8 ∣ base
  stop_dvd : 8 ∣ stop
  holds : ∀ a : UInt64, inRegion base stop a = true → m.Holds (a - Word.ofInt base)

def Valid : Memory → Prop
  | bare => True
  | flat m => m.Valid
  | sparse m => m.Valid
  | split m₁ b₁ e₁ m₂ b₂ e₂ => (m₁.Valid ∧ m₁.Backs b₁ e₁) ∧ m₂.Valid ∧ m₂.Backs b₂ e₂

/-- A memory that an access leaves: it has the same addresses, and the bytes are as given. -/
structure Becomes (m m' : Memory) (bytes : UInt64 → Nat) : Prop where
  valid : m'.Valid
  holds : ∀ x : UInt64, m'.Holds x ↔ m.Holds x
  bytes : m'.byteAt = bytes

theorem Becomes.trans {m'' : Memory} {f g : UInt64 → Nat} (h : Becomes m m' f)
    (h' : Becomes m' m'' g) : Becomes m m'' g :=
  ⟨h'.valid, fun x => (h'.holds x).trans (h.holds x), h'.bytes⟩

/-- Whether a memory has the byte at an address, also in the memory behind the region that it lies
in. -/
def Has : Memory → UInt64 → Prop
  | bare, _ => False
  | flat m, a => a.toNat < 8 * m.words.size
  | sparse _, _ => True
  | split m₁ b₁ e₁ m₂ b₂ e₂, a =>
    if inRegion b₁ e₁ a = true then m₁.Has (a - Word.ofInt b₁)
    else inRegion b₂ e₂ a = true ∧ m₂.Has (a - Word.ofInt b₂)

/-- Regions consist of whole words. -/
def Consistent : Memory → Prop
  | bare => True
  | flat m => m.Valid
  | sparse m => m.Valid
  | split m₁ b₁ e₁ m₂ b₂ e₂ =>
    (m₁.Consistent ∧ 8 ∣ b₁ ∧ 8 ∣ e₁) ∧ m₂.Consistent ∧ 8 ∣ b₂ ∧ 8 ∣ e₂

/-! ### Regions -/

theorem inRegion_iff {base stop : Int} :
    inRegion base stop a = true ↔ a.toNat < 2 ^ 63 ∧ base ≤ a.toNat ∧ (a.toNat : Int) < stop := by
  have htop : (a &&& topBit == 0) = !decide (2 ^ 63 ≤ a.toNat) := by
    rw [← Word.and_high_ne_zero]
    exact (Bool.not_not _).symm
  unfold inRegion
  rw [htop, Bool.and_eq_true, Bool.and_eq_true, Bool.not_eq_true', decide_eq_false_iff_not, not_le,
    decide_eq_true_iff, decide_eq_true_iff, and_assoc]
  apply and_congr_right
  intro hlt
  rw [Word.toInt_of_lt hlt]

/-- A region of whole words has all bytes of a word or none. -/
theorem inRegion_of_same_word {base stop : Int} (hbase : 8 ∣ base) (hstop : 8 ∣ stop) {x y : UInt64}
    (hxy : x.toNat / 8 = y.toNat / 8) : inRegion base stop x = inRegion base stop y := by
  rw [Bool.eq_iff_iff, inRegion_iff, inRegion_iff]
  omega

theorem aligned_sub {base : Int} (hbase : 8 ∣ base) (hn : IsSize n) (ha : a.toNat % n = 0) :
    (a - Word.ofInt base).toNat % n = 0 := by
  have hword := Word.toNat_ofInt base
  rw [UInt64.toNat_sub]
  rcases hn with rfl | rfl | rfl | rfl <;> omega

theorem same_word_sub {base : Int} (hbase : 8 ∣ base) {x y : UInt64}
    (h : x.toNat / 8 = y.toNat / 8) :
    (x - Word.ofInt base).toNat / 8 = (y - Word.ofInt base).toNat / 8 := by
  have hword := Word.toNat_ofInt base
  rw [UInt64.toNat_sub, UInt64.toNat_sub]
  omega

/-- A memory has whole words. -/
theorem has_congr (hm : m.Consistent) {x y : UInt64} (h : x.toNat / 8 = y.toNat / 8) :
    m.Has x ↔ m.Has y := by
  induction m generalizing x y with
  | bare => exact Iff.rfl
  | flat m =>
    change x.toNat < 8 * m.words.size ↔ y.toNat < 8 * m.words.size
    omega
  | sparse m => exact Iff.rfl
  | split m₁ b₁ e₁ m₂ b₂ e₂ ih₁ ih₂ =>
    obtain ⟨⟨hm₁, hbase₁, hend₁⟩, hm₂, hbase₂, hend₂⟩ := hm
    unfold Has
    rw [inRegion_of_same_word hbase₁ hend₁ h, inRegion_of_same_word hbase₂ hend₂ h,
      ih₁ hm₁ (same_word_sub hbase₁ h), ih₂ hm₂ (same_word_sub hbase₂ h)]

theorem Valid.consistent (hm : m.Valid) : m.Consistent := by
  induction m with
  | bare => trivial
  | flat m => exact hm
  | sparse m => exact hm
  | split m₁ b₁ e₁ m₂ b₂ e₂ ih₁ ih₂ =>
    obtain ⟨⟨hm₁, hbacks₁⟩, hm₂, hbacks₂⟩ := hm
    exact ⟨⟨ih₁ hm₁, hbacks₁.base_dvd, hbacks₁.stop_dvd⟩, ih₂ hm₂, hbacks₂.base_dvd,
      hbacks₂.stop_dvd⟩

/-- A memory whose regions are backed has the bytes of its regions. -/
theorem Valid.has_iff (hm : m.Valid) (x : UInt64) : m.Has x ↔ m.Holds x := by
  induction m generalizing x with
  | bare => exact Iff.rfl
  | flat m => exact Iff.rfl
  | sparse m => exact Iff.rfl
  | split m₁ b₁ e₁ m₂ b₂ e₂ ih₁ ih₂ =>
    obtain ⟨⟨hm₁, hbacks₁⟩, hm₂, hbacks₂⟩ := hm
    unfold Has
    split_ifs with h₁
    · exact iff_of_true ((ih₁ hm₁ _).mpr (hbacks₁.holds x h₁)) (.inl h₁)
    · refine (and_iff_left_of_imp fun h₂ => ?_).trans (or_iff_right h₁).symm
      exact (ih₂ hm₂ _).mpr (hbacks₂.holds x h₂)

/-- A memory with the same addresses and the given bytes. -/
structure Leaves (m m' : Memory) (bytes : UInt64 → Nat) : Prop where
  consistent : m'.Consistent
  has : ∀ x : UInt64, m'.Has x ↔ m.Has x
  bytes : m'.byteAt = bytes
  valid : m.Valid → m'.Valid

theorem Leaves.refl (hm : m.Consistent) : Leaves m m m.byteAt := ⟨hm, fun _ => Iff.rfl, rfl, id⟩

theorem Leaves.trans {m'' : Memory} {g : UInt64 → Nat} (h : Leaves m m' f) (h' : Leaves m' m'' g) :
    Leaves m m'' g :=
  ⟨h'.consistent, fun x => (h'.has x).trans (h.has x), h'.bytes, h'.valid ∘ h.valid⟩

theorem Leaves.holds (h : Leaves m m' f) (hm : m.Valid) (x : UInt64) : m'.Holds x ↔ m.Holds x := by
  rw [← hm.has_iff, ← (h.valid hm).has_iff, h.has]

theorem Leaves.becomes (h : Leaves m m' f) (hm : m.Valid) : Becomes m m' f :=
  ⟨h.valid hm, h.holds hm, h.bytes⟩

theorem Leaves.backs {base stop : Int} (h : Leaves m m' f) (hm : m.Valid ∧ m.Backs base stop) :
    m'.Valid ∧ m'.Backs base stop :=
  ⟨h.valid hm.1, hm.2.base_dvd, hm.2.stop_dvd, fun x hx => (h.holds hm.1 _).mpr (hm.2.holds x hx)⟩

section Split

variable {b₁ e₁ b₂ e₂ : Int} (hm : (split m₁ b₁ e₁ m₂ b₂ e₂).Consistent)
include hm

theorem Leaves.first (h : Leaves m₁ m' f) :
    Leaves (split m₁ b₁ e₁ m₂ b₂ e₂) (split m' b₁ e₁ m₂ b₂ e₂)
      (fun x => if inRegion b₁ e₁ x then f (x - Word.ofInt b₁) else m₂.byteAt (x - Word.ofInt b₂))
      where
  consistent := ⟨⟨h.consistent, hm.1.2⟩, hm.2⟩
  has x := by simp only [Has, h.has]
  bytes := by
    rw [← h.bytes]
    rfl
  valid hvalid := ⟨h.backs hvalid.1, hvalid.2⟩

theorem Leaves.second (h : Leaves m₂ m' f) :
    Leaves (split m₁ b₁ e₁ m₂ b₂ e₂) (split m₁ b₁ e₁ m' b₂ e₂)
      (fun x => if inRegion b₁ e₁ x then m₁.byteAt (x - Word.ofInt b₁) else f (x - Word.ofInt b₂))
      where
  consistent := ⟨hm.1, h.consistent, hm.2.2⟩
  has x := by simp only [Has, h.has]
  bytes := by
    rw [← h.bytes]
    rfl
  valid hvalid := ⟨hvalid.1, h.backs hvalid.2⟩

end Split

/-! ### Aligned accesses -/

/-- An aligned read keeps all bytes, also if it fails. -/
theorem leaves_alignedRead (hm : m.Consistent) (a : UInt64) (n : Nat) (fetch : Bool) :
    Leaves m (m.alignedRead a n fetch).2 m.byteAt := by
  induction m generalizing a with
  | bare => exact .refl hm
  | flat m =>
    have hmarks := FlatMemory.marks_alignedRead m a n fetch
    have hvalid := hmarks.valid hm
    refine ⟨hvalid, fun x => ?_, funext fun x => ?_, fun _ => hvalid⟩
    · change x.toNat < 8 * (m.alignedRead a n fetch).2.words.size ↔ x.toNat < 8 * m.words.size
      rw [hmarks.words]
    · change bytesIn (m.alignedRead a n fetch).2.wordAt x = bytesIn m.wordAt x
      unfold FlatMemory.wordAt
      rw [hmarks.words]
  | sparse m =>
    obtain ⟨hvalid, -, hwords⟩ := SparseMemory.useBlock_finds hm a fetch
    exact ⟨hvalid, fun _ => Iff.rfl, congrArg bytesIn hwords, fun _ => hvalid⟩
  | split m₁ b₁ e₁ m₂ b₂ e₂ ih₁ ih₂ =>
    unfold alignedRead
    split_ifs
    · exact (ih₁ hm.1.1 _).first hm
    · exact (ih₂ hm.2.1 _).second hm
    · exact .refl hm

/-- The bytes of an aligned access are all in a region, or none of them is. -/
theorem inRegion_of_covered {base stop : Int} (hbase : 8 ∣ base) (hstop : 8 ∣ stop) (hn : IsSize n)
    (ha : a.toNat % n = 0) (hx : (x - a).toNat < n) : inRegion base stop x = inRegion base stop a :=
  inRegion_of_same_word hbase hstop ((hn.sub_lt_iff ha).mp hx).1

/-- An aligned read gives the number that its bytes spell, if the memory has them. -/
theorem alignedRead_eq_ok_iff (hm : m.Consistent) (hn : IsSize n) (ha : a.toNat % n = 0)
    (fetch : Bool) :
    (m.alignedRead a n fetch).1 = .ok w ↔ m.Has a ∧ w.toNat = littleEndian m.byteAt a n := by
  induction m generalizing a with
  | bare => exact iff_of_false nofun fun h => h.1
  | flat m => exact FlatMemory.alignedRead_eq_ok_iff hm hn ha fetch
  | sparse m =>
    exact (SparseMemory.alignedRead_eq_ok_iff hm hn ha fetch).trans (true_and _).symm.to_iff
  | split m₁ b₁ e₁ m₂ b₂ e₂ ih₁ ih₂ =>
    obtain ⟨⟨hm₁, hbase₁, hend₁⟩, hm₂, hbase₂, -⟩ := hm
    have hcovered {i : Nat} (hi : i < n) : inRegion b₁ e₁ (a + UInt64.ofNat i) = inRegion b₁ e₁ a :=
      inRegion_of_covered hbase₁ hend₁ hn ha (hn.add_sub_lt hi)
    unfold alignedRead Has
    split_ifs with h₁ h₂
    · rw [littleEndian_sub fun i hi => by exact if_pos ((hcovered hi).trans h₁)]
      exact ih₁ hm₁ (aligned_sub hbase₁ hn ha)
    · rw [littleEndian_sub fun i hi => by exact if_neg (hcovered hi ▸ h₁), and_iff_right h₂]
      exact ih₂ hm₂ (aligned_sub hbase₂ hn ha)
    · exact iff_of_false nofun fun h => h₂ h.1.1

/-- An aligned write either overwrites its bytes or fails and keeps them. -/
theorem alignedWrite_cases (hm : m.Consistent) (hn : IsSize n) (ha : a.toNat % n = 0) :
    (v.toNat < 256 ^ n ∧ m.Has a ∧ ∃ m', m.alignedWrite a n v = (.ok (), m') ∧
        Leaves m m' (overwritten m.byteAt a n v)) ∨
      ¬ (v.toNat < 256 ^ n ∧ m.Has a) ∧ ∃ e m', m.alignedWrite a n v = (.error e, m') ∧
        Leaves m m' m.byteAt := by
  induction m generalizing a with
  | bare => exact .inr ⟨fun h => h.2, _, _, rfl, .refl hm⟩
  | flat m =>
    by_cases hfits : v.toNat < 256 ^ n ∧ (flat m).Has a
    · obtain ⟨m', hwrite, hvalid, hsize, hbytes⟩ :=
        FlatMemory.alignedWrite_inside hn ha hm hfits.2 hfits.1
      refine .inl ⟨hfits.1, hfits.2, flat m', ?_, hvalid, fun x => ?_, hbytes, fun _ => hvalid⟩
      · simp only [alignedWrite, hwrite]
      · change x.toNat < 8 * m'.words.size ↔ x.toNat < 8 * m.words.size
        rw [hsize]
    · cases hwrite : m.alignedWrite a n v with
      | ok m' => exact absurd ((FlatMemory.alignedWrite_eq_ok_iff hn ha).mp hwrite).1 hfits
      | error e =>
        refine .inr ⟨hfits, e, flat m, ?_, .refl hm⟩
        simp only [alignedWrite, hwrite]
  | sparse m =>
    obtain ⟨m', hwrite, hvalid, hbytes⟩ := SparseMemory.alignedWrite_eq hm hn ha
    unfold alignedWrite
    rw [hwrite]
    split_ifs at hbytes ⊢ with hv
    · exact .inl ⟨hv, trivial, _, rfl, hvalid, fun _ => Iff.rfl, hbytes, fun _ => hvalid⟩
    · exact .inr ⟨fun h => hv h.1, _, _, rfl, hvalid, fun _ => Iff.rfl, hbytes, fun _ => hvalid⟩
  | split m₁ b₁ e₁ m₂ b₂ e₂ ih₁ ih₂ =>
    obtain ⟨⟨hm₁, hbase₁, hend₁⟩, hm₂, hbase₂, -⟩ := id hm
    have hcovered (x : UInt64) (hx : (x - a).toNat < n) := inRegion_of_covered hbase₁ hend₁ hn ha hx
    unfold alignedWrite Has
    split_ifs with h₁ h₂
    · rcases ih₁ hm₁ (aligned_sub hbase₁ hn ha) with
        ⟨hv, hhas, m', hwrite, hleaves⟩ | ⟨hfits, e, m', hwrite, hleaves⟩
      · refine .inl ⟨hv, hhas, _, by rw [hwrite], ?_⟩
        exact overwritten_part _ _ _ _ (fun x hx => (hcovered x hx).trans h₁) ▸ hleaves.first hm
      · exact .inr ⟨hfits, e, _, by rw [hwrite], hleaves.first hm⟩
    · rcases ih₂ hm₂ (aligned_sub hbase₂ hn ha) with
        ⟨hv, hhas, m', hwrite, hleaves⟩ | ⟨hfits, e, m', hwrite, hleaves⟩
      · refine .inl ⟨hv, ⟨h₂, hhas⟩, _, by rw [hwrite], ?_⟩
        exact overwritten_rest _ _ _ _ (fun x hx => hcovered x hx ▸ h₁) ▸ hleaves.second hm
      · exact .inr ⟨fun h => hfits ⟨h.1, h.2.2⟩, e, _, by rw [hwrite], hleaves.second hm⟩
    · exact .inr ⟨fun h => h₂ h.2.1, _, _, rfl, .refl hm⟩

/-! ### Accesses byte by byte -/

theorem byteAt_lt (m : Memory) (a : UInt64) : m.byteAt a < 256 := by
  induction m generalizing a with
  | bare => exact Nat.zero_lt_succ _
  | flat m => exact byteOf_lt _ _
  | sparse m => exact byteOf_lt _ _
  | split m₁ b₁ e₁ m₂ b₂ e₂ ih₁ ih₂ =>
    unfold byteAt
    split
    · exact ih₁ _
    · exact ih₂ _

theorem toNat_shift_or (acc b : UInt64) (hacc : acc.toNat * 256 + 256 ≤ 2 ^ 64)
    (hb : b.toNat < 256) : (acc <<< 8 ||| b).toNat = acc.toNat * 256 + b.toNat := by
  have hor := Word.toNat_or_shl (by decide : 8 ≤ 64) hb acc
  rw [Nat.mod_eq_of_lt (by omega), UInt64.or_comm] at hor
  exact hor.trans (Nat.add_comm _ _)

theorem leaves_readBytes (hm : m.Consistent) (a : UInt64) (fetch : Bool) (n : Nat) (acc : UInt64) :
    Leaves m (m.readBytes a fetch n acc).2 m.byteAt := by
  induction n generalizing m acc with
  | zero => exact .refl hm
  | succ n ih =>
    have hleaves := leaves_alignedRead hm (a + n.toUInt64) 1 fetch
    unfold readBytes
    cases hread : m.alignedRead (a + n.toUInt64) 1 fetch with
    | mk r m' =>
      rw [hread] at hleaves
      cases r with
      | error e => exact hleaves
      | ok b =>
        have hrest := ih hleaves.consistent (acc <<< 8 ||| b)
        rw [hleaves.bytes] at hrest
        exact hleaves.trans hrest

/-- Reading byte by byte from the highest one on appends the number that the bytes spell. -/
theorem readBytes_eq_ok_iff (hm : m.Consistent) (fetch : Bool) {acc : UInt64}
    (hacc : (acc.toNat + 1) * 256 ^ n ≤ 2 ^ 64) :
    (m.readBytes a fetch n acc).1 = .ok w ↔ (∀ i < n, m.Has (a + UInt64.ofNat i)) ∧
      w.toNat = acc.toNat * 256 ^ n + littleEndian m.byteAt a n := by
  induction n generalizing m acc with
  | zero =>
    change Except.ok acc = .ok w ↔ _
    rw [Except.ok.injEq, ← UInt64.toNat_inj, eq_comm, pow_zero, mul_one]
    exact (and_iff_right nofun).symm
  | succ n ih =>
    have hleaves := leaves_alignedRead hm (a + n.toUInt64) 1 fetch
    have hbyte (b : UInt64) := alignedRead_eq_ok_iff (w := b) (a := a + n.toUInt64) hm (.inl rfl)
      (Nat.mod_one _) fetch
    have hlast : (∀ i < n + 1, m.Has (a + UInt64.ofNat i)) ↔
        m.Has (a + n.toUInt64) ∧ ∀ i < n, m.Has (a + UInt64.ofNat i) :=
        Nat.forall_lt_succ_right.trans and_comm
    unfold readBytes
    rw [hlast]
    cases hread : m.alignedRead (a + n.toUInt64) 1 fetch with
    | mk r m' =>
      rw [hread] at hleaves hbyte
      cases r with
      | error e =>
        refine iff_of_false nofun fun h => ?_
        have hlt : m.byteAt (a + n.toUInt64) < 2 ^ 64 := (m.byteAt_lt _).trans (by decide)
        cases (hbyte _).mpr
          ⟨h.1.1, (UInt64.toNat_ofNat_of_lt' hlt).trans (littleEndian_one _ _).symm⟩
      | ok b =>
        obtain ⟨hhas, hb⟩ := (hbyte b).mp rfl
        rw [littleEndian_one] at hb
        have hb_lt : b.toNat < 256 := hb ▸ m.byteAt_lt _
        have hpow : (acc.toNat + 1) * 256 ^ (n + 1) = (acc.toNat * 256 + 256) * 256 ^ n := by ring
        have hroom : acc.toNat * 256 + 256 ≤ 2 ^ 64 := by
          apply le_trans _ (hpow ▸ hacc)
          exact Nat.le_mul_of_pos_right _ (Nat.pow_pos (by decide))
        have hnext := toNat_shift_or acc b hroom hb_lt
        have hacc' : ((acc <<< 8 ||| b).toNat + 1) * 256 ^ n ≤ 2 ^ 64 := by
          apply le_trans _ (hpow ▸ hacc)
          exact Nat.mul_le_mul_right _ (by omega)
        refine (ih hleaves.consistent hacc').trans ?_
        simp only [hleaves.has, hleaves.bytes, hnext, hb, littleEndian_succ, and_iff_right hhas]
        rw [show (acc.toNat * 256 + m.byteAt (a + n.toUInt64)) * 256 ^ n +
          littleEndian m.byteAt a n = acc.toNat * 256 ^ (n + 1) +
            (littleEndian m.byteAt a n + m.byteAt (a + UInt64.ofNat n) * 256 ^ n) by ring]

/-- The bytes that an access finds before the first one that is lacking. -/
structure Found (m : Memory) (a : UInt64) (n k : Nat) : Prop where
  le : k ≤ n
  has : ∀ i < k, m.Has (a + UInt64.ofNat i)
  stop : k < n → ¬ m.Has (a + UInt64.ofNat k)

/-- Writing byte by byte overwrites the bytes that are found, and succeeds if these are all and
nothing is left of the value. -/
theorem writeBytes_found (hm : m.Consistent) (hn : n ≤ 8) :
    ∃ k, m.Found a n k ∧ Leaves m (m.writeBytes a n v).2 (overwritten m.byteAt a k v) ∧
      ((∃ e, (m.writeBytes a n v).1 = .error e) ↔ k < n ∨ 256 ^ n ≤ v.toNat) := by
  induction n generalizing m a v with
  | zero =>
    refine ⟨0, ⟨le_rfl, fun i hi => absurd hi (Nat.not_lt_zero i),
      fun h => absurd h (Nat.not_lt_zero 0)⟩, .refl hm, ?_⟩
    have hzero : 256 ^ 0 ≤ v.toNat ↔ v ≠ 0 := by
      rw [pow_zero, Nat.one_le_iff_ne_zero, Ne, Ne, ← UInt64.toNat_inj, UInt64.toNat_zero]
    rw [hzero]
    unfold writeBytes
    by_cases hv : v = 0 <;> simp [hv]
  | succ n ih =>
    have hlow : (v &&& 0xff).toNat < 256 ^ 1 := by
      exact Nat.lt_succ_of_le Nat.and_le_right
    have hhigh : 256 ^ n ≤ (v >>> 8).toNat ↔ 256 ^ (n + 1) ≤ v.toNat := by
      rw [UInt64.toNat_shiftRight, show (8 : UInt64).toNat % 64 = 8 from rfl,
        Nat.shiftRight_eq_div_pow, Nat.le_div_iff_mul_le (by decide), pow_succ 256]
    have hfirst : a + UInt64.ofNat 0 = a := UInt64.add_zero a
    rcases alignedWrite_cases hm (.inl rfl) (Nat.mod_one a.toNat) with
      ⟨-, hhas, m', hwrite, hleaves⟩ | ⟨hfits, e, m', hwrite, hleaves⟩
    · obtain ⟨k, hfound, hleaves', hfails⟩ := ih (v := v >>> 8) hleaves.consistent (by omega)
      have hnext (i : Nat) : a + 1 + UInt64.ofNat i = a + UInt64.ofNat (i + 1) := by
        rw [UInt64.add_assoc, UInt64.add_comm 1, UInt64.ofNat_add]
        rfl
      rw [hleaves.bytes, overwritten_succ _ _ (by have := hfound.le; omega)] at hleaves'
      have hresult : m.writeBytes a (n + 1) v = m'.writeBytes (a + 1) n (v >>> 8) := by
        simp only [writeBytes, hwrite]
      refine ⟨k + 1, ⟨Nat.succ_le_succ hfound.le, ?_, ?_⟩, ?_, ?_⟩
      · intro i hi
        cases i with
        | zero => rwa [hfirst]
        | succ i =>
          rw [← hnext, ← hleaves.has]
          exact hfound.has i (Nat.lt_of_succ_lt_succ hi)
      · intro hk
        rw [← hnext, ← hleaves.has]
        exact hfound.stop (Nat.lt_of_succ_lt_succ hk)
      · rw [hresult]
        exact hleaves.trans hleaves'
      · rw [hresult, hfails, hhigh, Nat.succ_lt_succ_iff]
    · have hlacks : ¬ m.Has a := fun hhas => hfits ⟨hlow, hhas⟩
      refine ⟨0, ⟨Nat.zero_le _, fun i hi => absurd hi (Nat.not_lt_zero i), fun _ => ?_⟩, ?_, ?_⟩
      · rwa [hfirst]
      · simp only [writeBytes, hwrite]
        exact hleaves
      · simp only [writeBytes, hwrite, Nat.succ_pos, true_or, iff_true]
        exact ⟨e, rfl⟩

theorem Found.lt_size_iff (h : m.Found a n k) : k < n ↔ ∃ i < n, ¬ m.Has (a + UInt64.ofNat i) := by
  constructor
  · intro hk
    exact ⟨k, hk, h.stop hk⟩
  · rintro ⟨i, hi, hlacks⟩
    by_contra hk
    exact hlacks (h.has i (hi.trans_le (Nat.le_of_not_lt hk)))

/-! ### All accesses -/

theorem and_low_eq_zero (a : UInt64) {k : Nat} {low : UInt64} (hlow : low.toNat = 2 ^ k - 1) :
    (a &&& low == 0) = decide (a.toNat % 2 ^ k = 0) := by
  rw [Bool.eq_iff_iff, beq_iff_eq, decide_eq_true_iff, ← UInt64.toNat_inj, UInt64.toNat_and, hlow,
    Nat.and_two_pow_sub_one_eq_mod, UInt64.toNat_zero]

theorem isAligned_eq (hn : IsSize n) (a : UInt64) :
    isAligned a n = .ok (decide (a.toNat % n = 0)) := by
  rcases hn with rfl | rfl | rfl | rfl
  · rw [decide_eq_true (Nat.mod_one _)]
    rfl
  · exact congrArg Except.ok (and_low_eq_zero a (k := 1) rfl)
  · exact congrArg Except.ok (and_low_eq_zero a (k := 2) rfl)
  · exact congrArg Except.ok (and_low_eq_zero a (k := 3) rfl)

theorem isAligned_eq_ok {bytes : Int} {aligned : Bool} (h : isAligned a bytes = .ok aligned) :
    ∃ n, IsSize n ∧ bytes = n ∧ aligned = decide (a.toNat % n = 0) := by
  have hsize : ∃ n, IsSize n ∧ bytes = (n : Int) := by
    unfold isAligned at h
    split_ifs at h with h₁ h₂ h₄ h₈
    · exact ⟨1, .inl rfl, beq_iff_eq.mp h₁⟩
    · exact ⟨2, .inr (.inl rfl), beq_iff_eq.mp h₂⟩
    · exact ⟨4, .inr (.inr (.inl rfl)), beq_iff_eq.mp h₄⟩
    · exact ⟨8, .inr (.inr (.inr rfl)), beq_iff_eq.mp h₈⟩
  obtain ⟨n, hn, rfl⟩ := hsize
  exact ⟨n, hn, rfl, Except.ok.inj (h.symm.trans (isAligned_eq hn a))⟩

theorem leaves_read (hm : m.Consistent) (a : UInt64) (bytes : Int) (fetch : Bool) :
    Leaves m (m.read a bytes fetch).2 m.byteAt := by
  unfold read
  cases isAligned a bytes with
  | error e => exact .refl hm
  | ok aligned =>
    cases aligned with
    | true => exact leaves_alignedRead hm a bytes.toNat fetch
    | false => exact leaves_readBytes hm a fetch bytes.toNat 0

section Consistent

variable (hm : m.Consistent) (hn : IsSize n)
include hm hn

/-- A memory has all bytes of an aligned access or none. -/
theorem has_aligned_iff (ha : a.toNat % n = 0) {i : Nat} (hi : i < n) :
    m.Has (a + UInt64.ofNat i) ↔ m.Has a :=
  has_congr hm ((hn.sub_lt_iff ha).mp (hn.add_sub_lt hi)).1

/-- A read gives the number that its bytes spell, if the memory has them. -/
theorem read_eq_ok_iff (fetch : Bool) :
    (m.read a n fetch).1 = .ok w ↔
      (∀ i < n, m.Has (a + UInt64.ofNat i)) ∧ w.toNat = littleEndian m.byteAt a n := by
  unfold read
  rw [isAligned_eq hn]
  by_cases ha : a.toNat % n = 0
  · rw [decide_eq_true ha]
    refine (alignedRead_eq_ok_iff hm hn ha fetch).trans (and_congr_left' ?_)
    exact ⟨fun h i hi => (has_aligned_iff hm hn ha hi).mpr h,
      fun h => UInt64.add_zero a ▸ h 0 hn.pos⟩
  · have hzero : ((0 : UInt64).toNat + 1) * 256 ^ n ≤ 2 ^ 64 := by
      rw [pow_bytes, UInt64.toNat_zero, zero_add, one_mul]
      exact Nat.pow_le_pow_right (by decide) (by have := hn.le_eight; omega)
    rw [decide_eq_false ha]
    refine (readBytes_eq_ok_iff hm fetch hzero).trans ?_
    rw [UInt64.toNat_zero, zero_mul, zero_add]

/-- A write overwrites the bytes that it finds.  Only one that is aligned and fails keeps all
bytes. -/
theorem write_found :
    ∃ k, m.Found a n k ∧ ((∃ e, (m.write a n v).1 = .error e) ↔ k < n ∨ 256 ^ n ≤ v.toNat) ∧
      Leaves m (m.write a n v).2 (if a.toNat % n = 0 ∧ (k < n ∨ 256 ^ n ≤ v.toNat) then m.byteAt
        else overwritten m.byteAt a k v) := by
  obtain ⟨k, hfound, hleaves, hfails⟩ := writeBytes_found (v := v) hm hn.le_eight
  refine ⟨k, hfound, ?_⟩
  unfold write
  rw [isAligned_eq hn, Int.toNat_natCast]
  by_cases ha : a.toNat % n = 0
  · have hall : k < n ↔ ¬ m.Has a := by
      rw [hfound.lt_size_iff]
      constructor
      · rintro ⟨i, hi, hlacks⟩
        rwa [has_aligned_iff hm hn ha hi] at hlacks
      · intro hlacks
        exact ⟨0, hn.pos, (has_aligned_iff hm hn ha hn.pos).not.mpr hlacks⟩
    have hlacks : k < n ∨ 256 ^ n ≤ v.toNat ↔ ¬ (v.toNat < 256 ^ n ∧ m.Has a) := by
      rw [hall, or_comm, not_and_or, not_lt]
    rw [decide_eq_true ha]
    rcases alignedWrite_cases hm hn ha with
      ⟨hv, hhas, m', hwrite, hleaves⟩ | ⟨hfits, e, m', hwrite, hkeeps⟩
    · have hnot : ¬ (k < n ∨ 256 ^ n ≤ v.toNat) := fun h => hlacks.mp h ⟨hv, hhas⟩
      obtain rfl : k = n := hfound.le.antisymm (Nat.le_of_not_lt fun h => hnot (.inl h))
      simp only [hwrite, if_neg fun h => hnot (And.right h)]
      exact ⟨iff_of_false nofun hnot, hleaves⟩
    · simp only [hwrite, if_pos (And.intro ha (hlacks.mpr hfits))]
      exact ⟨iff_of_true ⟨e, rfl⟩ (hlacks.mpr hfits), hkeeps⟩
  · rw [decide_eq_false ha, if_neg fun h => ha h.1]
    exact ⟨hfails, hleaves⟩

end Consistent

section Access

variable (hm : m.Valid) (hn : IsSize n) (hheld : ∀ i < n, m.Holds (a + UInt64.ofNat i))
include hm hn hheld

/-- A read of bytes that the memory has gives the number that they spell. -/
theorem read_eq (fetch : Bool) :
    ∃ value m', m.read a n fetch = (.ok value, m') ∧
      value.toNat = littleEndian m.byteAt a n ∧ Becomes m m' m.byteAt := by
  have hlt : littleEndian m.byteAt a n < 2 ^ 64 :=
    (littleEndian_lt m.byteAt_lt a n).trans_le (Nat.pow_le_pow_right (by decide) hn.le_eight)
  have hvalue := UInt64.toNat_ofNat_of_lt' hlt
  have hread := (read_eq_ok_iff hm.consistent hn fetch).mpr
    ⟨fun i hi => (hm.has_iff _).mpr (hheld i hi), hvalue⟩
  exact ⟨_, _, Prod.ext hread rfl, hvalue, (leaves_read hm.consistent a n fetch).becomes hm⟩

theorem write_eq (hv : v.toNat < 256 ^ n) :
    ∃ m', m.write a n v = (.ok (), m') ∧ Becomes m m' (overwritten m.byteAt a n v) := by
  obtain ⟨k, hfound, hfails, hleaves⟩ := write_found (v := v) hm.consistent hn
  obtain rfl : k = n := hfound.le.antisymm
    (Nat.le_of_not_lt fun hk => hfound.stop hk ((hm.has_iff _).mpr (hheld k hk)))
  rw [if_neg (by omega)] at hleaves
  cases hwrite : (m.write a k v).1 with
  | error e =>
    have hfailed := hfails.mp ⟨e, hwrite⟩
    omega
  | ok _ => exact ⟨_, Prod.ext hwrite rfl, hleaves.becomes hm⟩

end Access

end Jib.Memory
