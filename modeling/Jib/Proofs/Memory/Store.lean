import Jib.Proofs.Memory.Access

/-!
# One store of bytes

A memory that was just made answers a sequence of accesses like a store of bytes: a read gives the
number spelled by the bytes that were last written at its addresses, or zeros where none were.  How
the memory keeps its words cannot be seen from the answers, so all memories give the same ones.
-/

namespace Jib

inductive Access where
  | read (address : UInt64) (size : Nat) (fetch : Bool)
  | write (address : UInt64) (size : Nat) (value : UInt64)

namespace Access

def address : Access → UInt64
  | read a _ _ => a
  | write a _ _ => a

def size : Access → Nat
  | read _ n _ => n
  | write _ n _ => n

/-- An access has one of the four sizes, and a written value has no more bytes than that. -/
def Proper : Access → Prop
  | read _ n _ => IsSize n
  | write _ n v => IsSize n ∧ v.toNat < 256 ^ n

def Inside (access : Access) (m : Memory) : Prop :=
  ∀ i < access.size, m.Holds (access.address + UInt64.ofNat i)

/-- The byte that an access writes at an address, if it does. -/
def byteWritten? : Access → UInt64 → Option Nat
  | read _ _ _, _ => none
  | write a n v, x => if (x - a).toNat < n then some (byteOf v (x - a).toNat) else none

end Access

/-- The byte that was last written at an address, and zero if there is none. -/
def lastByte (earlier : List Access) (x : UInt64) : Nat :=
  (earlier.reverse.findSome? (·.byteWritten? x)).getD 0

/-- The answer of a store of bytes; a write has none. -/
def Access.answer (earlier : List Access) : Access → Option Nat
  | read a n _ => some (littleEndian (lastByte earlier) a n)
  | write _ _ _ => none

theorem lastByte_nil : lastByte [] = fun _ => 0 := rfl

theorem lastByte_read (earlier : List Access) (a : UInt64) (n : Nat) (fetch : Bool) :
    lastByte (earlier ++ [.read a n fetch]) = lastByte earlier := by
  funext x
  unfold lastByte
  rw [List.reverse_append]
  rfl

theorem Access.byteWritten?_write (a : UInt64) (n : Nat) (v x : UInt64) :
    (Access.write a n v).byteWritten? x =
      if (x - a).toNat < n then some (byteOf v (x - a).toNat) else none := rfl

theorem lastByte_write (earlier : List Access) (a : UInt64) (n : Nat) (v : UInt64) :
    lastByte (earlier ++ [.write a n v]) = overwritten (lastByte earlier) a n v := by
  funext x
  unfold lastByte overwritten
  rw [List.reverse_append, List.reverse_singleton, List.singleton_append, List.findSome?_cons,
    Access.byteWritten?_write]
  by_cases hx : (x - a).toNat < n
  · rw [if_pos hx, if_pos hx]
    rfl
  · rw [if_neg hx, if_neg hx]

namespace Memory

variable {m : Memory}

def perform (m : Memory) : Access → Result (Option Nat) × Memory
  | .read a n fetch => ((m.read a n fetch).1.map (some ·.toNat), (m.read a n fetch).2)
  | .write a n v => ((m.write a n v).1.map fun _ => none, (m.write a n v).2)

/-- The answers to accesses, one after the other. -/
def answers (m : Memory) : List Access → List (Result (Option Nat))
  | [] => []
  | access :: rest => (m.perform access).1 :: (m.perform access).2.answers rest

/-- Memories that were just made.  The regions of a split memory lie in the lower half of the
address space, and the memories behind them are at least as large. -/
inductive Fresh : Memory → Prop where
  | flat (size : Nat) : Fresh (.flat (.ofSize size))
  | sparse : Fresh (.sparse .empty)
  | split {m₁ m₂ m : Memory} {base₁ size₁ base₂ size₂ : UInt64} (h₁ : Fresh m₁) (h₂ : Fresh m₂)
      (hlow₁ : base₁.toNat + size₁.toNat ≤ 2 ^ 63) (hlow₂ : base₂.toNat + size₂.toNat ≤ 2 ^ 63)
      (hlarge₁ : ∀ x : UInt64, x.toNat < size₁.toNat → m₁.Holds x)
      (hlarge₂ : ∀ x : UInt64, x.toNat < size₂.toNat → m₂.Holds x)
      (hsplit : mkSplit m₁ base₁ size₁ m₂ base₂ size₂ = .ok m) : Fresh m

/-! ### Memories at the start -/

theorem mkSplit_eq_ok {m₁ m₂ : Memory} {base₁ size₁ base₂ size₂ : UInt64}
    (h : mkSplit m₁ base₁ size₁ m₂ base₂ size₂ = .ok m) :
    regionFits base₁ size₁ = true ∧ regionFits base₂ size₂ = true ∧
      m = .split m₁ (Word.toInt base₁) (Word.toInt (base₁ + size₁))
        m₂ (Word.toInt base₂) (Word.toInt (base₂ + size₂)) := by
  unfold mkSplit at h
  split_ifs at h with hfits
  rw [Bool.and_eq_true] at hfits
  exact ⟨hfits.1, hfits.2, (Except.ok.inj h).symm⟩

theorem backs_of_fits {base size : UInt64} (hfits : regionFits base size = true)
    (hlow : base.toNat + size.toNat ≤ 2 ^ 63)
    (hlarge : ∀ x : UInt64, x.toNat < size.toNat → m.Holds x) :
    m.Backs (Word.toInt base) (Word.toInt (base + size)) := by
  unfold regionFits at hfits
  rw [Bool.and_eq_true, Bool.and_eq_true, and_low_eq_zero base (k := 3) rfl,
    and_low_eq_zero size (k := 3) rfl, decide_eq_true_iff, decide_eq_true_iff] at hfits
  obtain ⟨⟨hbase, hsize⟩, htop⟩ := hfits
  have hsum : (base + size).toNat = base.toNat + size.toNat := by
    rw [UInt64.toNat_add]
    omega
  have hend : (base + size).toNat < 2 ^ 63 := by
    have hhigh := Word.and_high_ne_zero (base + size)
    rw [bne, show (base + size &&& 0x8000000000000000 == 0) = true from htop] at hhigh
    exact Nat.not_le.mp (of_decide_eq_false hhigh.symm)
  have hbase_eq : Word.toInt base = base.toNat := Word.toInt_of_lt (by omega)
  have hend_eq : Word.toInt (base + size) = (base + size).toNat := Word.toInt_of_lt hend
  have hofInt : Word.ofInt (Word.toInt base) = base := by
    have hword := Word.toNat_ofInt (Word.toInt base)
    apply UInt64.toNat_inj.mp
    omega
  refine ⟨by omega, by omega, fun a ha => ?_⟩
  rw [inRegion_iff] at ha
  apply hlarge
  rw [hofInt, UInt64.toNat_sub_of_le _ _ (UInt64.le_iff_toNat_le.mpr (by omega))]
  omega

theorem Fresh.valid_and_zero (hm : m.Fresh) : m.Valid ∧ m.byteAt = fun _ => 0 := by
  have hzero (i : Nat) : byteOf 0 i = 0 := by
    unfold byteOf
    rw [UInt64.toNat_zero, Nat.zero_div]
  induction hm with
  | flat size =>
    refine ⟨FlatMemory.valid_ofSize size, funext fun a => ?_⟩
    change byteOf ((FlatMemory.ofSize size).wordAt a) _ = 0
    rw [FlatMemory.wordAt_ofSize, hzero]
  | sparse =>
    refine ⟨SparseMemory.valid_empty, funext fun a => ?_⟩
    change byteOf (SparseMemory.empty.wordAt a) _ = 0
    rw [SparseMemory.wordAt_empty, hzero]
  | split _ _ hlow₁ hlow₂ hlarge₁ hlarge₂ hsplit ih₁ ih₂ =>
    obtain ⟨hfits₁, hfits₂, rfl⟩ := mkSplit_eq_ok hsplit
    refine ⟨⟨⟨ih₁.1, backs_of_fits hfits₁ hlow₁ hlarge₁⟩,
      ih₂.1, backs_of_fits hfits₂ hlow₂ hlarge₂⟩, funext fun a => ?_⟩
    unfold byteAt
    rw [ih₁.2, ih₂.2, ite_self]

/-! ### Sequences of accesses -/

/-- One access: a memory with the bytes last written gives the answer of a store, and has the bytes
last written afterwards. -/
theorem perform_eq {access : Access} {earlier : List Access} (hm : m.Valid)
    (hbytes : m.byteAt = lastByte earlier) (hproper : access.Proper) (hinside : access.Inside m) :
    ∃ m', m.perform access = (.ok (access.answer earlier), m') ∧
      Becomes m m' (lastByte (earlier ++ [access])) := by
  cases access with
  | read a n fetch =>
    obtain ⟨value, m', hread, hvalue, hbecomes⟩ := read_eq (a := a) hm hproper hinside fetch
    rw [hbytes] at hvalue hbecomes
    refine ⟨m', ?_, lastByte_read earlier a n fetch ▸ hbecomes⟩
    change (((m.read a n fetch).1.map (some ·.toNat)), (m.read a n fetch).2) = _
    rw [hread]
    exact congrArg (fun k => (Except.ok (some k), m')) hvalue
  | write a n v =>
    obtain ⟨m', hwrite, hbecomes⟩ := write_eq (a := a) hm hproper.1 hinside hproper.2
    rw [hbytes] at hbecomes
    refine ⟨m', ?_, lastByte_write earlier a n v ▸ hbecomes⟩
    change ((m.write a n v).1.map fun _ => none, (m.write a n v).2) = _
    rw [hwrite]
    rfl

/-- A sequence of accesses, after which other ones went before. -/
theorem answers_eq {accesses earlier : List Access} (hm : m.Valid)
    (hbytes : m.byteAt = lastByte earlier) (hproper : ∀ access ∈ accesses, access.Proper)
    (hinside : ∀ access ∈ accesses, access.Inside m) (k : Nat) :
    (m.answers accesses)[k]? =
      accesses[k]?.map fun access => .ok (access.answer (earlier ++ accesses.take k)) := by
  induction accesses generalizing m earlier k with
  | nil => rfl
  | cons access rest ih =>
    obtain ⟨hproper₁, hrest⟩ := List.forall_mem_cons.mp hproper
    obtain ⟨hinside₁, hinside'⟩ := List.forall_mem_cons.mp hinside
    obtain ⟨m', hperform, hbecomes⟩ := perform_eq hm hbytes hproper₁ hinside₁
    unfold answers
    rw [hperform]
    cases k with
    | zero =>
      rw [List.take_zero, List.append_nil]
      rfl
    | succ k =>
      have hinside_next : ∀ next ∈ rest, next.Inside m' := fun next hnext i hi =>
        (hbecomes.holds _).mpr (hinside' next hnext i hi)
      have hnext := ih hbecomes.valid hbecomes.bytes hrest hinside_next k
      rw [List.getElem?_cons_succ, List.getElem?_cons_succ, hnext, List.take_succ_cons,
        List.append_assoc, List.singleton_append]

/-- A memory answers accesses to its bytes like a store: what is read at an address is what was
written there last.  So all memories answer alike. -/
theorem answers_last_written (hm : m.Fresh) {accesses : List Access}
    (hproper : ∀ access ∈ accesses, access.Proper)
    (hinside : ∀ access ∈ accesses, access.Inside m) :
    (∀ k : Nat, (m.answers accesses)[k]? =
        accesses[k]?.map fun access => .ok (access.answer (accesses.take k))) ∧
      ∀ m' : Memory, m'.Fresh → (∀ access ∈ accesses, access.Inside m') →
        m'.answers accesses = m.answers accesses := by
  have hanswers {m : Memory} (hm : m.Fresh) (hinside : ∀ access ∈ accesses, access.Inside m)
    (k : Nat) :
      (m.answers accesses)[k]? =
        accesses[k]?.map fun access => .ok (access.answer (accesses.take k)) :=
    answers_eq hm.valid_and_zero.1 (hm.valid_and_zero.2.trans lastByte_nil.symm) hproper hinside k
  refine ⟨hanswers hm hinside, fun m' hm' hinside' => ?_⟩
  apply List.ext_getElem?
  intro k
  rw [hanswers hm hinside, hanswers hm' hinside']

/-- A value written across two words of the first region and read back in part, by a fetch that is
not aligned either, and a read of untouched bytes of the second region. -/
theorem answers_last_written_split :
    ∃ m : Memory, mkSplit (.flat (.ofSize 16)) 0x1000 16 (.sparse .empty) 0x2000 0x100000 = .ok m ∧
      let answers :=
        m.answers [.write 0x1003 8 0x1122334455667788, .read 0x1006 4 true, .read 0x2001 2 false]
      answers[0]? = some (.ok none) ∧ answers[1]? = some (.ok (some 0x22334455)) ∧
        answers[2]? = some (.ok (some 0)) := by
  have hsplit : mkSplit (.flat (.ofSize 16)) 0x1000 16 (.sparse .empty) 0x2000 0x100000 = .ok _ :=
    rfl
  have hlarge : ∀ x : UInt64, x.toNat < (16 : UInt64).toNat → (flat (.ofSize 16)).Holds x :=
    fun _ hx => hx
  have hfresh :=
    Fresh.split (.flat 16) .sparse (by decide) (by decide) hlarge (fun _ _ => trivial) hsplit
  have hproper : ∀ access ∈ [Access.write 0x1003 8 0x1122334455667788, .read 0x1006 4 true,
      .read 0x2001 2 false], access.Proper := by
    simp [Access.Proper, IsSize]
  have h := (answers_last_written hfresh hproper (by
    simp only [List.mem_cons, List.not_mem_nil, or_false, forall_eq_or_imp, forall_eq]
    unfold Access.Inside Holds
    decide)).1
  exact ⟨_, hsplit, (h 0).trans rfl, (h 1).trans (by decide), (h 2).trans (by decide)⟩

end Memory

end Jib
