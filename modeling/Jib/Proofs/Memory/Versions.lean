import Jib.Proofs.Memory.Access
import Mathlib.Order.Monotone.Basic

/-!
# Versions of a flat memory

What was fetched from an immutable word may be kept as long as the version of the memory is the
same: the word is then still immutable and has the same content.  Operations are reads, fetches,
writes and marks, with any arguments; those that fail count too, with what they have done before
they fail.
-/

namespace Jib

namespace FlatMemory

variable {m m' m'' : FlatMemory} {a i v : UInt64} {n : Nat}

/-! ### Steps -/

/-- What an operation may do to a flat memory.  A word goes from normal to immutable or from
immutable to mutable, the latter exactly if its content changes, and the version changes exactly if
a word does so. -/
structure Moves (m m' : FlatMemory) : Prop where
  sizes : m'.words.size = m.words.size ∧ m'.status.size = m.status.size
  status : ∀ i : Nat, m'.status[i]? = m.status[i]? ∨
    m.status[i]? = some .normal ∧ m'.status[i]? = some .immutable ∨
    m.status[i]? = some .immutable ∧ m'.status[i]? = some .mutable
  content : ∀ i : Nat, m.status[i]? = some .immutable →
    (m'.status[i]? = some .immutable ↔ m'.words[i]? = m.words[i]?)
  version_le : m.version ≤ m'.version
  version_eq_iff : m'.version = m.version ↔
    ∀ i : Nat, m.status[i]? = some .immutable → m'.status[i]? = some .immutable

/-- What a write to `n` bytes at `a` may do. -/
structure Stores (m m' : FlatMemory) (a : UInt64) (n : Nat) : Prop where
  sizes : m'.words.size = m.words.size ∧ m'.status.size = m.status.size
  status : ∀ i : Nat, m'.status[i]? = m.status[i]? ∨
    m.status[i]? = some .immutable ∧ m'.status[i]? = some .mutable
  kept : ∀ i : Nat, m.status[i]? = some .immutable → m'.status[i]? = some .immutable →
    m'.words[i]? = m.words[i]?
  changed : ∀ i : Nat, m.status[i]? = some .immutable → m'.status[i]? = some .mutable →
    ∃ x : UInt64, x.toNat / 8 = i ∧ (x - a).toNat < n ∧ bytesIn m'.wordAt x ≠ bytesIn m.wordAt x
  others : ∀ x : UInt64, ¬ (x - a).toNat < n → bytesIn m'.wordAt x = bytesIn m.wordAt x
  version_le : m.version ≤ m'.version
  version_eq_iff : m'.version = m.version ↔
    ∀ i : Nat, m.status[i]? = some .immutable → m'.status[i]? = some .immutable

theorem Marks.trans (h : Marks m m') (h' : Marks m' m'') : Marks m m'' where
  size := h'.size.trans h.size
  words := h'.words.trans h.words
  version := h'.version.trans h.version
  status i := by
    rcases h.status i with hsame | ⟨hnormal, himmutable⟩
    · rw [← hsame]
      exact h'.status i
    · rcases h'.status i with hsame' | ⟨hnormal', _⟩
      · exact .inr ⟨hnormal, hsame'.trans himmutable⟩
      · cases himmutable.symm.trans hnormal'

theorem Marks.immutable {i : Nat} (h : Marks m m') (hi : m.status[i]? = some .immutable) :
    m'.status[i]? = some .immutable := by
  rcases h.status i with hsame | ⟨hnormal, _⟩
  · exact hsame.trans hi
  · cases hi.symm.trans hnormal

theorem Marks.moves (h : Marks m m') : Moves m m' where
  sizes := ⟨congrArg Array.size h.words, h.size⟩
  status i := (h.status i).imp_right .inl
  content i hi := iff_of_true (h.immutable hi) (by rw [h.words])
  version_le := h.version.ge
  version_eq_iff := iff_of_true h.version fun _ hi => h.immutable hi

theorem Stores.refl (m : FlatMemory) (a : UInt64) (n : Nat) : Stores m m a n where
  sizes := ⟨rfl, rfl⟩
  status _ := .inl rfl
  kept _ _ _ := rfl
  changed i hi hi' := by cases hi.symm.trans hi'
  others _ _ := rfl
  version_le := le_rfl
  version_eq_iff := iff_of_true rfl fun _ hi => hi

/-- A word that is immutable after a write was so before. -/
theorem Stores.immutable_of {i : Nat} (h : Stores m m' a n) (hi : m'.status[i]? = some .immutable) :
    m.status[i]? = some .immutable := by
  rcases h.status i with hsame | ⟨_, hmutable⟩
  · exact hsame.symm.trans hi
  · cases hi.symm.trans hmutable

/-- A byte and the bytes that follow it are written apart, so neither write undoes the other. -/
theorem Stores.append (hn : n < 8) (h : Stores m m' a 1) (h' : Stores m' m'' (a + 1) n) :
    Stores m m'' a (n + 1) := by
  have hcovers (x : UInt64) :
      (x - a).toNat < n + 1 ↔ (x - a).toNat < 1 ∨ (x - (a + 1)).toNat < n := by
    have hlt := (x - a).toNat_lt
    rw [toNat_sub_add_one]
    omega
  have hapart (x : UInt64) : ¬ ((x - a).toNat < 1 ∧ (x - (a + 1)).toNat < n) := by
    rw [toNat_sub_add_one]
    omega
  refine ⟨⟨h'.sizes.1.trans h.sizes.1, h'.sizes.2.trans h.sizes.2⟩, fun i => ?_,
    fun i hi hi'' => ?_, fun i hi hi'' => ?_, fun x hx => ?_, ?_, ?_⟩
  · rcases h'.status i with hsame' | ⟨himmutable, hmutable⟩
    · rw [hsame']
      exact h.status i
    · exact .inr ⟨h.immutable_of himmutable, hmutable⟩
  · have hi' := h'.immutable_of hi''
    exact (h'.kept i hi' hi'').trans (h.kept i hi hi')
  · rcases h.status i with hsame | ⟨_, hmutable⟩
    · obtain ⟨x, hword, hx, hne⟩ := h'.changed i (hsame.trans hi) hi''
      rw [h.others x (fun hx' => hapart x ⟨hx', hx⟩)] at hne
      exact ⟨x, hword, (hcovers x).mpr (.inr hx), hne⟩
    · obtain ⟨x, hword, hx, hne⟩ := h.changed i hi hmutable
      rw [← h'.others x (fun hx' => hapart x ⟨hx, hx'⟩)] at hne
      exact ⟨x, hword, (hcovers x).mpr (.inl hx), hne⟩
  · rw [hcovers, not_or] at hx
    exact (h'.others x hx.2).trans (h.others x hx.1)
  · exact h.version_le.trans h'.version_le
  · have hle := h.version_le
    have hle' := h'.version_le
    constructor
    · intro heq i hi
      have hi' := h.version_eq_iff.mp (by omega) i hi
      exact h'.version_eq_iff.mp (by omega) i hi'
    · intro hall
      have heq := h.version_eq_iff.mpr fun i hi => h'.immutable_of (hall i hi)
      have heq' := h'.version_eq_iff.mpr fun i hi => hall i (h.immutable_of hi)
      exact heq'.trans heq

theorem Stores.moves (h : Stores m m' a n) : Moves m m' where
  sizes := h.sizes
  status i := (h.status i).imp_right .inr
  content i hi := by
    apply Iff.intro (h.kept i hi)
    intro hwords
    rcases h.status i with hsame | ⟨_, hmutable⟩
    · exact hsame.trans hi
    · obtain ⟨x, rfl, _, hne⟩ := h.changed i hi hmutable
      refine absurd ?_ hne
      unfold bytesIn wordAt
      rw [Array.getD_eq_getD_getElem?, Array.getD_eq_getD_getElem?, Place.toNat_word, hwords]
  version_le := h.version_le
  version_eq_iff := h.version_eq_iff

theorem Moves.valid (h : Moves m m') (hm : m.Valid) : m'.Valid := by
  unfold Valid
  rw [h.sizes.1, h.sizes.2]
  exact hm

/-- A write that changes no byte changes neither status nor version. -/
theorem Stores.same (h : Stores m m' a n) (hbytes : bytesIn m'.wordAt = bytesIn m.wordAt) :
    m'.version = m.version ∧ m'.status = m.status := by
  have hstatus (i : Nat) : m'.status[i]? = m.status[i]? := by
    rcases h.status i with hsame | ⟨himmutable, hmutable⟩
    · exact hsame
    · obtain ⟨x, _, _, hne⟩ := h.changed i himmutable hmutable
      exact absurd (congrFun hbytes x) hne
  exact ⟨h.version_eq_iff.mpr fun i hi => (hstatus i).trans hi, Array.ext_getElem? hstatus⟩

/-! ### Writes -/

/-- What a store does, word by word. -/
theorem writeWord_effect (h : m.writeWord i v = .ok m') :
    (∀ j : Nat, m'.words[j]? = if i.toNat = j then some v else m.words[j]?) ∧
      (m.status[i.toNat]? = some .immutable ∧ m.words[i.toNat]? ≠ some v ∧
          m'.version = m.version + 1 ∧
          (∀ j : Nat, m'.status[j]? = if i.toNat = j then some .mutable else m.status[j]?) ∨
        (m.status[i.toNat]? = some .immutable → m.words[i.toNat]? = some v) ∧
          m'.version = m.version ∧ m'.status = m.status) := by
  have hwords := writeWord_words h
  obtain ⟨old, hold, hcases⟩ := writeWord_cases h
  have hlt := (Array.getElem?_eq_some_iff.mp hold).1
  refine ⟨fun j => by rw [hwords, Array.getElem?_setIfInBounds, if_pos hlt], ?_⟩
  rw [hold]
  rcases hcases with ⟨himmutable, hne, rfl⟩ | ⟨hsame, rfl⟩
  · have hlt_status := (Array.getElem?_eq_some_iff.mp himmutable).1
    refine .inl ⟨himmutable, fun heq => hne (Option.some.inj heq), rfl, fun j => ?_⟩
    change (m.status.setIfInBounds i.toNat .mutable)[j]? = _
    rw [Array.getElem?_setIfInBounds, if_pos hlt_status]
  · exact .inr ⟨fun himmutable => congrArg some (hsame himmutable), rfl, rfl⟩

/-- An immutable word gets another content and becomes mutable. -/
theorem stores_of_replaced {i : Nat}
    (hsizes : m'.words.size = m.words.size ∧ m'.status.size = m.status.size)
    (hwords : ∀ j : Nat, i ≠ j → m'.words[j]? = m.words[j]?)
    (himmutable : m.status[i]? = some .immutable) (hversion : m'.version = m.version + 1)
    (hstatus : ∀ j : Nat, m'.status[j]? = if i = j then some .mutable else m.status[j]?)
    (hbyte : ∃ x : UInt64, x.toNat / 8 = i ∧ (x - a).toNat < n ∧
      bytesIn m'.wordAt x ≠ bytesIn m.wordAt x)
    (hothers : ∀ x : UInt64, ¬ (x - a).toNat < n → bytesIn m'.wordAt x = bytesIn m.wordAt x) :
    Stores m m' a n := by
  refine ⟨hsizes, fun j => ?_, fun j _ hj' => ?_, fun j hj hj' => ?_, hothers, by omega, ?_⟩
  · rw [hstatus]
    split_ifs with hij
    · exact .inr ⟨hij ▸ himmutable, rfl⟩
    · exact .inl rfl
  · rw [hstatus] at hj'
    split at hj'
    · cases hj'
    · rename_i hij
      exact hwords j hij
  · rw [hstatus] at hj'
    split at hj'
    · rename_i hij
      exact hij ▸ hbyte
    · cases hj.symm.trans hj'
  · apply iff_of_false (by omega)
    intro hall
    have hkept := hall i himmutable
    rw [hstatus, if_pos rfl] at hkept
    cases hkept

theorem stores_of_alignedWrite (hn : IsSize n) (ha : a.toNat % n = 0)
    (h : m.alignedWrite a n v = .ok m') : Stores m m' a n := by
  obtain ⟨⟨hv, hin⟩, hwrite⟩ := (alignedWrite_eq_ok_iff hn ha).mp h
  have hsizes : m'.words.size = m.words.size ∧ m'.status.size = m.status.size :=
    ⟨by rw [writeWord_words hwrite, Array.size_setIfInBounds], writeWord_status_size hwrite⟩
  have hwordAt := wordAt_of_words (writeWord_words hwrite) hin
  have hbytes := bytesIn_writePart hn ha (Place.toNat_byte a) hv m.byWord_wordAt hwordAt
  have hothers (x : UInt64) (hx : ¬ (x - a).toNat < n) :
      bytesIn m'.wordAt x = bytesIn m.wordAt x := by
    rw [hbytes]
    exact if_neg hx
  obtain ⟨hwords, ⟨himmutable, hne, hversion, hstatus⟩ | ⟨hsame, hversion, hstatus⟩⟩ :=
    writeWord_effect hwrite
  · have hread := read?_eq_ok_iff.mp (read?_word_iff.mpr ⟨hin, rfl⟩)
    have hchanged : m'.wordAt a ≠ m.wordAt a := by
      rw [hwordAt, if_pos rfl]
      intro heq
      exact hne (hread.trans (congrArg some heq.symm))
    obtain ⟨x, hx, hbyte⟩ := exists_byte_ne m.byWord_wordAt m'.byWord_wordAt hchanged
    have hcovered : (x - a).toNat < n := by_contra fun hout => hbyte (hothers x hout)
    exact stores_of_replaced hsizes (fun j hj => (hwords j).trans (if_neg hj)) himmutable hversion
      hstatus ⟨x, hx.trans (Place.toNat_word a).symm, hcovered, hbyte⟩ hothers
  · refine ⟨hsizes, fun i => .inl (by rw [hstatus]), fun i hi _ => ?_, fun i hi hi' => ?_, hothers,
      hversion.ge, iff_of_true hversion fun i hi => hstatus ▸ hi⟩
    · rw [hwords]
      split_ifs with heq
      · subst heq
        exact (hsame hi).symm
      · rfl
    · rw [hstatus] at hi'
      cases hi.symm.trans hi'

end FlatMemory

/-! ### Operations -/

namespace Memory

open FlatMemory

variable {m m' : FlatMemory} {a : UInt64} {n : Nat}

inductive Operation where
  | read (address : UInt64) (bytes : Int) (fetch : Bool)
  | write (address : UInt64) (bytes : Int) (value : UInt64)
  | mark (address : UInt64)

def after (m : Memory) : Operation → Memory
  | .read a bytes fetch => (m.read a bytes fetch).2
  | .write a bytes v => (m.write a bytes v).2
  | .mark a =>
    match m.markImmutable a with
    | .ok m' => m'
    | .error _ => m

theorem alignedRead_flat (m : FlatMemory) (a : UInt64) (n : Nat) (fetch : Bool) :
    (flat m).alignedRead a n fetch =
    ((m.alignedRead a n fetch).1, flat (m.alignedRead a n fetch).2) :=
  rfl

theorem alignedWrite_flat (hn : IsSize n) (ha : a.toNat % n = 0) (m : FlatMemory) (v : UInt64) :
    ∃ r m', (flat m).alignedWrite a n v = (r, flat m') ∧ Stores m m' a n := by
  unfold alignedWrite
  cases hwrite : m.alignedWrite a n v with
  | ok m' => exact ⟨.ok (), m', rfl, stores_of_alignedWrite hn ha hwrite⟩
  | error e => exact ⟨.error e, m, rfl, .refl m a n⟩

theorem readBytes_flat (m : FlatMemory) (a : UInt64) (fetch : Bool) (n : Nat) (acc : UInt64) :
    ∃ r m', (flat m).readBytes a fetch n acc = (r, flat m') ∧ Marks m m' := by
  induction n generalizing m acc with
  | zero => exact ⟨_, m, rfl, .refl m⟩
  | succ n ih =>
    have hmarks := marks_alignedRead m (a + n.toUInt64) 1 fetch
    unfold readBytes
    rw [alignedRead_flat]
    cases (m.alignedRead (a + n.toUInt64) 1 fetch).1 with
    | error e => exact ⟨_, _, rfl, hmarks⟩
    | ok b =>
      obtain ⟨r, m', hrest, hmarks'⟩ :=
        ih (m.alignedRead (a + n.toUInt64) 1 fetch).2 (acc <<< 8 ||| b)
      exact ⟨r, m', hrest, hmarks.trans hmarks'⟩

theorem writeBytes_flat (hn : n ≤ 8) (m : FlatMemory) (a v : UInt64) :
    ∃ r m', (flat m).writeBytes a n v = (r, flat m') ∧ Stores m m' a n := by
  induction n generalizing m a v with
  | zero => exact ⟨_, m, rfl, .refl m a 0⟩
  | succ n ih =>
    obtain ⟨r, m', hwrite, hstores⟩ := alignedWrite_flat (.inl rfl) (Nat.mod_one _) m (v &&& 0xff)
    unfold writeBytes
    rw [hwrite]
    cases r with
    | error e =>
      -- the bytes before this one are written, and no more
      exact ⟨_, m', rfl, hstores.append hn (.refl m' (a + 1) n)⟩
    | ok u =>
      obtain ⟨r, m'', hrest, hstores'⟩ := ih (by omega) m' (a + 1) (v >>> 8)
      exact ⟨r, m'', hrest, hstores.append hn hstores'⟩

theorem read_flat (m : FlatMemory) (a : UInt64) (bytes : Int) (fetch : Bool) :
    ∃ m', ((flat m).read a bytes fetch).2 = flat m' ∧ Marks m m' := by
  unfold read
  cases isAligned a bytes with
  | error e => exact ⟨m, rfl, .refl m⟩
  | ok aligned =>
    cases aligned with
    | true => exact ⟨_, rfl, marks_alignedRead m a bytes.toNat fetch⟩
    | false =>
      obtain ⟨r, m', hread, hmarks⟩ := readBytes_flat m a fetch bytes.toNat 0
      exact ⟨m', congrArg Prod.snd hread, hmarks⟩

theorem write_flat (m : FlatMemory) (a : UInt64) (bytes : Int) (v : UInt64) :
    ∃ r m' n, (flat m).write a bytes v = (r, flat m') ∧ Stores m m' a n := by
  unfold write
  cases haligned : isAligned a bytes with
  | error e => exact ⟨_, m, 0, rfl, .refl m a 0⟩
  | ok aligned =>
    obtain ⟨n, hn, rfl, hdecide⟩ := isAligned_eq_ok haligned
    cases aligned with
    | true =>
      obtain ⟨r, m', hwrite, hstores⟩ := alignedWrite_flat hn (of_decide_eq_true hdecide.symm) m v
      exact ⟨r, m', n, hwrite, hstores⟩
    | false =>
      obtain ⟨r, m', hwrite, hstores⟩ := writeBytes_flat hn.le_eight m a v
      exact ⟨r, m', n, hwrite, hstores⟩

theorem after_flat (m : FlatMemory) (operation : Operation) :
    ∃ m', (flat m).after operation = flat m' ∧ Moves m m' := by
  cases operation with
  | read a bytes fetch =>
    obtain ⟨m', hread, hmarks⟩ := read_flat m a bytes fetch
    exact ⟨m', hread, hmarks.moves⟩
  | write a bytes v =>
    obtain ⟨r, m', n, hwrite, hstores⟩ := write_flat m a bytes v
    exact ⟨m', congrArg Prod.snd hwrite, hstores.moves⟩
  | mark a =>
    cases hmark : m.markImmutable a with
    | error e =>
      refine ⟨m, ?_, (Marks.refl m).moves⟩
      simp only [after, markImmutable, hmark, Except.map]
    | ok m' =>
      refine ⟨m', ?_, (marks_of_markImmutable hmark).moves⟩
      simp only [after, markImmutable, hmark, Except.map]

/-! ### Writing back -/

/-- Writing what a read has given succeeds and changes neither status nor version. -/
theorem write_back (hm : m.Valid) {bytes : Int} {v : UInt64}
    (h : ((flat m).read a bytes false).1 = .ok v) :
    ∃ m', (flat m).write a bytes v = (.ok (), flat m') ∧ m'.version = m.version ∧
      m'.status = m.status := by
  cases haligned : isAligned a bytes with
  | error e =>
    unfold read at h
    rw [haligned] at h
    cases h
  | ok aligned =>
    obtain ⟨n, hn, rfl, -⟩ := isAligned_eq_ok haligned
    have hbytes := (flat m).byteAt_lt
    obtain ⟨hhas, hvalue⟩ := (read_eq_ok_iff (m := flat m) hm hn false).mp h
    have hv : v.toNat < 256 ^ n := hvalue ▸ littleEndian_lt hbytes a n
    obtain ⟨_, hwrite, hbecomes⟩ := write_eq (m := flat m) hm hn hhas hv
    obtain ⟨r, m', _, hwrite', hstores⟩ := write_flat m a n v
    obtain ⟨rfl, rfl⟩ := Prod.mk.inj (hwrite.symm.trans hwrite')
    exact ⟨m', hwrite', hstores.same (hbecomes.bytes.trans (overwritten_self hbytes hvalue))⟩

/-! ### Histories -/

/-- What holds of the states that a flat memory goes through. -/
structure Protected (state : Nat → FlatMemory) : Prop where
  /-- A word that is immutable stays so with its content as long as the version stays. -/
  immutable : ∀ j k i : Nat, j ≤ k → (state j).status[i]? = some .immutable →
    (state k).version = (state j).version →
    (state k).status[i]? = some .immutable ∧ (state k).words[i]? = (state j).words[i]?
  /-- Status goes one way. -/
  status : ∀ k i : Nat, (state (k + 1)).status[i]? = (state k).status[i]? ∨
    (state k).status[i]? = some .normal ∧ (state (k + 1)).status[i]? = some .immutable ∨
    (state k).status[i]? = some .immutable ∧ (state (k + 1)).status[i]? = some .mutable
  /-- A word that becomes mutable does so under a version that was never there before. -/
  new_version : ∀ k i : Nat, (state k).status[i]? = some .immutable →
    (state (k + 1)).status[i]? = some .mutable →
    ∀ j ≤ k, (state j).version ≠ (state (k + 1)).version
  /-- An immutable word whose content does not change stays immutable. -/
  same_word : ∀ k i : Nat, (state k).status[i]? = some .immutable →
    (state (k + 1)).words[i]? = (state k).words[i]? → (state (k + 1)).status[i]? = some .immutable
  /-- The version stays if no immutable word changes its content. -/
  same_version : ∀ k : Nat, (∀ i : Nat, (state k).status[i]? = some .immutable →
    (state (k + 1)).words[i]? = (state k).words[i]?) → (state (k + 1)).version = (state k).version

theorem protected_of_moves {state : Nat → FlatMemory} (h : ∀ k, Moves (state k) (state (k + 1))) :
    Protected state := by
  have hmono : Monotone fun k => (state k).version :=
    monotone_nat_of_le_succ fun k => (h k).version_le
  refine ⟨fun j k i hjk hi => ?_, fun k => (h k).status, fun k i hi hi' j hj heq => ?_,
    fun k i hi => ((h k).content i hi).mpr, fun k hall => ?_⟩
  · -- the version never falls, so it is the same at every state in between
    induction k, hjk using Nat.le_induction with
    | base => exact fun _ => ⟨hi, rfl⟩
    | succ k hjk ih =>
      intro hversion
      have hle : (state j).version ≤ (state k).version := hmono hjk
      have hle' := (h k).version_le
      obtain ⟨hk, hwords⟩ := ih (by omega)
      have hk' := (h k).version_eq_iff.mp (by omega) i hk
      exact ⟨hk', (((h k).content i hk).mp hk').trans hwords⟩
  · have hle : (state j).version ≤ (state k).version := hmono hj
    have hle' := (h k).version_le
    have hk' := (h k).version_eq_iff.mp (by omega) i hi
    cases hk'.symm.trans hi'
  · exact (h k).version_eq_iff.mpr fun i hi => ((h k).content i hi).mpr (hall i hi)

theorem foldl_after_flat (hm : m.Valid) (operations : List Operation) :
    ∃ m', operations.foldl after (flat m) = flat m' ∧ m'.Valid := by
  induction operations generalizing m with
  | nil => exact ⟨m, rfl, hm⟩
  | cons operation rest ih =>
    obtain ⟨m', hafter, hmoves⟩ := after_flat m operation
    rw [List.foldl_cons, hafter]
    exact ih (hmoves.valid hm)

/-- Whatever operations a flat memory goes through, its versions protect what was fetched, and
writing what is there already changes neither version nor status. -/
theorem versions_protect_fetches (size : Nat) (operations : List Operation) :
    ∃ state : Nat → FlatMemory,
      (∀ k, (operations.take k).foldl after (flat (.ofSize size)) = flat (state k)) ∧
        Protected state ∧
        ∀ (k : Nat) (a : UInt64) (bytes : Int) (v : UInt64),
          operations[k]? = some (.write a bytes v) →
          ((flat (state k)).read a bytes false).1 = .ok v →
          (state (k + 1)).version = (state k).version ∧
          (state (k + 1)).status = (state k).status := by
  choose state hstate hvalid using fun k =>
    foldl_after_flat (valid_ofSize size) (operations.take k)
  have hnext (k : Nat) :
      operations[k]?.toList.foldl after (flat (state k)) = flat (state (k + 1)) := by
    rw [← hstate k, ← hstate (k + 1), List.take_add_one, List.foldl_append]
  refine ⟨state, hstate, protected_of_moves fun k => ?_, fun k a bytes v hoperation hread => ?_⟩
  · cases hoperation : operations[k]? with
    | none =>
      have hsame := hnext k
      rw [hoperation] at hsame
      exact (Memory.flat.inj hsame) ▸ (Marks.refl (state k)).moves
    | some operation =>
      have hafter := hnext k
      rw [hoperation] at hafter
      obtain ⟨m', hafter', hmoves⟩ := after_flat (state k) operation
      exact (Memory.flat.inj (hafter'.symm.trans hafter)) ▸ hmoves
  · have hafter := hnext k
    rw [hoperation] at hafter
    obtain ⟨m', hwrite, hsame⟩ := write_back (hvalid k) hread
    have hstep : m' = state (k + 1) :=
      Memory.flat.inj ((congrArg Prod.snd hwrite).symm.trans hafter)
    exact hstep ▸ hsame

-- a word that was fetched from is written in part
example : [Operation.read 0 4 true, .write 5 2 0x1234].foldl after (flat (.ofSize 8)) =
    flat ⟨#[0x12340000000000], #[.mutable] ++ Array.replicate 7 .normal, 1⟩ := rfl

end Memory

end Jib
