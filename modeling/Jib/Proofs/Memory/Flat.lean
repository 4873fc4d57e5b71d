import Jib.Proofs.Memory.Bytes

/-!
# Words of a flat memory

What the operations of a flat memory do to the word that an address lies in, and that an aligned
access to a byte that the memory has succeeds.
-/

namespace Jib.FlatMemory

variable {m m' : FlatMemory} {a i v w : UInt64} {n : Nat}

/-- Every word has a status. -/
def Valid (m : FlatMemory) : Prop := m.words.size ≤ m.status.size

/-- The word that an address lies in. -/
def wordAt (m : FlatMemory) (a : UInt64) : UInt64 := m.words.getD (Place.ofAddress a).word.toNat 0

theorem byWord_wordAt (m : FlatMemory) : ByWord m.wordAt := by
  intro x y h
  unfold wordAt
  rw [Place.toNat_word, Place.toNat_word, h]

theorem valid_ofSize (size : Nat) : (ofSize size).Valid := by
  change (Array.replicate (size / 8) _).size ≤ (Array.replicate size _).size
  rw [Array.size_replicate, Array.size_replicate]
  exact Nat.div_le_self size 8

theorem wordAt_ofSize (size : Nat) (a : UInt64) : (ofSize size).wordAt a = 0 := by
  unfold wordAt ofSize
  rw [Array.getD_eq_getD_getElem?, Array.getElem?_replicate]
  split <;> rfl

/-! ### Single words -/

theorem read?_eq_ok_iff : m.read? i = .ok w ↔ m.words[i.toNat]? = some w := by
  unfold read?
  cases m.words[i.toNat]? <;> simp

theorem status?_eq_ok_iff {s : WordStatus} : m.status? i = .ok s ↔ m.status[i.toNat]? = some s := by
  unfold status?
  cases m.status[i.toNat]? <;> simp

theorem statusUnder_version (m : FlatMemory) (i : UInt64) :
    m.statusUnder i m.version = m.status? i :=
  if_pos (beq_self_eq_true m.version)

theorem immutableRead_version (m : FlatMemory) (i : UInt64) :
    m.immutableRead i m.version = m.read? i :=
  if_pos (beq_self_eq_true m.version)

theorem markImmutable_eq (m : FlatMemory) (a : UInt64) :
    m.markImmutable a = (m.status? (Place.ofAddress a).word).map fun s => if s = .normal
      then { m with status := m.status.setIfInBounds (Place.ofAddress a).word.toNat .immutable }
      else m := by
  unfold markImmutable
  simp only [statusUnder_version]
  cases m.status? (Place.ofAddress a).word with
  | error e => rfl
  | ok s => cases s <;> rfl

/-- Marking a word changes nothing but its status, and that only from normal to immutable. -/
theorem markImmutable_cases (h : m.markImmutable a = .ok m') :
    m' = m ∨ m.status[(Place.ofAddress a).word.toNat]? = some .normal ∧
      m' = { m with
        status := m.status.setIfInBounds (Place.ofAddress a).word.toNat .immutable } := by
  rw [markImmutable_eq] at h
  cases hs : m.status? (Place.ofAddress a).word with
    rw [hs] at h
  | error e => cases h
  | ok s =>
    have hresult := (Except.ok.inj h).symm
    cases s with
    | normal => exact .inr ⟨status?_eq_ok_iff.mp hs, hresult⟩
    | immutable => exact .inl hresult
    | mutable => exact .inl hresult

/-- A word that is fetched is read like any other that has a status. -/
theorem fetchWord_eq (m : FlatMemory) (i : UInt64) :
    m.fetchWord i = (m.status? i).bind fun _ => m.read? i := by
  unfold fetchWord
  simp only [statusUnder_version, immutableRead_version, ite_self]
  rfl

theorem alignedRead_fetch (h : m.markImmutable a = .ok m') :
    m.alignedRead a n true =
      (loadPart n (Place.ofAddress a).byte (m'.fetchWord (Place.ofAddress a).word), m') := by
  unfold alignedRead
  rw [h]
  rfl

/-- A store changes one word.  It changes the status and the version only if an immutable word gets
another content. -/
theorem writeWord_cases (h : m.writeWord i v = .ok m') :
    ∃ old, m.words[i.toNat]? = some old ∧
      (m.status[i.toNat]? = some .immutable ∧ old ≠ v ∧
          m' = { m.invalidate i with words := m.words.setIfInBounds i.toNat v } ∨
        (m.status[i.toNat]? = some .immutable → old = v) ∧
          m' = { m with words := m.words.setIfInBounds i.toNat v }) := by
  unfold writeWord at h
  cases hs : m.status? i with
  | error e =>
    rw [hs] at h
    cases h
  | ok s =>
    cases hold : m.read? i with
      rw [hs, hold] at h
    | error e => cases h
    | ok old =>
      have hresult := (Except.ok.inj h).symm
      have hstatus := status?_eq_ok_iff.mp hs
      apply Exists.intro old
      apply And.intro (read?_eq_ok_iff.mp hold)
      by_cases hchange : (s == .immutable && old != v) = true
      · rw [if_pos hchange] at hresult
        rw [Bool.and_eq_true, beq_iff_eq, bne_iff_ne] at hchange
        exact .inl ⟨hchange.1 ▸ hstatus, hchange.2, hresult⟩
      · rw [if_neg hchange] at hresult
        refine .inr ⟨?_, hresult⟩
        intro himmutable
        cases hstatus.symm.trans himmutable
        simpa using hchange

theorem writeWord_words (h : m.writeWord i v = .ok m') :
    m'.words = m.words.setIfInBounds i.toNat v := by
  obtain ⟨_, _, ⟨_, _, rfl⟩ | ⟨_, rfl⟩⟩ := writeWord_cases h <;> rfl

theorem writeWord_status_size (h : m.writeWord i v = .ok m') : m'.status.size = m.status.size := by
  obtain ⟨_, _, ⟨_, _, rfl⟩ | ⟨_, rfl⟩⟩ := writeWord_cases h
  · exact Array.size_setIfInBounds
  · rfl

theorem wordAt_of_words (h : m'.words = m.words.setIfInBounds (Place.ofAddress a).word.toNat v)
    (hlt : a.toNat < 8 * m.words.size) (x : UInt64) :
    m'.wordAt x = if x.toNat / 8 = a.toNat / 8 then v else m.wordAt x := by
  unfold wordAt
  rw [h, Array.getD_eq_getD_getElem?, Array.getD_eq_getD_getElem?, Array.getElem?_setIfInBounds,
    Place.toNat_word, Place.toNat_word]
  by_cases hsame : x.toNat / 8 = a.toNat / 8
  · rw [if_pos hsame.symm, if_pos (by omega), if_pos hsame]
    rfl
  · rw [if_neg (Ne.symm hsame), if_neg hsame]

/-! ### Reads -/

/-- What a read may do. -/
structure Marks (m m' : FlatMemory) : Prop where
  size : m'.status.size = m.status.size
  words : m'.words = m.words
  version : m'.version = m.version
  status : ∀ i : Nat, m'.status[i]? = m.status[i]? ∨
    m.status[i]? = some .normal ∧ m'.status[i]? = some .immutable

theorem Marks.refl (m : FlatMemory) : Marks m m := ⟨rfl, rfl, rfl, fun _ => .inl rfl⟩

theorem Marks.valid (h : Marks m m') (hm : m.Valid) : m'.Valid := by
  unfold Valid
  rw [h.words, h.size]
  exact hm

theorem marks_of_markImmutable (h : m.markImmutable a = .ok m') : Marks m m' := by
  rcases markImmutable_cases h with rfl | ⟨hnormal, rfl⟩
  · exact .refl m'
  · refine ⟨Array.size_setIfInBounds, rfl, rfl, fun i => ?_⟩
    rw [Array.getElem?_setIfInBounds]
    by_cases hi : (Place.ofAddress a).word.toNat = i
    · subst hi
      have hlt := (Array.getElem?_eq_some_iff.mp hnormal).1
      rw [if_pos rfl, if_pos hlt]
      exact .inr ⟨hnormal, rfl⟩
    · rw [if_neg hi]
      exact .inl rfl

theorem marks_alignedRead (m : FlatMemory) (a : UInt64) (n : Nat) (fetch : Bool) :
    Marks m (m.alignedRead a n fetch).2 := by
  cases fetch with
  | false => exact .refl m
  | true =>
    cases hmark : m.markImmutable a with
    | ok m' =>
      rw [alignedRead_fetch hmark]
      exact marks_of_markImmutable hmark
    | error e =>
      unfold alignedRead
      rw [hmark]
      exact .refl m

theorem read?_word_iff :
    m.read? (Place.ofAddress a).word = .ok w ↔ a.toNat < 8 * m.words.size ∧ w = m.wordAt a := by
  have hword := Place.toNat_word a
  unfold wordAt
  rw [read?_eq_ok_iff, Array.getD_eq_getD_getElem?]
  rcases Nat.lt_or_ge (Place.ofAddress a).word.toNat m.words.size with hlt | hge
  · rw [Array.getElem?_eq_getElem hlt, Option.some.injEq, and_iff_right (by omega)]
    exact eq_comm
  · rw [Array.getElem?_eq_none hge]
    exact iff_of_false nofun fun h => absurd h.1 (by omega)

theorem status?_inside (hm : m.Valid) (hin : a.toNat < 8 * m.words.size) :
    ∃ s, m.status? (Place.ofAddress a).word = .ok s := by
  have hword := Place.toNat_word a
  have hsize : m.words.size ≤ m.status.size := hm
  have hlt : (Place.ofAddress a).word.toNat < m.status.size := by omega
  exact ⟨_, status?_eq_ok_iff.mpr (Array.getElem?_eq_getElem hlt)⟩

theorem alignedRead_true (m : FlatMemory) (a : UInt64) (n : Nat) :
    (m.alignedRead a n true).1 =
      (m.status? (Place.ofAddress a).word).bind fun _ => (m.alignedRead a n false).1 := by
  have hmark := m.markImmutable_eq a
  cases hs : m.status? (Place.ofAddress a).word with
    rw [hs] at hmark
  | error e =>
    unfold alignedRead
    rw [hmark]
    rfl
  | ok s =>
    have hmarks := marks_of_markImmutable hmark
    rw [alignedRead_fetch hmark, fetchWord_eq]
    unfold status? read?
    rw [hmarks.words]
    rcases hmarks.status (Place.ofAddress a).word.toNat with h | ⟨_, h⟩
    · rw [h, status?_eq_ok_iff.mp hs]
      rfl
    · rw [h]
      rfl

/-- An aligned read gives the number that the bytes spell, if the memory has them. -/
theorem alignedRead_eq_ok_iff (hm : m.Valid) (hn : IsSize n) (ha : a.toNat % n = 0) (fetch : Bool) :
    (m.alignedRead a n fetch).1 = .ok w ↔
      a.toNat < 8 * m.words.size ∧ w.toNat = littleEndian (bytesIn m.wordAt) a n := by
  have hvalue := toNat_readPart_eq m.byWord_wordAt hn ha (Place.toNat_byte a)
  have hread : (m.alignedRead a n false).1 = .ok w ↔
      a.toNat < 8 * m.words.size ∧ w.toNat = littleEndian (bytesIn m.wordAt) a n := by
    refine (loadPart_eq_ok_iff hn ha (Place.toNat_byte a)).trans ?_
    simp only [read?_word_iff, and_assoc, exists_and_left, exists_eq_left, ← hvalue,
      UInt64.toNat_inj]
  cases fetch with
  | false => exact hread
  | true =>
    rw [alignedRead_true]
    cases hs : m.status? (Place.ofAddress a).word with
    | ok s => exact hread
    | error e =>
      refine iff_of_false nofun fun h => ?_
      obtain ⟨s, hs'⟩ := status?_inside hm h.1
      cases hs.symm.trans hs'

/-! ### Writes -/

section Write

variable (hn : IsSize n) (ha : a.toNat % n = 0)
include hn ha

theorem alignedWrite_eq_ok_iff : m.alignedWrite a n v = .ok m' ↔
    (v.toNat < 256 ^ n ∧ a.toNat < 8 * m.words.size) ∧
      m.writeWord (Place.ofAddress a).word (writePart n (Place.ofAddress a).byte (m.wordAt a) v) =
        .ok m' := by
  change (do
    m.writeWord _ (← storePart n (Place.ofAddress a).byte v (m.read? (Place.ofAddress a).word))) =
    _ ↔ _
  rw [storePart_eq hn ha (Place.toNat_byte a)]
  split_ifs with hv
  · cases hread : m.read? (Place.ofAddress a).word with
    | ok old =>
      obtain ⟨hin, rfl⟩ := read?_word_iff.mp hread
      exact (and_iff_right ⟨hv, hin⟩).symm
    | error e =>
      refine iff_of_false nofun fun h => ?_
      cases hread.symm.trans (read?_word_iff.mpr ⟨h.1.2, rfl⟩)
  · exact iff_of_false nofun fun h => hv h.1.1

theorem alignedWrite_inside (hm : m.Valid) (hin : a.toNat < 8 * m.words.size)
    (hv : v.toNat < 256 ^ n) :
    ∃ m', m.alignedWrite a n v = .ok m' ∧ m'.Valid ∧ m'.words.size = m.words.size ∧
      bytesIn m'.wordAt = overwritten (bytesIn m.wordAt) a n v := by
  obtain ⟨s, hs⟩ := status?_inside hm hin
  obtain ⟨m', hwrite⟩ : ∃ m', m.writeWord (Place.ofAddress a).word
      (writePart n (Place.ofAddress a).byte (m.wordAt a) v) = .ok m' := by
    unfold writeWord
    rw [hs, read?_word_iff.mpr ⟨hin, rfl⟩]
    exact ⟨_, rfl⟩
  have hwords := writeWord_words hwrite
  have hsize : m'.words.size = m.words.size := by rw [hwords, Array.size_setIfInBounds]
  refine ⟨m', (alignedWrite_eq_ok_iff hn ha).mpr ⟨⟨hv, hin⟩, hwrite⟩, ?_, hsize, ?_⟩
  · exact (hsize.trans_le hm).trans_eq (writeWord_status_size hwrite).symm
  · exact bytesIn_writePart hn ha (Place.toNat_byte a) hv m.byWord_wordAt
      (wordAt_of_words hwords hin)

end Write

end Jib.FlatMemory
