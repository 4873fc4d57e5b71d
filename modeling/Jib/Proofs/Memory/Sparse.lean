import Jib.Memory.Sparse
import Jib.Proofs.Memory.Bytes

/-!
# Words of a sparse memory

The blocks of a sparse memory together hold one word for every eight bytes of the address space.
Neither a block that is made on the way nor a remembered one can be seen in the words.
-/

namespace Jib.SparseMemory

variable {m : SparseMemory} {a v : UInt64} {n b : Nat}

/-- Different blocks have different addresses, and the blocks remembered are those found at their
addresses. -/
structure Valid (m : SparseMemory) : Prop where
  sized : ∀ (b : Nat) (block : Array UInt64), m.blocks[b]? = some block → block.size = blockWords
  made : ∀ (address : UInt64) (b : Nat), m.places[address]? = some b → b < m.blocks.size
  apart : ∀ (x y : UInt64) (b : Nat), m.places[x]? = some b → m.places[y]? = some b → x = y
  remembered : ∀ fetch : Bool, (m.recent fetch).address = noBlock.address ∨
    m.places[(m.recent fetch).address]? = some (m.recent fetch).index

/-- The word that an address lies in; a block that was not made yet is zero. -/
def wordAt (m : SparseMemory) (a : UInt64) : UInt64 :=
  ((m.places[blockAddress a]?.bind (m.blocks[·]?)).bind (·[(placeInBlock a).word.toNat]?)).getD 0

theorem valid_empty : empty.Valid where
  sized b block h := by simp [empty] at h
  made address b h := by simp [empty] at h
  apart x y b h := by simp [empty] at h
  remembered fetch := by cases fetch <;> exact .inl rfl

theorem wordAt_empty (a : UInt64) : empty.wordAt a = 0 := by
  simp [wordAt, empty]

/-! ### Addresses -/

theorem toNat_blockAddress (a : UInt64) : (blockAddress a).toNat = a.toNat / 2 ^ 20 := by
  exact Nat.shiftRight_eq_div_pow a.toNat 20

theorem toNat_inBlock (a : UInt64) : (a &&& 0xfffff).toNat = a.toNat % 2 ^ 20 := by
  exact Nat.and_two_pow_sub_one_eq_mod a.toNat 20

theorem toNat_word (a : UInt64) : (placeInBlock a).word.toNat = a.toNat % 2 ^ 20 / 8 := by
  unfold placeInBlock
  rw [Place.toNat_word, toNat_inBlock]

theorem toNat_byte (a : UInt64) : (placeInBlock a).byte.toNat = a.toNat % 8 := by
  unfold placeInBlock
  rw [Place.toNat_byte, toNat_inBlock]
  omega

theorem word_lt (a : UInt64) : (placeInBlock a).word.toNat < blockWords := by
  rw [toNat_word]
  change _ < 131072
  omega

theorem blockAddress_ne (a : UInt64) : blockAddress a ≠ noBlock.address := by
  intro h
  have hvalue := congrArg UInt64.toNat h
  rw [toNat_blockAddress, show noBlock.address.toNat = 2 ^ 64 - 1 from rfl] at hvalue
  have hlt := a.toNat_lt
  omega

/-- Two addresses lie in one word if they have one block and one word there. -/
theorem same_word_iff (x a : UInt64) :
    x.toNat / 8 = a.toNat / 8 ↔ blockAddress x = blockAddress a ∧
      (placeInBlock x).word.toNat = (placeInBlock a).word.toNat := by
  rw [← UInt64.toNat_inj, toNat_blockAddress, toNat_blockAddress, toNat_word, toNat_word]
  omega

theorem byWord_wordAt (m : SparseMemory) : ByWord m.wordAt := by
  intro x y h
  obtain ⟨hblock, hword⟩ := (same_word_iff x y).mp h
  unfold wordAt
  rw [hblock, hword]

/-! ### Blocks -/

/-- What finding a block does: it gives the block of the address, and the words stay as they are. -/
structure Finds (m : SparseMemory) (address : UInt64) (b : Nat) (m' : SparseMemory) : Prop where
  valid : m'.Valid
  place : m'.places[address]? = some b
  words : m'.wordAt = m.wordAt

section NewBlock

variable (hm : m.Valid) {address : UInt64} (hnone : m.places[address]? = none)

include hnone in
theorem place_withBlock {x : UInt64} (hx : m.places[x]? = some b) :
    (m.withBlock address).places[x]? = some b := by
  change (m.places.insert address m.blocks.size)[x]? = _
  rw [Std.HashMap.getElem?_insert, if_neg, hx]
  intro heq
  rw [beq_iff_eq.mp heq, hx] at hnone
  cases hnone

include hm in
theorem place_withBlock_cases {x : UInt64} (hx : (m.withBlock address).places[x]? = some b) :
    x = address ∧ b = m.blocks.size ∨ m.places[x]? = some b ∧ b < m.blocks.size := by
  change (m.places.insert address m.blocks.size)[x]? = _ at hx
  rw [Std.HashMap.getElem?_insert] at hx
  split at hx
  · rename_i heq
    exact .inl ⟨(beq_iff_eq.mp heq).symm, (Option.some.inj hx).symm⟩
  · exact .inr ⟨hx, hm.made x b hx⟩

include hm hnone in
theorem valid_withBlock : (m.withBlock address).Valid := by
  refine ⟨fun b block hblock => ?_, fun x b hx => ?_, fun x y b hx hy => ?_, fun fetch => ?_⟩
  · change (m.blocks.push newBlock)[b]? = _ at hblock
    rw [Array.getElem?_push] at hblock
    split at hblock
    · cases hblock
      exact Array.size_replicate
    · exact hm.sized b block hblock
  · change b < (m.blocks.push newBlock).size
    rw [Array.size_push]
    rcases place_withBlock_cases hm hx with ⟨-, rfl⟩ | ⟨-, hlt⟩ <;> omega
  · rcases place_withBlock_cases hm hx with ⟨rfl, rfl⟩ | ⟨hx, hxlt⟩
    · rcases place_withBlock_cases hm hy with ⟨rfl, -⟩ | ⟨-, hylt⟩
      · rfl
      · omega
    · rcases place_withBlock_cases hm hy with ⟨-, hnew⟩ | ⟨hy, -⟩
      · omega
      · exact hm.apart x y b hx hy
  · exact (hm.remembered fetch).imp_right (place_withBlock hnone)

include hm hnone in
/-- The new block is zero, as its words were taken to be before. -/
theorem wordAt_withBlock : (m.withBlock address).wordAt = m.wordAt := by
  funext x
  unfold wordAt
  cases hx : m.places[blockAddress x]? with
  | some b =>
    have hb := hm.made _ b hx
    rw [place_withBlock hnone hx, Option.bind_some, Option.bind_some]
    change ((m.blocks.push newBlock)[b]?.bind _).getD 0 = _
    rw [Array.getElem?_push_lt hb, Array.getElem?_eq_getElem hb]
  | none =>
    change (((m.places.insert address m.blocks.size)[blockAddress x]?.bind
      ((m.blocks.push newBlock)[·]?)).bind _).getD 0 = 0
    by_cases hsame : blockAddress x = address
    · rw [hsame, Std.HashMap.getElem?_insert_self, Option.bind_some, Array.getElem?_push_size,
        Option.bind_some]
      unfold newBlock
      rw [Array.getElem?_replicate, if_pos (word_lt x)]
      rfl
    · rw [Std.HashMap.getElem?_insert, if_neg (fun h => hsame (beq_iff_eq.mp h).symm), hx]
      rfl

end NewBlock

theorem findBlock_finds (hm : m.Valid) (address : UInt64) :
    Finds m address (m.findBlock address).1 (m.findBlock address).2 := by
  unfold findBlock
  cases hplace : m.places[address]? with
  | some b => exact ⟨hm, hplace, rfl⟩
  | none =>
    exact ⟨valid_withBlock hm hplace, Std.HashMap.getElem?_insert_self, wordAt_withBlock hm hplace⟩

theorem valid_remember (hm : m.Valid) {address : UInt64} (hplace : m.places[address]? = some b)
    (fetch : Bool) : (m.remember fetch ⟨address, b⟩).Valid := by
  cases fetch
  · refine ⟨hm.sized, hm.made, hm.apart, ?_⟩
    rintro (_ | _)
    · exact .inr hplace
    · exact hm.remembered true
  · refine ⟨hm.sized, hm.made, hm.apart, ?_⟩
    rintro (_ | _)
    · exact hm.remembered false
    · exact .inr hplace

/-- A remembered block is the one that a search would find. -/
theorem useBlock_finds (hm : m.Valid) (a : UInt64) (fetch : Bool) :
    Finds m (blockAddress a) (m.useBlock (blockAddress a) fetch).1
      (m.useBlock (blockAddress a) fetch).2 := by
  unfold useBlock
  split_ifs with hrecent
  · have haddress := beq_iff_eq.mp hrecent
    rcases hm.remembered fetch with hnone | hplace
    · exact absurd (haddress.symm.trans hnone) (blockAddress_ne a)
    · exact ⟨hm, haddress ▸ hplace, rfl⟩
  · obtain ⟨hvalid, hplace, hwords⟩ := findBlock_finds hm (blockAddress a)
    refine ⟨valid_remember hvalid hplace fetch, ?_, ?_⟩
    · cases fetch <;> exact hplace
    · cases fetch <;> exact hwords

/-! ### Single words -/

theorem read?_eq (hm : m.Valid) (hplace : m.places[blockAddress a]? = some b) :
    m.read? b (placeInBlock a).word = .ok (m.wordAt a) := by
  have hb := Array.getElem?_eq_getElem (hm.made _ b hplace)
  have hword := word_lt a
  rw [← hm.sized b _ hb] at hword
  unfold read? wordAt
  rw [hplace, Option.bind_some, hb, Option.bind_some, Array.getElem?_eq_getElem hword]
  rfl

theorem valid_setWord (hm : m.Valid) (b : Nat) (i v : UInt64) : (m.setWord b i v).Valid := by
  refine ⟨?_, ?_, hm.apart, hm.remembered⟩
  · intro c block hblock
    change (m.blocks.modify b _)[c]? = _ at hblock
    rw [Array.getElem?_modify] at hblock
    split at hblock
    · obtain ⟨old, hold, rfl⟩ := Option.map_eq_some_iff.mp hblock
      rw [Array.size_setIfInBounds]
      exact hm.sized c old hold
    · exact hm.sized c block hblock
  · intro address c hplace
    change c < (m.blocks.modify b _).size
    rw [Array.size_modify]
    exact hm.made address c hplace

theorem wordAt_setWord (hm : m.Valid) (hplace : m.places[blockAddress a]? = some b) (v x : UInt64) :
    (m.setWord b (placeInBlock a).word v).wordAt x =
      if x.toNat / 8 = a.toNat / 8 then v else m.wordAt x := by
  have hb := Array.getElem?_eq_getElem (hm.made _ b hplace)
  have hword := word_lt a
  rw [← hm.sized b _ hb] at hword
  unfold wordAt setWord
  by_cases hblock : blockAddress x = blockAddress a
  · rw [hblock, hplace, Option.bind_some, Option.bind_some, Array.getElem?_modify, if_pos rfl, hb,
      Option.map_some, Option.bind_some, Option.bind_some, Array.getElem?_setIfInBounds]
    by_cases hsame : (placeInBlock x).word.toNat = (placeInBlock a).word.toNat
    · rw [if_pos hsame.symm, if_pos hword, if_pos ((same_word_iff x a).mpr ⟨hblock, hsame⟩)]
      rfl
    · rw [if_neg (Ne.symm hsame), if_neg (fun h => hsame ((same_word_iff x a).mp h).2)]
  · rw [if_neg (fun h => hblock ((same_word_iff x a).mp h).1)]
    cases hx : m.places[blockAddress x]? with
    | none => rfl
    | some c =>
      have hne : b ≠ c := fun h => hblock (hm.apart _ _ c hx (h ▸ hplace))
      rw [Option.bind_some, Option.bind_some, Array.getElem?_modify, if_neg hne]

/-! ### Accesses -/

section Access

variable (hm : m.Valid) (hn : IsSize n) (ha : a.toNat % n = 0)
include hm hn ha

theorem alignedRead_eq_ok_iff {w : UInt64} (fetch : Bool) :
    (m.alignedRead a n fetch).1 = .ok w ↔ w.toNat = littleEndian (bytesIn m.wordAt) a n := by
  obtain ⟨hvalid, hplace, hwords⟩ := useBlock_finds hm a fetch
  unfold alignedRead
  simp only [read?_eq hvalid hplace, hwords, loadPart_eq_ok_iff hn ha (toNat_byte a),
    Except.ok.injEq,
    exists_eq_left', ← toNat_readPart_eq m.byWord_wordAt hn ha (toNat_byte a), UInt64.toNat_inj]

theorem alignedWrite_eq :
    ∃ m', m.alignedWrite a n v = (if v.toNat < 256 ^ n then .ok () else .error .assertion, m') ∧
      m'.Valid ∧ bytesIn m'.wordAt =
        if v.toNat < 256 ^ n then overwritten (bytesIn m.wordAt) a n v else bytesIn m.wordAt := by
  obtain ⟨hvalid, hplace, hwords⟩ := useBlock_finds hm a false
  unfold alignedWrite
  simp only [read?_eq hvalid hplace, storePart_eq hn ha (toNat_byte a)]
  split_ifs with hv
  · refine ⟨_, rfl, valid_setWord hvalid _ _ _, ?_⟩
    apply bytesIn_writePart hn ha (toNat_byte a) hv m.byWord_wordAt
    intro x
    rw [wordAt_setWord hvalid hplace, hwords]
  · exact ⟨_, rfl, hvalid, congrArg bytesIn hwords⟩

end Access

end Jib.SparseMemory
