import Jib.Elf.Image
import Jib.Proofs.Memory.Access

/-!
# Loading of segments

Loading a well-formed file overwrites a memory by the loadable segments, in the order of the program
headers, and by nothing else.  Here the fields of a file are given by their offsets in the two
layouts.
-/

namespace Jib.Elf

/-- The number in a field, lowest byte first, by its offset and width in the narrow and the wide
layout. -/
def field (wide : Bool) (bs : Bytes) (narrowAt wideAt : Nat × Nat) : Nat :=
  let place := if wide then wideAt else narrowAt
  Bytes.toNatLow ((bs.drop place.1).take place.2)

def programHeader (wide : Bool) (bs : Bytes) : ProgramHeader where
  type := field wide bs (0, 4) (0, 4)
  flags := field wide bs (24, 4) (4, 4)
  offset := field wide bs (4, 4) (8, 8)
  virtualAddress := field wide bs (8, 4) (16, 8)
  physicalAddress := field wide bs (12, 4) (24, 8)
  fileSize := field wide bs (16, 4) (32, 8)
  memorySize := field wide bs (20, 4) (40, 8)
  alignment := field wide bs (28, 4) (48, 8)

/-- A store of bytes after others were put over it from an address on. -/
def overlaid (bytes : UInt64 → Nat) (a : UInt64) (bs : Bytes) : UInt64 → Nat :=
  fun x => (bs[(x - a).toNat]?.map UInt8.toNat).getD (bytes x)

section File

variable (wide : Bool) (file : Bytes)

def headerLength : Nat := if wide then 64 else 52

def headerField (narrowAt wideAt : Nat × Nat) : Nat :=
  field wide (file.take (headerLength wide)) narrowAt wideAt

def entryPoint : Nat := headerField wide file (24, 4) (24, 8)

def segmentCount : Nat := headerField wide file (44, 2) (56, 2)

def recordLength : Nat := if wide then 56 else 32

def recordOffset (i : Nat) : Nat := headerField wide file (28, 4) (32, 8) + i * recordLength wide

def segment (i : Nat) : ProgramHeader :=
  programHeader wide ((file.drop (recordOffset wide file i)).take (recordLength wide))

/-- The bytes of a segment in the file, then zeros up to its size in memory. -/
def contents (p : ProgramHeader) : Bytes :=
  (file.drop p.offset).take p.fileSize ++ List.replicate (p.memorySize - p.fileSize) 0

/-- The loadable ones of the segments with some indices. -/
def loadables (is : List Nat) : List ProgramHeader :=
  (is.map (segment wide file)).filter (·.type == 1)

/-- A store of bytes with the loadable segments put over it, one after the other. -/
def loaded (is : List Nat) (bytes : UInt64 → Nat) : UInt64 → Nat :=
  (loadables wide file is).foldl
    (fun bytes p => overlaid bytes p.physicalAddress.toUInt64 (contents file p)) bytes

/-- A memory has all addresses of the loadable segments. -/
def Accepts (is : List Nat) (m : Memory) : Prop :=
  ∀ p ∈ loadables wide file is, ∀ k < (contents file p).length,
    m.Holds (p.physicalAddress.toUInt64 + UInt64.ofNat k)

/-- The magic number, the class and, inside the file, the header, the program headers and the data
of the loadable segments.  Positions in a file are below `2 ^ 63`. -/
structure WellFormed : Prop where
  start : file.take 5 = [0x7f, 0x45, 0x4c, 0x46, if wide then 2 else 1]
  length_lt : file.length < 2 ^ 63
  header_fits : headerLength wide ≤ file.length
  record_length :
    ∀ i < segmentCount wide file, headerField wide file (42, 2) (54, 2) = recordLength wide
  record_fits : ∀ i < segmentCount wide file, recordOffset wide file (i + 1) ≤ file.length
  data_fits : ∀ i < segmentCount wide file, (segment wide file i).type = 1 →
    (segment wide file i).offset < 2 ^ 63 ∧ ((segment wide file i).fileSize = 0 ∨
      (segment wide file i).offset + (segment wide file i).fileSize ≤ file.length)

end File

variable {wide : Bool} {file bs : Bytes} {a : UInt64} {m : Memory}

/-! ### Records -/

theorem fields_nil {n : Nat} (h : bs.length ≤ n) : fields [] (bs.drop n) = .ok [] := by
  rw [List.drop_eq_nil_of_le h]
  rfl

theorem ProgramHeader.ofBytes_eq (h : bs.length = recordLength wide) :
    ProgramHeader.ofBytes wide bs = .ok (programHeader wide bs) := by
  cases wide <;> simp_all [ofBytes, recordLength, fields, fields_nil] <;> rfl

theorem Header.ofBytes_eq (h : bs.length = headerLength wide) :
    ∃ h, Header.ofBytes wide bs = .ok h ∧ h.wide = wide ∧ h.entry = field wide bs (24, 4) (24, 8) ∧
      h.programOffset = field wide bs (28, 4) (32, 8) ∧
      h.programSize = field wide bs (42, 2) (54, 2) ∧
      h.programCount = field wide bs (44, 2) (56, 2) := by
  cases wide
  all_goals
    simp_all [headerLength, ofBytes, widths, fields, fields_nil]
    exact ⟨_, rfl, rfl, rfl, rfl, rfl, rfl⟩

theorem Header.ofFile_eq (hfile : WellFormed wide file) :
    Header.ofFile file = Header.ofBytes wide (file.take (headerLength wide)) := by
  unfold ofFile
  rw [hfile.start]
  cases wide <;> rfl

/-! ### Bytes in memory -/

theorem overlaid_cons {bytes : UInt64 → Nat} {b : UInt8} (h : bs.length < 2 ^ 64) :
    overlaid (overwritten bytes a 1 b.toUInt64) (a + 1) bs = overlaid bytes a (b :: bs) := by
  funext x
  have hx := (x - a).toNat_lt
  unfold overlaid overwritten
  rw [toNat_sub_add_one]
  generalize (x - a).toNat = d at hx
  cases d with
  | zero =>
    rw [List.getElem?_eq_none (by omega)]
    simp [byteOf]
  | succ k =>
    rw [show (2 ^ 64 - 1 + (k + 1)) % 2 ^ 64 = k by omega]
    rfl

theorem add_ofNat_succ (a : UInt64) (k : Nat) :
    a + UInt64.ofNat (k + 1) = a + 1 + UInt64.ofNat k := by
  rw [UInt64.add_assoc, UInt64.add_comm 1, UInt64.ofNat_add]
  rfl

theorem writeBytes_eq (hm : m.Valid) (hlen : bs.length ≤ 2 ^ 64)
    (hheld : ∀ k < bs.length, m.Holds (a + UInt64.ofNat k)) :
    ∃ m', writeBytes m a bs = .ok m' ∧ m.Becomes m' (overlaid m.byteAt a bs) := by
  induction bs generalizing m a with
  | nil => exact ⟨m, rfl, hm, fun _ => Iff.rfl, rfl⟩
  | cons b bs ih =>
    have hone : ∀ k < 1, m.Holds (a + UInt64.ofNat k) := fun k hk =>
      hheld k (hk.trans_le (Nat.succ_pos bs.length))
    obtain ⟨m₁, hwrite, hfirst⟩ :=
      Memory.write_eq (v := b.toUInt64) hm (by decide) hone (by simpa using b.toNat_lt)
    have hrest : ∀ k < bs.length, m₁.Holds (a + 1 + UInt64.ofNat k) := fun k hk =>
      (hfirst.holds _).mpr (add_ofNat_succ a k ▸ hheld (k + 1) (Nat.succ_lt_succ hk))
    obtain ⟨m', hwrites, hlast⟩ := ih hfirst.valid (Nat.le_of_succ_le hlen) hrest
    rw [hfirst.bytes, overlaid_cons hlen] at hlast
    refine ⟨m', ?_, hfirst.trans hlast⟩
    unfold writeBytes
    rw [show m.write a 1 b.toUInt64 = _ from hwrite]
    exact hwrites

theorem writeBytes_append (cs : Bytes) :
    writeBytes m a (bs ++ cs) =
      writeBytes m a bs >>= fun m' => writeBytes m' (a + UInt64.ofNat bs.length) cs := by
  induction bs generalizing m a with
  | nil => exact congrArg (writeBytes m · cs) (UInt64.add_zero a).symm
  | cons b bs ih =>
    rw [List.cons_append, writeBytes, writeBytes, List.length_cons, add_ofNat_succ]
    split
    · exact ih
    · rfl

/-! ### Segments -/

theorem field_lt {narrowAt wideAt : Nat × Nat} (h : narrowAt.2 ≤ 8) (h' : wideAt.2 ≤ 8) :
    field wide bs narrowAt wideAt < 2 ^ 64 := by
  have hbound (cs : Bytes) : Bytes.toNatLow cs < 256 ^ cs.length := by
    induction cs with
    | nil => exact Nat.one_pos
    | cons c cs ih =>
      have hc := c.toNat_lt
      rw [Bytes.toNatLow, List.length_cons]
      omega
  refine (hbound _).trans_le (Nat.pow_le_pow_right (j := 8) (by decide) ?_)
  cases wide
  · exact (List.length_take_le _ _).trans h
  · exact (List.length_take_le _ _).trans h'

theorem length_contents_le (i : Nat) : (contents file (segment wide file i)).length ≤ 2 ^ 64 := by
  have hfile : (segment wide file i).fileSize < 2 ^ 64 := field_lt (by decide) (by decide)
  have hmemory : (segment wide file i).memorySize < 2 ^ 64 := field_lt (by decide) (by decide)
  rw [contents, List.length_append, List.length_take, List.length_replicate]
  omega

theorem loadSegment_eq {p : ProgramHeader} (hlen : file.length < 2 ^ 63)
    (hdata : p.fileSize = 0 ∨ p.offset + p.fileSize ≤ file.length) :
    loadSegment file p m = writeBytes m p.physicalAddress.toUInt64 (contents file p) := by
  have hread : readAt file (signed64 p.offset) (signed64 p.fileSize) =
      (file.drop p.offset).take p.fileSize := by
    rcases hdata with h | h
    · simp [h, readAt, signed64]
    · rw [signed64, signed64, if_pos (by omega), if_pos (by omega)]
      rfl
  have hsize : ((file.drop p.offset).take p.fileSize).length = p.fileSize := by
    rw [List.length_take, List.length_drop]
    omega
  unfold loadSegment contents
  rw [writeBytes_append, hread]
  simp only [List.take_take, Nat.min_self, hsize, Nat.lt_irrefl, if_false]

section Loop

variable {h : Header} (hfile : WellFormed wide file) (hwide : h.wide = wide)
  (hoffset : h.programOffset = headerField wide file (28, 4) (32, 8))
  (hsize : h.programSize = headerField wide file (42, 2) (54, 2))

include hfile hwide hoffset hsize

theorem loadSegments_cons {i : Nat} (hi : i < segmentCount wide file) (is : List Nat) (m : Memory) :
    loadSegments file h (i :: is) m =
      (if (segment wide file i).type = 1 then loadSegment file (segment wide file i) m
        else .ok m) >>= loadSegments file h is := by
  have hfits := hfile.record_fits i hi
  have hlen := hfile.length_lt
  unfold recordOffset at hfits
  rw [Nat.add_one_mul] at hfits
  have hread : readAt file (signed64 h.programOffset + i * h.programSize) h.programSize =
      (file.drop (recordOffset wide file i)).take (recordLength wide) := by
    rw [hoffset, hsize, hfile.record_length i hi, signed64, if_pos (by omega)]
    rfl
  have hrecord : ((file.drop (recordOffset wide file i)).take (recordLength wide)).length =
      recordLength wide := by
    unfold recordOffset
    rw [List.length_take, List.length_drop]
    omega
  unfold loadSegments
  simp only [hread, hwide, ProgramHeader.ofBytes_eq hrecord]
  by_cases htype : (segment wide file i).type = 1
  · rw [if_pos htype]
    exact if_pos (beq_iff_eq.mpr htype)
  · rw [if_neg htype]
    exact if_neg (mt beq_iff_eq.mp htype)

/-- The loop over the program headers. -/
theorem loadSegments_eq {is : List Nat} (hm : m.Valid) (his : ∀ i ∈ is, i < segmentCount wide file)
    (hheld : Accepts wide file is m) :
    ∃ m', loadSegments file h is m = .ok m' ∧ m.Becomes m' (loaded wide file is m.byteAt) := by
  induction is generalizing m with
  | nil => exact ⟨m, rfl, hm, fun _ => Iff.rfl, rfl⟩
  | cons i is ih =>
    obtain ⟨hi, his⟩ := List.forall_mem_cons.mp his
    rw [loadSegments_cons hfile hwide hoffset hsize hi]
    unfold Accepts loaded loadables at *
    rw [List.map_cons, List.filter_cons] at *
    by_cases htype : (segment wide file i).type = 1
    · rw [if_pos (beq_iff_eq.mpr htype)] at hheld ⊢
      obtain ⟨hhead, htail⟩ := List.forall_mem_cons.mp hheld
      obtain ⟨m₁, hwrite, hfirst⟩ := writeBytes_eq hm (length_contents_le i) hhead
      obtain ⟨m', hrest, hlast⟩ := ih hfirst.valid his fun p hp k hk =>
        (hfirst.holds _).mpr (htail p hp k hk)
      rw [hfirst.bytes] at hlast
      refine ⟨m', ?_, hfirst.trans hlast⟩
      rw [if_pos htype, loadSegment_eq hfile.length_lt (hfile.data_fits i hi htype |>.2), hwrite]
      exact hrest
    · rw [if_neg (mt beq_iff_eq.mp htype)] at hheld ⊢
      rw [if_neg htype]
      exact ih hm his hheld

end Loop

/-- Loading a well-formed file into a memory that has the addresses succeeds with the entry point,
and the memory has its old bytes under those of the loadable segments. -/
theorem load_overlays_segments (hfile : WellFormed wide file) {m : Memory} (hm : m.Valid)
    (hheld : Accepts wide file (List.range (segmentCount wide file)) m) :
    ∃ m', load file m = .ok (entryPoint wide file, m') ∧
      m.Becomes m' (loaded wide file (List.range (segmentCount wide file)) m.byteAt) := by
  obtain ⟨h, hheader, hwide, hentry, hoffset, hsize, hcount⟩ :=
    Header.ofBytes_eq (List.length_take_of_le hfile.header_fits)
  obtain ⟨m', hload, hbecomes⟩ :=
    loadSegments_eq hfile hwide hoffset hsize hm (fun _ => List.mem_range.mp) hheld
  refine ⟨m', ?_, hbecomes⟩
  unfold load
  rw [Header.ofFile_eq hfile, hheader, entryPoint, headerField, ← hentry]
  change (loadSegments file h (List.range h.programCount) m >>= fun m => .ok (h.entry, m)) = _
  rw [show h.programCount = segmentCount wide file from hcount, hload]
  rfl

/-- Two segments, the second one over the end of the first. -/
def overlapping : Bytes :=
  [0x464c457f, 0x10101, 0, 0, 0xf30002, 1, 0x1000, 52, 0, 0, 0x200034, 2, 0,
    1, 0, 0, 0x1000, 4, 8, 5, 4,
    1, 1, 0, 0x1002, 2, 3, 5, 4].flatMap (Bytes.ofNatLow 4)

theorem load_overlays_segments_overlapping :
    ∃ m', load overlapping (.sparse .empty) = .ok (0x1000, m') ∧
      [0x1000, 0x1001, 0x1002, 0x1003, 0x1004, 0x1007].map m'.byteAt =
      [0x7f, 0x45, 0x45, 0x4c, 0, 0] := by
  have hfile : WellFormed false overlapping :=
    ⟨by decide, by decide, by decide, by decide, by decide, by decide⟩
  obtain ⟨m', hload, hbecomes⟩ := load_overlays_segments hfile (m := .sparse .empty)
    SparseMemory.valid_empty (fun _ _ _ _ => trivial)
  refine ⟨m', hload, ?_⟩
  rw [hbecomes.bytes]
  rfl

end Jib.Elf
