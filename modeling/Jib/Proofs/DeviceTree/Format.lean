import Jib.DeviceTree
import Mathlib.Algebra.Ring.Nat
import Mathlib.Data.List.Infix

/-!
# Reading a flattened device tree

A reader for version 17 of the format, which knows nothing of how blobs are made.  The header says
where the blocks are; the structure block is a sequence of tokens, each at a multiple of four bytes,
and a name is given by its place in the strings block.  `Reads` says what the reader makes of bytes,
and there is one lemma for each kind of token.
-/

namespace Jib

variable {i n : Nat}

namespace Bytes

theorem length_ofNatLow (k v : Nat) : (ofNatLow k v).length = k := by
  induction k generalizing v with
  | zero => rfl
  | succ k ih => rw [ofNatLow, List.length_cons, ih]

@[simp] theorem length_ofNatHigh (k v : Nat) : (ofNatHigh k v).length = k := by
  rw [ofNatHigh, List.length_reverse, length_ofNatLow]

theorem toNatLow_ofNatLow (k v : Nat) : toNatLow (ofNatLow k v) = v % 256 ^ k := by
  induction k generalizing v with
  | zero => simp [ofNatLow, toNatLow, Nat.mod_one]
  | succ k ih =>
    have hbyte : (v % 256).toUInt8.toNat = v % 256 := by simp
    rw [ofNatLow, toNatLow, ih, hbyte, Nat.pow_succ', Nat.mod_mul]

theorem ofNatLow_add (j k v : Nat) :
    ofNatLow (j + k) v = ofNatLow j (v % 256 ^ j) ++ ofNatLow k (v / 256 ^ j) := by
  induction j generalizing v with
  | zero => simp [ofNatLow]
  | succ j ih =>
    rw [Nat.succ_add, ofNatLow, ofNatLow, ih, Nat.pow_succ', Nat.mod_mul_right_mod,
      Nat.mod_mul_right_div_self, Nat.div_div_eq_div_mul, List.cons_append]

/-- A text that ends with a zero is found at its place. -/
theorem cString?_of_drop {bs s post : Bytes} (hs : 0 ∉ s) (hdrop : bs.drop i = s ++ 0 :: post) :
    cString? bs i = some s := by
  have htake : (s ++ 0 :: post).takeWhile (· != 0) = s := by
    rw [List.takeWhile_append_of_pos]
    · simp
    · intro b hb
      simpa using fun hzero : b = 0 => hs (hzero ▸ hb)
  simp [cString?, hdrop, htake]

/-- Bytes that were found stand at the place that is given. -/
theorem exists_drop_of_find? {needle bs : Bytes} {start : Nat} (hne : needle ≠ [])
    (hfind : find? needle start bs = some i) :
    ∃ k post, i = start + k ∧ bs.drop k = needle ++ post := by
  fun_induction find? needle start bs with
  | case1 start hempty => exact absurd (List.isEmpty_iff.mp hempty) hne
  | case2 => cases hfind
  | case3 start b bs hprefix =>
    cases hfind
    obtain ⟨post, hpost⟩ := List.isPrefixOf_iff_prefix.mp hprefix
    exact ⟨0, post, rfl, hpost.symm⟩
  | case4 start b bs hprefix ih =>
    obtain ⟨k, post, rfl, hdrop⟩ := ih hfind
    exact ⟨k + 1, post, by omega, hdrop⟩

end Bytes

namespace DeviceTree

/-! ### The reader -/

/-- The properties and the child nodes of a node, in their order. -/
inductive Entries where
  | done
  | property (name data : Bytes) (rest : Entries)
  | node (name : Bytes) (inner rest : Entries)
  deriving Repr, DecidableEq

/-- A length rounded up to a multiple of four. -/
def aligned (n : Nat) : Nat := (n + 3) / 4 * 4

/-- A number of 32 bits, highest byte first, and what follows it. -/
def readNumber (bs : Bytes) : Option (Nat × Bytes) :=
  if 4 ≤ bs.length then some (Bytes.toNatLow (bs.take 4).reverse, bs.drop 4) else none

/-- Entries up to a token that does not start one.  Each takes at least four bytes, so more steps
than there are bytes are enough. -/
def readEntries (strings : Bytes) : Nat → Bytes → Option (Entries × Bytes)
  | 0, _ => none
  | steps + 1, bs => do
    let (token, rest) ← readNumber bs
    if token = 1 then
      let name ← Bytes.cString? rest 0
      let (inner, rest) ← readEntries strings steps (rest.drop (aligned (name.length + 1)))
      let (close, rest) ← readNumber rest
      if close ≠ 2 then none
      let (after, rest) ← readEntries strings steps rest
      return (.node name inner after, rest)
    else if token = 3 then
      let (size, rest) ← readNumber rest
      let (place, rest) ← readNumber rest
      let name ← Bytes.cString? strings place
      if rest.length < size then none
      let (after, rest') ← readEntries strings steps (rest.drop (aligned size))
      return (.property name (rest.take size) after, rest')
    else if token = 4 then readEntries strings steps rest
    else return (.done, bs)

def field (b : Bytes) (i : Nat) : Nat := Bytes.toNatLow ((b.drop (4 * i)).take 4).reverse

/-- The blocks follow each other without a gap: the header, one empty entry of reserved memory, the
structure block and the strings block. -/
def HeaderFits (b : Bytes) : Prop :=
  field b 0 = 0xd00dfeed ∧ field b 1 = b.length ∧ field b 5 = 17 ∧ field b 6 = 16 ∧ field b 4 = 40 ∧
    (b.drop (field b 4)).take 16 = List.replicate 16 0 ∧ field b 2 = field b 4 + 16 ∧
    field b 3 = field b 2 + field b 9 ∧ field b 1 = field b 3 + field b 8

instance (b : Bytes) : Decidable (HeaderFits b) := inferInstanceAs (Decidable (_ ∧ _))

/-- The root node of a blob.  The structure block holds one node and the token that ends the
block. -/
def read (b : Bytes) : Option Entries :=
  if HeaderFits b then
    match readEntries ((b.drop (field b 3)).take (field b 8)) (field b 9 + 1)
        ((b.drop (field b 2)).take (field b 9)) with
    | some (.node name inner .done, rest) =>
      if rest = [0, 0, 0, 9] then some (.node name inner .done) else none
    | _ => none
  else none

/-! ### Numbers and places -/

theorem readNumber_append (hn : n < 2 ^ 32) (rest : Bytes) :
    readNumber (Bytes.ofNatHigh 4 n ++ rest) = some (n, rest) := by
  have hlength := Bytes.length_ofNatHigh 4 n
  unfold readNumber
  rw [if_pos (by simp), List.take_left' hlength, List.drop_left' hlength, Bytes.ofNatHigh,
    List.reverse_reverse, Bytes.toNatLow_ofNatLow, Nat.mod_eq_of_lt (show n < 256 ^ 4 from hn)]

theorem field_append {ns : List Nat} (hi : ns[i]? = some n) (hn : n < 2 ^ 32) (rest : Bytes) :
    field ((ns.map (Bytes.ofNatHigh 4)).flatten ++ rest) i = n := by
  induction ns generalizing i with
  | nil => simp at hi
  | cons m ns ih =>
    rw [List.map_cons, List.flatten_cons, List.append_assoc]
    cases i with
    | zero =>
      cases hi
      rw [field, List.drop_zero, List.take_left' (Bytes.length_ofNatHigh 4 n),
        Bytes.ofNatHigh, List.reverse_reverse, Bytes.toNatLow_ofNatLow,
        Nat.mod_eq_of_lt (show n < 256 ^ 4 from hn)]
    | succ i =>
      rw [← ih hi, field, field, Nat.mul_succ, Nat.add_comm, ← List.drop_drop,
        List.drop_left' (Bytes.length_ofNatHigh 4 m)]

theorem length_append_padding {bs : Bytes} (hn : bs.length = n) :
    (bs ++ Bytes.padding n).length = aligned n := by
  rw [List.length_append, Bytes.padding, List.length_replicate, aligned]
  omega

/-! ### Tokens -/

/-- The reader finds these entries and leaves the rest. -/
def Reads (strings bs : Bytes) (e : Entries) (rest : Bytes) : Prop :=
  ∀ steps, bs.length < steps → readEntries strings steps bs = some (e, rest)

variable {strings tail rest mid name data : Bytes} {e inner : Entries}

theorem reads_done (hn : n = 2 ∨ n = 9) :
    Reads strings (Bytes.ofNatHigh 4 n ++ tail) .done (Bytes.ofNatHigh 4 n ++ tail) := by
  intro steps hsteps
  cases steps with
  | zero => cases hsteps
  | succ steps => rcases hn with rfl | rfl <;> simp [readEntries, readNumber_append]

theorem reads_property {place : Nat} (hdata : data.length < 2 ^ 32) (hplace : place < 2 ^ 32)
    (hname : Bytes.cString? strings place = some name) (htail : Reads strings tail e rest) :
    Reads strings (property ++ Bytes.ofNatHigh 4 data.length ++ Bytes.ofNatHigh 4 place ++ data ++
      Bytes.padding data.length ++ tail) (.property name data e) rest := by
  intro steps hsteps
  cases steps with
  | zero => cases hsteps
  | succ steps =>
    have hdrop :
        (data ++ (Bytes.padding data.length ++ tail)).drop (aligned data.length) = tail := by
      rw [← List.append_assoc]
      exact List.drop_left' (length_append_padding rfl)
    have hafter := htail steps (by
      simp only [List.length_append, Bytes.length_ofNatHigh] at hsteps
      omega)
    simp only [property, token]
    simp [readEntries, readNumber_append, readNumber_append hdata, readNumber_append hplace,
      hname, hdrop, hafter]

theorem reads_node (hname : 0 ∉ name) (hmid : Reads strings mid inner (endNode ++ tail))
    (htail : Reads strings tail e rest) (hlength : tail.length ≤ mid.length) :
    Reads strings (beginNode ++ (name ++ [0]) ++ Bytes.padding (name ++ [0]).length ++ mid)
      (.node name inner e) rest := by
  intro steps hsteps
  cases steps with
  | zero => cases hsteps
  | succ steps =>
    have hroom : mid.length < steps := by
      simp only [beginNode, token, List.length_append, Bytes.length_ofNatHigh] at hsteps
      omega
    have hdrop : (name ++ 0 :: (Bytes.padding (name.length + 1) ++ mid)).drop
        (aligned (name.length + 1)) = mid := by
      rw [List.append_cons, ← List.append_assoc]
      exact List.drop_left' (length_append_padding (by simp))
    have htext :
        Bytes.cString? (name ++ 0 :: (Bytes.padding (name.length + 1) ++ mid)) 0 = some name :=
      Bytes.cString?_of_drop hname List.drop_zero
    have hinner := hmid steps hroom
    have hafter := htail steps (by omega)
    simp only [beginNode, endNode, token] at hinner ⊢
    simp [readEntries, readNumber_append, htext, hdrop, hinner, hafter]

end DeviceTree

end Jib
