import Jib.Proofs.DeviceTree.Format

/-!
# A device tree reads back as it was built

The calls that build a tree are given as a plan: the properties and the nodes of a node in their
order, each node with what is called between its opening and its closing.  By induction on a plan
its calls append a block that reads as the entries of the plan, in front of whatever follows; names
are looked up in the strings block, of which later calls only make more.
-/

namespace Jib.DeviceTree

/-! ### Calls -/

/-- What a property is given as. -/
inductive Value where
  | raw (data : Bytes)
  | text (s : Bytes)
  | texts (ss : List Bytes)
  | empty
  | number (n : Nat)
  | numbers (ns : List Nat)
  | longNumbers (ns : List Nat)

namespace Value

def data : Value → Bytes
  | raw data => data
  | text s => s ++ [0]
  | texts ss => List.intercalate [0] ss ++ [0]
  | empty => []
  | number n => Bytes.ofNatHigh 4 n
  | numbers ns => (ns.map (Bytes.ofNatHigh 4)).flatten
  | longNumbers ns => (ns.map (Bytes.ofNatHigh 8)).flatten

/-- A text holds no zero, and numbers have at most as many bits as they get. -/
def Valid : Value → Prop
  | text s => 0 ∉ s
  | number n => n < 2 ^ 32
  | numbers ns => ∀ n ∈ ns, n < 2 ^ 32
  | longNumbers ns => ∀ n ∈ ns, n < 2 ^ 64
  | _ => True

def add (t : DeviceTree) (name : Bytes) : Value → Result DeviceTree
  | raw data => t.addRaw name data
  | text s => t.addText name s
  | texts ss => t.addTexts name ss
  | empty => t.addEmpty name
  | number n => t.addNumber name n
  | numbers ns => t.addNumbers name ns
  | longNumbers ns => t.addLongNumbers name ns

end Value

inductive Call where
  | add (name : Bytes) (value : Value)
  | open (name : Bytes) (withHandle : Bool)
  | close

def Call.perform (t : DeviceTree) : Call → Result DeviceTree
  | add name value => value.add t name
  | .open name false => t.openPlain name
  | .open name true => do return (← t.openWithHandle name).2
  | close => t.close

def perform (t : DeviceTree) (calls : List Call) : Result DeviceTree := calls.foldlM Call.perform t

/-- The calls between the opening and the closing of a node. -/
inductive Plan where
  | done
  | property (name : Bytes) (value : Value) (rest : Plan)
  | node (name : Bytes) (withHandle : Bool) (inner rest : Plan)

/-- The strings block with a name, which may be there already. -/
def intern (strings name : Bytes) : Bytes :=
  match Bytes.find? (name ++ [0]) 0 strings with
  | some _ => strings
  | none => strings ++ (name ++ [0])

/-- The strings block after the closing of a node. -/
def closedStrings (withHandle : Bool) (strings : Bytes) : Bytes :=
  if withHandle then intern strings handleName else strings

/-- What closing a node adds to it. -/
def closing : Option Nat → Entries
  | none => .done
  | some k => .property handleName (Bytes.ofNatHigh 4 k) .done

namespace Plan

def calls : Plan → List Call
  | done => []
  | property name value rest => .add name value :: rest.calls
  | node name withHandle inner rest => .open name withHandle :: inner.calls ++ .close :: rest.calls

def Valid : Plan → Prop
  | done => True
  | property name value rest => 0 ∉ name ∧ value.Valid ∧ rest.Valid
  | node name _ inner rest => 0 ∉ name ∧ inner.Valid ∧ rest.Valid

/-- How many nodes get a handle. -/
def handles : Plan → Nat
  | done => 0
  | property _ _ rest => rest.handles
  | node _ withHandle inner rest => withHandle.toNat + inner.handles + rest.handles

/-- The bytes of the structure block. -/
def size : Plan → Nat
  | done => 0
  | property _ value rest => 12 + aligned value.data.length + rest.size
  | node name withHandle inner rest =>
    4 + aligned (name.length + 1) + inner.size + 16 * withHandle.toNat + 4 + rest.size

/-- The strings block after the calls. -/
def strings : Plan → Bytes → Bytes
  | done, s => s
  | property name _ rest, s => rest.strings (intern s name)
  | node _ withHandle inner rest, s => rest.strings (closedStrings withHandle (inner.strings s))

/-- The entries that are built, in front of others.  The node that is the `i`-th to be opened with a
handle gets the number of `i`. -/
def entries (number : Nat → Nat) : Plan → Nat → Entries → Entries
  | done, _, after => after
  | property name value rest, i, after => .property name value.data (rest.entries number i after)
  | node name withHandle inner rest, i, after =>
    .node name (inner.entries number (i + withHandle.toNat)
        (closing (if withHandle then some (number i) else none)))
      (rest.entries number (i + withHandle.toNat + inner.handles) after)

/-- The calls for a whole tree. -/
abbrev root (name : Bytes) (withHandle : Bool) (inner : Plan) : Plan :=
  node name withHandle inner done

/-- The bytes of the whole blob. -/
def totalSize (p : Plan) : Nat := 60 + p.size + (p.strings []).length

end Plan

/-! ### Names -/

variable {t : DeviceTree} {name data : Bytes} {withHandle : Bool}

theorem terminated_eq (hname : 0 ∉ name) : terminated name = pure (name ++ [0]) := by
  unfold terminated
  rw [if_neg (by simpa using hname)]
  rfl

theorem prefix_intern (strings name : Bytes) : strings <+: intern strings name := by
  unfold intern
  split
  · exact List.prefix_rfl
  · exact List.prefix_append _ _

/-- The place of a name stays the place of that name. -/
theorem addString_spec (t : DeviceTree) (hname : 0 ∉ name) :
    ∃ place, t.addString name = pure (place, { t with strings := intern t.strings name }) ∧
      place < (intern t.strings name).length ∧
      ∀ s, intern t.strings name <+: s → Bytes.cString? s place = some name := by
  unfold addString intern
  rw [terminated_eq hname, pure_bind]
  cases hfind : Bytes.find? (name ++ [0]) 0 t.strings with
  | some place =>
    obtain ⟨k, post, hk, hdrop⟩ := Bytes.exists_drop_of_find? (by simp) hfind
    obtain rfl : place = k := by omega
    have hlt : place < t.strings.length := by
      have hlength := congrArg List.length hdrop
      simp only [List.length_drop, List.length_append, List.length_singleton] at hlength
      omega
    refine ⟨place, rfl, hlt, ?_⟩
    rintro _ ⟨more, rfl⟩
    refine Bytes.cString?_of_drop hname (?_ : _ = _ ++ 0 :: (post ++ more))
    rw [List.drop_append_of_le_length hlt.le, hdrop]
    simp
  | none =>
    refine ⟨t.strings.length, rfl, by simp, ?_⟩
    rintro _ ⟨more, rfl⟩
    exact Bytes.cString?_of_drop hname (show _ = name ++ 0 :: more by simp)

theorem number32_eq {n : Nat} (hn : n < 2 ^ 32) : number32 n = pure (Bytes.ofNatHigh 4 n) :=
  if_pos hn

theorem mapM_number32 {ns : List Nat} (hns : ∀ n ∈ ns, n < 2 ^ 32) :
    ns.mapM number32 = pure (ns.map (Bytes.ofNatHigh 4)) := by
  induction ns with
  | nil => rfl
  | cons n ns ih =>
    rw [List.mapM_cons, number32_eq (hns n (by simp)), ih fun m hm => hns m (by simp [hm])]
    rfl

/-- A number of twice as many bits is written as its upper and its lower half. -/
theorem ofNatHigh_eight (n : Nat) :
    Bytes.ofNatHigh 8 n = Bytes.ofNatHigh 4 (n / 2 ^ 32) ++ Bytes.ofNatHigh 4 (n % 2 ^ 32) := by
  rw [Bytes.ofNatHigh, Bytes.ofNatLow_add 4 4, List.reverse_append]
  rfl

theorem flatten_halves (ns : List Nat) :
    ((ns.flatMap fun n => [n / 2 ^ 32, n % 2 ^ 32]).map (Bytes.ofNatHigh 4)).flatten =
      (ns.map (Bytes.ofNatHigh 8)).flatten := by
  induction ns with
  | nil => rfl
  | cons n ns ih =>
    rw [List.flatMap_cons, List.map_append, List.flatten_append, ih]
    simp only [List.map_cons, List.map_nil, List.flatten_cons, List.flatten_nil, List.append_nil,
      ofNatHigh_eight]

theorem Value.add_eq {v : Value} (hv : v.Valid) (t : DeviceTree) (name : Bytes) :
    v.add t name = t.addRaw name v.data := by
  cases v with
  | text s => rw [add, addText, terminated_eq hv, pure_bind, data]
  | number n => rw [add, addNumber, number32_eq hv, pure_bind, data]
  | numbers ns => rw [add, addNumbers, mapM_number32 hv, pure_bind, data]
  | longNumbers ns =>
    rw [data, ← flatten_halves, add]
    refine (congrArg (· >>= _) (mapM_number32 ?_)).trans (pure_bind _ _)
    intro m hm
    obtain ⟨n, hn, hmem⟩ := List.mem_flatMap.mp hm
    have hlt := hv n hn
    simp only [List.mem_cons, List.not_mem_nil, or_false] at hmem
    rcases hmem with rfl | rfl <;> omega
  | _ => rfl

/-! ### Blocks -/

/-- A property in the structure block. -/
def propertyBytes (place : Nat) (data : Bytes) : Bytes :=
  property ++ Bytes.ofNatHigh 4 data.length ++ Bytes.ofNatHigh 4 place ++ data ++
    Bytes.padding data.length

theorem length_propertyBytes (place : Nat) (data : Bytes) :
    (propertyBytes place data).length = 12 + aligned data.length := by
  have hdata := length_append_padding (rfl : data.length = _)
  rw [List.length_append] at hdata
  simp only [propertyBytes, property, token, List.length_append, Bytes.length_ofNatHigh]
  omega

theorem addRaw_spec (t : DeviceTree) (hname : 0 ∉ name) (hdata : data.length < 2 ^ 32)
    (hroom : (intern t.strings name).length < 2 ^ 32) :
    ∃ place, t.addRaw name data = pure { t with
        structure_ := t.structure_ ++ propertyBytes place data
        strings := intern t.strings name } ∧
      ∀ s tail e rest, intern t.strings name <+: s → Reads s tail e rest →
        Reads s (propertyBytes place data ++ tail) (.property name data e) rest := by
  obtain ⟨place, hadd, hlt, hplace⟩ := addString_spec t hname
  refine ⟨place, ?_, fun s tail e rest hs htail => ?_⟩
  · rw [addRaw, hadd]
    simp only [pure_bind, number32_eq hdata, number32_eq (hlt.trans hroom)]
    rfl
  · exact reads_property hdata (hlt.trans hroom) (hplace s hs) htail

def opened (t : DeviceTree) (name : Bytes) (withHandle : Bool) : DeviceTree :=
  { t with
    structure_ := t.structure_ ++ (beginNode ++ (name ++ [0]) ++ Bytes.padding (name ++ [0]).length)
    nextHandle := t.nextHandle + withHandle.toNat
    openNodes := (if withHandle then some t.nextHandle else none) :: t.openNodes }

theorem perform_open (t : DeviceTree) (hname : 0 ∉ name) (withHandle : Bool) :
    (Call.open name withHandle).perform t = pure (t.opened name withHandle) := by
  cases withHandle with
  | false => simp only [Call.perform, openPlain, open_, terminated_eq hname]; rfl
  | true => simp only [Call.perform, openWithHandle, open_, terminated_eq hname]; rfl

theorem prefix_closedStrings (withHandle : Bool) (strings : Bytes) :
    strings <+: closedStrings withHandle strings := by
  cases withHandle with
  | false => exact List.prefix_rfl
  | true => exact prefix_intern _ _

theorem close_spec {k : Nat} {nodes : List (Option Nat)}
    (hopen : t.openNodes = (if withHandle then some k else none) :: nodes)
    (hk : withHandle = true → k < 2 ^ 32)
    (hroom : (closedStrings withHandle t.strings).length < 2 ^ 32) :
    ∃ block, t.close = pure { t with
        structure_ := t.structure_ ++ (block ++ endNode)
        strings := closedStrings withHandle t.strings
        openNodes := nodes } ∧ block.length = 16 * withHandle.toNat ∧
      ∀ s tail, closedStrings withHandle t.strings <+: s →
        Reads s (block ++ (endNode ++ tail)) (closing (if withHandle then some k else none))
          (endNode ++ tail) := by
  unfold close
  rw [hopen]
  cases withHandle with
  | false => exact ⟨[], rfl, rfl, fun s tail _ => reads_done (.inl rfl)⟩
  | true =>
    have hdata : (Bytes.ofNatHigh 4 k).length < 2 ^ 32 := by simp
    obtain ⟨place, hadd, hreads⟩ := addRaw_spec t (by decide) hdata hroom
    refine ⟨propertyBytes place (Bytes.ofNatHigh 4 k), ?_, ?_, fun s tail hs => ?_⟩
    · simp only [addNumber, number32_eq (hk rfl), pure_bind, hadd, if_true, append,
        List.append_assoc]
      rfl
    · rw [length_propertyBytes, Bytes.length_ofNatHigh]
      rfl
    · exact hreads s _ _ _ hs (reads_done (.inl rfl))

namespace Plan

theorem prefix_strings (p : Plan) (s : Bytes) : s <+: p.strings s := by
  induction p generalizing s with
  | done => exact List.prefix_rfl
  | property name value rest ih => exact (prefix_intern s name).trans (ih _)
  | node name withHandle inner rest ihInner ihRest =>
    exact (ihInner s).trans ((prefix_closedStrings withHandle _).trans (ihRest _))

theorem handles_le_size (p : Plan) : p.handles ≤ p.size := by
  induction p with
  | done => exact Nat.le_refl 0
  | property name value rest ih => rw [handles, size]; omega
  | node name withHandle inner rest ihInner ihRest => rw [handles, size]; omega

/-- The calls of a plan append a block that reads as its entries. -/
theorem exists_block (p : Plan) {i : Nat} (hvalid : p.Valid) (hi : t.nextHandle = i + 1)
    (hsize : p.size < 2 ^ 32) (hroom : (p.strings t.strings).length < 2 ^ 32)
    (hhandles : i + p.handles < 2 ^ 32) :
    ∃ block, perform t p.calls = pure { t with
        structure_ := t.structure_ ++ block
        strings := p.strings t.strings
        nextHandle := i + p.handles + 1 } ∧ block.length = p.size ∧
      ∀ s tail e rest, p.strings t.strings <+: s → Reads s tail e rest →
        Reads s (block ++ tail) (p.entries (· + 1) i e) rest := by
  induction p generalizing t i with
  | done =>
    refine ⟨[], ?_, rfl, fun s tail e rest _ htail => htail⟩
    rw [List.append_nil, handles, ← hi]
    rfl
  | property name value rest ih =>
    obtain ⟨hname, hvalue, hrest⟩ := hvalid
    rw [size] at hsize
    have hlater := rest.prefix_strings (intern t.strings name)
    have hdata : value.data.length < 2 ^ 32 := by
      rw [aligned] at hsize
      omega
    obtain ⟨place, hadd, hreads⟩ := addRaw_spec t hname hdata (hlater.length_le.trans_lt hroom)
    obtain ⟨block, hrun, hlength, hblock⟩ := ih (t := { t with
      structure_ := t.structure_ ++ propertyBytes place value.data
      strings := intern t.strings name }) hrest hi (by omega) hroom hhandles
    refine ⟨propertyBytes place value.data ++ block, ?_, ?_, fun s tail e rest hs htail => ?_⟩
    · rw [calls, perform, List.foldlM_cons, Call.perform, value.add_eq hvalue,
        hadd, ← List.append_assoc]
      exact hrun
    · rw [List.length_append, length_propertyBytes, hlength, size]
    · rw [List.append_assoc]
      exact hreads s _ _ _ (hlater.trans hs) (hblock s tail e rest hs htail)
  | node name withHandle inner rest ihInner ihRest =>
    obtain ⟨hname, hinner, hrest⟩ := hvalid
    rw [size] at hsize
    rw [handles] at hhandles
    have hclosed := prefix_closedStrings withHandle (inner.strings t.strings)
    have hlater := rest.prefix_strings (closedStrings withHandle (inner.strings t.strings))
    -- the node is opened, its inner calls are made, it is closed, and the rest follows
    obtain ⟨inside, hrunInner, hlengthInner, hreadsInner⟩ := ihInner (t := t.opened name withHandle)
      (i := i + withHandle.toNat) hinner (by simp only [opened]; omega) (by omega)
      ((hclosed.trans hlater).length_le.trans_lt hroom) (by omega)
    obtain ⟨ending, hclose, hlengthClose, hreadsClose⟩ :=
      close_spec (t := { t.opened name withHandle with
      structure_ := (t.opened name withHandle).structure_ ++ inside
      strings := inner.strings (t.opened name withHandle).strings
      nextHandle := i + withHandle.toNat + inner.handles + 1 })
      (by simp only [opened, hi]; rfl) (fun hhandle => by simp [hhandle] at hhandles; omega)
      (hlater.length_le.trans_lt hroom)
    obtain ⟨after, hrunRest, hlengthRest, hreadsRest⟩ := ihRest (t := { t with
      structure_ := (t.opened name withHandle).structure_ ++ inside ++ (ending ++ endNode)
      strings := closedStrings withHandle (inner.strings t.strings)
      nextHandle := i + withHandle.toNat + inner.handles + 1 })
      hrest rfl (by omega) hroom (by omega)
    refine ⟨beginNode ++ (name ++ [0]) ++ Bytes.padding (name ++ [0]).length ++
      (inside ++ (ending ++ (endNode ++ after))), ?_, ?_, fun s tail e rest hs htail => ?_⟩
    · rw [calls, List.cons_append, perform, List.foldlM_cons, perform_open t hname, pure_bind,
        List.foldlM_append]
      change perform _ inner.calls >>= _ = _
      rw [hrunInner, pure_bind, List.foldlM_cons]
      rw [Call.perform, hclose]
      refine hrunRest.trans ?_
      simp only [opened, List.append_assoc, handles, Nat.add_assoc]
      rfl
    · have hnode := length_append_padding (rfl : (name ++ [0]).length = _)
      simp only [List.length_append, List.length_singleton] at hnode
      simp only [beginNode, endNode, token, List.length_append, Bytes.length_ofNatHigh,
        List.length_singleton, size]
      omega
    · have hinside := hreadsInner s _ _ _ ((hclosed.trans hlater).trans hs)
        (hreadsClose s (after ++ tail) (hlater.trans hs))
      have hnode := reads_node hname hinside (hreadsRest s tail e rest hs htail)
        (by simp only [List.length_append]; omega)
      simpa only [entries, List.append_assoc] using hnode

end Plan

/-! ### The blob -/

/-- The header says where the blocks are. -/
theorem blob_spec (hsize : 60 + t.structure_.length + t.strings.length < 2 ^ 32) :
    ∃ b, t.blob = pure b ∧ b.length = 60 + t.structure_.length + t.strings.length ∧ HeaderFits b ∧
      (b.drop (field b 2)).take (field b 9) = t.structure_ ++ endTree ∧
      field b 9 = (t.structure_ ++ endTree).length ∧ (b.drop (field b 3)).take (field b 8) =
      t.strings := by
  have hbody : (t.structure_ ++ endTree).length = t.structure_.length + 4 := List.length_append
  unfold blob
  generalize t.structure_ ++ endTree = body at hbody
  obtain ⟨header, hheader⟩ : ∃ ns : List Nat, ns = [0xd00dfeed,
      56 + body.length + t.strings.length, 56, 56 + body.length, 40, 17, 16, 0, t.strings.length,
      body.length] := ⟨_, rfl⟩
  have hnumbers : ∀ n ∈ header, n < 2 ^ 32 := by
    simp only [hheader, List.mem_cons, List.not_mem_nil, or_false]
    omega
  have hlength : (header.map (Bytes.ofNatHigh 4)).flatten.length = 40 := by
    simp [hheader]
  obtain ⟨b, hb⟩ : ∃ b, b = (header.map (Bytes.ofNatHigh 4)).flatten ++
    (reservation ++ (body ++ t.strings)) := ⟨_, rfl⟩
  have htotal : b.length = 56 + body.length + t.strings.length := by
    simp only [hb, List.length_append]
    rw [show reservation.length = 16 from rfl]
    omega
  have hfield (i n : Nat) (hi : header[i]? = some n) : field b i = n := by
    rw [hb]
    exact field_append hi (hnumbers n (List.mem_of_getElem? hi)) _
  have hreserved : b.drop 40 = reservation ++ (body ++ t.strings) := by
    rw [hb]
    exact List.drop_left' hlength
  have hblocks : b.drop 56 = body ++ t.strings := by
    rw [show 56 = 40 + reservation.length from rfl, ← List.drop_drop, hreserved]
    exact List.drop_left
  have hstrings : b.drop (56 + body.length) = t.strings := by
    rw [← List.drop_drop, hblocks]
    exact List.drop_left
  refine ⟨b, ?_, by omega, ?_⟩
  · simp only [show headerSize = 40 from rfl, show reservation.length = 16 from rfl, ← hheader,
      mapM_number32 hnumbers, pure_bind, hb, List.append_assoc]
  · simp only [hheader] at hfield
    unfold HeaderFits
    rw [hfield 0 _ rfl, hfield 1 _ rfl, hfield 2 _ rfl, hfield 3 _ rfl, hfield 4 _ rfl,
      hfield 5 _ rfl, hfield 6 _ rfl, hfield 8 _ rfl, hfield 9 _ rfl, hreserved, hblocks, hstrings]
    exact ⟨⟨rfl, htotal.symm, rfl, rfl, rfl, List.take_left' rfl, rfl, rfl, rfl⟩,
      List.take_left, rfl, List.take_length⟩

theorem exists_blob {name : Bytes} {inner : Plan} {p : Plan} (hp : p = .root name withHandle inner)
    (hvalid : p.Valid) (hsize : p.totalSize < 2 ^ 32) :
    ∃ t b, perform {} p.calls = .ok t ∧ t.blob = .ok b ∧ b.length = p.totalSize ∧
      p.handles < 2 ^ 32 - 1 ∧ read b = some (p.entries (· + 1) 0 .done) := by
  have hhandles := p.handles_le_size
  have htotal : p.totalSize = 60 + p.size + (p.strings []).length := rfl
  obtain ⟨block, hrun, hlength, hreads⟩ :=
    p.exists_block (t := {}) hvalid rfl (by omega) (show (p.strings []).length < _ by omega)
      (by omega)
  have hblock := hreads _ endTree .done endTree List.prefix_rfl (reads_done (.inr rfl))
  have hroot : p.entries (· + 1) 0 .done = .node name (inner.entries (· + 1) (0 + withHandle.toNat)
      (closing (if withHandle then some 1 else none))) .done := by
    rw [hp]
    rfl
  rw [hroot] at hblock ⊢
  rw [htotal, ← hlength] at hsize ⊢
  obtain ⟨b, hblob, hbytes, hfits, hstructure, hfield, hstrings⟩ :=
    blob_spec (t := { ({} : DeviceTree) with
    structure_ := block, strings := p.strings [], nextHandle := 0 + p.handles + 1 }) hsize
  have hread := hblock (field b 9 + 1) (hfield ▸ Nat.lt_succ_self _)
  refine ⟨_, b, hrun, hblob, hbytes, by omega, ?_⟩
  rw [read, if_pos hfits, hstrings, hstructure, hread]
  rfl

/-- The blob of a nested sequence of calls under one root reads as the nodes and the properties of
the calls, whatever names share storage.  A node that was opened with a handle has one property
more, with a number that no other such node has. -/
theorem blob_reads_back (name : Bytes) (withHandle : Bool) (inner : Plan)
    (hvalid : (Plan.root name withHandle inner).Valid)
    (hsize : (Plan.root name withHandle inner).totalSize < 2 ^ 32) :
    ∃ t b, perform {} (Plan.root name withHandle inner).calls = .ok t ∧ t.blob = .ok b ∧
      b.length = (Plan.root name withHandle inner).totalSize ∧
      ∃ number : Nat → Nat, number.Injective ∧
        (∀ i < (Plan.root name withHandle inner).handles, number i < 2 ^ 32) ∧
        read b = some ((Plan.root name withHandle inner).entries number 0 .done) := by
  obtain ⟨t, b, hrun, hblob, hlength, hhandles, hread⟩ := exists_blob rfl hvalid hsize
  refine ⟨t, b, hrun, hblob, hlength, (· + 1), fun i j hij => Nat.succ.inj hij,
    fun i hi => ?_, hread⟩
  exact Nat.succ_lt_succ_iff.mpr (hi.trans hhandles)

/-- A name that ends another shares its storage, and the root has a handle too. -/
theorem blob_reads_back_shared :
    ∃ t b, perform {} (Plan.root [] true (.property [120, 121] (.number 7)
      (.property [121] .empty (.node [97] true .done .done)))).calls = .ok t ∧ t.blob = .ok b ∧
    b.length = 155 ∧ ∃ number : Nat → Nat, number.Injective ∧ (∀ i < 2, number i < 2 ^ 32) ∧
      read b = some (.node [] (.property [120, 121] [0, 0, 0, 7] (.property [121] []
        (.node [97] (.property handleName (Bytes.ofNatHigh 4 (number 1)) .done)
          (.property handleName (Bytes.ofNatHigh 4 (number 0)) .done)))) .done) :=
  blob_reads_back [] true (.property [120, 121] (.number 7) (.property [121] .empty
    (.node [97] true .done .done))) (by simp [Plan.Valid, Value.Valid]) (by decide)

/-! ### Properties before child nodes -/

namespace Entries

def NoProperty : Entries → Prop
  | done => True
  | property _ _ _ => False
  | node _ _ rest => rest.NoProperty

/-- In every node the properties come before the child nodes. -/
def Ordered : Entries → Prop
  | done => True
  | property _ _ rest => rest.Ordered
  | node _ inner rest => inner.Ordered ∧ rest.NoProperty ∧ rest.Ordered

end Entries

namespace Plan

/-- What the caller adds, without the properties for handles. -/
def given : Plan → Entries
  | done => .done
  | property name value rest => .property name value.data rest.given
  | node name _ inner rest => .node name inner.given rest.given

def NoNode : Plan → Prop
  | done => True
  | property _ _ rest => rest.NoNode
  | node _ _ _ _ => False

/-- No node with a handle has a child node. -/
def LeafHandles : Plan → Prop
  | done => True
  | property _ _ rest => rest.LeafHandles
  | node _ withHandle inner rest => (withHandle = true → inner.NoNode) ∧ inner.LeafHandles ∧
    rest.LeafHandles

variable {number : Nat → Nat} {i : Nat} {after : Entries}

theorem noProperty_entries (p : Plan) :
    (p.entries number i after).NoProperty ↔ p.given.NoProperty ∧ after.NoProperty := by
  induction p generalizing i with
  | done | property => simp [entries, given, Entries.NoProperty]
  | node _ _ _ _ _ ihRest => exact ihRest

theorem ordered_closing (handle : Option Nat) : (closing handle).Ordered := by
  cases handle <;> trivial

theorem noProperty_closing (handle : Option Nat) : (closing handle).NoProperty ↔ handle = none := by
  cases handle <;> simp [closing, Entries.NoProperty]

/-- The property for a handle is the last entry of its node, so it comes too late if a child node is
there. -/
theorem ordered_entries {p : Plan} (hp : p.given.Ordered) :
    (p.entries number i after).Ordered ↔
      p.LeafHandles ∧ after.Ordered ∧ (p.NoNode ∨ after.NoProperty) := by
  induction p generalizing i after with
  | done => simp [entries, LeafHandles, NoNode]
  | property name value rest ih => exact ih hp
  | node name withHandle inner rest ihInner ihRest =>
    obtain ⟨hinner, hnone, hrest⟩ := hp
    rw [entries, Entries.Ordered, ihInner hinner, ihRest hrest, noProperty_entries,
      noProperty_closing, LeafHandles, NoNode]
    cases withHandle <;> grind [ordered_closing]

end Plan

/-- If the properties of each node are added before its children are opened, they come first in the
blob too, except for the handle of a node that has children. -/
theorem blob_ordered_iff (name : Bytes) (withHandle : Bool) (inner : Plan)
    (hvalid : (Plan.root name withHandle inner).Valid)
    (hsize : (Plan.root name withHandle inner).totalSize < 2 ^ 32)
    (hordered : (Plan.root name withHandle inner).given.Ordered) :
    ∃ t b e, perform {} (Plan.root name withHandle inner).calls = .ok t ∧ t.blob = .ok b ∧
      read b = some e ∧ (e.Ordered ↔ (Plan.root name withHandle inner).LeafHandles) := by
  obtain ⟨t, b, hrun, hblob, -, -, hread⟩ := exists_blob rfl hvalid hsize
  refine ⟨t, b, _, hrun, hblob, hread, (Plan.ordered_entries hordered).trans ?_⟩
  simp [Entries.Ordered, Entries.NoProperty]

theorem blob_ordered_iff_leaf : ∃ t b e, perform {} (Plan.root [] false (.node [97] true
      (.property [120] .empty .done) (.node [98] false .done .done))).calls = .ok t ∧
    t.blob = .ok b ∧ read b = some e ∧ (e.Ordered ↔ (Plan.root [] false (.node [97] true
      (.property [120] .empty .done) (.node [98] false .done .done))).LeafHandles) :=
  blob_ordered_iff _ _ _ (by simp [Plan.Valid, Value.Valid]) (by decide)
    (by simp [Plan.given, Entries.Ordered, Entries.NoProperty])

/-- The handle of a root with one child comes after the child. -/
theorem handle_after_child : (Plan.root [] true (.node [98] false .done .done)).given.Ordered ∧
    ∃ t b e, perform {} (Plan.root [] true (.node [98] false .done .done)).calls = .ok t ∧
      t.blob = .ok b ∧ read b = some e ∧ ¬ e.Ordered := by
  refine ⟨by simp [Plan.given, Entries.Ordered, Entries.NoProperty], ?_⟩
  obtain ⟨t, b, hrun, hblob, -, -, hread⟩ := exists_blob rfl
    (show (Plan.root [] true (.node [98] false .done .done)).Valid by simp [Plan.Valid]) (by decide)
  refine ⟨t, b, _, hrun, hblob, hread, fun hordered => ?_⟩
  exact hordered.1.2.1

end Jib.DeviceTree
