import Jib.Primitive.Effect
import Jib.Proofs.Calls.Frame
import Jib.Proofs.Construction.Meaning
import Jib.Proofs.Optimizer.Steps

/-!
# Updating a register in place

A vector that is read from a register, changed at one index and written back is changed in place,
and the write is dropped.  The rule looks at the three operations and not at where they stand.  So
whether a program can tell depends on what happens around them: nobody can if the write comes right
behind the update and nothing else names the vector, and everybody who reads the register can on a
way that leaves the write out.
-/

namespace Jib

variable {a : Arena} {v : ValueId} {y : Datum} {o : Operation}

/-! ### Vectors on the heap -/

namespace World

def elements? (w : World) : Datum → Option (Array Datum)
  | .list r =>
    match w.heap[r]? with
    | some (.list xs) => some xs
    | _ => none
  | _ => none

/-- The world with one more vector. -/
def pushList (w : World) (xs : Array Datum) : World := { w with heap := w.heap.push (.list xs) }

/-- The world with other elements in a vector. -/
def setList (w : World) (r : Nat) (xs : Array Datum) : World :=
  { w with heap := w.heap.setIfInBounds r (.list xs) }

variable {w : World} {r : Nat} {xs ys : Array Datum} {y : Datum}

theorem elements?_pushList_self : (w.pushList ys).elements? (.list w.heap.size) = some ys := by
  simp [elements?, pushList]

theorem elements?_pushList (hy : ∀ q, y = .list q → q < w.heap.size) :
    (w.pushList ys).elements? y = w.elements? y := by
  cases y with
  | list q =>
    have hq : q ≠ w.heap.size := Nat.ne_of_lt (hy q rfl)
    simp [elements?, pushList, Array.getElem?_push, hq]
  | _ => rfl

theorem elements?_setList_self (hr : r < w.heap.size) :
    (w.setList r ys).elements? (.list r) = some ys := by
  simp [elements?, setList, hr]

theorem elements?_setList_of_ne (hy : y ≠ .list r) :
    (w.setList r ys).elements? y = w.elements? y := by
  cases y with
  | list q =>
    have hq : r ≠ q := fun h => hy (h ▸ rfl)
    simp [elements?, setList, Array.getElem?_setIfInBounds_ne hq]
  | _ => rfl

theorem elements?_of_getElem? (hr : w.heap[r]? = some (.list xs)) :
    w.elements? (.list r) = some xs := by
  simp [elements?, hr]

end World

theorem listPosition_lt {size p : Nat} {i : Int} (hp : listPosition size i = .ok p) : p < size := by
  unfold listPosition at hp
  split at hp
  · rename_i h
    cases hp
    simp only [Bool.and_eq_true, decide_eq_true_eq] at h
    omega
  · split at hp
    · rename_i h
      cases hp
      simp only [Bool.and_eq_true, decide_eq_true_eq] at h
      omega
    · cases hp

theorem setIfInBounds_eq_self_iff {xs : Array Datum} {p : Nat} {d : Datum} (hp : p < xs.size) :
    xs.setIfInBounds p d = xs ↔ xs[p]? = some d := by
  constructor
  · intro h
    rw [← h, Array.getElem?_setIfInBounds_self_of_lt hp]
  · intro h
    obtain rfl : xs[p] = d := by simpa [hp] using h
    simp [Array.setIfInBounds]

namespace Primitive

variable {w : World} {r p : Nat} {i : Int} {d : Datum} {xs : Array Datum}

section

variable (hr : w.heap[r]? = some (.list xs)) (hp : listPosition xs.size i = .ok p)
include hr hp

theorem updatedList_run :
    updatedList (.list r) i d w = .ok (.list w.heap.size) (w.pushList (xs.setIfInBounds p d)) := by
  rw [updatedList, bind_ok (RunM.items_run hr), hp]
  rfl

theorem updateList_run :
    updateList (.list r) i d w = .ok () (w.setList r (xs.setIfInBounds p d)) := by
  rw [updateList, bind_ok (RunM.items_run hr), hp]
  rfl

end

end Primitive

/-! ### The rule -/

namespace Graph

open OptM

variable {s s' : OptState} {o : Operation}

/-- A write to a register of the vector that was read from it, with one element replaced. -/
structure WritesBack (a : Arena) (o : Operation) (c u x i z : ValueId) (update : Operation) :
    Prop where
  written : o.args.toList = [c]
  result : ∃ k, a.value c = .op k ∧ k.kind = .cast ∧ k.args.toList = [u]
  changed : a.value u = .op update
  name : update.name = "@vector_update_o_i_o"
  operands : update.args.toList = [x, i, z]
  vector : a.typeOf x ≠ .bits
  source : ∃ k y r, a.value x = .op k ∧ k.kind = .cast ∧ k.args.toList = [y] ∧
    a.value y = .op r ∧ r.kind = .globalRead ∧ r.name = o.name

def inPlace (update : Operation) : Operation :=
  { update with name := "@helper_vector_update_inplace_o_i_o", type := .unit }

theorem op?_eq_some : a.op? v = some o ↔ a.value v = .op o := by
  unfold Arena.op?
  cases a.value v <;> simp

theorem eq_of_bne_eq_false {k k' : OpKind} (h : (k != k') = false) : k = k' := by
  revert h
  cases k <;> cases k' <;> decide

section Run

variable (hlook : ∀ v, s.look v = v)
include hlook

theorem operands_eq : operands o s = .ok o.args.toList s := by
  rw [operands_run, List.map_congr_left fun v _ => hlook v]
  simp

theorem arg1_bind_iff {f : ValueId → OptM Bool} :
    (arg1 o >>= f) s = .ok true s' ↔ ∃ x, o.args.toList = [x] ∧ f x s = .ok true s' := by
  rw [arg1, bind_assoc, bind_ok (operands_eq hlook)]
  rcases o.args.toList with _ | ⟨x, _ | ⟨y, ys⟩⟩ <;> simp <;> rintro ⟨⟩

theorem arg3_bind_iff {f : ValueId × ValueId × ValueId → OptM Bool} :
    (arg3 o >>= f) s = .ok true s' ↔
      ∃ x y z, o.args.toList = [x, y, z] ∧ f (x, y, z) s = .ok true s' := by
  rw [arg3, bind_assoc, bind_ok (operands_eq hlook)]
  rcases o.args.toList with _ | ⟨x, _ | ⟨y, _ | ⟨z, _ | ⟨v, vs⟩⟩⟩⟩ <;> simp <;> rintro ⟨⟩

omit hlook in
theorem op?_bind_iff {f : Operation → OptM Bool} {other : OptM Bool}
    (hother : other s ≠ .ok true s' := by rintro ⟨⟩) :
    (do match ← op? v with
      | some k => f k
      | none => other) s = .ok true s' ↔ ∃ k, s.arena.value v = .op k ∧ f k s = .ok true s' := by
  simp only [bind_ok (op?_run v s), ← op?_eq_some]
  cases s.arena.op? v <;> simp [hother]

omit hlook in
theorem unless_iff {c : Bool} {x y : OptM Bool} (hx : x s ≠ .ok true s' := by rintro ⟨⟩) :
    (if c then x else y) s = .ok true s' ↔ c = false ∧ y s = .ok true s' := by
  cases c <;> simp [hx]

/-- The rule applies wherever the three operations stand. -/
theorem globalWriteRule_eq_true_iff :
    globalWriteRule o s = .ok true s' ↔ ∃ c u x i z update,
      WritesBack s.arena o c u x i z update ∧
        s' = { s with arena := s.arena.setValue u (.op (inPlace update)) } := by
  constructor
  · intro hrule
    obtain ⟨c, hwritten, hrule⟩ := (arg1_bind_iff hlook).mp hrule
    obtain ⟨k, hcast, hrule⟩ := (op?_bind_iff).mp hrule
    obtain ⟨hkind, hrule⟩ := (unless_iff).mp hrule
    obtain ⟨u, hresult, hrule⟩ := (arg1_bind_iff hlook).mp hrule
    obtain ⟨update, hupdate, hrule⟩ := (op?_bind_iff).mp hrule
    obtain ⟨hname, hrule⟩ := (unless_iff).mp hrule
    obtain ⟨x, i, z, hoperands, hrule⟩ := (arg3_bind_iff hlook).mp hrule
    obtain ⟨htype, hrule⟩ := (unless_iff).mp hrule
    obtain ⟨lc, hsource, hrule⟩ := (op?_bind_iff).mp hrule
    obtain ⟨hlc, hrule⟩ := (unless_iff).mp hrule
    obtain ⟨y, hsourceArgs, hrule⟩ := (arg1_bind_iff hlook).mp hrule
    obtain ⟨r, hread, hrule⟩ := (op?_bind_iff).mp hrule
    obtain ⟨hr, hrule⟩ := (unless_iff).mp hrule
    obtain ⟨hrname, hrule⟩ := (unless_iff).mp hrule
    cases hrule
    exact ⟨c, u, x, i, z, update, ⟨hwritten, ⟨k, hcast, eq_of_bne_eq_false hkind, hresult⟩, hupdate,
      by simpa using hname, hoperands, beq_eq_false_iff_ne.mp htype, lc, y, r, hsource,
      eq_of_bne_eq_false hlc, hsourceArgs, hread, eq_of_bne_eq_false hr, by simpa using hrname⟩,
      rfl⟩
  · rintro ⟨c, u, x, i, z, update, hback, rfl⟩
    obtain ⟨k, hcast, hkind, hresult⟩ := hback.result
    obtain ⟨lc, y, r, hsource, hlc, hsourceArgs, hread, hr, hrname⟩ := hback.source
    refine (arg1_bind_iff hlook).mpr ⟨c, hback.written, (op?_bind_iff).mpr ⟨k, hcast, ?_⟩⟩
    rw [hkind]
    refine (arg1_bind_iff hlook).mpr ⟨u, hresult, (op?_bind_iff).mpr ⟨update, hback.changed, ?_⟩⟩
    rw [hback.name]
    refine (arg3_bind_iff hlook).mpr ⟨x, i, z, hback.operands, (unless_iff).mpr
      ⟨beq_eq_false_iff_ne.mpr hback.vector, (op?_bind_iff).mpr ⟨lc, hsource, ?_⟩⟩⟩
    rw [hlc]
    refine (arg1_bind_iff hlook).mpr ⟨y, hsourceArgs, (op?_bind_iff).mpr ⟨r, hread, ?_⟩⟩
    rw [hr, hrname]
    exact (unless_iff).mpr ⟨rfl, (unless_iff).mpr ⟨bne_self_eq_false _, rfl⟩⟩

end Run

/-! ### What can be told -/

/-- Operations on vectors work on the heap, and registers are places of the machine. -/
structure UsesHeap (I : Interpretation Datum Fault World) : Prop where
  write : ∀ n t d w, I.apply .globalWrite n t [d] w =
    .ok (I.constant .unit) { w with slots := w.slots.insert ("_reg_" ++ n) d }
  cast : ∀ n t d w, t ≠ .unit → I.apply .cast n t [d] w = .ok d w
  update : ∀ t l i d w, t ≠ .unit →
    I.apply .call "@vector_update_o_i_o" t [l, .int i, d] w = Primitive.updatedList l i d w
  inPlace : ∀ l i d w, I.apply .call "@helper_vector_update_inplace_o_i_o" .unit [l, .int i, d] w =
    (do
      Primitive.updateList l i d
      return I.constant .unit : RunM Datum) w

/-- What the places of the machine and some values hold is the same in two states. -/
def SameVectors (live : List ValueId) (ρ : Valuation Datum) (w : World) (ρ' : Valuation Datum)
    (w' : World) : Prop :=
  (∀ n : String, w.slots[n]?.bind w.elements? = w'.slots[n]?.bind w'.elements?) ∧
    ∀ v ∈ live, (ρ v).bind w.elements? = (ρ' v).bind w'.elements?

/-- A vector that stands in a register when one of its elements is about to be replaced; other
places and some values may name it too. -/
structure Updating (w : World) (name : String) (r : Nat) (xs : Array Datum) (live : List ValueId)
    (ρ : Valuation Datum) : Prop where
  register : w.slots[name]? = some (.list r)
  cell : w.heap[r]? = some (.list xs)
  slots : ∀ (n : String) q, w.slots[n]? = some (.list q) → q < w.heap.size
  values : ∀ v ∈ live, ∀ q, ρ v = some (.list q) → q < w.heap.size

/-- Nothing but the register names the vector. -/
def Alone (w : World) (name : String) (r : Nat) (live : List ValueId) (ρ : Valuation Datum) :
    Prop :=
  (∀ n : String, n ≠ name → w.slots[n]? ≠ some (.list r)) ∧ ∀ v ∈ live, ρ v ≠ some (.list r)

variable {w : World} {name : String} {r : Nat} {xs ys : Array Datum} {live : List ValueId}
variable {ρ : Valuation Datum}

section

variable (h : Updating w name r xs live ρ)
include h

/-- A vector that is there looks different in the two states if it is the one that was changed. -/
theorem Updating.elements?_eq_iff (hy : ∀ q, y = .list q → q < w.heap.size) :
    (w.pushList ys).elements? y = (w.setList r ys).elements? y ↔ y = .list r → ys = xs := by
  have hr : r < w.heap.size := h.slots name r h.register
  rw [World.elements?_pushList hy]
  by_cases hne : y = .list r
  · subst hne
    rw [World.elements?_setList_self hr, World.elements?_of_getElem? h.cell]
    simp [eq_comm]
  · rw [World.elements?_setList_of_ne hne]
    simp [hne]

theorem Updating.bind_eq_iff {y : Option Datum} (hy : ∀ q, y = some (.list q) → q < w.heap.size) :
    y.bind (w.pushList ys).elements? = y.bind (w.setList r ys).elements? ↔
      (y = some (.list r) → ys = xs) := by
  cases y with
  | none => simp
  | some y =>
    simp only [Option.some.injEq] at hy ⊢
    exact h.elements?_eq_iff hy

/-- Without the write, everybody who reads the register can tell. -/
theorem Updating.sameVectors_pushList :
    SameVectors live ρ (w.pushList ys) ρ (w.setList r ys) ↔ ys = xs := by
  constructor
  · rintro ⟨hslots, -⟩
    exact (h.bind_eq_iff (h.slots name)).mp (hslots name) h.register
  · rintro rfl
    exact ⟨fun n => (h.bind_eq_iff (h.slots n)).mpr fun _ => rfl,
      fun v hv => (h.bind_eq_iff (h.values v hv)).mpr fun _ => rfl⟩

end

def writeNew (w : World) (name : String) (ys : Array Datum) : World :=
  { w.pushList ys with slots := w.slots.insert name (.list w.heap.size) }

theorem elements?_writeNew (y : Datum) :
    (writeNew w name ys).elements? y = (w.pushList ys).elements? y := by
  cases y <;> rfl

/-- With the write, those can tell who name the vector besides the register. -/
theorem Updating.sameVectors_writeNew (h : Updating w name r xs live ρ) :
    SameVectors live ρ (writeNew w name ys) ρ (w.setList r ys) ↔
      ys = xs ∨ Alone w name r live ρ := by
  have hr : r < w.heap.size := h.slots name r h.register
  have hfun : (writeNew w name ys).elements? = (w.pushList ys).elements? :=
    funext elements?_writeNew
  have hself : (writeNew w name ys).slots[name]?.bind (writeNew w name ys).elements? =
      (w.setList r ys).slots[name]?.bind (w.setList r ys).elements? := by
    have hnew : (writeNew w name ys).slots[name]? = some (.list w.heap.size) := by simp [writeNew]
    have hold : (w.setList r ys).slots[name]? = some (.list r) := h.register
    rw [hnew, hold, hfun, Option.bind_some, Option.bind_some, World.elements?_pushList_self,
      World.elements?_setList_self hr]
  have hother (n : String) (hn : n ≠ name) : (writeNew w name ys).slots[n]? = w.slots[n]? := by
    simp [writeNew, Std.HashMap.getElem?_insert, Ne.symm hn]
  constructor
  · rintro ⟨hslots, hvalues⟩
    by_cases hsame : ys = xs
    · exact .inl hsame
    · refine .inr ⟨fun n hn hnames => hsame ?_, fun v hv hnames => hsame ?_⟩
      · have hn' := hslots n
        rw [hother n hn] at hn'
        exact (h.bind_eq_iff (h.slots n)).mp hn' hnames
      · have hv' := hvalues v hv
        exact (h.bind_eq_iff (h.values v hv)).mp hv' hnames
  · intro hor
    refine ⟨fun n => ?_, fun v hv => ?_⟩
    · by_cases hn : n = name
      · rw [hn, hself]
      · rw [hother n hn, hfun]
        exact (h.bind_eq_iff (h.slots n)).mpr fun hnames =>
          hor.resolve_right fun halone => halone.1 n hn hnames
    · rw [hfun]
      exact (h.bind_eq_iff (h.values v hv)).mpr fun hnames =>
        hor.resolve_right fun halone => halone.2 v hv hnames

variable {I : Interpretation Datum Fault World} {c u x i z write : ValueId} {update : Operation}
variable {k : Int} {p : Nat} {d : Datum}

/-- Values that are not set anew keep what they hold. -/
theorem sameVectors_congr {ρ₁ ρ₂ : Valuation Datum} {w₁ w₂ : World}
    (h₁ : ∀ v ∈ live, ρ₁ v = ρ v) (h₂ : ∀ v ∈ live, ρ₂ v = ρ v) :
    SameVectors live ρ₁ w₁ ρ₂ w₂ ↔ SameVectors live ρ w₁ ρ w₂ := by
  refine and_congr_right fun _ => forall₂_congr fun v hv => ?_
  rw [h₁ v hv, h₂ v hv]

theorem evalOps_op {vs : List ValueId} {ys : List Datum} {w' : World} (ho : a.value v = .op o)
    (hargs : o.args.toList.mapM (I.look a ρ) = some ys)
    (happly : I.apply o.kind o.name o.type ys w = .ok y w') :
    I.evalOps a (v :: vs) ρ w = I.evalOps a vs (Function.update ρ v (some y)) w' := by
  rw [Interpretation.evalOps]
  simp only [ho, hargs]
  exact bind_ok happly

/-- Another operation in the place of one changes nothing that is looked up. -/
theorem look_setValue (ho : a.value v = .op o) (o' : Operation) (v' : ValueId) :
    I.look (a.setValue v (.op o')) ρ v' = I.look a ρ v' := by
  unfold Interpretation.look
  by_cases hne : v' = v
  · subst hne
    rw [Arena.value_setValue_self (Arena.lt_size_of_value ho (by simp)), ho]
  · rw [Arena.value_setValue_of_ne hne]

theorem look_op (ho : a.value v = .op o) : I.look a ρ v = ρ v := by
  simp only [Interpretation.look, ho]

/-- The values of the operands of an update, and the element that it replaces. -/
structure Operands (I : Interpretation Datum Fault World) (a : Arena) (ρ : Valuation Datum)
    (x i z : ValueId) (r p : Nat) (xs : Array Datum) (d : Datum) : Prop where
  vector : ρ x = some (.list r)
  position : ∃ k, I.look a ρ i = some (.int k) ∧ listPosition xs.size k = .ok p
  element : I.look a ρ z = some d

theorem Operands.lt_size (h : Operands I a ρ x i z r p xs d) : p < xs.size := by
  obtain ⟨k, -, hp⟩ := h.position
  exact listPosition_lt hp

section Evaluation

variable {a : Arena} (hI : UsesHeap I) (hback : WritesBack a o c u x i z update)
variable (hkind : update.kind = .call) (hcell : w.heap[r]? = some (.list xs))
variable (hoperands : Operands I a ρ x i z r p xs d)
include hI hback hkind hcell hoperands

omit hI hkind hcell in
theorem WritesBack.mapM_look : ∃ k, update.args.toList.mapM (I.look a ρ) =
    some [.list r, .int k, d] ∧ listPosition xs.size k = .ok p := by
  obtain ⟨source, _, _, hsource, -⟩ := hback.source
  obtain ⟨k, hk, hp⟩ := hoperands.position
  refine ⟨k, ?_, hp⟩
  rw [hback.operands]
  simp [look_op hsource, hoperands.vector, hk, hoperands.element]

/-- The update makes a new vector, and the conversion passes it on. -/
theorem WritesBack.evalOps_copy (htype : update.type ≠ .unit) (hcast : a.typeOf c ≠ .unit)
    (rest : List ValueId) :
    I.evalOps a (u :: c :: rest) ρ w =
      I.evalOps a rest (Function.update (Function.update ρ u (some (.list w.heap.size))) c
        (some (.list w.heap.size))) (w.pushList (xs.setIfInBounds p d)) := by
  obtain ⟨cast, hcast', hcastKind, hcastArgs⟩ := hback.result
  obtain ⟨k, hargs, hp⟩ := hback.mapM_look hoperands
  have hu : I.apply update.kind update.name update.type [.list r, .int k, d] w =
      .ok (.list w.heap.size) (w.pushList (xs.setIfInBounds p d)) := by
    rw [hkind, hback.name, hI.update _ _ _ _ _ htype]
    exact Primitive.updatedList_run hcell hp
  have hc : I.apply cast.kind cast.name cast.type [.list w.heap.size]
      (w.pushList (xs.setIfInBounds p d)) =
        .ok (.list w.heap.size) (w.pushList (xs.setIfInBounds p d)) := by
    rw [hcastKind]
    exact hI.cast _ _ _ _ (by simpa [Arena.typeOf, hcast', Value.type] using hcast)
  rw [evalOps_op hback.changed hargs hu, evalOps_op hcast' _ hc]
  rw [hcastArgs]
  simp [look_op hback.changed]

/-- The write puts the new vector into the register. -/
theorem WritesBack.evalOps_write (htype : update.type ≠ .unit) (hcast : a.typeOf c ≠ .unit)
    {write : ValueId} (hwrite : a.value write = .op o) (hwriteKind : o.kind = .globalWrite) :
    I.evalOps a [u, c, write] ρ w =
      .ok (Function.update (Function.update (Function.update ρ u (some (.list w.heap.size))) c
        (some (.list w.heap.size))) write (some (I.constant .unit)))
        (writeNew w ("_reg_" ++ o.name) (xs.setIfInBounds p d)) := by
  obtain ⟨cast, hcast', -⟩ := hback.result
  have hstore : I.apply o.kind o.name o.type [.list w.heap.size]
      (w.pushList (xs.setIfInBounds p d)) =
        .ok (I.constant .unit) (writeNew w ("_reg_" ++ o.name) (xs.setIfInBounds p d)) := by
    rw [hwriteKind, hI.write]
    rfl
  rw [hback.evalOps_copy hI hkind hcell hoperands htype hcast, evalOps_op hwrite _ hstore]
  · rfl
  · rw [hback.written]
    simp [look_op hcast']

/-- In place, the register keeps its vector. -/
theorem WritesBack.evalOps_inPlace :
    I.evalOps (a.setValue u (.op (inPlace update))) [u] ρ w =
      .ok (Function.update ρ u (some (I.constant .unit))) (w.setList r (xs.setIfInBounds p d)) := by
  obtain ⟨k, hargs, hp⟩ := hback.mapM_look hoperands
  have happly : I.apply (inPlace update).kind (inPlace update).name (inPlace update).type
      [.list r, .int k, d] w =
        .ok (I.constant .unit) (w.setList r (xs.setIfInBounds p d)) := by
    change I.apply update.kind "@helper_vector_update_inplace_o_i_o" .unit _ w = _
    rw [hkind, hI.inPlace, bind_ok (Primitive.updateList_run hcell hp)]
    rfl
  have hchanged := Arena.lt_size_of_value hback.changed (by simp)
  rw [evalOps_op (Arena.value_setValue_self hchanged _) _ happly]
  · rfl
  · rw [← hargs]
    exact congrArg (List.mapM · update.args.toList) (funext (look_setValue hback.changed _))

end Evaluation

/-- Where a vector is read from a register, changed and written back, the rule makes the change in
place.  If the write follows, the two ways can be told apart unless the element stays as it was or
nothing but the register names the vector; if it does not, unless the element stays as it was. -/
theorem globalWriteRule_unobservable_iff (hI : UsesHeap I) (hlook : ∀ v, s.look v = v)
    (hback : WritesBack s.arena o c u x i z update) (hwrite : s.arena.value write = .op o)
    (hkinds : o.kind = .globalWrite ∧ update.kind = .call)
    (htypes : update.type ≠ .unit ∧ s.arena.typeOf c ≠ .unit)
    (hstate : Updating w ("_reg_" ++ o.name) r xs live ρ)
    (hlive : u ∉ live ∧ c ∉ live ∧ write ∉ live)
    (hoperands : Operands I s.arena ρ x i z r p xs d) :
    ∃ s' ρ₀ w₀ ρ₁ w₁ ρ₂ w₂, globalWriteRule o s = .ok true s' ∧
      I.evalOps s.arena [u, c] ρ w = .ok ρ₀ w₀ ∧
      I.evalOps s.arena [u, c, write] ρ w = .ok ρ₁ w₁ ∧
      I.evalOps s'.arena [u] ρ w = .ok ρ₂ w₂ ∧
      (SameVectors live ρ₁ w₁ ρ₂ w₂ ↔
        xs[p]? = some d ∨ Alone w ("_reg_" ++ o.name) r live ρ) ∧
      (SameVectors live ρ₀ w₀ ρ₂ w₂ ↔ xs[p]? = some d) := by
  have hrule := (globalWriteRule_eq_true_iff hlook).mpr ⟨c, u, x, i, z, update, hback, rfl⟩
  have hkeeps {ρ' : Valuation Datum} {v : ValueId} {y : Option Datum} (hv : v ∉ live)
      (hρ' : ∀ v' ∈ live, ρ' v' = ρ v') : ∀ v' ∈ live, Function.update ρ' v y v' = ρ v' :=
    fun v' hv' => (Function.update_of_ne (ne_of_mem_of_not_mem hv' hv) _ _).trans (hρ' v' hv')
  have hcopied := hkeeps (y := some (.list w.heap.size)) hlive.2.1
    (hkeeps (y := some (.list w.heap.size)) hlive.1 fun _ _ => rfl)
  have hchanged := hkeeps (y := some (I.constant .unit)) hlive.1 fun _ _ => rfl
  refine ⟨_, _, _, _, _, _, _, hrule,
    hback.evalOps_copy hI hkinds.2 hstate.cell hoperands htypes.1 htypes.2 [],
    hback.evalOps_write hI hkinds.2 hstate.cell hoperands htypes.1 htypes.2 hwrite hkinds.1,
    hback.evalOps_inPlace hI hkinds.2 hstate.cell hoperands, ?_, ?_⟩
  · rw [sameVectors_congr (hkeeps hlive.2.2 hcopied) hchanged, hstate.sameVectors_writeNew,
      setIfInBounds_eq_self_iff hoperands.lt_size]
  · rw [sameVectors_congr hcopied hchanged, hstate.sameVectors_pushList,
      setIfInBounds_eq_self_iff hoperands.lt_size]

/-! ### A register of two elements -/

/-- Writes registers and changes vectors. -/
def vectorCall (kind : OpKind) (name : String) (ys : List Datum) : RunM Datum :=
  match kind, name, ys with
  | .globalWrite, n, [y] => do
    modify fun w => { w with slots := w.slots.insert ("_reg_" ++ n) y }
    return .unit
  | .cast, _, [y] => return y
  | .call, "@vector_update_o_i_o", [l, .int i, y] => Primitive.updatedList l i y
  | .call, "@helper_vector_update_inplace_o_i_o", [l, .int i, y] => do
    Primitive.updateList l i y
    return .unit
  | _, _, _ => throw .internal

/-- A machine whose values are data. -/
def vectorMachine : Interpretation Datum Fault World where
  constant
    | .int n => .int n
    | _ => .unit
  apply kind name type ys := do
    let y ← vectorCall kind name ys
    return if type == .unit then .unit else y
  isTrue y := y == .bool true
  unbound := .internal
  constant_unit c hc := by
    cases c <;> first | rfl | cases hc
  apply_unit kind name args m y m' happly := by
    obtain ⟨y', m₁, -, hy⟩ := exists_run_of_bind happly
    cases hy
    rfl

theorem usesHeap_vectorMachine : UsesHeap vectorMachine where
  write n t d w := by
    change EStateM.Result.ok (if t == .unit then Datum.unit else .unit) _ = _
    rw [ite_self]
    rfl
  cast n t d w ht := by
    change EStateM.Result.ok (if t == .unit then Datum.unit else d) w = _
    rw [if_neg (by simpa using ht)]
  update t l i d w ht := by
    change (Primitive.updatedList l i d >>= fun y =>
      pure (if t == Ty.unit then Datum.unit else y)) w = _
    simp [ht]
  inPlace l i d w := by
    change ((Primitive.updateList l i d >>= fun _ => pure Datum.unit) >>= fun y =>
      pure (if Ty.unit == Ty.unit then Datum.unit else y)) w = _
    rw [bind_assoc]
    rfl

/-- Replaces the second element of a register by nine. -/
def replacing : OptState := rebuildingState
  #[.op ⟨.globalRead, "zR", #[], .fvec 2 .int, none, none⟩,
    .op ⟨.cast, "$cast", #[0], .vec .int, none, none⟩, .const (.int 1), .const (.int 9),
    .op ⟨.call, "@vector_update_o_i_o", #[1, 2, 3], .vec .int, none, none⟩,
    .op ⟨.cast, "$cast", #[4], .fvec 2 .int, none, none⟩,
    .op ⟨.globalWrite, "zR", #[5], .fvec 2 .int, none, none⟩]

theorem writesBack_replacing : WritesBack replacing.arena
    ⟨.globalWrite, "zR", #[5], .fvec 2 .int, none, none⟩ 5 4 1 2 3
      ⟨.call, "@vector_update_o_i_o", #[1, 2, 3], .vec .int, none, none⟩ where
  written := rfl
  result := ⟨_, rfl, rfl, rfl⟩
  changed := rfl
  name := rfl
  operands := rfl
  vector := nofun
  source := ⟨_, _, _, rfl, rfl, rfl, rfl, rfl, rfl⟩

/-- The register holds one and two. -/
def oneTwo : World where
  heap := #[.list #[.int 1, .int 2]]
  slots := (∅ : Std.HashMap String Datum).insert "_reg_zR" (.list 0)

theorem slots_oneTwo {n : String} (hy : oneTwo.slots[n]? = some y) :
    n = "_reg_zR" ∧ y = .list 0 := by
  simp only [oneTwo, Std.HashMap.getElem?_insert, beq_iff_eq] at hy
  split_ifs at hy with hn
  · exact ⟨hn.symm, (Option.some.inj hy).symm⟩
  · simp at hy

theorem updating_oneTwo : Updating oneTwo "_reg_zR" 0 #[.int 1, .int 2] []
    (Interpretation.startValuation [(1, .list 0)]) where
  register := by simp [oneTwo]
  cell := rfl
  slots n q hq := by
    obtain ⟨-, hlist⟩ := slots_oneTwo hq
    cases hlist
    decide
  values := nofun

theorem operands_replacing : Operands vectorMachine replacing.arena
    (Interpretation.startValuation [(1, .list 0)]) 1 2 3 0 1 #[.int 1, .int 2] (.int 9) where
  vector := rfl
  position := ⟨1, rfl, rfl⟩
  element := rfl

/-- With the write behind it the replacement can be made in place, and without it not. -/
theorem replacing_unobservable : ∃ s' ρ₀ w₀ ρ₁ w₁ ρ₂ w₂,
    globalWriteRule ⟨.globalWrite, "zR", #[5], .fvec 2 .int, none, none⟩ replacing = .ok true s' ∧
      vectorMachine.evalOps replacing.arena [4, 5]
        (Interpretation.startValuation [(1, .list 0)]) oneTwo = .ok ρ₀ w₀ ∧
      vectorMachine.evalOps replacing.arena [4, 5, 6]
        (Interpretation.startValuation [(1, .list 0)]) oneTwo = .ok ρ₁ w₁ ∧
      vectorMachine.evalOps s'.arena [4]
        (Interpretation.startValuation [(1, .list 0)]) oneTwo = .ok ρ₂ w₂ ∧
      SameVectors [] ρ₁ w₁ ρ₂ w₂ ∧ ¬ SameVectors [] ρ₀ w₀ ρ₂ w₂ := by
  obtain ⟨s', ρ₀, w₀, ρ₁, w₁, ρ₂, w₂, hrule, hcopy, hwrite, hinPlace, hwritten, hnot⟩ :=
    globalWriteRule_unobservable_iff usesHeap_vectorMachine (look_rebuildingState _)
      writesBack_replacing (show replacing.arena.value 6 = .op _ from rfl) ⟨rfl, rfl⟩
      ⟨nofun, nofun⟩ updating_oneTwo ⟨nofun, nofun, nofun⟩ operands_replacing
  have halone : Alone oneTwo "_reg_zR" 0 [] (Interpretation.startValuation [(1, .list 0)]) :=
    ⟨fun n hn hnames => hn (slots_oneTwo hnames).1, nofun⟩
  exact ⟨s', ρ₀, w₀, ρ₁, w₁, ρ₂, w₂, hrule, hcopy, hwrite, hinPlace, hwritten.mpr (.inr halone),
    fun hsame => by simpa using hnot.mp hsame⟩

/-- A run that does not come to the write leaves one and two in the register, and one and nine if
the replacement is made in place. -/
theorem replacing_without_write : ∃ s' ρ₀ w₀ ρ₂ w₂,
    globalWriteRule ⟨.globalWrite, "zR", #[5], .fvec 2 .int, none, none⟩ replacing = .ok true s' ∧
      vectorMachine.evalOps replacing.arena [4, 5]
        (Interpretation.startValuation [(1, .list 0)]) oneTwo = .ok ρ₀ w₀ ∧
      vectorMachine.evalOps s'.arena [4]
        (Interpretation.startValuation [(1, .list 0)]) oneTwo = .ok ρ₂ w₂ ∧
      w₀.slots["_reg_zR"]?.bind w₀.elements? = some #[.int 1, .int 2] ∧
      w₂.slots["_reg_zR"]?.bind w₂.elements? = some #[.int 1, .int 9] := by
  have hrule := (globalWriteRule_eq_true_iff (look_rebuildingState _)).mpr
    ⟨5, 4, 1, 2, 3, _, writesBack_replacing, rfl⟩
  have hregister : oneTwo.slots["_reg_zR"]? = some (.list 0) := updating_oneTwo.register
  refine ⟨_, _, _, _, _, hrule,
    writesBack_replacing.evalOps_copy usesHeap_vectorMachine rfl rfl operands_replacing nofun nofun
      [],
    writesBack_replacing.evalOps_inPlace usesHeap_vectorMachine rfl rfl operands_replacing, ?_, ?_⟩
  · change oneTwo.slots["_reg_zR"]?.bind _ = _
    rw [hregister]
    rfl
  · change oneTwo.slots["_reg_zR"]?.bind _ = _
    rw [hregister]
    rfl

end Graph
end Jib
