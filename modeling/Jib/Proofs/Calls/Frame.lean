import Jib.Primitive.Datum
import Jib.Proofs.Simulation

/-!
# Computations that leave objects alone

The objects of a world are kept by a computation if, however it ends, each of their cells holds the
same fields afterwards.  Only writing a field can break that, and writing one of an object that was
made later does not.
-/

namespace Jib

variable {r : Nat} {w : World}

/-- Every object that there was is still what it was. -/
structure World.Frames (w₀ w : World) : Prop where
  size_le : w₀.heap.size ≤ w.heap.size
  object : ∀ (r : Nat) c fs, w₀.heap[r]? = some (.object c fs) → w.heap[r]? = some (.object c fs)

/-- A value that is no object of a world. -/
def Datum.NewTo (w₀ : World) (d : Datum) : Prop := ∀ r, d = .object r → w₀.heap.size ≤ r

namespace World.Frames

variable {w₀ w w' : World}

theorem refl (w : World) : w.Frames w := ⟨Nat.le_refl _, fun _ _ _ h => h⟩

theorem of_heap_eq (h : w₀.Frames w) (hheap : w'.heap = w.heap) : w₀.Frames w' :=
  ⟨hheap ▸ h.size_le, hheap ▸ h.object⟩

theorem lt_size {cell : Cell} (hr : w₀.heap[r]? = some cell) : r < w₀.heap.size :=
  (Array.getElem?_eq_some_iff.mp hr).1

theorem push (h : w₀.Frames w) (cell : Cell) :
    w₀.Frames { w with heap := w.heap.push cell } where
  size_le := by
    rw [Array.size_push]
    exact Nat.le_succ_of_le h.size_le
  object r c fs hr := by
    have hlt : r < w.heap.size := Nat.lt_of_lt_of_le (lt_size hr) h.size_le
    rw [Array.getElem?_push_lt hlt, ← Array.getElem?_eq_getElem]
    exact h.object r c fs hr

/-- A change of one cell that held no object of the world. -/
theorem modify (h : w₀.Frames w) (f : Cell → Cell)
    (hr : ∀ c fs, w₀.heap[r]? ≠ some (.object c fs)) :
    w₀.Frames { w with heap := w.heap.modify r f } where
  size_le := by
    rw [Array.size_modify]
    exact h.size_le
  object r' c fs hr' := by
    have hne : r ≠ r' := fun heq => hr c fs (heq ▸ hr')
    rw [Array.getElem?_modify, if_neg hne]
    exact h.object r' c fs hr'

theorem setIfInBounds (h : w₀.Frames w) (cell : Cell)
    (hr : ∀ c fs, w₀.heap[r]? ≠ some (.object c fs)) :
    w₀.Frames { w with heap := w.heap.setIfInBounds r cell } where
  size_le := by
    rw [Array.size_setIfInBounds]
    exact h.size_le
  object r' c fs hr' := by
    have hne : r ≠ r' := fun heq => hr c fs (heq ▸ hr')
    rw [Array.getElem?_setIfInBounds_ne hne]
    exact h.object r' c fs hr'

end World.Frames

namespace RunM

variable {α β : Type} {w₀ : World} {x : RunM α} {f : α → RunM β} {P Q : α → Prop} {R : β → Prop}

/-- Objects are kept, and a result has a property. -/
def Keeps (w₀ : World) (x : RunM α) (Q : α → Prop) : Prop :=
  ∀ w, w₀.Frames w → match x w with
    | .ok y w' => w₀.Frames w' ∧ Q y
    | .error _ w' => w₀.Frames w'

/-- Objects are kept. -/
abbrev Quiet (w₀ : World) (x : RunM α) : Prop := Keeps w₀ x fun _ => True

theorem Keeps.pure {y : α} (hy : Q y) : Keeps w₀ (pure y) Q := fun _ hw => ⟨hw, hy⟩

theorem Keeps.throw (e : Fault) : Keeps w₀ (throw e : RunM α) Q := fun _ hw => hw

theorem Keeps.bind (hx : Keeps w₀ x P) (hf : ∀ y, P y → Keeps w₀ (f y) R) :
    Keeps w₀ (x >>= f) R := by
  intro w hw
  have hfirst := hx w hw
  rw [bind_run]
  cases hrun : x w with
    rw [hrun] at hfirst
  | error e w' => exact hfirst
  | ok y w' => exact hf y hfirst.2 w' hfirst.1

theorem Keeps.mono (hx : Keeps w₀ x P) (hPQ : ∀ y, P y → Q y) : Keeps w₀ x Q := by
  intro w hw
  have hkept := hx w hw
  cases hrun : x w with
    rw [hrun] at hkept
  | error e w' => exact hkept
  | ok y w' => exact ⟨hkept.1, hPQ y hkept.2⟩

theorem Keeps.quiet (hx : Keeps w₀ x P) : Quiet w₀ x := hx.mono fun _ _ => trivial

/-- One part after another, whatever the results. -/
theorem Quiet.bind (hx : Quiet w₀ x) (hf : ∀ y, Keeps w₀ (f y) R) : Keeps w₀ (x >>= f) R :=
  Keeps.bind hx fun y _ => hf y

theorem Quiet.map {g : α → β} (hx : Quiet w₀ x) : Quiet w₀ (do return g (← x)) :=
  hx.bind fun _ => .pure trivial

theorem Keeps.ite {c : Prop} [Decidable c] {x y : RunM α} (hx : Keeps w₀ x Q)
    (hy : Keeps w₀ y Q) : Keeps w₀ (if c then x else y) Q := by
  split
  · exact hx
  · exact hy

/-- A test that has to be passed first. -/
theorem Keeps.guard {c : Prop} [Decidable c] {e : Fault} {f : Unit → RunM β}
    (hf : Keeps w₀ (f ()) R) : Keeps w₀ (if c then MonadExcept.throw e >>= f else f ()) R :=
  .ite (.bind (P := fun _ => False) (.throw e) fun _ h => h.elim) hf

theorem Quiet.mapM {f : α → RunM β} {xs : List α} (hf : ∀ y ∈ xs, Quiet w₀ (f y)) :
    Quiet w₀ (xs.mapM f) := by
  induction xs with
  | nil => exact .pure trivial
  | cons y ys ih =>
    rw [List.mapM_cons]
    refine (hf y List.mem_cons_self).bind fun z => ?_
    exact (ih fun y' hy' => hf y' (List.mem_cons_of_mem _ hy')).map

theorem Quiet.arrayMapM {f : α → RunM β} {xs : Array α} (hf : ∀ y, Quiet w₀ (f y)) :
    Quiet w₀ (xs.mapM f) := by
  rw [Array.mapM_eq_mapM_toList]
  exact (mapM fun y _ => hf y).map

/-! ### The operations on a world -/

theorem get_run (w : World) : (get : RunM World) w = .ok w w := rfl

theorem Quiet.get : Quiet w₀ (get : RunM World) := fun _ hw => ⟨hw, trivial⟩

theorem Quiet.modify {f : World → World} (hf : ∀ w, (f w).heap = w.heap) :
    Quiet w₀ (modify f : RunM Unit) := fun w hw => ⟨hw.of_heap_eq (hf w), trivial⟩

theorem quiet_ofExcept (x : Result α) : Quiet w₀ (ofExcept x) := by
  cases x with
  | error e => exact .throw e
  | ok y => exact .pure trivial

theorem keeps_ofOption {o : Option α} (ho : ∀ y, o = some y → Q y) : Keeps w₀ (ofOption o) Q := by
  cases o with
  | none => exact .throw _
  | some y => exact .pure (ho y rfl)

theorem quiet_ofOption (o : Option α) : Quiet w₀ (ofOption o) := keeps_ofOption fun _ _ => trivial

/-- A new cell is none of the world. -/
theorem keeps_alloc (c : Cell) : Keeps w₀ (alloc c) (w₀.heap.size ≤ ·) :=
  fun _ hw => ⟨hw.push c, hw.size_le⟩

theorem quiet_newList (xs : Array Datum) : Quiet w₀ (newList xs) :=
  (keeps_alloc _).quiet.map

theorem keeps_newObject (type : String) (fs : Array (String × Datum)) :
    Keeps w₀ (newObject type fs) (·.NewTo w₀) := by
  refine (keeps_alloc _).bind fun r hr => .pure ?_
  rintro _ ⟨⟩
  exact hr

theorem items_run {xs : Array Datum} (hr : w.heap[r]? = some (.list xs)) :
    items (.list r) w = .ok xs w := by
  rw [items, bind_ok (get_run w), hr]
  rfl

theorem items_error (hr : ∀ xs, w.heap[r]? ≠ some (.list xs)) :
    items (.list r) w = .error .internal w := by
  rw [items, bind_ok (get_run w)]
  rcases hcell : w.heap[r]? with _ | (xs | ⟨c, fs⟩)
  · rfl
  · exact absurd hcell (hr xs)
  · rfl

/-- A cell that holds a list held no object. -/
theorem keeps_items (d : Datum) : Keeps w₀ (items d) fun _ =>
    ∀ r, d = .list r → ∀ c fs, w₀.heap[r]? ≠ some (.object c fs) := by
  cases d with
  | list r =>
    intro w hw
    by_cases hlist : ∃ xs, w.heap[r]? = some (.list xs)
    · obtain ⟨xs, hxs⟩ := hlist
      rw [items_run hxs]
      refine ⟨hw, ?_⟩
      rintro _ ⟨⟩ c fs hobject
      cases (hw.object r c fs hobject).symm.trans hxs
    · rw [items_error fun xs hxs => hlist ⟨xs, hxs⟩]
      exact hw
  | _ => exact .throw _

theorem quiet_items (d : Datum) : Quiet w₀ (items d) := (keeps_items d).quiet

theorem quiet_setItems (hr : ∀ c fs, w₀.heap[r]? ≠ some (.object c fs)) (xs : Array Datum) :
    Quiet w₀ (setItems r xs) :=
  fun _ hw => ⟨hw.setIfInBounds _ hr, trivial⟩

theorem object_run {c : String} {fs : Array (String × Datum)}
    (hr : w.heap[r]? = some (.object c fs)) : object (.object r) w = .ok (c, fs) w := by
  rw [object, bind_ok (get_run w), hr]
  rfl

theorem quiet_object (d : Datum) : Quiet w₀ (object d) := by
  cases d with
  | object r =>
    refine Quiet.get.bind fun w => ?_
    split
    · exact .pure trivial
    · exact .throw _
  | _ => exact .throw _

theorem quiet_print (s : String) : Quiet w₀ (print s) := .modify fun _ => rfl

theorem quiet_printError (s : String) : Quiet w₀ (printError s) := .modify fun _ => rfl

theorem quiet_slot (name : String) : Quiet w₀ (slot name) :=
  Quiet.get.bind fun _ => quiet_ofOption _

theorem quiet_setSlot (name : String) (d : Datum) : Quiet w₀ (setSlot name d) :=
  .modify fun _ => rfl

theorem quiet_onMemory (f : Memory → Result α × Memory) : Quiet w₀ (onMemory f) := by
  intro w hw
  by_cases hattached : w.attached = true
  · rcases hf : f w.memory with ⟨e | y, m⟩
    · simp only [onMemory, hattached, hf]
      exact hw.of_heap_eq rfl
    · simp only [onMemory, hattached, hf]
      exact ⟨hw.of_heap_eq rfl, trivial⟩
  · simp only [onMemory, hattached]
    exact hw

/-- Writing a field of an object that was made later. -/
theorem quiet_setField {d : Datum} (hd : d.NewTo w₀) (name : String) (y : Datum) :
    Quiet w₀ (setField d name y) := by
  cases d with
  | object r =>
    refine fun w hw => ⟨hw.modify _ fun c fs hr => ?_, trivial⟩
    exact absurd (World.Frames.lt_size hr) (Nat.not_lt.mpr (hd r rfl))
  | _ => exact .throw _

end RunM

end Jib
