import Jib.Proofs.Calls.Primitives

/-!
# The table of primitives

Every name stands once in the table, so a call finds the function that is listed under the name.  A
primitive without effects leaves the state of a run as it is.
-/

namespace Jib.Primitive

/-! ### Names -/

/-- The bytes of a name read as one number. -/
def nameCode (name : String) : Nat :=
  name.toByteArray.data.toList.foldl (fun n b => n * 256 + b.toNat) 0

/-- Whether no number stands twice in a list. -/
def allDiffer : List Nat → Bool
  | [] => true
  | n :: ns => ns.all (fun m => !Nat.beq n m) && allDiffer ns

theorem nodup_of_allDiffer {names : List String} (h : allDiffer (names.map nameCode) = true) :
    names.Nodup := by
  induction names with
  | nil => exact List.nodup_nil
  | cons n names ih =>
    rw [List.map_cons, allDiffer, Bool.and_eq_true, List.all_eq_true] at h
    refine List.nodup_cons.mpr ⟨fun hmem => ?_, ih h.2⟩
    simpa using h.1 _ (List.mem_map_of_mem hmem)

/-- All names of primitives are different, and none is the name of the test for equality. -/
theorem nodup_names : ("eq" :: (functions.map Prod.fst ++ effects.map Prod.fst)).Nodup :=
  nodup_of_allDiffer (by decide +kernel)

/-! ### Calls -/

variable {name : String} {f : Function} {ds : List Datum} {d : Datum}

theorem effectTable_of_mem (hmem : (name, f) ∈ functions) :
    effectTable[name]? = some (fun ds => RunM.ofExcept (f ds)) := by
  refine Std.HashMap.getElem?_ofList_of_mem (beq_self_eq_true name) ?_
    (List.mem_append_left _ (List.mem_map_of_mem hmem))
  have hnodup := (List.nodup_cons.mp nodup_names).2
  have hnames : (lifted functions ++ effects).map Prod.fst =
      functions.map Prod.fst ++ effects.map Prod.fst := by simp [lifted]
  rw [← hnames] at hnodup
  exact (List.pairwise_map.mp hnodup).imp beq_false_of_ne

theorem functionTable_of_mem (hmem : (name, f) ∈ functions) : functionTable[name]? = some f := by
  refine Std.HashMap.getElem?_ofList_of_mem (beq_self_eq_true name) ?_ hmem
  have hnodup := (List.nodup_append.mp (List.nodup_cons.mp nodup_names).2).1
  exact (List.pairwise_map.mp hnodup).imp beq_false_of_ne

/-- A call of a primitive without effects. -/
theorem call_eq (hmem : (name, f) ∈ functions) (hplain : refusesPlain name ds = false) (s : World) :
    call name ds s = RunM.ofExcept (f ds) s := by
  have hne : (name == "eq") = false := by
    refine beq_false_of_ne fun heq => (List.nodup_cons.mp nodup_names).1 ?_
    exact List.mem_append_left _ (List.mem_map.mpr ⟨_, hmem, heq⟩)
  simp [call, find?, hne, effectTable_of_mem hmem, RunM.ofOption, hplain]

/-- In every state of a run the primitive gives a datum and changes nothing. -/
def Gives (name : String) (ds : List Datum) (d : Datum) : Prop :=
  ∀ s : World, call name ds s = .ok d s

/-- In every state of a run the primitive fails and changes nothing. -/
def Fails (name : String) (ds : List Datum) : Prop := ∀ s : World, ∃ e, call name ds s = .error e s

theorem gives_of_mem (hmem : (name, f) ∈ functions) (hplain : refusesPlain name ds = false)
    (hf : f ds = .ok d) : Gives name ds d := by
  intro s
  rw [call_eq hmem hplain, hf]
  rfl

section Answers

variable {α : Type} {g : α → Datum} {r : Result α}

section

variable (hmem : (name, f) ∈ functions) (hplain : refusesPlain name ds = false)
  (hf : f ds = do return g (← r))
include hmem hplain hf

theorem gives_of_answer {y : α} (hr : r = .ok y) : Gives name ds (g y) := by
  rw [hr] at hf
  exact gives_of_mem hmem hplain hf

theorem fails_of_answer {e : Fault} (hr : r = .error e) : Fails name ds := by
  intro s
  rw [call_eq hmem hplain, hf, hr]
  exact ⟨e, rfl⟩

end

end Answers

theorem not_fails_of_gives (h : Gives name ds d) : ¬ Fails name ds := by
  intro hfails
  obtain ⟨e, he⟩ := hfails default
  rw [h] at he
  cases he

/-- What stands in the table of operations on vectors is a primitive. -/
theorem mem_of_vector (hmem : (name, f) ∈ vectorFunctions) : (name, f) ∈ functions :=
  List.mem_append_left _ (List.mem_append_left _ (List.mem_append_right _ hmem))

/-- The form on machine integers of a primitive that has one. -/
theorem mem_of_wordForm {ps : List Passing} {wordName : String}
    (hmem : (name, f) ∈ unboxedFunctions)
    (hform : wordForm? name = some (ps, wordName)) : (wordName, f) ∈ functions := by
  refine List.mem_append_left _ (List.mem_append_left _ (List.mem_append_left _ ?_))
  exact List.mem_flatMap.mpr ⟨_, hmem, by simp [bothForms, hform]⟩

end Jib.Primitive
