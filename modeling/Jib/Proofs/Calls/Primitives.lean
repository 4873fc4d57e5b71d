import Jib.Primitive.Method
import Jib.Proofs.Calls.Frame

/-!
# Primitives leave objects alone

Primitives make new lists, replace elements of lists, print, and use the memory and the places of
the machine.  None of them writes a field of an object.
-/

namespace Jib

variable {e : String × Effect} {name : String}

section Tables

variable {α β : Type} [BEq α] [Hashable α] [LawfulBEq α] [LawfulHashable α]

theorem mem_of_getElem?_insertMany {m : Std.HashMap α β} {l : List (α × β)} {k : α} {y : β}
    (h : (m.insertMany l)[k]? = some y) : m[k]? = some y ∨ (k, y) ∈ l := by
  induction l generalizing m with
  | nil => exact .inl (by simpa using h)
  | cons p l ih =>
    rw [Std.HashMap.insertMany_cons] at h
    rcases ih h with hinsert | hmem
    · rw [Std.HashMap.getElem?_insert] at hinsert
      split_ifs at hinsert with hk
      · cases hinsert
        exact .inr (eq_of_beq hk ▸ List.mem_cons_self)
      · exact .inl hinsert
    · exact .inr (List.mem_cons_of_mem _ hmem)

/-- What stands in a table that was made from a list stands in the list. -/
theorem mem_of_getElem?_ofList {l : List (α × β)} {k : α} {y : β}
    (h : (Std.HashMap.ofList l)[k]? = some y) : (k, y) ∈ l := by
  rw [Std.HashMap.ofList_eq_insertMany_empty] at h
  exact (mem_of_getElem?_insertMany h).resolve_left (by simp)

end Tables

theorem RunM.Keeps.operand {α β : Type} [Operand α] {w₀ : World} {d : Datum}
    {f : α → RunM β} {P : β → Prop} (hf : ∀ x, Keeps w₀ (f x) P) :
    Keeps w₀ (Primitive.operand d >>= f) P :=
  (quiet_ofExcept _).bind hf

namespace Primitive

open RunM

variable {w₀ : World}

/-- A primitive that leaves objects alone, whatever it is given. -/
def Effect.IsQuiet (w₀ : World) (e : Effect) : Prop := ∀ args, Quiet w₀ (e args)

theorem Effect.IsQuiet.answer {ρ : Type} [Answer ρ] {x : RunM ρ} (hx : Quiet w₀ x) :
    (effect x).IsQuiet w₀ := by
  intro args
  cases args with
  | nil => exact hx.map
  | cons a ds => exact .throw _

theorem Effect.IsQuiet.operand {α φ : Type} [Operand α] [IsEffect φ] {f : α → φ}
    (hf : ∀ x, (effect (f x)).IsQuiet w₀) : (effect f).IsQuiet w₀ := by
  intro args
  cases args with
  | nil => exact .throw _
  | cons a ds => exact Keeps.operand fun x => hf x ds

/-! ### Printing -/

theorem isQuiet_printEffects (he : e ∈ printEffects) : e.2.IsQuiet w₀ := by
  simp only [printEffects, List.mem_cons, List.not_mem_nil, or_false] at he
  rcases he with rfl | rfl | rfl | rfl | rfl | rfl | rfl | rfl | rfl
  all_goals first
    | exact .operand fun _ => .answer <| quiet_print _
    | exact .operand fun _ => .answer <| quiet_printError _
    | exact .operand fun _ => .operand fun _ => .answer <| quiet_print _
    | exact .operand fun _ => .operand fun _ => .answer <| quiet_printError _
    | exact .operand fun _ => .answer <| (quiet_ofExcept _).bind fun _ => quiet_print _

/-! ### Lists -/

theorem quiet_updatedList (l : Datum) (i : Int) (d : Datum) : Quiet w₀ (updatedList l i d) :=
  (quiet_items l).bind fun _ => (quiet_ofExcept _).bind fun _ => quiet_newList _

/-- The cell of a list holds no object. -/
theorem quiet_updateList (l : Datum) (i : Int) (d : Datum) : Quiet w₀ (updateList l i d) := by
  refine (keeps_items l).bind fun xs hlist => ?_
  cases l with
  | list r => exact (quiet_ofExcept _).bind fun _ => quiet_setItems (hlist r rfl) _
  | _ => exact .throw _

theorem quiet_readField (d : Datum) (name : String) : Quiet w₀ (readField d name) :=
  (quiet_object d).bind fun _ => (quiet_ofOption _).map

theorem isQuiet_openList : openList.IsQuiet w₀ := by
  intro args
  unfold openList
  split <;> exact .throw _

theorem isQuiet_listEffects (he : e ∈ listEffects) : e.2.IsQuiet w₀ := by
  simp only [listEffects, List.mem_cons, List.not_mem_nil, or_false] at he
  rcases he with rfl | rfl | rfl | rfl | rfl | rfl | rfl
  · exact .operand fun _ => .operand fun _ => .operand fun _ => .operand fun _ =>
      .answer <| quiet_updatedList _ _ _
  · exact .operand fun _ => .operand fun _ => .operand fun _ => .answer <| quiet_updatedList _ _ _
  · intro args
    dsimp only
    split
    · exact .throw _
    · exact Effect.IsQuiet.operand (fun _ => .operand fun _ => .operand fun _ =>
        .answer <| (quiet_updateList _ _ _).map) _
  · exact .operand fun _ => .operand fun _ => .answer <| (quiet_ofExcept _).bind fun _ =>
      quiet_newList _
  · exact isQuiet_openList
  · exact isQuiet_openList
  · exact .operand fun _ => .answer <| quiet_readField _ _

/-! ### Floating point -/

theorem quiet_floatResult (r : Nat × Ieee.Flags) : Quiet w₀ (floatResult r) :=
  (quiet_setSlot _ _).bind fun _ => (quiet_setSlot _ _).map

theorem isQuiet_floatUnary (f : Ieee.Rounding → Nat → Nat × Ieee.Flags) :
    (floatUnary f).IsQuiet w₀ :=
  .operand fun _ => .operand fun _ => .answer <| quiet_floatResult _

theorem isQuiet_floatBinary (f : Ieee.Rounding → Nat → Nat → Nat × Ieee.Flags) :
    (floatBinary f).IsQuiet w₀ :=
  .operand fun _ => .operand fun _ => .operand fun _ => .answer <| quiet_floatResult _

theorem isQuiet_floatTernary (f : Ieee.Rounding → Nat → Nat → Nat → Nat × Ieee.Flags) :
    (floatTernary f).IsQuiet w₀ :=
  .operand fun _ => .operand fun _ => .operand fun _ => .operand fun _ => .answer <|
    quiet_floatResult _

theorem isQuiet_floatCompare (f : Nat → Nat → Nat × Ieee.Flags) : (floatCompare f).IsQuiet w₀ :=
  .operand fun _ => .operand fun _ => .answer <| quiet_floatResult _

theorem isQuiet_formatEffects {f : Ieee.Format} (he : e ∈ formatEffects name f) :
    e.2.IsQuiet w₀ := by
  simp only [formatEffects, List.mem_append, List.mem_map] at he
  rcases he with ((⟨⟨n, e⟩, he, rfl⟩ | ⟨⟨n, t⟩, -, rfl⟩) | ⟨⟨n, t⟩, -, rfl⟩) | ⟨⟨n, t⟩, -, rfl⟩
  · simp only [List.mem_cons, List.not_mem_nil, or_false] at he
    rcases he with ⟨-, rfl⟩ | ⟨-, rfl⟩ | ⟨-, rfl⟩ | ⟨-, rfl⟩ | ⟨-, rfl⟩ | ⟨-, rfl⟩ | ⟨-, rfl⟩ |
      ⟨-, rfl⟩ | ⟨-, rfl⟩ | ⟨-, rfl⟩ | ⟨-, rfl⟩ | ⟨-, rfl⟩
    any_goals simp only [isQuiet_floatUnary, isQuiet_floatBinary, isQuiet_floatTernary,
      isQuiet_floatCompare]
    exact fun _ => .throw _
  all_goals exact isQuiet_floatUnary _

theorem isQuiet_floatEffects (he : e ∈ floatEffects) : e.2.IsQuiet w₀ := by
  obtain ⟨⟨n, f⟩, -, he⟩ := List.mem_flatMap.mp he
  exact isQuiet_formatEffects he

/-! ### Memory -/

theorem quiet_readByteWise (a : UInt64) (fetch : Bool) (n : Nat) (acc : Option Bits) :
    Quiet w₀ (readByteWise a fetch n acc) := by
  induction n generalizing acc with
  | zero => exact .pure trivial
  | succ n ih =>
    refine (quiet_onMemory _).bind fun _ => (quiet_ofExcept _).bind fun _ => ?_
    cases acc with
    | none => exact ih _
    | some v => exact (quiet_ofExcept _).bind fun _ => ih _

theorem quiet_writeByteWise (a : UInt64) (data : Bits) (n start : Nat) :
    Quiet w₀ (writeByteWise a data n start) := by
  induction n generalizing start with
  | zero => exact Keeps.ite (.pure trivial) (.throw _)
  | succ n ih =>
    exact (quiet_ofExcept _).bind fun _ => (quiet_onMemory _).bind fun _ => ih _

theorem quiet_addressOf (d : Datum) : Quiet w₀ (addressOf d) := by
  cases d with
  | bits b => exact quiet_ofExcept _
  | integer z => exact .pure trivial
  | _ => exact .throw _

theorem isQuiet_readPlatform : readPlatform.IsQuiet w₀ := by
  intro args
  unfold readPlatform
  split
  · refine Keeps.guard ?_
    refine (quiet_addressOf _).bind fun a => .operand fun n =>
      Quiet.get.bind fun w => .ite ?_ ((quiet_readByteWise _ _ _ _).bind fun b => ?_)
    · exact (quiet_onMemory _).bind fun _ => (quiet_ofExcept _).map
    · cases b <;> exact .pure trivial
  · exact .throw _

theorem isQuiet_writePlatform : writePlatform.IsQuiet w₀ := by
  intro args
  unfold writePlatform
  split
  · refine Keeps.guard ?_
    refine .operand fun data => .operand fun n => Keeps.guard ?_
    refine (quiet_addressOf _).bind fun a => .ite ?_ ?_
    · exact (quiet_ofExcept _).bind fun _ => (quiet_onMemory _).map
    · exact (quiet_writeByteWise _ _ _ _).map
  · exact .throw _

theorem isQuiet_boxedEffect {e : Effect} (he : e.IsQuiet w₀) {e' : String × Effect}
    (he' : e' ∈ boxedEffect name e) : e'.2.IsQuiet w₀ := by
  unfold boxedEffect at he'
  split at he'
  · simp only [List.mem_cons, List.not_mem_nil, or_false] at he'
    rcases he' with rfl | rfl
    · exact fun args => (quiet_ofExcept _).bind fun _ => he _
    · exact he
  · simp only [List.mem_cons, List.not_mem_nil, or_false] at he'
    exact he' ▸ he

theorem isQuiet_memoryEffects (he : e ∈ memoryEffects) : e.2.IsQuiet w₀ := by
  simp only [memoryEffects, List.mem_append, List.mem_cons, List.not_mem_nil, or_false] at he
  rcases he with (he | he) | rfl | rfl | rfl
  · exact isQuiet_boxedEffect isQuiet_readPlatform he
  · exact isQuiet_boxedEffect isQuiet_writePlatform he
  · exact .operand fun _ => .operand fun _ => .operand fun _ => .operand fun _ => .answer <|
      Quiet.get.bind fun _ => quiet_onMemory _
  · exact .operand fun _ => .answer <| quiet_onMemory _
  · exact .operand fun _ => .operand fun _ => .answer <| (quiet_onMemory _).map

/-! ### The whole table -/

theorem isQuiet_otherEffects (he : e ∈ otherEffects) : e.2.IsQuiet w₀ := by
  simp only [otherEffects, List.mem_cons, List.not_mem_nil, or_false] at he
  rcases he with rfl | rfl
  · intro args
    dsimp only
    split
    · exact quiet_slot _
    · exact .pure trivial
    · exact .throw _
  · exact .operand fun _ => .operand fun _ => .answer <| .ite (.pure trivial) (.throw _)

theorem isQuiet_effects (he : e ∈ effects) : e.2.IsQuiet w₀ := by
  simp only [effects, List.mem_append] at he
  rcases he with ((((he | he) | he) | he) | he) | he
  · obtain ⟨n, -, rfl⟩ := List.mem_map.mp he
    exact fun _ => .throw _
  · exact isQuiet_printEffects he
  · exact isQuiet_listEffects he
  · exact isQuiet_floatEffects he
  · exact isQuiet_memoryEffects he
  · exact isQuiet_otherEffects he

theorem isQuiet_find? {e : Effect} (he : find? name = some e) : e.IsQuiet w₀ := by
  unfold find? at he
  split at he
  · cases he
    exact fun _ => .throw _
  · obtain ⟨e', he', rfl⟩ := Option.map_eq_some_iff.mp he
    have hmem := mem_of_getElem?_ofList he'
    have hquiet : e'.IsQuiet w₀ := by
      rcases List.mem_append.mp hmem with hfunction | heffect
      · obtain ⟨f, -, hf⟩ := List.mem_map.mp hfunction
        cases hf
        exact fun _ => quiet_ofExcept _
      · exact isQuiet_effects heffect
    exact fun args => .ite (.throw _) (hquiet args)

theorem quiet_call (name : String) (args : List Datum) : Quiet w₀ (call name args) :=
  (keeps_ofOption fun _ he => isQuiet_find? he).bind fun _ he => he args

/-! ### Operations of a receiver -/

theorem quiet_wordList (ws : List UInt64) : Quiet w₀ (wordList ws) := quiet_newList _

theorem quiet_packInteger (z : Integer) : Quiet w₀ (packInteger z) := by
  cases z with
  | small n => exact .pure trivial
  | big s ds => exact (quiet_wordList ds).map

theorem quiet_packBits (b : Bits) : Quiet w₀ (packBits b) := by
  cases b with
  | small w v => exact .pure trivial
  | sparse w v => exact .pure trivial
  | wide w ws => exact (quiet_wordList ws).map

theorem quiet_wordsOf (d : Datum) : Quiet w₀ (wordsOf d) :=
  (quiet_items d).bind fun _ => Quiet.mapM fun _ _ => quiet_ofExcept _

theorem quiet_unpackBits (width : Int) (v : UInt64) (data : Datum) :
    Quiet w₀ (unpackBits width v data) := by
  refine Keeps.ite ?_ (.ite (quiet_ofExcept _) ?_)
  · exact Keeps.guard (quiet_ofExcept _)
  · exact (quiet_wordsOf _).bind fun _ => quiet_ofExcept _

theorem quiet_unpackInteger (n : Int) (data : Datum) : Quiet w₀ (unpackInteger n data) := by
  exact Keeps.ite (quiet_ofExcept _) (quiet_wordsOf _).map

theorem quiet_methodOf (table : List (String × Function)) (name : String) (args : List Datum) :
    Quiet w₀ (methodOf table name args) :=
  (quiet_ofOption _).bind fun _ => quiet_ofExcept _

theorem quiet_callMethod (name : String) (args : List Datum) : Quiet w₀ (callMethod name args) := by
  unfold callMethod
  split
  · exact .ite ((quiet_packInteger _).bind fun _ => quiet_newList _) (quiet_methodOf _ _ _)
  · exact .ite ((quiet_packBits _).bind fun _ => quiet_newList _) (quiet_methodOf _ _ _)
  · exact .ite ((quiet_ofExcept _).bind fun _ => (quiet_ofExcept _).bind fun _ => quiet_newList _)
      (quiet_methodOf _ _ _)
  · exact .throw _

/-- Numbers are not copied. -/
theorem callMethod_copy_into (args : List Datum) :
    callMethod "copy_into" args = throw .internal := by
  have hnone : integerMethods.lookup "copy_into" = none ∧ bitsMethods.lookup "copy_into" = none ∧
      rationalMethods.lookup "copy_into" = none := ⟨rfl, rfl, rfl⟩
  unfold callMethod
  split
  · exact congrArg (ofOption · >>= _) hnone.1
  · exact congrArg (ofOption · >>= _) hnone.2.1
  · exact congrArg (ofOption · >>= _) hnone.2.2
  · rfl

end Primitive

end Jib
