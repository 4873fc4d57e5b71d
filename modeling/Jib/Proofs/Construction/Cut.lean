import Jib.Proofs.Construction.Scope
import Jib.Proofs.Table

/-!
# Cutting bodies into blocks

A block runs from a label up to the statement before the next label.  The blocks of a well-formed
body are numbered by its labels in ascending order, every statement of a block but the last one is
plain, and executing a block is executing its statements one after the other.
-/

namespace Jib

open Jib.StepBlocks

variable {s : Statement} {i : Nat}

namespace StepBlocks

theorem mem_labels {body : List Step} {k : Int} :
    k ∈ labels body ↔ (∃ s ∈ body, s.target?.getD 0 = k) ∨
      ∃ (i : Nat) (s : Step), body[i]? = some s ∧ s.isJump = true ∧ k = (i : Int) + 1 := by
  simp only [labels, List.mem_append, List.mem_map, List.mem_filterMap]
  refine or_congr Iff.rfl ⟨?_, ?_⟩
  · rintro ⟨⟨s, i⟩, hmem, hlabel⟩
    rw [List.mem_zipIdx_iff_getElem?] at hmem
    split at hlabel
    · rename_i hjump
      exact ⟨i, s, hmem, hjump, (Option.some.inj hlabel).symm⟩
    · cases hlabel
  · rintro ⟨i, s, hs, hjump, rfl⟩
    exact ⟨(s, i), List.mem_zipIdx_iff_getElem?.mpr hs, by simp [hjump]⟩

end StepBlocks

namespace FunctionBody

variable {f : FunctionBody} {types : String → Ty} {known : String → Option Const}

def steps (f : FunctionBody) : List Step := f.statements.map Step.statement

/-- A place where a block starts. -/
def IsLabel (f : FunctionBody) (j : Nat) : Prop :=
  (j : Int) ∈ labels f.steps ∧ j < f.statements.length

/-- The steps from a place on up to the end of its block. -/
inductive Run (f : FunctionBody) : Nat → List Step → Prop
  | last {i : Nat} {s : Statement} (hstatement : f.statements[i]? = some s)
      (hends : s.endsBlock = true) : Run f i [.statement s]
  | jump {i : Nat} {c : Condition} {t : Int} {p : Option String}
      (hstatement : f.statements[i]? = some (.jump c t p)) :
      Run f i [.statement (.jump c t p), .goto ((i + 1 : Nat) : Int)]
  | fall {i : Nat} {s : Statement} (hstatement : f.statements[i]? = some s)
      (hplain : s.isPlain = true) (hlabel : f.IsLabel (i + 1)) :
      Run f i [.statement s, .goto ((i + 1 : Nat) : Int)]
  | more {i : Nat} {s : Statement} {rest : List Step} (hstatement : f.statements[i]? = some s)
      (hplain : s.isPlain = true) (hlabel : ¬ f.IsLabel (i + 1)) (hrest : Run f (i + 1) rest) :
      Run f i (.statement s :: rest)

theorem isLabel_of_target {j : Nat} (hs : s ∈ f.statements) (htarget : s.target? = some (j : Int))
    (hj : j < f.statements.length) : f.IsLabel j := by
  refine ⟨mem_labels.mpr (.inl ⟨.statement s, List.mem_map_of_mem hs, ?_⟩), hj⟩
  rw [Statement.target?] at htarget
  rw [htarget]
  rfl

theorem isLabel_behind_jump {c : Condition} {t : Int} {p : Option String}
    (hstatement : f.statements[i]? = some (.jump c t p)) (hi : i + 1 < f.statements.length) :
    f.IsLabel (i + 1) := by
  refine ⟨mem_labels.mpr (.inr ⟨i, .statement (.jump c t p), ?_, rfl, by simp⟩), hi⟩
  rw [steps, List.getElem?_map, hstatement]
  rfl

theorem isLabel_zero (hwell : f.WellFormed types known) : f.IsLabel 0 := by
  obtain ⟨s, hs, htarget⟩ := hwell.no_jump
  refine ⟨mem_labels.mpr (.inl ⟨.statement s, List.mem_map_of_mem hs, ?_⟩),
    List.length_pos_of_mem hs⟩
  rw [show Step.target? (.statement s) = none from htarget]
  rfl

theorem isPlain_or_endsBlock_or_jump (s : Statement) :
    s.isPlain = true ∨ s.endsBlock = true ∨ ∃ c t p, s = .jump c t p := by
  cases s <;> simp [Statement.isPlain, Statement.endsBlock]

theorem endsBlock_of_isPlain (hplain : s.isPlain = true) : s.endsBlock = false := by
  cases s <;> first | rfl | cases hplain

/-- A statement whose successor is no label is plain. -/
theorem isPlain_of_not_label (hwell : f.WellFormed types known)
    (hstatement : f.statements[i]? = some s) (hi : i + 1 < f.statements.length)
    (hlabel : ¬ f.IsLabel (i + 1)) : s.isPlain = true := by
  rcases isPlain_or_endsBlock_or_jump s with hplain | hends | ⟨c, t, p, rfl⟩
  · exact hplain
  · obtain ⟨s', hs', htarget⟩ := hwell.behind_end i s hstatement hends hi
    exact absurd (isLabel_of_target hs' htarget hi) hlabel
  · exact absurd (isLabel_behind_jump hstatement hi) hlabel

theorem drop_steps {s : Step} {l : List Step} (hdrop : f.steps.drop i = s :: l) :
    ∃ s₀, s = .statement s₀ ∧ f.statements[i]? = some s₀ ∧ f.steps.drop (i + 1) = l ∧
      f.statements.length = i + 1 + l.length := by
  have hhead : f.steps[i]? = some s := by rw [← List.head?_drop, hdrop]; rfl
  have htail : f.steps.drop (i + 1) = l := by rw [← List.tail_drop, hdrop]; rfl
  rw [steps, List.getElem?_map, Option.map_eq_some_iff] at hhead
  obtain ⟨s₀, hs₀, rfl⟩ := hhead
  have hlength := congrArg List.length hdrop
  rw [List.length_drop, steps, List.length_map, List.length_cons] at hlength
  exact ⟨s₀, rfl, hs₀, htail, by omega⟩

/-- The steps of a block, up to a jump to the next label where control would run on. -/
theorem run_upToLabel (hwell : f.WellFormed types known) (l : List Step) (i : Nat) (s : Step)
    (hdrop : f.steps.drop i = s :: l) :
    f.Run i (upToLabel (labels f.steps) (s :: l) i) := by
  induction l generalizing i s with
  | nil =>
    obtain ⟨s₀, rfl, hs₀, -, hlength⟩ := drop_steps hdrop
    obtain ⟨last, hlast, hends⟩ := hwell.ends
    rw [List.getLast?_eq_getElem?, hlength, List.length_nil, Nat.add_zero, Nat.add_sub_cancel,
      hs₀, Option.some.injEq] at hlast
    subst hlast
    have hlast : upToLabel (labels f.steps) [.statement s₀] i = [.statement s₀] := if_pos hends
    rw [hlast]
    exact .last hs₀ hends
  | cons s' l ih =>
    obtain ⟨s₀, rfl, hs₀, hrest, hlength⟩ := drop_steps hdrop
    rw [List.length_cons] at hlength
    rw [upToLabel]
    split_ifs with hlabel hends
    · exact .last hs₀ hends
    · rcases isPlain_or_endsBlock_or_jump s₀ with hplain | hends' | ⟨c, t, p, rfl⟩
      · exact .fall hs₀ hplain ⟨List.contains_iff_mem.mp hlabel, by omega⟩
      · exact absurd hends' hends
      · exact .jump hs₀
    · have hno : ¬ f.IsLabel (i + 1) := fun h => hlabel (List.contains_iff_mem.mpr h.1)
      exact .more hs₀ (isPlain_of_not_label hwell hs₀ (by omega) hno) hno (ih (i + 1) s' hrest)

def labelList (f : FunctionBody) : List Nat := starts f.steps

theorem mem_labelList {j : Nat} : j ∈ f.labelList ↔ f.IsLabel j := by
  simp [labelList, starts, steps, IsLabel, and_comm]

/-- The blocks of a body are the runs from its labels. -/
theorem ofBody_run (hwell : f.WellFormed types known) :
    ∃ blocks, ofBody f.steps = .ok blocks ∧ blocks.Valid ∧
      blocks.keys.toList = f.labelList.map Int.ofNat ∧
      ∀ j : Nat, f.IsLabel j → ∃ block, blocks.get? j = some block ∧ f.Run j block := by
  set entry : Nat → Int × List Step := fun i =>
    (Int.ofNat i, upToLabel (labels f.steps) (f.steps.drop i) i)
  have hkeys : (f.labelList.map entry).map Prod.fst = f.labelList.map Int.ofNat := List.map_map
  have hnodup : ((f.labelList.map entry).map Prod.fst).Nodup := by
    rw [hkeys]
    exact (List.nodup_range.filter _).map fun _ _ => Int.ofNat.inj
  have hzero : (0 : Int) ∈ labels f.steps := (isLabel_zero hwell).1
  refine ⟨Table.ofList (f.labelList.map entry), if_neg (by simp [hzero]), Table.Valid.ofList _,
    by rw [Table.keys_ofList hnodup, hkeys], fun j hj => ?_⟩
  obtain ⟨s, l, hdrop⟩ : ∃ s l, f.steps.drop j = s :: l := by
    refine List.exists_cons_of_length_pos ?_
    rw [List.length_drop, steps, List.length_map]
    exact Nat.sub_pos_of_lt hj.2
  refine ⟨_, ?_, hdrop ▸ run_upToLabel hwell l j s hdrop⟩
  rw [Table.get?_ofList hnodup]
  exact List.mem_map_of_mem (mem_labelList.mpr hj)

end FunctionBody

end Jib
