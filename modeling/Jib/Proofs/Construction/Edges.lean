import Jib.Proofs.Construction.Cut
import Mathlib.Data.List.Sort

/-!
# Ways between blocks

Which blocks lead to a block, and in which order they are listed.  In a well-formed
body every block but the first is entered from an earlier one, and the start of a loop from one
earlier block only.
-/

namespace Jib

variable {block : List Step} {i j q : Nat} {s : Statement}

namespace StepBlocks

variable {bs : StepBlocks} {q j : Int}

theorem mem_ways (hvalid : bs.Valid) :
    (q, j) ∈ bs.ways ↔ ∃ block, bs.get? q = some block ∧ j ∈ targets block := by
  simp [ways, hvalid.mem_toList]

theorem mem_entering (hvalid : bs.Valid) :
    q ∈ entering bs.ways j ↔ ∃ block, bs.get? q = some block ∧ j ∈ targets block := by
  rw [← mem_ways hvalid]
  simp [entering]

/-- Blocks are entered in ascending order if they are numbered so. -/
theorem entering_pairwise (hvalid : bs.Valid) (hkeys : bs.keys.toList.Pairwise (· < ·)) (j : Int) :
    (entering bs.ways j).Pairwise (· ≤ ·) := by
  rw [← hvalid.map_fst_toList, List.pairwise_map] at hkeys
  refine List.pairwise_map.mpr (.filter _ (List.pairwise_flatMap.mpr ⟨fun x _ => ?_, ?_⟩))
  · exact List.pairwise_map.mpr (List.pairwise_of_forall fun _ _ => le_rfl)
  · refine hkeys.imp fun hlt p hp p' hp' => ?_
    obtain ⟨_, _, rfl⟩ := List.mem_map.mp hp
    obtain ⟨_, _, rfl⟩ := List.mem_map.mp hp'
    exact hlt.le

theorem entering_nodup (hvalid : bs.Valid)
    (honce : ∀ q block, bs.get? q = some block → (targets block).count j ≤ 1) :
    (entering bs.ways j).Nodup := by
  have hkeys := hvalid.nodup
  rw [← hvalid.map_fst_toList, List.Nodup, List.pairwise_map] at hkeys
  rw [entering, ways, List.filter_flatMap, List.map_flatMap, List.nodup_flatMap]
  constructor
  · rintro ⟨q, block⟩ hmem
    have hcount := honce q block (hvalid.mem_toList.mp hmem)
    rw [List.count_eq_length_filter] at hcount
    rw [List.filter_map, List.map_map]
    change (((targets block).filter (· == j)).map fun _ => q).Nodup
    rcases hlist : (targets block).filter (· == j) with _ | ⟨t, _ | ⟨t', l⟩⟩
    · exact List.nodup_nil
    · exact List.nodup_singleton _
    · rw [hlist] at hcount
      simp at hcount
  · refine hkeys.imp fun hne p hp hp' => hne ?_
    simp only [List.mem_map, List.mem_filter] at hp hp'
    obtain ⟨_, ⟨⟨_, _, rfl⟩, _⟩, rfl⟩ := hp
    obtain ⟨_, ⟨⟨_, _, rfl⟩, _⟩, hq⟩ := hp'
    exact hq.symm

end StepBlocks

/-- The places that control may go to from a statement, once for each way. -/
def Statement.targets (i : Nat) : Statement → List Int
  | .goto t => [t]
  | .jump _ t _ => [t, ((i + 1 : Nat) : Int)]
  | .exit .. | .finish | .arbitrary => []
  | _ => [((i + 1 : Nat) : Int)]

theorem Statement.mem_targets : (j : Int) ∈ s.targets i ↔ s.LeadsTo i j := by
  cases s <;> simp only [targets, LeadsTo, List.mem_cons, List.not_mem_nil, or_false] <;> omega

namespace FunctionBody

variable {f : FunctionBody} {types : String → Ty} {known : String → Option Const}

/-- Whether control goes from the block at one label to the block at another one. -/
def Leads (f : FunctionBody) (q j : Nat) : Prop :=
  f.IsLabel j ∧ ∃ i, q ≤ i ∧ (∀ k, q < k → k ≤ i → ¬ f.IsLabel k) ∧ f.Edge i j

/-- A statement that control runs on from is not the last one. -/
theorem succ_lt_length (hwell : f.WellFormed types known) (hstatement : f.statements[i]? = some s)
    (hends : s.endsBlock = false) : i + 1 < f.statements.length := by
  obtain ⟨last, hlast, hlastEnds⟩ := hwell.ends
  have hi := (List.getElem?_eq_some_iff.mp hstatement).1
  by_contra hge
  have hindex : f.statements.length - 1 = i := by omega
  rw [List.getLast?_eq_getElem?, hindex, hstatement, Option.some.injEq] at hlast
  rw [hlast, hlastEnds] at hends
  cases hends

theorem isLabel_of_jump (hwell : f.WellFormed types known) (hstatement : f.statements[i]? = some s)
    (hplain : s.isPlain = false) (hleads : s.LeadsTo i j) : f.IsLabel j := by
  have hmem := List.mem_of_getElem? hstatement
  have htarget (hj : s.target? = some (j : Int)) : f.IsLabel j :=
    isLabel_of_target hmem hj (by
      have := (hwell.target s hmem j hj).2
      omega)
  cases s with
  | goto t => exact htarget (congrArg some hleads)
  | jump c t p =>
    rcases hleads with hj | rfl
    · exact htarget (congrArg some hj)
    · exact isLabel_behind_jump hstatement (succ_lt_length hwell hstatement rfl)
  | exit | finish | arbitrary => exact hleads.elim
  | _ => cases hplain

theorem leadsTo_of_isPlain (hplain : s.isPlain = true) : s.LeadsTo i j ↔ j = i + 1 := by
  cases s <;> first | rfl | cases hplain

theorem pos_of_mem_targets (hwell : f.WellFormed types known)
    (hstatement : f.statements[i]? = some s) {t : Int} (ht : t ∈ s.targets i) : 0 < t := by
  have htarget (u : Int) (hu : s.target? = some u) : 0 < u :=
    (hwell.target s (List.mem_of_getElem? hstatement) u hu).1
  cases s with
  | goto u => exact List.mem_singleton.mp ht ▸ htarget u rfl
  | jump c u p =>
    rcases List.mem_pair.mp ht with rfl | rfl
    · exact htarget t rfl
    · omega
  | exit | finish | arbitrary => cases ht
  | _ => exact List.mem_singleton.mp ht ▸ Int.natCast_pos.mpr i.succ_pos

theorem target?_of_isPlain (hplain : s.isPlain = true) : Step.target? (.statement s) = none := by
  cases s <;> first | rfl | cases hplain

/-- The last statement of a block decides where the block leads. -/
theorem Run.exists_last (hrun : f.Run q block) :
    ∃ i s, q ≤ i ∧ (∀ k, q < k → k ≤ i → ¬ f.IsLabel k) ∧ f.statements[i]? = some s ∧
      (s.isPlain = true → f.IsLabel (i + 1)) ∧ StepBlocks.targets block = s.targets i := by
  induction hrun with
  | @last i s hstatement hends =>
    refine ⟨i, s, le_rfl, fun k hk hk' => absurd hk (by omega), hstatement, fun hplain => ?_, ?_⟩
    · rw [endsBlock_of_isPlain hplain] at hends
      cases hends
    · cases s <;> first | rfl | cases hends
  | @jump i c t p hstatement =>
    exact ⟨i, _, le_rfl, fun k hk hk' => absurd hk (by omega), hstatement, nofun, rfl⟩
  | @fall i s hstatement hplain hlabel =>
    refine ⟨i, s, le_rfl, fun k hk hk' => absurd hk (by omega), hstatement, fun _ => hlabel, ?_⟩
    cases s <;> first | rfl | cases hplain
  | @more i s rest hstatement hplain hlabel hrest ih =>
    obtain ⟨i', s', hle, hinside, hs', hnext, htargets⟩ := ih
    refine ⟨i', s', by omega, fun k hk hk' => ?_, hs', hnext, ?_⟩
    · rcases Nat.eq_or_lt_of_le hk with rfl | hlt
      · exact hlabel
      · exact hinside k hlt hk'
    · rw [StepBlocks.targets, List.filterMap_cons, target?_of_isPlain hplain]
      exact htargets

section

variable (hwell : f.WellFormed types known)
include hwell

theorem Run.mem_targets (hrun : f.Run q block) {j : Int} :
    j ∈ StepBlocks.targets block ↔ ∃ k : Nat, j = k ∧ f.Leads q k := by
  obtain ⟨i, s, hle, hinside, hs, hnext, htargets⟩ := hrun.exists_last
  rw [htargets]
  constructor
  · intro hj
    obtain ⟨k, rfl⟩ := Int.eq_ofNat_of_zero_le (pos_of_mem_targets hwell hs hj).le
    have hleads := Statement.mem_targets.mp hj
    refine ⟨k, rfl, ?_, i, hle, hinside, s, hs, hleads⟩
    cases hplain : s.isPlain with
    | false => exact isLabel_of_jump hwell hs hplain hleads
    | true =>
      rw [(leadsTo_of_isPlain hplain).mp hleads]
      exact hnext hplain
  · rintro ⟨k, rfl, hlabel, i', hle', hinside', s', hs', hleads⟩
    have hi := (List.getElem?_eq_some_iff.mp hs).1
    have hi' := (List.getElem?_eq_some_iff.mp hs').1
    rcases Nat.lt_trichotomy i' i with hlt | rfl | hlt
    · have hno := hinside (i' + 1) (by omega) (by omega)
      have hplain := isPlain_of_not_label hwell hs' (by omega) hno
      rw [(leadsTo_of_isPlain hplain).mp hleads] at hlabel
      exact absurd hlabel hno
    · cases hs.symm.trans hs'
      exact Statement.mem_targets.mpr hleads
    · have hno := hinside' (i + 1) (by omega) (by omega)
      exact absurd (hnext (isPlain_of_not_label hwell hs (by omega) hno)) hno

/-- A block jumps to another one twice only by a jump to the place behind it. -/
theorem Run.count_targets (hrun : f.Run q block)
    (hcount : 1 < (StepBlocks.targets block).count (j : Int)) :
    q < j ∧ (∃ h, h < j ∧ f.IsLoop h) ∧ ¬ f.IsLoop j := by
  obtain ⟨i, s, hle, -, hs, -, htargets⟩ := hrun.exists_last
  rw [htargets] at hcount
  cases s with
  | jump c t p =>
    rw [Statement.targets, List.count_cons, List.count_singleton] at hcount
    have hboth : ((i + 1 : Nat) : Int) = j ∧ t = j := by
      split_ifs at hcount with hj ht <;> simp_all
    obtain ⟨rfl, rfl⟩ : i + 1 = j ∧ t = j := ⟨by omega, hboth.2⟩
    obtain ⟨⟨h, hh, hloop⟩, hno⟩ := hwell.idle_jump i c p hs
    exact ⟨by omega, ⟨h, by omega, hloop⟩, hno⟩
  | _ => exact absurd (hcount.trans_le List.count_le_length) (by simp [Statement.targets])

/-- Every place is in a block. -/
theorem exists_label_le (i : Nat) : ∃ q ≤ i, f.IsLabel q ∧ ∀ k, q < k → k ≤ i → ¬ f.IsLabel k := by
  induction i with
  | zero => exact ⟨0, le_rfl, isLabel_zero hwell, fun k hk hk' => absurd hk (by omega)⟩
  | succ i ih =>
    by_cases hlabel : f.IsLabel (i + 1)
    · exact ⟨i + 1, le_rfl, hlabel, fun k hk hk' => absurd hk (by omega)⟩
    · obtain ⟨q, hq, hlabel', hinside⟩ := ih
      refine ⟨q, by omega, hlabel', fun k hk hk' => ?_⟩
      rcases Nat.eq_or_lt_of_le hk' with rfl | hlt
      · exact hlabel
      · exact hinside k hk (by omega)

theorem exists_leads (hlabel : f.IsLabel j) (hedge : f.Edge i j) :
    ∃ q ≤ i, f.IsLabel q ∧ f.Leads q j ∧ (j ≤ i → j ≤ q) := by
  obtain ⟨q, hq, hq', hinside⟩ := exists_label_le hwell i
  refine ⟨q, hq, hq', ⟨hlabel, i, hq, hinside, hedge⟩, fun hj => ?_⟩
  by_contra hlt
  exact hinside j (by omega) hj hlabel

/-- Every block but the first is entered from an earlier one. -/
theorem exists_leads_lt (hlabel : f.IsLabel j) (hj : j ≠ 0) :
    ∃ q < j, f.IsLabel q ∧ f.Leads q j := by
  have hearlier : ∃ i < j, f.Edge i j := by
    rcases StepBlocks.mem_labels.mp hlabel.1 with ⟨s, hs, htarget⟩ | ⟨i, s, hs, hjump, hi⟩
    · obtain ⟨s, hmem, rfl⟩ := List.mem_map.mp hs
      cases htarget' : Step.target? (.statement s) with
      | none =>
        rw [htarget', Option.getD_none] at htarget
        omega
      | some t =>
        rw [htarget'] at htarget
        exact hwell.entered s hmem j (by rw [← htarget]; exact htarget')
    · rw [steps, List.getElem?_map, Option.map_eq_some_iff] at hs
      obtain ⟨s, hs, rfl⟩ := hs
      have hj' : j = i + 1 := by omega
      cases s with
      | jump c t p => exact ⟨i, by omega, _, hs, .inr hj'⟩
      | _ => cases hjump
  obtain ⟨i, hi, hedge⟩ := hearlier
  obtain ⟨q, hq, hq', hleads, -⟩ := exists_leads hwell hlabel hedge
  exact ⟨q, by omega, hq', hleads⟩

theorem not_leads_zero (q : Nat) : ¬ f.Leads q 0 := by
  rintro ⟨-, i, -, -, s, hs, hleads⟩
  exact absurd (pos_of_mem_targets hwell hs (Statement.mem_targets.mpr hleads)) (lt_irrefl _)

/-- A loop starts where a block leads back to. -/
theorem isLoop_iff_leads (hlabel : f.IsLabel j) :
    f.IsLoop j ↔ ∃ q, j ≤ q ∧ f.IsLabel q ∧ f.Leads q j := by
  constructor
  · rintro ⟨i, hi, hedge⟩
    obtain ⟨q, -, hq, hleads, hle⟩ := exists_leads hwell hlabel hedge
    exact ⟨q, hle hi, hq, hleads⟩
  · rintro ⟨q, hq, -, -, i, hi, -, hedge⟩
    exact ⟨i, by omega, hedge⟩

theorem IsLoop.isLabel (hloop : f.IsLoop j) : f.IsLabel j := by
  obtain ⟨i, hi, s, hstatement, hleads⟩ := hloop
  cases hplain : s.isPlain with
  | false => exact isLabel_of_jump hwell hstatement hplain hleads
  | true =>
    have := (leadsTo_of_isPlain hplain).mp hleads
    omega

theorem Leads.eq_of_isLoop {q' : Nat} (hq : f.IsLabel q) (hq' : f.IsLabel q') (hloop : f.IsLoop j)
    (hleads : f.Leads q j) (hleads' : f.Leads q' j) (hlt : q < j) (hlt' : q' < j) : q = q' := by
  obtain ⟨hlabel, i, hi, hinside, hedge⟩ := hleads
  obtain ⟨-, i', hi', hinside', hedge'⟩ := hleads'
  have hij : i < j := by
    by_contra hge
    exact hinside j hlt (by omega) hlabel
  have hij' : i' < j := by
    by_contra hge
    exact hinside' j hlt' (by omega) hlabel
  have heq : i = i' := hwell.loop_entered_once i i' j hloop hij hij' hedge hedge'
  subst heq
  -- both are the last label up to the same place
  rcases Nat.lt_trichotomy q q' with hlt | heq | hlt
  · exact absurd hq' (hinside q' hlt hi')
  · exact heq
  · exact absurd hq (hinside' q hlt hi)

end

end FunctionBody

end Jib
