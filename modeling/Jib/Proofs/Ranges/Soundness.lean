import Jib.Proofs.Ranges.Completion

/-!
# The interval analysis is sound

The intervals that an analysis has recorded when it is through contain the numbers of all runs.
-/

namespace Jib.Graph

variable {V E M : Type} {I : Interpretation V E M} {number : V → Option Int} {bn : Builtins}
variable {g : Graph} {a : Arena} {t : RangeTable} {ρ : Valuation V} {b : BlockId} {ys : List V}

/-- Whenever a run gets to the end of a block, the analysis has recorded intervals for the block,
and every argument and every number computed in the block or in one that dominates it lies in its
interval. -/
theorem analyzeRanges_contains (hI : I.Arithmetical number bn) (hwt : g.WellTyped a)
    (hloop : g.LoopFree a) (hanalyze : g.analyzeRanges bn a = .ok t)
    (hinputs : g.Inputs a number ys) (hends : g.Ends I a ys b ρ) :
    ∃ here, t[b]? = some here ∧
      ∀ v, (v ∈ g.args ∨ ∃ d, g.Dominates a d b ∧ v ∈ a.ops d) → isRangeType (a.typeOf v) = true →
        ∃ y n r, ρ v = some y ∧ number y = some n ∧ here[v]? = some r ∧ r.contains n = true := by
  obtain ⟨order, horder, hfold⟩ := exists_ok_of_bind hanalyze
  obtain ⟨hnodup, hall, hready⟩ := topoOrder_spec hloop horder
  rw [← Array.foldlM_toList] at hfold
  have hanalyzed := (analyzed_start hinputs).walk hI hwt hloop hinputs hnodup hready hfold
  obtain ⟨hb, hscope, -⟩ := hends.scope hI hwt hloop hinputs
  obtain ⟨here, hhere, hcovers⟩ := hanalyzed.ended b
    (by simpa using Array.mem_toList_iff.mpr (hall b hb)) ρ hends
  refine ⟨here, hhere, fun v hv htype => ?_⟩
  obtain ⟨y, hy⟩ : ∃ y, ρ v = some y := by
    rcases hv with harg | ⟨d, hd, hmem⟩
    · exact hscope.argument v harg
    · exact hscope.exists_value hd hmem
  obtain ⟨r, hr, n, hn, hnumber⟩ := hcovers v y (by simp) htype hy
  exact ⟨y, n, r, hy, hnumber, hr, hn⟩

/-! ### A number up to ten -/

/-- One more than a number up to ten, and five for a larger one. -/
def bounded : Graph := ⟨"zbounded", #[0], 0, false⟩

def boundedArena : Arena where
  values := #[.argument "zx" .int, .const (.int 10),
    .op ⟨.call, "lteq", #[0, 1], .bool, none, none⟩,
    .const (.int 1), .op ⟨.call, "add_int", #[0, 3], .int, none, none⟩, .const (.int 5),
    .phi ⟨#[1, 2], #[4, 5], .int⟩]
  blocks := #[⟨#[2], .branch 2 1 2 none⟩, ⟨#[4], .goto 3 none⟩, ⟨#[], .goto 3 none⟩,
    ⟨#[6], .ret (some 6) none⟩]

theorem ops_bounded : boundedArena.ops 0 = #[2] ∧ boundedArena.ops 1 = #[4] ∧
    boundedArena.ops 2 = #[] ∧ boundedArena.ops 3 = #[6] := ⟨rfl, rfl, rfl, rfl⟩

theorem targets_bounded : boundedArena.targets 0 = [2, 1] ∧ boundedArena.targets 1 = [3] ∧
    boundedArena.targets 2 = [3] ∧ boundedArena.targets 3 = [] := ⟨rfl, rfl, rfl, rfl⟩

theorem blocks_bounded : bounded.blocks boundedArena = #[0, 1, 3, 2] := by
  simp [blocks, bounded, boundedArena, Arena.reachFrom, Arena.targets, Arena.next,
    Arena.block, Next.targets]

theorem forall_blocks_bounded {P : BlockId → Prop} (hentry : P 0) (hsmall : P 1) (hlarge : P 2)
    (hexit : P 3) : ∀ b ∈ bounded.blocks boundedArena, P b := by
  rw [blocks_bounded]
  simp [hentry, hsmall, hlarge, hexit]

theorem loopFree_bounded : bounded.LoopFree boundedArena := by
  refine loopFree_of_lt (forall_blocks_bounded ?_ ?_ ?_ ?_) <;> simp [Arena.Edge, targets_bounded]

theorem wellTyped_bounded : bounded.WellTyped boundedArena where
  argument := by simp [bounded, boundedArena, Arena.value]
  computed := by
    refine forall_blocks_bounded ?_ ?_ ?_ ?_ <;> simp [ops_bounded] <;>
      simp [boundedArena, Arena.value]
  nodup := by refine forall_blocks_bounded ?_ ?_ ?_ ?_ <;> simp [ops_bounded]
  once := by
    refine forall_blocks_bounded ?_ ?_ ?_ ?_ <;> refine forall_blocks_bounded ?_ ?_ ?_ ?_ <;>
      simp [ops_bounded]
  ordered := by
    refine forall_blocks_bounded ?_ ?_ ?_ ?_ <;> intro before v after o hops <;>
      cases before <;> simp [ops_bounded] at hops <;> simp [hops]
  entry := by
    refine forall_blocks_bounded ?_ ?_ ?_ ?_ <;> intro v hv p hp <;> simp [ops_bounded] at hv <;>
      subst hv <;> cases hp
    refine forall_blocks_bounded ?_ ?_ ?_ ?_
    · simp [Arena.Edge, targets_bounded]
    · exact fun _ => ⟨4, rfl, rfl, .inr (.inr ⟨1, dominates_self _ _ _, by simp [ops_bounded]⟩)⟩
    · exact fun _ => ⟨5, rfl, rfl, .inl ⟨_, rfl⟩⟩
    · simp [Arena.Edge, targets_bounded]
  start := by simp [bounded, boundedArena, Arena.value, Arena.ops, Arena.block]
  numbers := by
    intro v c hc _
    rcases Nat.lt_or_ge v 7 with hv | hv
    · interval_cases v <;> cases hc <;> rfl
    · rw [Arena.value_of_size_le hv] at hc
      cases hc
  condition := by
    refine forall_blocks_bounded ?_ ?_ ?_ ?_ <;> rintro _ _ _ _ ⟨⟩
    rfl

theorem inputs_bounded (n : Int) : bounded.Inputs boundedArena some [n] :=
  .cons (fun _ => ⟨n, Interval.mem_unbounded n, rfl⟩) .nil

theorem ends_bounded : ∃ ρ, bounded.Ends calculator boundedArena [7] 3 ρ ∧ ρ 6 = some 8 := by
  refine ⟨_, ⟨(), _, (), (), .next rfl (.next rfl (.refl _ _)), rfl⟩, ?_⟩
  rw [Interpretation.enter_phi (by simp [ops_bounded]) rfl]
  rfl

theorem analyzable_bounded : bounded.Analyzable boundedArena id where
  next := by refine forall_blocks_bounded ?_ ?_ ?_ ?_ <;> rintro ⟨⟩
  usable := by
    refine forall_blocks_bounded ?_ ?_ ?_ ?_ <;> rintro _ _ _ _ ⟨⟩
    exact .inr (.inr ⟨0, dominates_self _ _ _, by simp [ops_bounded]⟩)
  accepted := by
    refine forall_blocks_bounded ?_ ?_ ?_ ?_ <;> intro v hv o tr ho _ _ htransfer <;>
      simp [ops_bounded] at hv <;> subst hv <;> cases ho <;> cases htransfer
    · exact ⟨0, 1, rfl, rfl, rfl⟩
    · exact ⟨0, 3, rfl, rfl, rfl⟩
  ordered := by
    refine forall_blocks_bounded ?_ ?_ ?_ ?_ <;> rintro _ _ _ _ o ⟨⟩ ⟨⟩ -
    exact ⟨0, 1, rfl, rfl, rfl⟩
  equated := by
    refine forall_blocks_bounded ?_ ?_ ?_ ?_ <;> rintro _ _ _ _ o ⟨⟩ ⟨⟩ -
    exact ⟨0, 1, rfl, fun _ => rfl⟩

/-- Seven and eleven take the two ways. -/
theorem live_bounded : bounded.Live calculator boundedArena some id where
  reached := by
    refine forall_blocks_bounded ?_ ?_ ?_ ?_
    · exact ⟨[7], _, inputs_bounded 7, (), _, (), (), .refl _ _, rfl⟩
    · exact ⟨[7], _, inputs_bounded 7, (), _, (), (), .next rfl (.refl _ _), rfl⟩
    · exact ⟨[11], _, inputs_bounded 11, (), _, (), (), .next rfl (.refl _ _), rfl⟩
    · exact ends_bounded.elim fun ρ hends => ⟨[7], ρ, inputs_bounded 7, hends.1⟩
  taken := by
    refine forall_blocks_bounded ?_ ?_ ?_ ?_ <;> rintro _ _ _ _ o ⟨⟩ ho - truth
    cases truth with
    | true => exact ⟨[7], _, _, inputs_bounded 7, ⟨(), _, (), (), .refl _ _, rfl⟩, rfl, rfl⟩
    | false => exact ⟨[11], _, _, inputs_bounded 11, ⟨(), _, (), (), .refl _ _, rfl⟩, rfl, rfl⟩

theorem exists_analyzeRanges_bounded : ∃ t, bounded.analyzeRanges id boundedArena = .ok t := by
  obtain ⟨order, horder, hblocks⟩ := exists_topoOrder loopFree_bounded
  obtain ⟨hnodup, -, hready⟩ := topoOrder_spec loopFree_bounded horder
  obtain ⟨t, hwalk⟩ := exists_walk arithmetical_calculator wellTyped_bounded loopFree_bounded
    analyzable_bounded live_bounded (fun ys hinputs => analyzed_start hinputs)
    (AllOccupied.insert (by intro b here hb; simp at hb) 0
      (occupied_empty.insert 0 (Interval.mem_unbounded 0)))
    (fun b hb => hblocks b (Array.mem_toList_iff.mp hb)) hnodup hready
  refine ⟨t, ?_⟩
  rw [Array.foldlM_toList] at hwalk
  rw [analyzeRanges, horder]
  exact hwalk

/-- For the number seven the result is eight, through the branch whose interval ends at eleven. -/
theorem bounded_contains : ∃ t ρ here r, bounded.analyzeRanges id boundedArena = .ok t ∧
    bounded.Ends calculator boundedArena [7] 3 ρ ∧ ρ 6 = some 8 ∧
      t[3]? = some here ∧ here[6]? = some r ∧ r.contains 8 = true := by
  obtain ⟨t, hanalyze⟩ := exists_analyzeRanges_bounded
  obtain ⟨ρ, hends, hresult⟩ := ends_bounded
  obtain ⟨here, hhere, hcontains⟩ := analyzeRanges_contains arithmetical_calculator
    wellTyped_bounded loopFree_bounded hanalyze (inputs_bounded 7) hends
  obtain ⟨y, n, r, hy, hn, hr, hmem⟩ :=
    hcontains 6 (.inr ⟨3, dominates_self _ _ _, by simp [ops_bounded]⟩) rfl
  obtain rfl := Option.some.inj (hresult.symm.trans hy)
  obtain rfl := Option.some.inj hn
  exact ⟨t, ρ, here, r, hanalyze, hends, hresult, hhere, hr, hmem⟩

end Jib.Graph
