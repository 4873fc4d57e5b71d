import Jib.Proofs.Sums.Rebuild

/-!
# Simplifying sums

A tree of additions and subtractions is rewritten if taking it apart gained something.  The main
result says exactly when the rewriting is sound: it succeeds, emits only operations whose operands
are of the promised types, and gives the number that the tree was, just in case the terms of the
tree can be put together again.
-/

namespace Jib.Graph

variable {values : Array Value} {isSub : Bool}

namespace OptState

/-- A value that can stand for another one: what was emitted for it has operands of the promised
types, it has the same type, and it is the same number wherever the other one is a number. -/
structure StandsFor (s s' : OptState) (v r : ValueId) : Prop extends Grown s s' where
  typeOf_result : s'.arena.typeOf r = s.arena.typeOf v
  evaluates : ∀ numbers n, s.Evaluates numbers v n → s'.Evaluates numbers r n

variable {s s' : OptState} {numbers : ValueId → Int} {v : ValueId} {o : Operation} {t : Terms}
  {todo : List (ValueId × Bool)}

/-- Taking trees apart never fails. -/
theorem termsOf_run (less : Option ValueId) (htree : s.SumTree v)
    (hless : ∀ w ∈ less, s.SumTree w) :
    ∃ t, termsOf v less s = .ok t.cancel s ∧
      s.TakenApart (less.toList.map (fun w => (w, true)) ++ [(v, false)]) {} t := by
  have htodo : ∀ e ∈ less.toList.map (fun w => (w, true)) ++ [(v, false)], s.SumTree e.1 := by
    cases less <;> simp_all
  obtain ⟨t, hrun, hapart⟩ := exists_takeApart (1 <<< (s.arena.values.size + 1)) htodo {}
  refine ⟨t, ?_, hapart⟩
  rw [termsOf, bind_ok (OptM.get_run s), bind_ok hrun]
  rfl

theorem TakenApart.root (hapart : s.TakenApart [(v, false)] {} t) (hvalue : s.arena.value v = .op o)
    (hgains : t.cancel.gains ≠ 0) :
    ∃ x y isSub, sumOp? o = some isSub ∧ o.args.toList = [x, y] ∧
      s.TakenApart [(s.look y, false != isSub), (s.look x, false)] {} t := by
  cases hapart with
  | @leaf _ _ _ _ _ number hnumber hrest =>
    cases number with
    | some n => simp [hvalue, numeral?] at hnumber
    | none =>
      cases hrest with
      | done => exact absurd rfl hgains
  | @sum _ x y o' isSub _ _ _ _ hvalue' hsum hargs hrest =>
    cases hvalue.symm.trans hvalue'
    exact ⟨x, y, isSub, hsum, hargs, hrest⟩

/-- The terms of trees that are looked up once and for all are final. -/
theorem TakenApart.final (hrebuilding : s.Rebuilding) (hapart : s.TakenApart todo {} t)
    (htodo : ∀ v ∈ todo.map Prod.fst, s.SumTree v ∧ s.look v = v) :
    ∀ w ∈ t.cancel.all, s.Final w := by
  have hall : ∀ w ∈ t.all, s.SumTree w ∧ s.look w = w := by
    refine hapart.forall_all ?_ ?_
    · intro w a b p isSub' hw hvalue' hsum' hargs'
      obtain ⟨ha, hb⟩ := hw.1.operands hvalue' hsum' hargs'
      exact ⟨⟨ha, hrebuilding.look_look a⟩, ⟨hb, hrebuilding.look_look b⟩⟩
    · intro w hw
      exact htodo w (hw.resolve_left (by simp [Terms.all]))
  intro w hw
  obtain ⟨hw, hlook⟩ := hall w (Terms.mem_all_cancel hw)
  exact ⟨hlook, hw.type⟩

theorem final_terms (hrebuilding : s.Rebuilding) (htree : s.SumTree v)
    (hvalue : s.arena.value v = .op o) (hapart : s.TakenApart [(v, false)] {} t)
    (hgains : t.cancel.gains ≠ 0) : ∀ w ∈ t.cancel.all, s.Final w := by
  obtain ⟨x, y, isSub, hsum, hargs, hrest⟩ := hapart.root hvalue hgains
  obtain ⟨hleft, hright⟩ := htree.operands hvalue hsum hargs
  refine hrest.final hrebuilding ?_
  simp [hleft, hright, hrebuilding.look_look]

theorem machine_terms (htree : s.SumTree v) (htype : s.arena.typeOf v = .machineInt)
    (hapart : s.TakenApart [(v, false)] {} t) :
    ∀ w ∈ t.cancel.all, s.arena.typeOf w = .machineInt := by
  have hall : ∀ w ∈ t.all, s.SumTree w ∧ s.arena.typeOf w = .machineInt := by
    refine hapart.forall_all ?_ ?_
    · intro w a b p isSub hw hvalue hsum hargs
      obtain ⟨ha, hb⟩ := hw.1.operands hvalue hsum hargs
      obtain ⟨hta, htb⟩ := hw.1.machine_operands hvalue hsum hargs hw.2
      exact ⟨⟨ha, hta⟩, ⟨hb, htb⟩⟩
    · intro w hw
      have hwv : w = v := by simpa [Terms.all] using hw
      rw [hwv]
      exact ⟨htree, htype⟩
  exact fun w hw => (hall w (Terms.mem_all_cancel hw)).2

/-- The terms of numbers are numbers, and together they are worth as much. -/
theorem TakenApart.evaluates (hapart : s.TakenApart todo {} t) (numbers : ValueId → Int)
    (htodo : ∀ v ∈ todo.map Prod.fst, ∃ n, s.Evaluates numbers v n) :
    (∀ w ∈ t.cancel.all, s.Evaluates numbers w (s.worth numbers w)) ∧
      t.cancel.total (s.worth numbers) = Terms.pending (s.worth numbers) todo := by
  have hall : ∀ w ∈ t.all, ∃ k, s.Evaluates numbers w k := by
    refine hapart.forall_all ?_ ?_
    · rintro w a b p isSub ⟨k, hk⟩ hvalue hsum hargs
      obtain ⟨i, j, hi, hj, _⟩ := hk.operands hvalue hsum hargs
      exact ⟨⟨i, hi⟩, ⟨j, hj⟩⟩
    · intro w hw
      exact htodo w (hw.resolve_left (by simp [Terms.all]))
  constructor
  · intro w hw
    obtain ⟨k, hk⟩ := hall w (Terms.mem_all_cancel hw)
    rwa [hk.worth_eq]
  · rw [Terms.total_cancel, hapart.total_eq numbers htodo]
    simp [Terms.total]

theorem evaluates_terms {n : Int} (hn : s.Evaluates numbers v n)
    (hapart : s.TakenApart [(v, false)] {} t) :
    ∃ ms ns, List.Forall₂ (s.Evaluates numbers) t.cancel.added ms ∧
      List.Forall₂ (s.Evaluates numbers) t.cancel.subtracted ns ∧
      ms.sum + t.cancel.constant.getD 0 - ns.sum = n := by
  obtain ⟨hall, htotal⟩ := hapart.evaluates numbers (by simpa using ⟨n, hn⟩)
  have hworth : ∀ vs : List ValueId, (∀ w ∈ vs, w ∈ t.cancel.all) →
      List.Forall₂ (s.Evaluates numbers) vs (vs.map (s.worth numbers)) := by
    intro vs hvs
    rw [List.forall₂_map_right_iff, List.forall₂_same]
    exact fun w hw => hall w (hvs w hw)
  refine ⟨_, _, hworth _ (fun w hw => List.mem_append_left _ hw),
    hworth _ (fun w hw => List.mem_append_right _ hw), ?_⟩
  simp only [Terms.total, Terms.pending, List.map_cons, List.map_nil, List.sum_cons, List.sum_nil,
    hn.worth_eq, Bool.false_eq_true, if_false] at htotal
  linarith

/-- The run of a simplification, by what was gained. -/
theorem simplifySum_run {t : Terms}
    (hname : addNames.contains (s.builtins o.name) || subNames.contains (s.builtins o.name))
    (hterms : termsOf v none s = .ok t s) :
    simplifySum v o s =
      if t.gains = 0 then .ok none s
      else if 4 < t.gains then .error .unfinished s
      else (rebuildSum o t >>= fun r => pure (some r)) s := by
  rw [simplifySum, bind_ok (OptM.builtinName_run o.name s),
    bind_ok (OptM.ensure_run_true hname s), bind_ok hterms]
  by_cases hnone : t.gains = 0
  · simp [hnone]
  · by_cases hmany : 4 < t.gains
    · simp only [beq_iff_eq, hnone, hmany]
      rfl
    · simp only [beq_iff_eq, hnone, hmany, if_false]

end OptState

open OptState in
/-- A sum is simplified soundly just in case its terms can be put together again. -/
theorem simplifySum_standsFor_iff_rebuildable {s : OptState} {v : ValueId} {o : Operation}
    (hrebuilding : s.Rebuilding) (hvalue : s.arena.value v = .op o) (htree : s.SumTree v)
    (hname : addNames.contains (s.builtins o.name) || subNames.contains (s.builtins o.name)) :
    ∃ t, termsOf v none s = .ok t s ∧
      (t.gains = 0 → simplifySum v o s = .ok none s) ∧
      (t.gains ≠ 0 →
        ((∃ r s', simplifySum v o s = .ok (some r) s' ∧ StandsFor s s' v r) ↔
          s.Rebuildable o t)) := by
  obtain ⟨t, hterms, hapart⟩ := termsOf_run none htree (by simp)
  have hrun := simplifySum_run hname hterms
  refine ⟨t.cancel, hterms, fun hnone => by rw [hrun, if_pos hnone], fun hsome => ?_⟩
  rw [if_neg hsome] at hrun
  by_cases hmany : 4 < t.cancel.gains
  · rw [if_pos hmany] at hrun
    constructor
    · rintro ⟨r, s', hok, _⟩
      rw [hrun] at hok
      cases hok
    · intro hrebuildable
      exact absurd hrebuildable.1 (not_le.mpr hmany)
  rw [if_neg hmany] at hrun
  have htype : s.arena.typeOf v = o.type := by rw [Arena.typeOf, hvalue, Value.type]
  have hfinal := final_terms hrebuilding htree hvalue hapart hsome
  constructor
  · rintro ⟨r, s', hok, hstands⟩
    by_contra hnot
    have hspoiled :=
      spoiled_rebuildSum hrebuilding hfinal (not_lt.mp hmany) (htype ▸ htree.type) hnot
    rw [hrun, bind_run] at hok
    cases hrebuilt : rebuildSum o t.cancel s with
    | error e t' => simp [hrebuilt] at hok
    | ok r' s'' =>
      rw [hrebuilt] at hok hspoiled
      simp only [OptM.pure_run, EStateM.Result.ok.injEq] at hok
      obtain ⟨_, rfl⟩ := hok
      exact hspoiled.not_grown hstands.toGrown
  · intro hrebuildable
    obtain ⟨r, s', hrebuilt, hgrown, htyper, hworth⟩ :=
      rebuildSum_run hrebuilding hfinal (htype ▸ htree.type)
        (fun hword => machine_terms htree (htype.trans hword) hapart) hrebuildable
    refine ⟨r, s', by rw [hrun, bind_ok hrebuilt]; rfl, hgrown, htyper.trans htype.symm, ?_⟩
    intro numbers n hn
    obtain ⟨ms, ns, hms, hns, rfl⟩ := evaluates_terms hn hapart
    exact hworth numbers ms ns hms hns (htype ▸ hn.holds)

/-! ### Two trees -/

theorem rebuilding_rebuildingState (values : Array Value) :
    (rebuildingState values).Rebuilding where
  isSome := rfl
  look_look v := by rw [look_rebuildingState]
  look_new v _ := look_rebuildingState values v

theorem takeApart_rebuildingState {v x y : ValueId} {o : Operation}
    (hvalue : (rebuildingState values).arena.value v = .op o) (hsum : sumOp? o = some isSub)
    (hargs : o.args.toList = [x, y]) (steps : Nat) (negated : Bool) (todo : List (ValueId × Bool))
    (t : Terms) :
    takeApart (steps + 1) ((v, negated) :: todo) t (rebuildingState values) =
      takeApart steps ((y, negated != isSub) :: (x, negated) :: todo) t
      (rebuildingState values) := by
  rw [OptState.takeApart_sum hvalue hsum hargs, look_rebuildingState, look_rebuildingState]

theorem sumTree_rebuildingState {v x y : ValueId} {name : String}
    (hvalue : (rebuildingState values).arena.value v = .op (OptState.binary name x y .int))
    (hsum : sumOp? (OptState.binary name x y .int) = some isSub)
    (hsignature : signature? name = some ([(rebuildingState values).arena.typeOf x,
      (rebuildingState values).arena.typeOf y], .int)) (hleft : (rebuildingState values).SumTree x)
    (hright : (rebuildingState values).SumTree y) : (rebuildingState values).SumTree v := by
  have hx := look_rebuildingState values x
  have hy := look_rebuildingState values y
  refine .sum hvalue hsum rfl ?_ (by rwa [hx]) (by rwa [hy])
  simpa [OptState.Typed, OptState.binary, hx, hy] using hsignature

/-- The values of the tree `((y + x) - 3 + 4) - x` over an unbounded `y` and a machine integer
`x`. -/
def cancellingTree : Array Value := #[
  .argument "x" .machineInt, .argument "y" .int, .const (.machineInt 3), .const (.int 4),
  .op (OptState.binary "@add_o_i_wrapped_res" 1 0 .int),
  .op (OptState.binary "@sub_o_i_wrapped_res" 4 2 .int),
  .op (OptState.binary "add_int" 5 3 .int),
  .op (OptState.binary "@sub_o_i_wrapped_res" 6 0 .int)]

theorem sumTree_cancellingTree : (rebuildingState cancellingTree).SumTree 7 := by
  have hx : (rebuildingState cancellingTree).SumTree 0 := .term (by rintro _ ⟨⟩) (.inr rfl)
  have hy : (rebuildingState cancellingTree).SumTree 1 := .term (by rintro _ ⟨⟩) (.inl rfl)
  have h3 : (rebuildingState cancellingTree).SumTree 2 := .term (by rintro _ ⟨⟩) (.inr rfl)
  have h4 : (rebuildingState cancellingTree).SumTree 3 := .term (by rintro _ ⟨⟩) (.inl rfl)
  have hsum := sumTree_rebuildingState (v := 4) rfl rfl rfl hy hx
  have hless := sumTree_rebuildingState (v := 5) rfl rfl rfl hsum h3
  have hmore := sumTree_rebuildingState (v := 6) rfl rfl rfl hless h4
  exact sumTree_rebuildingState rfl rfl rfl hmore hx

theorem termsOf_cancellingTree :
    termsOf 7 none (rebuildingState cancellingTree) =
      .ok ⟨[1], [], some 1, 2⟩ (rebuildingState cancellingTree) := by
  have hrun : takeApart 512 [(7, false)] {} (rebuildingState cancellingTree) =
      .ok ⟨[0, 1], [0], some 1, 1⟩ (rebuildingState cancellingTree) := by
    rw [takeApart_rebuildingState rfl rfl rfl, OptState.takeApart_leaf (by rintro _ ⟨⟩)]
    change takeApart 510 [(6, false)] ⟨[], [0], none, 0⟩ _ = _
    rw [takeApart_rebuildingState rfl rfl rfl, OptState.takeApart_leaf (by rintro _ ⟨⟩)]
    change takeApart 508 [(5, false)] ⟨[], [0], some 4, 0⟩ _ = _
    rw [takeApart_rebuildingState rfl rfl rfl, OptState.takeApart_leaf (by rintro _ ⟨⟩)]
    change takeApart 506 [(4, false)] ⟨[], [0], some 1, 1⟩ _ = _
    rw [takeApart_rebuildingState rfl rfl rfl]
    rfl
  exact bind_ok hrun

/-- The tree simplifies to `y + 1`. -/
theorem cancellingTree_simplified :
    ∃ r s', simplifySum 7 (OptState.binary "@sub_o_i_wrapped_res" 6 0 .int)
        (rebuildingState cancellingTree) = .ok (some r) s' ∧
      OptState.StandsFor (rebuildingState cancellingTree) s' 7 r := by
  obtain ⟨t, hterms, _, hiff⟩ := simplifySum_standsFor_iff_rebuildable
    (rebuilding_rebuildingState cancellingTree) rfl sumTree_cancellingTree (by decide)
  rw [termsOf_cancellingTree] at hterms
  obtain ⟨rfl, _⟩ := EStateM.Result.ok.inj hterms
  exact (hiff (by decide)).mpr (by decide)

/-- The values of the tree `m - (n + p) + q + 1 + 2` over machine integers. -/
def balancedTree : Array Value := #[
  .argument "m" .machineInt, .argument "n" .machineInt, .argument "p" .machineInt,
  .argument "q" .machineInt, .const (.machineInt 1), .const (.machineInt 2),
  .op (OptState.binary "@add_i_i_wrapped_res" 1 2 .int),
  .op (OptState.binary "@sub_i_o_wrapped_res" 0 6 .int),
  .op (OptState.binary "@add_o_i_wrapped_res" 7 3 .int),
  .op (OptState.binary "@add_o_i_wrapped_res" 8 4 .int),
  .op (OptState.binary "@add_o_i_wrapped_res" 9 5 .int)]

theorem sumTree_balancedTree : (rebuildingState balancedTree).SumTree 10 := by
  have hm : (rebuildingState balancedTree).SumTree 0 := .term (by rintro _ ⟨⟩) (.inr rfl)
  have hn : (rebuildingState balancedTree).SumTree 1 := .term (by rintro _ ⟨⟩) (.inr rfl)
  have hp : (rebuildingState balancedTree).SumTree 2 := .term (by rintro _ ⟨⟩) (.inr rfl)
  have hq : (rebuildingState balancedTree).SumTree 3 := .term (by rintro _ ⟨⟩) (.inr rfl)
  have h1 : (rebuildingState balancedTree).SumTree 4 := .term (by rintro _ ⟨⟩) (.inr rfl)
  have h2 : (rebuildingState balancedTree).SumTree 5 := .term (by rintro _ ⟨⟩) (.inr rfl)
  have hsum := sumTree_rebuildingState (v := 6) rfl rfl rfl hn hp
  have hless := sumTree_rebuildingState (v := 7) rfl rfl rfl hm hsum
  have hmore := sumTree_rebuildingState (v := 8) rfl rfl rfl hless hq
  have hone := sumTree_rebuildingState (v := 9) rfl rfl rfl hmore h1
  exact sumTree_rebuildingState rfl rfl rfl hone h2

theorem termsOf_balancedTree :
    termsOf 10 none (rebuildingState balancedTree) =
      .ok ⟨[3, 0], [2, 1], some 3, 1⟩ (rebuildingState balancedTree) := by
  have hrun : takeApart 4096 [(10, false)] {} (rebuildingState balancedTree) =
      .ok ⟨[3, 0], [2, 1], some 3, 1⟩ (rebuildingState balancedTree) := by
    rw [takeApart_rebuildingState rfl rfl rfl, OptState.takeApart_leaf (by rintro _ ⟨⟩)]
    change takeApart 4094 [(9, false)] ⟨[], [], some 2, 0⟩ _ = _
    rw [takeApart_rebuildingState rfl rfl rfl, OptState.takeApart_leaf (by rintro _ ⟨⟩)]
    change takeApart 4092 [(8, false)] ⟨[], [], some 3, 1⟩ _ = _
    rw [takeApart_rebuildingState rfl rfl rfl, OptState.takeApart_leaf (by rintro _ ⟨⟩)]
    change takeApart 4090 [(7, false)] ⟨[3], [], some 3, 1⟩ _ = _
    rw [takeApart_rebuildingState rfl rfl rfl,
      takeApart_rebuildingState rfl rfl rfl,
      OptState.takeApart_leaf (by rintro _ ⟨⟩)]
    change takeApart 4087 [(1, true), (0, false)] ⟨[3], [2], some 3, 1⟩ _ = _
    rw [OptState.takeApart_leaf (by rintro _ ⟨⟩)]
    rfl
  exact bind_ok hrun

/-- The two numbers of the tree are gained, but what is left are two unbounded sums, and rewriting
the tree fails. -/
theorem balancedTree_not_simplified :
    (rebuildingState balancedTree).Rebuilding ∧ (rebuildingState balancedTree).SumTree 10 ∧
      ∃ s', simplifySum 10 (OptState.binary "@add_o_i_wrapped_res" 9 5 .int)
        (rebuildingState balancedTree) = .error .internal s' := by
  have hrebuilding := rebuilding_rebuildingState balancedTree
  refine ⟨hrebuilding, sumTree_balancedTree, ?_⟩
  have hfinal : ∀ v ∈ (⟨[3, 0], [2, 1], some 3, 1⟩ : Terms).all,
      (rebuildingState balancedTree).Final v := by
    intro v hv
    refine ⟨look_rebuildingState _ v, .inr ?_⟩
    simp only [Terms.all, List.cons_append, List.nil_append, List.mem_cons, List.not_mem_nil,
      or_false] at hv
    rcases hv with rfl | rfl | rfl | rfl <;> rfl
  obtain ⟨s', hrun⟩ := OptState.rebuildSum_unbounded
    (o := OptState.binary "@add_o_i_wrapped_res" 9 5 .int) hrebuilding hfinal (by decide)
    (by decide) (by decide) (by decide) (by decide)
  refine ⟨s', ?_⟩
  rw [OptState.simplifySum_run (by decide) termsOf_balancedTree, if_neg (by decide),
    if_neg (by decide), bind_error hrun]

end Jib.Graph
