import Jib.Proofs.Sums.Simplify

/-!
# Comparing sums

A comparison of two trees of additions and subtractions is rewritten if at most one term and a
number are left of their difference: the term is then compared with the number.  The main result
says exactly when that goes well.  The number changes its sign when it moves to the other side of an
added term, and there is one machine integer whose negation is none.
-/

namespace Jib.Graph

variable {n : Int} {x y v : ValueId} {o : Operation} {t : Terms}

theorem fitsWord_neg_iff (hfits : GraphM.fitsWord n = true) :
    GraphM.fitsWord (-n) = true ↔ n ≠ -2 ^ 63 := by
  rw [GraphM.fitsWord, Bool.and_eq_true, decide_eq_true_iff, decide_eq_true_iff] at *
  omega

namespace Terms

theorem remainder?_eq_some (hn : t.remainder? = some n) :
    t.constant = some n ∧ GraphM.fitsWord n = true ∧
      (t.all = [] ∨ ∃ v, t.added = [v] ∧ t.subtracted = [] ∨ t.added = [] ∧
        t.subtracted = [v]) := by
  unfold remainder? at hn
  split_ifs at hn with hleft
  obtain ⟨hconstant, hfits⟩ := Option.filter_eq_some_iff.mp hn
  refine ⟨hconstant, hfits, ?_⟩
  match hadded : t.added, hsubtracted : t.subtracted with
  | [], [] => exact .inl (by simp [all, hadded, hsubtracted])
  | [v], [] => exact .inr ⟨v, .inl ⟨rfl, rfl⟩⟩
  | [], [v] => exact .inr ⟨v, .inr ⟨rfl, rfl⟩⟩
  | _ :: _ :: _, _ | [], _ :: _ :: _ | [_], _ :: _ =>
    simp only [count, hadded, hsubtracted, List.length_cons, Bool.or_eq_true, decide_eq_true_eq]
      at hleft
    omega

end Terms

namespace OptState

variable {s : OptState}

/-- A comparison in the place of another one, under its name or under that of its form for machine
integers.  The operands are of one type, and wherever the two trees are numbers the operands are
numbers in the same order. -/
def ComparesAs (s s' : OptState) (o : Operation) (x y c : ValueId) : Prop :=
  ∃ name l r, s'.arena.value c = .op ⟨.call, name, #[l, r], o.type, o.pos, o.hint⟩ ∧
    (name = o.name ∨ name = "@" ++ s.builtins o.name ∧ s'.arena.typeOf r = .machineInt) ∧
    s'.Final l ∧ s'.Final r ∧ s'.arena.typeOf l = s'.arena.typeOf r ∧
    ∀ numbers m n, s.Evaluates numbers x m → s.Evaluates numbers y n →
      ∃ a b, s'.Evaluates numbers l a ∧ s'.Evaluates numbers r b ∧ cmp a b = cmp m n

/-- Whether the number that is left cannot move to the other side of a machine integer. -/
def Overflows (s : OptState) (t : Terms) : Prop :=
  t.remainder? = some (-2 ^ 63) ∧ t.added.map s.arena.typeOf = [.machineInt]

instance (s : OptState) (t : Terms) : Decidable (s.Overflows t) :=
  inferInstanceAs (Decidable (_ ∧ _))

theorem numberLike_run (hrebuilding : s.Rebuilding) (hv : s.Final v)
    (hfits : s.arena.typeOf v = .machineInt → GraphM.fitsWord n = true) :
    ∃ c s', numberLike v n s = .ok c s' ∧ NewNumber s s' c (s.arena.typeOf v) n := by
  rw [numberLike, bind_ok (OptM.typeOf_run v s)]
  rcases hv.type with htype | htype
  · rw [if_neg (by simp [htype]), bind_ok (OptM.typeOf_run v s), htype]
    exact newConst_run hrebuilding rfl (.inl rfl)
  · rw [htype]
    exact newMachineInt_run hrebuilding (hfits htype)

/-- Operands that are left of terms: they have one type, and their difference is what the terms are
worth. -/
structure Operands (s s' : OptState) (t : Terms) (l r : ValueId) : Prop extends Extends s s' where
  builtins_eq : s'.builtins = s.builtins
  left : s'.Final l
  right : s'.Final r
  type_eq : s'.arena.typeOf l = s'.arena.typeOf r
  difference (numbers : ValueId → Int) :
    (∀ v ∈ t.all, s.Evaluates numbers v (s.worth numbers v)) →
      ∃ a b, s'.Evaluates numbers l a ∧ s'.Evaluates numbers r b ∧ a - b = t.total (s.worth numbers)

theorem NewNumber.type_eq_typeOf {s' : OptState} {c : ValueId}
    (hnew : NewNumber s s' c (s.arena.typeOf v) n) (hv : s.Final v) :
    s'.arena.typeOf c = s'.arena.typeOf v :=
  hnew.type_eq.trans (hnew.typeOf_eq hv.lt_size).symm

theorem comparands_run (hrebuilding : s.Rebuilding) (hfinal : ∀ v ∈ t.all, s.Final v)
    (hn : t.remainder? = some n) (hmoves : ¬ s.Overflows t) :
    ∃ l r s', comparands t n s = .ok (l, r) s' ∧ Operands s s' t l r := by
  obtain ⟨hconstant, hfits, hshape⟩ := Terms.remainder?_eq_some hn
  -- only an added term makes the number change its sign
  rcases hshape with hempty | ⟨v, ⟨hadded, hsubtracted⟩ | ⟨hadded, hsubtracted⟩⟩
  · obtain ⟨hadded, hsubtracted⟩ := List.append_eq_nil_iff.mp hempty
    obtain ⟨l, s₁, hrun₁, hl⟩ := newMachineInt_run hrebuilding hfits
    obtain ⟨r, s₂, hrun₂, hr⟩ := numberLike_run (n := 0) (hrebuilding.extend hl.toExtends) hl.final
      (fun _ => rfl)
    refine ⟨l, r, s₂, ?_, hl.toExtends.trans hr.toExtends, hr.builtins_eq.trans hl.builtins_eq,
      hl.final.extend hr.toExtends, hr.final, (hr.type_eq_typeOf hl.final).symm, ?_⟩
    · rw [comparands, hsubtracted, hadded]
      exact (bind_ok hrun₁).trans (bind_ok hrun₂)
    · intro numbers _
      refine ⟨n, 0, (hl.evaluates numbers).extend hr.toExtends, hr.evaluates numbers, ?_⟩
      simp [Terms.total, hadded, hsubtracted, hconstant]
  · have hv : v ∈ t.all := by simp [Terms.all, hadded]
    have hmoved : s.arena.typeOf v = .machineInt → GraphM.fitsWord (-n) = true := by
      intro hmachine
      rw [fitsWord_neg_iff hfits]
      rintro rfl
      exact hmoves ⟨hn, by simp [hadded, hmachine]⟩
    obtain ⟨c, s', hrun, hc⟩ := numberLike_run hrebuilding (hfinal v hv) hmoved
    refine ⟨v, c, s', ?_, hc.toExtends, hc.builtins_eq, (hfinal v hv).extend hc.toExtends, hc.final,
      (hc.type_eq_typeOf (hfinal v hv)).symm, ?_⟩
    · rw [comparands, hsubtracted, hadded]
      exact bind_ok hrun
    · intro numbers hworth
      refine ⟨_, -n, (hworth v hv).extend hc.toExtends, hc.evaluates numbers, ?_⟩
      simp [Terms.total, hadded, hsubtracted, hconstant]
  · have hv : v ∈ t.all := by simp [Terms.all, hsubtracted]
    obtain ⟨c, s', hrun, hc⟩ := numberLike_run hrebuilding (hfinal v hv) (fun _ => hfits)
    refine ⟨c, v, s', ?_, hc.toExtends, hc.builtins_eq, hc.final, (hfinal v hv).extend hc.toExtends,
      hc.type_eq_typeOf (hfinal v hv), ?_⟩
    · rw [comparands, hsubtracted]
      exact bind_ok hrun
    · intro numbers hworth
      refine ⟨n, _, hc.evaluates numbers, (hworth v hv).extend hc.toExtends, ?_⟩
      simp [Terms.total, hadded, hsubtracted, hconstant]
      ring

/-- The smallest machine integer does not move. -/
theorem comparands_error (hoverflows : s.Overflows t) :
    comparands t (-2 ^ 63) s = .error .assertion s := by
  obtain ⟨hn, htypes⟩ := hoverflows
  obtain ⟨v, hadded, htype⟩ := List.map_eq_singleton_iff.mp htypes
  obtain ⟨_, _, hshape⟩ := Terms.remainder?_eq_some hn
  have hsubtracted : t.subtracted = [] := by simpa [Terms.all, hadded] using hshape
  rw [comparands, hsubtracted, hadded]
  refine bind_error ?_
  rw [numberLike, bind_ok (OptM.typeOf_run v s), htype]
  rfl

theorem comparisonName_run (o : Operation) (type : Ty) (s : OptState) :
    ∃ name, comparisonName o type s = .ok name s ∧
      (name = o.name ∨ name = "@" ++ s.builtins o.name ∧ type = .machineInt) := by
  unfold comparisonName
  split
  · rename_i hmachine
    simp only [Bool.and_eq_true, beq_iff_eq] at hmachine
    exact ⟨_, rfl, .inr ⟨rfl, hmachine.1⟩⟩
  · exact ⟨_, rfl, .inl rfl⟩

/-- The comparison that is left compares the difference that the terms are worth with zero. -/
theorem compareRest_run (hrebuilding : s.Rebuilding) (hfinal : ∀ v ∈ t.all, s.Final v)
    (hn : t.remainder? = some n) (hmoves : ¬ s.Overflows t)
    (hworth : ∀ numbers a b, s.Evaluates numbers x a → s.Evaluates numbers y b →
      (∀ v ∈ t.all, s.Evaluates numbers v (s.worth numbers v)) ∧
        t.total (s.worth numbers) = a - b) :
    ∃ c s', compareRest o t n s = .ok c s' ∧ Extends s s' ∧ ComparesAs s s' o x y c := by
  obtain ⟨l, r, s', hrun, hoperands⟩ := comparands_run hrebuilding hfinal hn hmoves
  obtain ⟨name, hname, hform⟩ := comparisonName_run o (s'.arena.typeOf r) s'
  have hemitted := extends_emitted s' (.op ⟨.call, name, #[l, r], o.type, o.pos, o.hint⟩)
  refine ⟨_, s'.emitted (.op ⟨.call, name, #[l, r], o.type, o.pos, o.hint⟩), ?_,
    hoperands.toExtends.trans hemitted, name, l, r, value_emitted s' _, ?_,
    hoperands.left.extend hemitted, hoperands.right.extend hemitted, ?_, ?_⟩
  · rw [compareRest, bind_ok hrun]
    simp only
    rw [bind_ok (OptM.typeOf_run r s'), bind_ok (OptM.typeOf_run l s'),
      bind_ok (OptM.ensure_run_true (by simp [hoperands.type_eq]) s'),
      bind_ok (OptM.typeOf_run r s'), bind_ok hname]
    exact OptM.emit_run _ s' (hoperands.isSome hrebuilding.isSome)
  · rwa [hemitted.typeOf_eq hoperands.right.lt_size, ← hoperands.builtins_eq]
  · rw [hemitted.typeOf_eq hoperands.left.lt_size, hemitted.typeOf_eq hoperands.right.lt_size,
      hoperands.type_eq]
  · intro numbers a b ha hb
    obtain ⟨hterms, htotal⟩ := hworth numbers a b ha hb
    obtain ⟨a', b', ha', hb', hdifference⟩ := hoperands.difference numbers hterms
    refine ⟨a', b', ha'.extend hemitted, hb'.extend hemitted, ?_⟩
    rw [← cmp_sub_zero, hdifference, htotal, cmp_sub_zero]

theorem compareTerms_eq (o : Operation) (htypes : s.arena.typeOf x = s.arena.typeOf y)
    (hterms : termsOf x (some y) s = .ok t s) :
    compareTerms o x y s = t.remainder?.mapM (compareRest o t) s := by
  rw [compareTerms, bind_ok (OptM.typeOf_run x s), bind_ok (OptM.typeOf_run y s),
    bind_ok (OptM.ensure_run_true (by simp [htypes]) s), bind_ok hterms]

theorem compareTerms_error (o : Operation) (htypes : s.arena.typeOf x = s.arena.typeOf y)
    (hterms : termsOf x (some y) s = .ok t s) (hoverflows : s.Overflows t) :
    compareTerms o x y s = .error .assertion s := by
  rw [compareTerms_eq o htypes hterms, hoverflows.1]
  exact bind_error (bind_error (comparands_error hoverflows))

end OptState

open OptState in
/-- A comparison of two trees succeeds, and what takes its place compares as the trees do, unless
the smallest machine integer has to move to the other side. -/
theorem compareTerms_comparesAs_iff {s : OptState} {o : Operation} {x y : ValueId}
    (hrebuilding : s.Rebuilding) (hx : s.SumTree x) (hy : s.SumTree y) (hlookx : s.look x = x)
    (hlooky : s.look y = y) (htypes : s.arena.typeOf x = s.arena.typeOf y) :
    ∃ t, termsOf x (some y) s = .ok t s ∧
      ((∃ r s', compareTerms o x y s = .ok r s' ∧ Extends s s' ∧
          r.isSome = t.remainder?.isSome ∧ ∀ c ∈ r, ComparesAs s s' o x y c) ↔
          ¬ s.Overflows t) := by
  obtain ⟨t, hterms, hapart⟩ := termsOf_run (some y) hx (by simpa using hy)
  have hfinal := hapart.final hrebuilding (by simp [hx, hy, hlookx, hlooky])
  refine ⟨t.cancel, hterms, ?_⟩
  have hrun := compareTerms_eq o htypes hterms
  cases hn : t.cancel.remainder? with
  | none =>
    rw [hn] at hrun
    exact iff_of_true ⟨none, s, hrun, .refl s, rfl, by simp⟩ (by simp [Overflows, hn])
  | some n =>
    by_cases hmoves : s.Overflows t.cancel
    · refine iff_of_false ?_ (not_not_intro hmoves)
      rintro ⟨r, s', hok, -⟩
      cases hok.symm.trans (compareTerms_error o htypes hterms hmoves)
    · refine iff_of_true ?_ hmoves
      obtain ⟨c, s', hrest, hextends, hcompares⟩ := compareRest_run (o := o) (x := x) (y := y)
        hrebuilding hfinal hn hmoves (by
          intro numbers a b ha hb
          obtain ⟨hall, htotal⟩ := hapart.evaluates numbers (by simpa using ⟨⟨b, hb⟩, ⟨a, ha⟩⟩)
          refine ⟨hall, htotal.trans ?_⟩
          simp [Terms.pending, ha.worth_eq, hb.worth_eq]
          ring)
      rw [hn] at hrun
      exact ⟨some c, s', hrun.trans (bind_ok hrest), hextends, rfl, by simpa using hcompares⟩

/-! ### One less than a machine integer -/

/-- The values of the comparison of `x - 1` with a number, over a machine integer `x`. -/
def oneLess (n : Int) : Array Value := #[
  .argument "x" .machineInt, .const (.machineInt 1),
  .op (OptState.binary "@sub_i_i_wrapped_res" 0 1 .int), .const (.int n)]

theorem sumTree_oneLess (n : Int) : (rebuildingState (oneLess n)).SumTree 2 :=
  sumTree_rebuildingState rfl rfl rfl (.term (by rintro _ ⟨⟩) (.inr rfl))
    (.term (by rintro _ ⟨⟩) (.inr rfl))

theorem termsOf_oneLess (n : Int) :
    termsOf 2 (some 3) (rebuildingState (oneLess n)) =
      .ok ⟨[0], [], some (-n + -1), 1⟩ (rebuildingState (oneLess n)) := by
  have hrun : takeApart 32 [(3, true), (2, false)] {} (rebuildingState (oneLess n)) =
      .ok ⟨[0], [], some (-n + -1), 1⟩ (rebuildingState (oneLess n)) := by
    rw [OptState.takeApart_leaf (by rintro _ ⟨⟩)]
    change takeApart 31 [(2, false)] ⟨[], [], some (-n), 0⟩ _ = _
    rw [takeApart_rebuildingState rfl rfl rfl, OptState.takeApart_leaf (by rintro _ ⟨⟩)]
    change takeApart 29 [(0, false)] ⟨[], [], some (-n + -1), 1⟩ _ = _
    rfl
  exact bind_ok hrun

/-- Below a number that is not the largest machine integer, `x` is compared with the next number. -/
theorem oneLess_compared :
    ∃ r s', compareTerms (OptState.binary "lt" 2 3 .bool) 2 3 (rebuildingState (oneLess 5)) =
        .ok r s' ∧ OptState.Extends (rebuildingState (oneLess 5)) s' ∧ r.isSome ∧
      ∀ c ∈ r, OptState.ComparesAs (rebuildingState (oneLess 5)) s'
        (OptState.binary "lt" 2 3 .bool) 2 3 c := by
  obtain ⟨t, hterms, hiff⟩ := compareTerms_comparesAs_iff (o := OptState.binary "lt" 2 3 .bool)
    (rebuilding_rebuildingState (oneLess 5)) (sumTree_oneLess 5)
    (.term (by rintro _ ⟨⟩) (.inl rfl)) (look_rebuildingState _ 2) (look_rebuildingState _ 3) rfl
  rw [termsOf_oneLess] at hterms
  obtain ⟨rfl, _⟩ := EStateM.Result.ok.inj hterms
  exact hiff.mpr (by decide)

/-- Below the largest machine integer the rewriting fails. -/
theorem oneLess_not_compared :
    compareTerms (OptState.binary "lt" 2 3 .bool) 2 3 (rebuildingState (oneLess (2 ^ 63 - 1))) =
      .error (.assertion "") (rebuildingState (oneLess (2 ^ 63 - 1))) :=
  OptState.compareTerms_error _ rfl (termsOf_oneLess _) (by decide)

end Jib.Graph
