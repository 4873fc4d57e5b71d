import Jib.Proofs.Check
import Jib.Proofs.Ranges.Completion

/-!
# Where the interval analysis fails

The outcome of a comparison is recorded when it is computed, and the intervals of its operands may
be narrowed before a branch tests it.  If they then leave one outcome only, the analysis still
narrows them for both, and stops at the interval that has no members.  It also stops at a vector
that is read as a number with a width that is not known.  Neither is excluded by the check for valid
graphs.
-/

namespace Jib.Graph

variable {bn : Builtins} {g : Graph} {a : Arena} {here : RangeMap} {t : RangeTable} {b : BlockId}
variable {v cond x z : ValueId} {o : Operation} {s : Interval}

/-! ### Branches that are decided too late -/

/-- The analysis of a block fails at a branch on an order whose outcome was recorded as open, if the
intervals that the operands have by now decide it. -/
theorem analyzeBlock_ne_ok {start : RangeMap} {u w : ValueId} {r : Interval} {p q : Int}
    {yes no : BlockId} {pos : Option String} (hstart : t[b]? = some start)
    (hfold : (a.ops b).toList.foldlM (analyzeValue a bn t) start = .ok here)
    (hnext : a.next b = .branch cond yes no pos) (hopen : rangeOf a here cond = .ok (some .bool))
    (ho : a.value cond = .op o) (hname : IsOrder (stripAt (bn o.name)))
    (hxs : o.args.toList = [x, z])
    (hpair : (if greaterFirst (stripAt (bn o.name)) then [z, x] else [x, z]) = [u, w])
    (hr : rangeOf a here u = .ok (some r)) (hs : rangeOf a here w = .ok (some s)) (hp : p ∈ r)
    (hq : q ∈ s)
    (hdecided : (if orEqual (stripAt (bn o.name)) then r.le s else r.lt s) ≠ .bool)
    (t' : RangeTable) :
    analyzeBlock a bn t b ≠ .ok t' := by
  intro hanalyze
  obtain ⟨here', hfold', ways, hways, -⟩ := (analyzeBlock_iff hstart).mp hanalyze
  cases hfold.symm.trans hfold'
  rw [hnext, exitRanges_branch_iff] at hways
  obtain ⟨r', hr', hways⟩ := hways
  cases hopen.symm.trans hr'
  obtain ⟨ifTrue, ifFalse, hfacts, -⟩ := hways
  obtain ⟨x', z', _, u', w', r', s', hxs', -, hpair', hr', hs', hsides⟩ :=
    (analyzeCondition_order_iff ho hname).mp hfacts
  cases hxs.symm.trans hxs'
  cases hpair.symm.trans hpair'
  cases hr.symm.trans hr'
  cases hs.symm.trans hs'
  have hmem (truth : Bool) := exists_of_orderFacts hp hq (hsides truth)
  revert hdecided hmem
  cases orEqual (stripAt (bn o.name))
  all_goals
    intro hdecided hmem
    refine hdecided (Interval.decided_eq_bool_of_mem fun truth => ?_)
    obtain ⟨p, hp, q, hq, rfl⟩ := hmem truth
  · exact Interval.mem_lt hp hq
  · exact Interval.mem_le hp hq

/-! ### Widths that are not known -/

/-- The analysis fails at a vector that is read as a number with a width of which more than one
value is possible. -/
theorem analyzeValue_ne_ok {tr : Transfer} (ho : a.value v = .op o)
    (htype : isRangeType o.type = true) (hkind : o.kind = .call)
    (htransfer : transfer? (bn (stripMarks o.name)) = some tr)
    (hwidth : tr = .unsignedBits ∨ tr = .signedBits) (hxs : o.args.toList = [x, z])
    (hz : rangeOf a here z = .ok (some s)) (hs : s.const? = none) (here' : RangeMap) :
    analyzeValue a bn t here v ≠ .ok here' := by
  intro hanalyze
  have happly : analyzeValue a bn t here v =
      (applyTransfer a here o tr >>= fun x => pure (x.2.insert v x.1)) := by
    simp only [analyzeValue, ho, Value.type, htype, hkind, Bool.not_true,
      Bool.false_eq_true, if_false]
    rw [if_neg (by decide), htransfer]
  rw [happly] at hanalyze
  obtain ⟨⟨r, here₁⟩, htr, -⟩ := exists_ok_of_bind hanalyze
  obtain ⟨x', z', _, w, s', hxs', -, hz', hw, -⟩ := (applyTransfer_bits_iff hwidth).mp htr
  cases hxs.symm.trans hxs'
  cases hz.symm.trans hz'
  cases hs.symm.trans hw

/-! ### The check -/

/-- A graph without phis, in which all blocks use only constants, arguments and what the first block
computes. -/
theorem check_eq_ok (hnodup : ∀ b ∈ g.blocks a, (a.ops b).toList.Nodup)
    (hphi : ∀ b ∈ g.blocks a, ∀ v ∈ a.ops b, ∀ p, a.value v ≠ .phi p)
    (huses : ∀ b ∈ g.blocks a, ∀ x, (x ∈ (a.next b).args ∨ ∃ v ∈ a.ops b, ∃ o, a.value v = .op o ∧
      x ∈ o.args) → (∃ c, a.value x = .const c) ∨ x ∈ g.args ∨ x ∈ a.ops g.start) :
    g.check a = .ok () := by
  have husable (b : BlockId) (hb : b ∈ g.blocks a) (x : ValueId) (hx) : g.Usable a b x :=
    (huses b hb x hx).imp_right (Or.imp_right fun hx => ⟨g.start, dominates_start g a b, hx⟩)
  refine check_eq_ok_iff.mpr fun b hb => ⟨⟨hnodup b hb, ?_, ?_, ?_, fun x hx => ?_⟩, ?_⟩
  · exact fun v hv p hp => absurd hp (hphi b hb v hv p)
  · exact fun v hv p hp => absurd hp (hphi b hb v hv p)
  · exact fun v hv o ho x hx => husable b hb x (.inr ⟨v, hv, o, ho, hx⟩)
  · exact husable b hb x (.inl hx)
  · exact fun v hv p hp => absurd hp (hphi b hb v hv p)

/-! ### Two tests, the first of which decides the second -/

def startTable : RangeTable := (∅ : RangeTable).insert 0 ((∅ : RangeMap).insert 0 .unbounded)

/-- What is known of the number and of the tests where both tests have been computed. -/
def testedRanges : RangeMap := (((∅ : RangeMap).insert 0 .unbounded).insert 2 .bool).insert 4 .bool

/-- What is known behind the first test of a number up to ten: the second test is as it was. -/
def upToTen : RangeMap :=
  ((testedRanges.insert 0 ⟨none, some 10⟩).insert 1 (.ofConst 10)).insert 2 .yes

theorem rangeOf_nested {k : Int} {here : RangeMap} {v : ValueId} {r : Interval}
    (hv : constRange? (nestedArena k) v = none) (hr : here[v]? = some r) :
    rangeOf (nestedArena k) here v = .ok (some r) := by
  simp only [rangeOf, hv, hr]

theorem analyzeBlock_tests (k : Int) : ∃ t : RangeTable,
    analyzeBlock (nestedArena k) id startTable 0 = .ok t ∧ t[1]? = some upToTen := by
  have hnumber {here : RangeMap} (hhere : here[0]? = some .unbounded) :
      rangeOf (nestedArena k) here 0 = .ok (some .unbounded) := rangeOf_nested rfl hhere
  have hfirst : analyzeValue (nestedArena k) id startTable ((∅ : RangeMap).insert 0 .unbounded) 2 =
      .ok (((∅ : RangeMap).insert 0 .unbounded).insert 2 .bool) :=
    analyzeValue_two rfl rfl rfl rfl rfl (hnumber (by simp)) rfl rfl
  have hsecond : analyzeValue (nestedArena k) id startTable
      (((∅ : RangeMap).insert 0 .unbounded).insert 2 .bool) 4 = .ok testedRanges :=
    analyzeValue_two rfl rfl rfl rfl rfl (hnumber (by simp [Std.HashMap.getElem_insert])) rfl rfl
  have hfold : #[2, 4].foldlM (analyzeValue (nestedArena k) id startTable)
      ((∅ : RangeMap).insert 0 .unbounded) = .ok testedRanges := by
    rw [← Array.foldlM_toList, List.foldlM_cons, hfirst]
    change (analyzeValue (nestedArena k) id startTable _ 4 >>= pure) = _
    rw [hsecond]
    rfl
  have hcondition : analyzeCondition (nestedArena k) id testedRanges 2 = .ok
      ((testedRanges.insert 0 ⟨none, some 10⟩).insert 1 (.ofConst 10),
        (testedRanges.insert 0 ⟨some 11, none⟩).insert 1 (.ofConst 10)) := by
    refine (analyzeCondition_order_iff rfl (.inr (.inr (.inl rfl)))).mpr
      ⟨0, 1, [], 0, 1, .unbounded, .ofConst 10, rfl, fun _ => rfl, rfl, ?_, rfl, ?_⟩
    · exact hnumber (by simp [testedRanges, Std.HashMap.getElem_insert])
    · exact Bool.forall_bool.mpr ⟨rfl, rfl⟩
  have hrange : rangeOf (nestedArena k) testedRanges 2 = .ok (some .bool) :=
    rangeOf_nested rfl (by simp [testedRanges, Std.HashMap.getElem_insert])
  have hmerge {t : RangeTable} {b : BlockId} (hb : t[b]? = none) (here : RangeMap) :
      mergeRanges t (b, here) = .ok (t.insert b here) := by simp only [mergeRanges, hb]
  have hstart : startTable[0]? = some ((∅ : RangeMap).insert 0 .unbounded) := by simp [startTable]
  refine ⟨_, (analyzeBlock_iff hstart).mpr ⟨testedRanges, ?_, _,
    exitRanges_branch_iff.mpr ⟨.bool, hrange, _, _, hcondition, rfl⟩,
    bind_eq_ok_iff.mpr ⟨_, hmerge ?_ _, bind_eq_ok_iff.mpr ⟨_, hmerge ?_ _, rfl⟩⟩⟩, ?_⟩
  · rw [(ops_nested k).1, Array.foldlM_toList, hfold]
  all_goals simp [startTable, upToTen, Std.HashMap.getElem_insert]

theorem analyzeRanges_nested_ne_ok {k : Int} (hk : 10 ≤ k) (t : RangeTable) :
    nested.analyzeRanges id (nestedArena k) ≠ .ok t := by
  intro hanalyze
  obtain ⟨order, horder, rest, hrest⟩ := topoOrder_nested k
  obtain ⟨t₁, hfirst, hsecond⟩ := analyzeBlock_tests k
  rw [analyzeRanges, horder] at hanalyze
  change order.foldlM (analyzeBlock (nestedArena k) id) startTable = _ at hanalyze
  rw [← Array.foldlM_toList, hrest, List.foldlM_cons, hfirst] at hanalyze
  change (analyzeBlock (nestedArena k) id t₁ 1 >>= _) = _ at hanalyze
  obtain ⟨t₂, hblock, -⟩ := exists_ok_of_bind hanalyze
  have hopen : rangeOf (nestedArena k) upToTen 4 = .ok (some .bool) := rangeOf_nested rfl (by
    simp [upToTen, testedRanges, Std.HashMap.getElem_insert])
  have hnumber : rangeOf (nestedArena k) upToTen 0 = .ok (some ⟨none, some 10⟩) :=
    rangeOf_nested rfl (by simp [upToTen, Std.HashMap.getElem_insert])
  have hdecided : (⟨none, some 10⟩ : Interval).le (.ofConst k) ≠ .bool := by
    simp [Interval.le, Interval.related, Interval.ofConst, hk]
    decide
  refine absurd hblock
    (analyzeBlock_ne_ok hsecond rfl rfl hopen rfl (.inr (.inr (.inl rfl))) rfl rfl
    hnumber rfl (p := 10) (by decide) (Interval.mem_ofConst k) ?_ t₂)
  exact hdecided

theorem check_nested (k : Int) : nested.check (nestedArena k) = .ok () := by
  refine check_eq_ok (wellTyped_nested k).nodup ?_ ?_
  · refine forall_blocks_nested k ?_ ?_ ?_ ?_ ?_ <;> simp [ops_nested]
    simp [nestedArena, Arena.value]
  · refine forall_blocks_nested k ?_ ?_ ?_ ?_ ?_ <;> simp [ops_nested, nested] <;>
      simp [nestedArena, Arena.value, Arena.next, Arena.block, Next.args]
    rintro x ((rfl | rfl) | rfl | rfl) <;> simp

/-! ### A width that is an argument -/

/-- Reads a vector as a number, with a width that is an argument. -/
def converting : Graph := ⟨"zconvert", #[0, 1], 0, false⟩

def convertingArena : Arena where
  values := #[.argument "zv" .bits, .argument "zw" .int,
    .op ⟨.call, "unsigned_bv", #[0, 1], .int, none, none⟩]
  blocks := #[⟨#[2], .ret (some 2) none⟩]

theorem blocks_converting : converting.blocks convertingArena = #[0] := by
  simp [blocks, converting, convertingArena, Arena.reachFrom, Arena.targets,
    Arena.next, Arena.block, Next.targets]

theorem forall_blocks_converting {P : BlockId → Prop} (hentry : P 0) :
    ∀ b ∈ converting.blocks convertingArena, P b := by
  rw [blocks_converting]
  simp [hentry]

theorem ops_converting : convertingArena.ops 0 = #[2] := rfl

theorem loopFree_converting : converting.LoopFree convertingArena :=
  loopFree_of_lt (forall_blocks_converting fun _ hedge => by cases hedge)

theorem wellTyped_converting : converting.WellTyped convertingArena where
  argument := by simp [converting, convertingArena, Arena.value]
  computed := forall_blocks_converting (by
    rw [ops_converting]
    simp [convertingArena, Arena.value])
  nodup := forall_blocks_converting (by simp [ops_converting])
  once := forall_blocks_converting (forall_blocks_converting fun _ _ _ => rfl)
  ordered := forall_blocks_converting (by
    intro before v after o hops
    cases before <;> simp [ops_converting] at hops
    simp [hops])
  entry := forall_blocks_converting (by
    intro v hv p hp
    simp [ops_converting] at hv
    subst hv
    cases hp)
  start := by simp [converting, convertingArena, Arena.value, Arena.ops, Arena.block]
  numbers := by
    intro v c hc _
    rcases Nat.lt_or_ge v 3 with hv | hv
    · interval_cases v <;> cases hc
    · rw [Arena.value_of_size_le hv] at hc
      cases hc
  condition := forall_blocks_converting (by rintro _ _ _ _ ⟨⟩)

theorem topoOrder_converting : converting.topoOrder convertingArena = .ok #[0] := by
  unfold topoOrder listBlocks
  rw [blocks_converting]
  simp [converting, topoLoop, freed, distinctTargets,
    show convertingArena.targets 0 = [] from rfl, sameBlocks_iff, Arena.noDuplicates,
    List.eraseDups_cons, bind, Except.bind, pure, Except.pure]

theorem check_converting : converting.check convertingArena = .ok () := by
  refine check_eq_ok wellTyped_converting.nodup (forall_blocks_converting ?_)
    (forall_blocks_converting ?_)
  · simp [ops_converting]
    simp [convertingArena, Arena.value]
  · simp [ops_converting, converting]
    simp [convertingArena, Arena.value, Arena.next, Arena.block, Next.args]

/-- Nothing is known of the arguments. -/
def argumentRanges : RangeMap := ((∅ : RangeMap).insert 0 .unbounded).insert 1 .unbounded

theorem analyzeRanges_converting_ne_ok (t : RangeTable) :
    converting.analyzeRanges id convertingArena ≠ .ok t := by
  intro hanalyze
  obtain ⟨order, horder, hfold⟩ := exists_ok_of_bind hanalyze
  cases topoOrder_converting.symm.trans horder
  obtain ⟨t₁, hblock, -⟩ := exists_ok_of_bind hfold
  obtain ⟨here, hvalues, -⟩ := (analyzeBlock_iff Std.HashMap.getElem?_insert_self).mp hblock
  obtain ⟨here', hvalue, -⟩ := exists_ok_of_bind hvalues
  have hwidth : rangeOf convertingArena argumentRanges 1 = .ok (some .unbounded) := by
    simp only [rangeOf, show constRange? convertingArena 1 = none from rfl]
    simp [argumentRanges]
  exact analyzeValue_ne_ok rfl rfl rfl rfl (.inl rfl) rfl hwidth rfl here' hvalue

/-- Graphs that pass the check and on which the analysis fails: one with a test that comes too late
to be open, and one that reads a vector with a width that is not known. -/
theorem analyzeRanges_not_total :
    (nested.check (nestedArena 20) = .ok () ∧ nested.WellTyped (nestedArena 20) ∧
      nested.LoopFree (nestedArena 20) ∧ nested.Analyzable (nestedArena 20) id ∧
      ∀ t, nested.analyzeRanges id (nestedArena 20) ≠ .ok t) ∧
    converting.check convertingArena = .ok () ∧ converting.WellTyped convertingArena ∧
      converting.LoopFree convertingArena ∧
      ∀ t, converting.analyzeRanges id convertingArena ≠ .ok t :=
  ⟨⟨check_nested 20, wellTyped_nested 20, loopFree_nested 20, analyzable_nested 20,
      analyzeRanges_nested_ne_ok (by decide)⟩,
    check_converting, wellTyped_converting, loopFree_converting, analyzeRanges_converting_ne_ok⟩

end Jib.Graph
