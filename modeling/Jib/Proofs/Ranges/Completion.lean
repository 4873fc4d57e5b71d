import Jib.Proofs.Ranges.Progress
import Jib.Proofs.Ranges.Runs
import Jib.Proofs.TopoOrder
import Mathlib.Tactic.IntervalCases

/-!
# The interval analysis finishes on graphs without dead code

The analysis fails where it would have to make an interval without members.  That happens in code
that no run gets to: behind a branch whose condition was computed when it was open and that what was
learned since decides.  If a run gets to the end of every block, and runs take both sides of every
branch on the order of two numbers, then the numbers of the runs are members of all the intervals,
whatever is compared and in whatever order.
-/

namespace Jib.Graph

variable {V E M : Type} {I : Interpretation V E M} {number : V → Option Int} {bn : Builtins}
variable {g : Graph} {a : Arena} {here here' : RangeMap} {t t' : RangeTable}
variable {ρ ρ' : Valuation V} {b c : BlockId} {v cond : ValueId} {m m' : M} {y : V} {ys : List V}
variable {o : Operation} {done : List BlockId}

/-- Graphs whose operations have operands that the analysis can use. -/
structure Analyzable (g : Graph) (a : Arena) (bn : Builtins) : Prop where
  next : ∀ b ∈ g.blocks a, a.next b ≠ .unset
  usable : ∀ b ∈ g.blocks a, ∀ cond yes no pos, a.next b = .branch cond yes no pos →
    g.Usable a b cond
  accepted : ∀ b ∈ g.blocks a, ∀ v ∈ a.ops b, ∀ o tr, a.value v = .op o →
    isRangeType o.type = true →
    o.kind = .call → transfer? (bn (stripMarks o.name)) = some tr → tr.Accepts a o.args.toList
  /-- Numbers are compared by order. -/
  ordered : ∀ b ∈ g.blocks a, ∀ cond yes no pos o, a.next b = .branch cond yes no pos →
    a.value cond = .op o → IsOrder (stripAt (bn o.name)) →
      ∃ x z, o.args.toList = [x, z] ∧ isRangeType (a.typeOf x) = true ∧
      isRangeType (a.typeOf z) = true
  /-- A number is compared with a number. -/
  equated : ∀ b ∈ g.blocks a, ∀ cond yes no pos o, a.next b = .branch cond yes no pos →
    a.value cond = .op o → equalityNames.contains (stripAt (bn o.name)) = true →
      ∃ x z, o.args.toList = [x, z] ∧
        (isIntType (a.typeOf x) = true → isRangeType (a.typeOf z) = true)

/-- Graphs without dead code: runs get to the end of every block, and take both sides of every
branch on the order of two numbers. -/
structure Live (g : Graph) (I : Interpretation V E M) (a : Arena) (number : V → Option Int)
    (bn : Builtins) : Prop where
  reached : ∀ b ∈ g.blocks a, ∃ ys ρ, g.Inputs a number ys ∧ g.Ends I a ys b ρ
  taken : ∀ b ∈ g.blocks a, ∀ cond yes no pos o, a.next b = .branch cond yes no pos →
    a.value cond = .op o → IsOrder (stripAt (bn o.name)) → ∀ truth,
      ∃ ys ρ y, g.Inputs a number ys ∧ g.Ends I a ys b ρ ∧ I.look a ρ cond = some y ∧
        I.isTrue y = truth

/-! ### One block -/

theorem exists_analyze_phi {p : Phi} (hhere : Occupied here) (hp : a.value v = .phi p)
    (hphi : isRangeType p.type = true → ∃ r, phiRange a t p = .ok (some r) ∧ ∃ n, n ∈ r) :
    ∃ here', analyzeValue a bn t here v = .ok here' ∧ Occupied here' := by
  unfold analyzeValue
  simp only [hp, Value.type]
  split_ifs with htype
  · exact ⟨here, rfl, hhere⟩
  · obtain ⟨r, hr, n, hn⟩ := hphi (by simpa using htype)
    rw [hr]
    exact ⟨_, rfl, hhere.insert v hn⟩

theorem Covers.exists_block (hI : I.Arithmetical number bn) (hnumbers : NumberConstants a)
    (hwf : g.WellFormed a) (hloop : g.LoopFree a) (hanalyzable : g.Analyzable a bn)
    (hb : b ∈ g.blocks a) {evaluated after : List ValueId}
    (hops : (a.ops b).toList = evaluated ++ after) (hscope : g.Scope I a b evaluated ρ)
    (hcovers : Covers a number here after ρ) (hhere : Occupied here)
    (hphis : PhisFit a number t after ρ)
    (hranges : ∀ v ∈ after, ∀ p, a.value v = .phi p → isRangeType p.type = true →
      ∃ r, phiRange a t p = .ok (some r) ∧ ∃ n, n ∈ r)
    (heval : I.evalOps a after ρ m = .ok ρ' m') :
    ∃ here', after.foldlM (analyzeValue a bn t) here = .ok here' ∧ Occupied here' := by
  induction after generalizing evaluated here ρ m with
  | nil => exact ⟨here, rfl, hhere⟩
  | cons v after ih =>
    have hnext : (a.ops b).toList = (evaluated ++ [v]) ++ after := by rw [hops]; simp
    have hv : v ∈ a.ops b := Array.mem_toList_iff.mp (by rw [hops]; simp)
    have hnodup : (v :: after).Nodup := (List.nodup_append.mp (hops ▸ hwf.nodup b hb)).2.1
    rw [List.foldlM_cons]
    rcases Interpretation.evalOps_cons_ok heval with
      ⟨o, ys, y, m₁, ho, hargs, happly, heval⟩ | ⟨hop, heval⟩
    · have hpending (x : ValueId) (hx : x ∈ o.args.toList) : x ∉ v :: after :=
        hscope.operands hwf hloop hb hops ho hargs hx
      have hlook (x : ValueId) (z : V) (hz : ρ x = some z) : I.look a ρ x = some z :=
        hscope.look_eq hwf hz
      obtain ⟨here₁, hfirst, hhere₁⟩ := hcovers.exists_analyze_op hI hnumbers hpending hargs hlook
        hhere ho (fun tr => hanalyzable.accepted b hb v hv o tr ho) happly t
      rw [hfirst]
      exact ih hnext (hscope.evaluate hwf hloop hb hops ho hargs happly)
        (hcovers.analyze_op hI hnumbers hlook hpending hargs rfl ho happly hfirst) hhere₁
        (hphis.update hnodup) (fun u hu => hranges u (List.mem_cons_of_mem _ hu)) heval
    · obtain ⟨p, hp⟩ := (hwf.computed b hb v hv).resolve_left (fun ⟨o, ho⟩ => hop o ho)
      obtain ⟨here₁, hfirst, hhere₁⟩ :
          ∃ here₁, analyzeValue a bn t here v = .ok here₁ ∧ Occupied here₁ :=
        exists_analyze_phi hhere hp (hranges v List.mem_cons_self p hp)
      rw [hfirst]
      exact ih hnext (hscope.skip hwf hb hv hop)
        (hcovers.analyze_phi hp (fun r z => hphis v List.mem_cons_self p r z hp) hfirst) hhere₁
        (fun u hu => hphis u (List.mem_cons_of_mem _ hu))
        (fun u hu => hranges u (List.mem_cons_of_mem _ hu)) heval

/-! ### Runs -/

/-- The test that a branch makes at the end of a block, in a run. -/
theorem Ends.tested (hends : g.Ends I a ys b ρ) (hI : I.Arithmetical number bn)
    (hwt : g.WellTyped a) (hloop : g.LoopFree a) (hinputs : g.Inputs a number ys)
    (hcovers : Covers a number here [] ρ) (ho : a.value cond = .op o)
    (htype : a.typeOf cond = .bool)
    (hlook : I.look a ρ cond = some y) : Tested I a number here o (I.isTrue y) ρ := by
  obtain ⟨-, hscope, htruths⟩ := hends.scope hI hwt hloop hinputs
  obtain ⟨truth, hnumber⟩ := htruths.look hI hwt.numbers htype hlook
  have hvalue : ρ cond = some y := by simpa [Interpretation.look, ho] using hlook
  obtain ⟨ys, m, m', hargs, happly⟩ := hscope.applied cond o y ho hvalue
  refine ⟨hcovers, fun x z hz => hscope.look_eq hwt.toWellFormed hz, ys, y, m, m', hargs,
    happly, ?_⟩
  rw [hI.isTrue y truth hnumber, hnumber]

section Walk

variable (hI : I.Arithmetical number bn) (hwt : g.WellTyped a) (hloop : g.LoopFree a)
  (hanalyzable : g.Analyzable a bn) (hlive : g.Live I a number bn)

include hI hwt hloop

/-- The phis of a block that a run gets to have intervals. -/
theorem Analyzed.exists_phiRange (hinputs : g.Inputs a number ys)
    (hdone : g.Analyzed I a number ys done t) (ht : AllOccupied t) (hb : b ∉ done)
    (hready : ∀ p, p ∈ g.blocks a ∧ a.Edge p b → p ∈ done)
    (hrun : Follows (I.graphStep a) (g.initial ys) m (ρ, b) m') {p : Phi} (hv : v ∈ a.ops b)
    (hp : a.value v = .phi p) (htype : isRangeType p.type = true) :
    ∃ r, phiRange a t p = .ok (some r) ∧ ∃ n, n ∈ r := by
  rcases hrun.exists_last with ⟨heq, -⟩ | ⟨⟨ρ₀, c⟩, m₁, hbefore, hstep⟩
  · obtain ⟨rfl, rfl⟩ := Prod.mk.inj heq
    exact absurd hp (hwt.start v hv p)
  · obtain ⟨ρ₁, m₂, heval, hleave⟩ := Interpretation.graphStep_ok hstep
    have hends : g.Ends I a ys c ρ₁ := ⟨_, _, _, _, hbefore, heval⟩
    have hedge := Interpretation.edge_of_leave hleave
    obtain ⟨hc, hscope, -⟩ := hends.scope hI hwt hloop hinputs
    obtain ⟨here, hhere, hcovers⟩ := hdone.ended c (hready c ⟨hc, hedge⟩) ρ₁ hends
    obtain ⟨w, hw, hwtype, husable⟩ :=
      hwt.entry b (mem_blocks_of_edge hc hedge) v hv p hp c hc hedge
    obtain ⟨y, hy⟩ := hscope.exists_look hwt.toWellFormed husable
    obtain ⟨s, hs, -⟩ := exists_entryRange hI hwt.numbers hhere hcovers (by rw [hwtype, htype]) hy
    exact ht.exists_phiRange hw hs

include hanalyzable hlive

theorem exists_analyzeCondition (hb : b ∈ g.blocks a) (hhere : Occupied here)
    (hcovers : ∀ ys ρ, g.Inputs a number ys → g.Ends I a ys b ρ → Covers a number here [] ρ)
    {yes no : BlockId} {pos : Option String} (hnext : a.next b = .branch cond yes no pos) :
    ∃ ifTrue ifFalse, analyzeCondition a bn here cond = .ok (ifTrue, ifFalse) ∧
      Occupied ifTrue ∧ Occupied ifFalse := by
  have htype := hwt.condition b hb cond yes no pos hnext
  by_cases hop : ∃ o, a.value cond = .op o
  · obtain ⟨o, ho⟩ := hop
    by_cases horder : IsOrder (stripAt (bn o.name))
    · obtain ⟨x, z, hxs, hx, hz⟩ := hanalyzable.ordered b hb cond yes no pos o hnext ho horder
      refine exists_analyzeCondition_order hI hwt.numbers hhere ho horder hxs hx hz fun truth => ?_
      obtain ⟨ys, ρ, y, hinputs, hends, hlook, rfl⟩ :=
        hlive.taken b hb cond yes no pos o hnext ho horder truth
      exact ⟨ρ, hends.tested hI hwt hloop hinputs (hcovers ys ρ hinputs hends) ho htype hlook⟩
    · by_cases hequal : equalityNames.contains (stripAt (bn o.name)) = true
      · obtain ⟨x, z, hxs, hz⟩ := hanalyzable.equated b hb cond yes no pos o hnext ho hequal
        obtain ⟨ys, ρ, hinputs, hends⟩ := hlive.reached b hb
        obtain ⟨-, hscope, -⟩ := hends.scope hI hwt hloop hinputs
        obtain ⟨y, hlook⟩ := hscope.exists_look hwt.toWellFormed
          (hanalyzable.usable b hb cond yes no pos hnext)
        exact exists_analyzeCondition_equality hI hwt.numbers hhere ho horder hequal hxs hz
          (hends.tested hI hwt hloop hinputs (hcovers ys ρ hinputs hends) ho htype hlook)
      · exact ⟨here, here, analyzeCondition_other ho horder hequal, hhere, hhere⟩
  · exact ⟨here, here, analyzeCondition_of_not_op fun o ho => hop ⟨o, ho⟩, hhere, hhere⟩

section

variable (hdone : ∀ ys, g.Inputs a number ys → g.Analyzed I a number ys done t) (ht : AllOccupied t)
include hdone ht

section

variable (hmem : b ∈ g.blocks a) (hb : b ∉ done)
    (hready : ∀ p, p ∈ g.blocks a ∧ a.Edge p b → p ∈ done)
include hmem hb hready

/-- The values of the next block can be analyzed, and what is found covers every run. -/
theorem exists_blockRanges :
    ∃ start here, t[b]? = some start ∧
      (a.ops b).toList.foldlM (analyzeValue a bn t) start = .ok here ∧ Occupied here ∧
      ∀ ys ρ, g.Inputs a number ys → g.Ends I a ys b ρ → Covers a number here [] ρ := by
  obtain ⟨ys, ρ, hinputs, m₀, ρ₀, m, m', hrun, heval⟩ := hlive.reached b hmem
  obtain ⟨start, hstart, hcovers, hphis⟩ :=
    (hdone ys hinputs).entered hI hwt hloop hinputs hb hready hrun
  obtain ⟨-, hscope, -⟩ := arrival hI hwt hloop hinputs hrun
  obtain ⟨here, hfold, hhere⟩ :=
    hcovers.exists_block hI hwt.numbers hwt.toWellFormed hloop hanalyzable
    hmem (List.nil_append _).symm hscope (ht b start hstart) hphis (fun v hv p hp =>
      (hdone ys hinputs).exists_phiRange hI hwt hloop hinputs ht hb hready hrun
        (Array.mem_toList_iff.mp hv) hp) heval
  exact ⟨start, here, hstart, hfold, hhere, fun ys ρ hinputs =>
    (hdone ys hinputs).covers hI hwt hloop hinputs hb hready hstart hfold⟩

theorem exists_analyzeBlock : ∃ t', analyzeBlock a bn t b = .ok t' ∧ AllOccupied t' := by
  obtain ⟨start, here, hstart, hfold, hhere, hcovers⟩ :=
    exists_blockRanges hI hwt hloop hanalyzable hlive hdone ht hmem hb hready
  suffices hways :
      ∃ ways, exitRanges a bn here (a.next b) = .ok ways ∧ ∀ way ∈ ways, Occupied way.2 by
    obtain ⟨ways, hways, hall⟩ := hways
    obtain ⟨t', hmerge, ht'⟩ :=
      exists_foldlM_ok (fun way hway _ ht => ht.mergeRanges (hall way hway) way.1)
      (ht.insert b hhere)
    exact ⟨t', (analyzeBlock_iff hstart).mpr ⟨here, hfold, ways, hways, hmerge⟩, ht'⟩
  cases hnext : a.next b with
  | unset => exact absurd hnext (hanalyzable.next b hmem)
  | ret _ _ | raise _ _ | justStop => exact ⟨[], rfl, nofun⟩
  | goto s pos => exact ⟨_, rfl, by simpa using hhere⟩
  | branch cond yes no pos =>
    obtain ⟨ys, ρ, hinputs, hends⟩ := hlive.reached b hmem
    obtain ⟨-, hscope, -⟩ := hends.scope hI hwt hloop hinputs
    obtain ⟨y, hlook⟩ := hscope.exists_look hwt.toWellFormed
      (hanalyzable.usable b hmem cond yes no pos hnext)
    obtain ⟨r, hr, -⟩ := (hcovers ys ρ hinputs hends).exists_range hI hwt.numbers (by simp)
      (by rw [hwt.condition b hmem cond yes no pos hnext]; rfl) hlook
    obtain ⟨ifTrue, ifFalse, hcond, htrue, hfalse⟩ :=
      exists_analyzeCondition hI hwt hloop hanalyzable hlive hmem hhere hcovers hnext
    simp only [exitRanges_branch_iff]
    suffices hways : ∃ ways : List (BlockId × RangeMap), (if r = .yes then _ else _) ∧
        ∀ way ∈ ways, Occupied way.2 from hways.imp fun _ h => ⟨⟨r, hr, h.1⟩, h.2⟩
    split_ifs
    · exact ⟨_, rfl, by simpa using hhere⟩
    · exact ⟨_, rfl, by simpa using hhere⟩
    · refine ⟨_, ⟨ifTrue, ifFalse, hcond, rfl⟩, ?_⟩
      simpa using ⟨htrue.insert cond (Interval.mem_yes.mpr rfl),
        hfalse.insert cond (Interval.mem_no.mpr rfl)⟩

end

theorem exists_walk {rest : List BlockId} (hrest : ∀ b ∈ rest, b ∈ g.blocks a)
    (hnodup : (done ++ rest).Nodup) (hready : ReadyOrder g a done rest) :
    ∃ t', rest.foldlM (analyzeBlock a bn) t = .ok t' := by
  induction rest generalizing done t with
  | nil => exact ⟨t, rfl⟩
  | cons b rest ih =>
    obtain ⟨hmem, hrest⟩ := List.forall_mem_cons.mp hrest
    have hb : b ∉ done := fun h => List.disjoint_of_nodup_append hnodup h List.mem_cons_self
    obtain ⟨t₁, hfirst, ht₁⟩ :=
      exists_analyzeBlock hI hwt hloop hanalyzable hlive hdone ht hmem hb hready.1
    rw [List.append_cons] at hnodup
    rw [List.foldlM_cons, hfirst]
    exact ih (fun ys hinputs => (hdone ys hinputs).step hI hwt hloop hinputs hb hready.1 hfirst) ht₁
      hrest hnodup hready.2

end

end Walk

theorem occupied_foldl_unbounded {vs : List ValueId} (hhere : Occupied here) :
    Occupied (vs.foldl (fun (m : RangeMap) v => m.insert v .unbounded) here) :=
  List.foldlRecOn vs _ hhere fun _ hm v _ => hm.insert v (Interval.mem_unbounded 0)

/-- The analysis of a graph without loops and without dead code finishes, whatever its branches
compare and in whatever order the comparisons are computed. -/
theorem exists_analyzeRanges (hI : I.Arithmetical number bn) (hwt : g.WellTyped a)
    (hloop : g.LoopFree a) (hanalyzable : g.Analyzable a bn) (hlive : g.Live I a number bn) :
    ∃ t, g.analyzeRanges bn a = .ok t := by
  obtain ⟨order, horder, hblocks⟩ := exists_topoOrder hloop
  obtain ⟨hnodup, -, hready⟩ := topoOrder_spec hloop horder
  have hstart : AllOccupied ((∅ : RangeTable).insert g.start
      (g.args.foldl (fun (m : RangeMap) v => m.insert v .unbounded) ∅)) := by
    rw [← Array.foldl_toList]
    exact AllOccupied.insert (by intro b here hb; simp at hb) g.start
      (occupied_foldl_unbounded occupied_empty)
  obtain ⟨t, hwalk⟩ := exists_walk hI hwt hloop hanalyzable hlive
    (fun ys hinputs => analyzed_start hinputs) hstart
    (fun b hb => hblocks b (Array.mem_toList_iff.mp hb)) hnodup hready
  refine ⟨t, ?_⟩
  rw [Array.foldlM_toList] at hwalk
  rw [analyzeRanges, horder]
  exact hwalk

/-! ### Two tests of one number -/

/-- Compares two numbers, or adds them. -/
def calculate (kind : OpKind) (name : String) (t : Ty) (ys : List Int) : EStateM Unit Unit Int :=
  match kind, name, t, ys with
  | .call, "lteq", .bool, [x, y] => pure (Interval.ofBool (x ≤ y))
  | .call, "add_int", .int, [x, y] => pure (x + y)
  | _, _, _, _ => throw ()

theorem calculate_ok {kind : OpKind} {name : String} {type : Ty} {ys : List Int} {m m' : Unit}
    {y : Int} (happly : calculate kind name type ys m = .ok y m') :
    ∃ x z, ys = [x, z] ∧ (name = "lteq" ∧ type = .bool ∧ y = Interval.ofBool (x ≤ z) ∨
      name = "add_int" ∧ type = .int ∧ y = x + z) := by
  unfold calculate at happly
  split at happly
  · cases happly
    exact ⟨_, _, rfl, .inl ⟨rfl, rfl, rfl⟩⟩
  · cases happly
    exact ⟨_, _, rfl, .inr ⟨rfl, rfl, rfl⟩⟩
  · cases happly

/-- A machine whose values are numbers. -/
def calculator : Interpretation Int Unit Unit where
  constant
    | .bool b => Interval.ofBool b
    | .machineInt n | .int n => n
    | _ => 0
  apply := calculate
  isTrue y := y == 1
  unbound := ()
  constant_unit c hc := by
    cases c <;> first | rfl | cases hc
  apply_unit kind name args m y m' happly := by
    obtain ⟨x, z, -, ⟨-, htype, -⟩ | ⟨-, htype, -⟩⟩ := calculate_ok happly <;> cases htype

theorem arithmetical_calculator : calculator.Arithmetical some id where
  bool _ := rfl
  machineInt _ := rfl
  int _ := rfl
  default type htype := ⟨0, by cases type <;> (first | decide | cases htype), rfl⟩
  isTrue y b hy := by
    cases hy
    cases b <;> rfl
  typed kind name type ys m y m' _ happly := by
    obtain ⟨x, z, -, ⟨-, rfl, rfl⟩ | ⟨-, rfl, rfl⟩⟩ := calculate_ok happly
    · exact ⟨_, Interval.ofBool_mem_bool _, rfl⟩
    · exact ⟨_, Interval.mem_unbounded _, rfl⟩
  call name type ys m y m' n k happly hn hk := by
    cases hn
    obtain ⟨x, z, rfl, ⟨rfl, -, rfl⟩ | ⟨rfl, -, rfl⟩⟩ := calculate_ok happly <;>
      · cases hk
        rfl
  compare kind name type ys m y m' n holds happly hn hk := by
    cases hn
    obtain ⟨x, z, rfl, ⟨rfl, -, rfl⟩ | ⟨rfl, -, rfl⟩⟩ := calculate_ok happly
    · cases Option.some.inj hk
      rfl
    · cases Option.some.inj hk

/-- Tests whether a number is at most ten, then whether it is at most another number, which was
computed before. -/
def nested : Graph := ⟨"znested", #[0], 0, false⟩

def nestedArena (k : Int) : Arena where
  values := #[.argument "zx" .int, .const (.int 10),
    .op ⟨.call, "lteq", #[0, 1], .bool, none, none⟩,
    .const (.int k), .op ⟨.call, "lteq", #[0, 3], .bool, none, none⟩]
  blocks := #[⟨#[2, 4], .branch 2 1 2 none⟩, ⟨#[], .branch 4 3 4 none⟩, ⟨#[], .ret (some 0) none⟩,
    ⟨#[], .ret (some 0) none⟩, ⟨#[], .ret (some 0) none⟩]

section Nested

variable (k : Int)

theorem ops_nested : (nestedArena k).ops 0 = #[2, 4] ∧ (nestedArena k).ops 1 = #[] ∧
    (nestedArena k).ops 2 = #[] ∧ (nestedArena k).ops 3 = #[] ∧ (nestedArena k).ops 4 = #[] :=
  ⟨rfl, rfl, rfl, rfl, rfl⟩

theorem targets_nested : (nestedArena k).targets 0 = [2, 1] ∧ (nestedArena k).targets 1 = [4, 3] ∧
    (nestedArena k).targets 2 = [] ∧ (nestedArena k).targets 3 = [] ∧
    (nestedArena k).targets 4 = [] := ⟨rfl, rfl, rfl, rfl, rfl⟩

theorem blocks_nested : nested.blocks (nestedArena k) = #[0, 1, 3, 4, 2] := by
  simp [blocks, nested, nestedArena, Arena.reachFrom, Arena.targets, Arena.next,
    Arena.block, Next.targets]

theorem forall_blocks_nested {P : BlockId → Prop} (hentry : P 0) (hsecond : P 1) (hlarge : P 2)
    (hyes : P 3) (hno : P 4) : ∀ b ∈ nested.blocks (nestedArena k), P b := by
  rw [blocks_nested]
  simp [hentry, hsecond, hlarge, hyes, hno]

theorem topoOrder_nested : ∃ order, nested.topoOrder (nestedArena k) = .ok order ∧
    ∃ rest, order.toList = 0 :: 1 :: rest := by
  unfold topoOrder listBlocks
  rw [blocks_nested]
  simp [nested, topoLoop, waiting, outEdges, setWaiting, freed, release, distinctTargets,
    targets_nested, sameBlocks_iff, List.eraseDups_cons, Arena.noDuplicates,
    Std.HashMap.getD_insert,
    Std.HashMap.getD_erase, bind, Except.bind, pure, Except.pure]

theorem loopFree_nested : nested.LoopFree (nestedArena k) := by
  refine loopFree_of_lt (forall_blocks_nested k ?_ ?_ ?_ ?_ ?_) <;>
    simp [Arena.Edge, targets_nested]

theorem wellTyped_nested : nested.WellTyped (nestedArena k) where
  argument := by simp [nested, nestedArena, Arena.value]
  computed := by
    refine forall_blocks_nested k ?_ ?_ ?_ ?_ ?_ <;> simp [ops_nested]
    simp [nestedArena, Arena.value]
  nodup := by refine forall_blocks_nested k ?_ ?_ ?_ ?_ ?_ <;> simp [ops_nested]
  once := by
    refine forall_blocks_nested k ?_ ?_ ?_ ?_ ?_ <;>
      refine forall_blocks_nested k ?_ ?_ ?_ ?_ ?_ <;> simp [ops_nested]
  ordered := by
    refine forall_blocks_nested k ?_ ?_ ?_ ?_ ?_ <;> intro before v after o hops <;>
      rcases before with _ | ⟨u, _ | ⟨w, before⟩⟩ <;> simp [ops_nested] at hops
    · obtain ⟨rfl, rfl⟩ := hops
      rintro ⟨⟩
      simp
    · simp [hops.2.2]
  entry := by
    refine forall_blocks_nested k ?_ ?_ ?_ ?_ ?_ <;> intro v hv p hp <;> simp [ops_nested] at hv
    rcases hv with rfl | rfl <;> cases hp
  start := by simp [nested, nestedArena, Arena.value, Arena.ops, Arena.block]
  numbers := by
    intro v c hc _
    rcases Nat.lt_or_ge v 5 with hv | hv
    · interval_cases v <;> cases hc <;> rfl
    · rw [Arena.value_of_size_le hv] at hc
      cases hc
  condition := by
    refine forall_blocks_nested k ?_ ?_ ?_ ?_ ?_ <;> rintro _ _ _ _ ⟨⟩ <;> rfl

theorem analyzable_nested : nested.Analyzable (nestedArena k) id where
  next := by refine forall_blocks_nested k ?_ ?_ ?_ ?_ ?_ <;> rintro ⟨⟩
  usable := by
    refine forall_blocks_nested k ?_ ?_ ?_ ?_ ?_ <;> rintro _ _ _ _ ⟨⟩
    · exact .inr (.inr ⟨0, dominates_self _ _ _, by simp [ops_nested]⟩)
    · exact .inr (.inr ⟨0, dominates_start nested _ _, by simp [ops_nested]⟩)
  accepted := by
    refine forall_blocks_nested k ?_ ?_ ?_ ?_ ?_ <;> intro v hv o tr ho _ _ htransfer <;>
      simp [ops_nested] at hv
    rcases hv with rfl | rfl <;> cases ho <;> cases htransfer
    · exact ⟨0, 1, rfl, rfl, rfl⟩
    · exact ⟨0, 3, rfl, rfl, rfl⟩
  ordered := by
    refine forall_blocks_nested k ?_ ?_ ?_ ?_ ?_ <;> rintro _ _ _ _ o ⟨⟩ ⟨⟩ -
    · exact ⟨0, 1, rfl, rfl, rfl⟩
    · exact ⟨0, 3, rfl, rfl, rfl⟩
  equated := by
    refine forall_blocks_nested k ?_ ?_ ?_ ?_ ?_ <;> rintro _ _ _ _ o ⟨⟩ ⟨⟩ -
    · exact ⟨0, 1, rfl, fun _ => rfl⟩
    · exact ⟨0, 3, rfl, fun _ => rfl⟩

end Nested

theorem inputs_nested (k n : Int) : nested.Inputs (nestedArena k) some [n] :=
  .cons (fun _ => ⟨n, Interval.mem_unbounded n, rfl⟩) .nil

/-- A number up to five, one up to ten and one above ten take all ways. -/
theorem live_nested : nested.Live calculator (nestedArena 5) some id where
  reached := by
    refine forall_blocks_nested 5 ?_ ?_ ?_ ?_ ?_
    · exact ⟨[5], _, inputs_nested 5 5, (), _, (), (), .refl _ _, rfl⟩
    · exact ⟨[5], _, inputs_nested 5 5, (), _, (), (), .next rfl (.refl _ _), rfl⟩
    · exact ⟨[11], _, inputs_nested 5 11, (), _, (), (), .next rfl (.refl _ _), rfl⟩
    · exact ⟨[5], _, inputs_nested 5 5, (), _, (), (), .next rfl (.next rfl (.refl _ _)), rfl⟩
    · exact ⟨[10], _, inputs_nested 5 10, (), _, (), (), .next rfl (.next rfl (.refl _ _)), rfl⟩
  taken := by
    refine forall_blocks_nested 5 ?_ ?_ ?_ ?_ ?_ <;> rintro _ _ _ _ o ⟨⟩ ho - truth
    · cases truth with
      | true => exact ⟨[5], _, _, inputs_nested 5 5, ⟨(), _, (), (), .refl _ _, rfl⟩, rfl, rfl⟩
      | false => exact ⟨[11], _, _, inputs_nested 5 11, ⟨(), _, (), (), .refl _ _, rfl⟩, rfl, rfl⟩
    · cases truth with
      | true =>
        exact ⟨[5], _, _, inputs_nested 5 5, ⟨(), _, (), (), .next rfl (.refl _ _), rfl⟩, rfl, rfl⟩
      | false =>
        exact ⟨[10], _, _, inputs_nested 5 10, ⟨(), _, (), (), .next rfl (.refl _ _), rfl⟩, rfl,
          rfl⟩

/-- If the second number is below the first, the analysis finishes. -/
theorem nested_finishes : ∃ t, nested.analyzeRanges id (nestedArena 5) = .ok t :=
  exists_analyzeRanges arithmetical_calculator (wellTyped_nested 5) (loopFree_nested 5)
    (analyzable_nested 5) live_nested

end Jib.Graph
