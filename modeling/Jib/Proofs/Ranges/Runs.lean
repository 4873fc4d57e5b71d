import Jib.Proofs.Arena
import Jib.Proofs.Ranges.Branches
import Jib.Proofs.Ranges.Tables

/-!
# Runs of analyzed graphs

The blocks are analyzed in topological order.  When the turn of a block comes, the intervals that
have been merged into it cover every valuation in which a run can enter it; what is found for its
end then covers every valuation in which a run can leave it.
-/

namespace Jib.Graph

open Jib.Interpretation

variable {V E M : Type} {I : Interpretation V E M} {number : V → Option Int} {bn : Builtins}
variable {g : Graph} {a : Arena} {here here' : RangeMap} {t t' : RangeTable}
variable {ρ ρ' : Valuation V} {b c : BlockId} {v : ValueId} {m m' : M} {y : V}
variable {vs : List ValueId} {start : RangeMap}

/-! ### Truth values -/

/-- Every truth value is the number of one. -/
def Truths (a : Arena) (number : V → Option Int) (ρ : Valuation V) : Prop :=
  ∀ v y, a.typeOf v = .bool → ρ v = some y → ∃ b, number y = some (Interval.ofBool b)

theorem Fits.truth (hy : Fits number (typeRange .bool) y) :
    ∃ b, number y = some (Interval.ofBool b) := by
  obtain ⟨n, hn, hnumber⟩ := hy
  have hlow : 0 ≤ n := Interval.le_of_mem hn rfl
  have hhigh : n ≤ 1 := Interval.le_high_of_mem hn rfl
  by_cases hzero : n = 0
  · exact ⟨false, hnumber.trans (congrArg some hzero)⟩
  · exact ⟨true, hnumber.trans (congrArg some (show n = 1 by omega))⟩

section

variable (htruths : Truths a number ρ) (hI : I.Arithmetical number bn)
include htruths hI

theorem Truths.look (hnumbers : NumberConstants a) (htype : a.typeOf v = .bool)
    (hlook : I.look a ρ v = some y) : ∃ b, number y = some (Interval.ofBool b) := by
  unfold Interpretation.look at hlook
  split at hlook
  · rename_i k hk
    cases hlook
    have hktype : k.type = .bool := by rw [← htype, Arena.typeOf, hk, Value.type]
    have hnumber := hnumbers v k hk (by rw [hktype]; rfl)
    cases k with
    | bool b => exact ⟨b, hI.bool b⟩
    | default t =>
      obtain rfl : t = .bool := hktype
      exact Fits.truth (hI.default .bool rfl)
    | machineInt _ | int _ => cases hktype
    | unit | smallBits _ _ | bits _ | enum _ _ | text _ => cases hnumber
  · exact htruths v y htype hlook

theorem Truths.evalOps (heval : I.evalOps a vs ρ m = .ok ρ' m') : Truths a number ρ' := by
  induction vs generalizing ρ m with
  | nil =>
    cases heval
    exact htruths
  | cons v vs ih =>
    rcases evalOps_cons_ok heval with
      ⟨o, ys, y, m₁, ho, -, happly, hrest⟩ | ⟨-, hrest⟩
    · refine ih (fun x z htype hz => ?_) hrest
      by_cases hxv : x = v
      · subst hxv
        rw [Function.update_self] at hz
        cases hz
        have hotype : o.type = .bool := by rw [← htype, Arena.typeOf, ho, Value.type]
        have hfits := hI.typed _ _ _ _ _ _ _ (by rw [hotype]; rfl) happly
        rw [hotype] at hfits
        exact Fits.truth hfits
      · rw [Function.update_of_ne hxv] at hz
        exact htruths x z htype hz
    · exact ih htruths hrest

theorem Truths.enter (hnumbers : NumberConstants a) (hwf : g.WellFormed a) (hb : b ∈ g.blocks a)
    (hedge : a.Edge b c) : Truths a number (I.enter a b c ρ) := by
  intro v y htype hy
  by_cases hphi : v ∈ a.ops c ∧ ∃ p, a.value v = .phi p
  · obtain ⟨hmem, p, hp⟩ := hphi
    obtain ⟨w, hw, hwtype, -⟩ := hwf.entry c (mem_blocks_of_edge hb hedge) v hmem p hp b hb hedge
    rw [enter_phi hmem hp, hw] at hy
    refine htruths.look hI hnumbers ?_ hy
    rw [hwtype, ← htype, Arena.typeOf, hp, Value.type]
  · rw [enter_of_not_phi hphi] at hy
    exact htruths v y htype hy

end

/-! ### One block -/

def PhisFit (a : Arena) (number : V → Option Int) (t : RangeTable) (vs : List ValueId)
    (ρ : Valuation V) : Prop :=
  ∀ v ∈ vs, ∀ p r y, a.value v = .phi p → phiRange a t p = .ok (some r) →
    isRangeType p.type = true → ρ v = some y → Fits number r y

theorem PhisFit.update (hphis : PhisFit a number t (v :: vs) ρ) (hnodup : (v :: vs).Nodup) :
    PhisFit a number t vs (Function.update ρ v (some y)) := by
  intro u hu p r z hp hr htype hz
  have hne : u ≠ v := fun huv => (List.nodup_cons.mp hnodup).1 (huv ▸ hu)
  rw [Function.update_of_ne hne] at hz
  exact hphis u (List.mem_cons_of_mem _ hu) p r z hp hr htype hz

theorem Covers.block (hI : I.Arithmetical number bn) (hnumbers : NumberConstants a)
    (hwf : g.WellFormed a) (hloop : g.LoopFree a) (hb : b ∈ g.blocks a)
    {evaluated after : List ValueId} (hops : (a.ops b).toList = evaluated ++ after)
    (hscope : g.Scope I a b evaluated ρ) (hcovers : Covers a number here after ρ)
    (hphis : PhisFit a number t after ρ)
    (hanalyze : after.foldlM (analyzeValue a bn t) here = .ok here')
    (heval : I.evalOps a after ρ m = .ok ρ' m') : Covers a number here' [] ρ' := by
  induction after generalizing evaluated here ρ m with
  | nil =>
    cases hanalyze
    cases heval
    exact hcovers
  | cons v after ih =>
    have hnext : (a.ops b).toList = (evaluated ++ [v]) ++ after := by rw [hops]; simp
    have hv : v ∈ a.ops b := Array.mem_toList_iff.mp (by rw [hops]; simp)
    have hnodup : (v :: after).Nodup := (List.nodup_append.mp (hops ▸ hwf.nodup b hb)).2.1
    obtain ⟨here₁, hfirst, hrest⟩ := exists_ok_of_bind hanalyze
    rcases evalOps_cons_ok heval with
      ⟨o, ys, y, m₁, ho, hargs, happly, heval⟩ | ⟨hop, heval⟩
    · have hpending (x : ValueId) (hx : x ∈ o.args.toList) : x ∉ v :: after :=
        hscope.operands hwf hloop hb hops ho hargs hx
      exact ih hnext (hscope.evaluate hwf hloop hb hops ho hargs happly)
        (hcovers.analyze_op hI hnumbers (fun x z hz => hscope.look_eq hwf hz) hpending hargs rfl ho
          happly hfirst) (hphis.update hnodup) hrest heval
    · obtain ⟨p, hp⟩ := (hwf.computed b hb v hv).resolve_left (fun ⟨o, ho⟩ => hop o ho)
      exact ih hnext (hscope.skip hwf hb hv hop)
        (hcovers.analyze_phi hp (fun r z => hphis v List.mem_cons_self p r z hp) hfirst)
        (fun u hu => hphis u (List.mem_cons_of_mem _ hu)) hrest heval

/-- The analysis of a block that runs may get to. -/
theorem analyzeBlock_iff (hstart : t[b]? = some start) : analyzeBlock a bn t b = .ok t' ↔
    ∃ here, (a.ops b).toList.foldlM (analyzeValue a bn t) start = .ok here ∧
      ∃ ways, exitRanges a bn here (a.next b) = .ok ways ∧
        ways.foldlM mergeRanges (t.insert b here) = .ok t' := by
  simp only [analyzeBlock, hstart, bind_eq_ok_iff]

theorem exitRanges_branch_iff {cond : ValueId} {yes no : BlockId} {pos : Option String}
    {ways : List (BlockId × RangeMap)} : exitRanges a bn here (.branch cond yes no pos) = .ok ways ↔
      ∃ r, rangeOf a here cond = .ok (some r) ∧
        if r = .yes then [(yes, here)] = ways
        else if r = .no then [(no, here)] = ways
        else ∃ ifTrue ifFalse, analyzeCondition a bn here cond = .ok (ifTrue, ifFalse) ∧
          [(yes, ifTrue.insert cond .yes), (no, ifFalse.insert cond .no)] = ways := by
  simp [-bind_pure_comp, exitRanges, bind_eq_ok_iff, present_eq_ok_iff, pure_eq_ok_iff,
    apply_ite (· = Except.ok ways)]

/-! ### Runs -/

/-- Graphs in single-assignment form that branch on truth values, and in which no constant has the
type of a number without being one. -/
structure WellTyped (g : Graph) (a : Arena) : Prop extends g.WellFormed a where
  numbers : NumberConstants a
  condition : ∀ b ∈ g.blocks a, ∀ cond yes no pos, a.next b = .branch cond yes no pos →
    a.typeOf cond = .bool

/-- Inputs of the types of the arguments. -/
def Inputs (g : Graph) (a : Arena) (number : V → Option Int) (ys : List V) : Prop :=
  List.Forall₂ (fun v y => isRangeType (a.typeOf v) = true → Fits number (typeRange (a.typeOf v)) y)
    g.args.toList ys

/-- The state in which a run starts. -/
def initial (g : Graph) (ys : List V) : Valuation V × BlockId :=
  (startValuation (g.args.toList.zip ys), g.start)

/-- A run gets to the end of a block. -/
def Ends (g : Graph) (I : Interpretation V E M) (a : Arena) (ys : List V) (b : BlockId)
    (ρ' : Valuation V) : Prop :=
  ∃ m₀ ρ m m', Follows (I.graphStep a) (g.initial ys) m₀ (ρ, b) m ∧
    I.evalOps a (a.ops b).toList ρ m = .ok ρ' m'

variable {ys : List V}

theorem Inputs.fits (hinputs : g.Inputs a number ys)
    (hv : startValuation (g.args.toList.zip ys) v = some y)
    (htype : isRangeType (a.typeOf v) = true) : Fits number (typeRange (a.typeOf v)) y := by
  obtain ⟨before, after, hzip, -⟩ := List.lookup_eq_some_iff.mp hv
  exact (List.forall₂_iff_zip.mp hinputs).2 (by rw [hzip]; simp) htype

theorem Inputs.truths (hinputs : g.Inputs a number ys) :
    Truths a number (startValuation (g.args.toList.zip ys)) := by
  intro v y htype hv
  have hfits := hinputs.fits hv (by rw [htype]; rfl)
  rw [htype] at hfits
  exact hfits.truth

/-- What holds whenever a run gets to a block. -/
theorem arrival (hI : I.Arithmetical number bn) (hwt : g.WellTyped a) (hloop : g.LoopFree a)
    (hinputs : g.Inputs a number ys)
    (hrun : Follows (I.graphStep a) (g.initial ys) m (ρ, b) m') :
    b ∈ g.blocks a ∧ g.Scope I a b [] ρ ∧ Truths a number ρ := by
  refine hrun.preserves
    (P := fun x => x.2 ∈ g.blocks a ∧ g.Scope I a x.2 [] x.1 ∧ Truths a number x.1) ?_
    ⟨start_mem_blocks g a, scope_start hwt.toWellFormed (by simpa using hinputs.length_eq.symm),
      hinputs.truths⟩
  rintro ⟨ρ, b⟩ m ⟨ρ', c⟩ m' ⟨hb, hscope, htruths⟩ hstep
  obtain ⟨ρ₁, m₁, heval, hleave⟩ := graphStep_ok hstep
  have hedge := edge_of_leave hleave
  obtain ⟨rfl, -⟩ := leave_ok hleave
  have hend := hscope.evalOps hwt.toWellFormed hloop hb (List.nil_append _).symm heval
  exact ⟨mem_blocks_of_edge hb hedge, hend.enter hwt.toWellFormed hloop hb hedge,
    (htruths.evalOps hI heval).enter hI hwt.numbers hwt.toWellFormed hb hedge⟩

/-- What holds whenever a run gets to the end of a block. -/
theorem Ends.scope (hends : g.Ends I a ys b ρ) (hI : I.Arithmetical number bn)
    (hwt : g.WellTyped a) (hloop : g.LoopFree a) (hinputs : g.Inputs a number ys) :
    b ∈ g.blocks a ∧ g.Scope I a b (a.ops b).toList ρ ∧ Truths a number ρ := by
  obtain ⟨m₀, ρ₀, m, m', hrun, heval⟩ := hends
  obtain ⟨hb, hscope, htruths⟩ := arrival hI hwt hloop hinputs hrun
  exact ⟨hb, hscope.evalOps hwt.toWellFormed hloop hb (List.nil_append _).symm heval,
    htruths.evalOps hI heval⟩

/-- A table holds intervals for a block, which contain the numbers of a valuation. -/
def Known (a : Arena) (number : V → Option Int) (t : RangeTable) (b : BlockId) (ρ : Valuation V) :
    Prop :=
  ∃ here, t[b]? = some here ∧ Covers a number here [] ρ

/-- What the tables know after some of the blocks have been analyzed. -/
structure Analyzed (g : Graph) (I : Interpretation V E M) (a : Arena) (number : V → Option Int)
    (ys : List V) (done : List BlockId) (t : RangeTable) : Prop where
  ended : ∀ b ∈ done, ∀ ρ, g.Ends I a ys b ρ → Known a number t b ρ
  left : ∀ b ∈ done, ∀ ρ, g.Ends I a ys b ρ → ∀ (m : M) ρ' c m',
    I.leave a b ρ m = .ok (.inr (ρ', c)) m' → c ∉ done → Known a number t c ρ
  start : g.start ∉ done → Known a number t g.start (g.initial ys).1

theorem Analyzed.add {done : List BlockId} (hdone : g.Analyzed I a number ys done t) (hb : b ∉ done)
    (hkeep : ∀ c ρ, c ≠ b → Known a number t c ρ → Known a number t' c ρ)
    (hnew : ∀ ρ, g.Ends I a ys b ρ → Known a number t' b ρ ∧ ∀ (m : M) ρ' c m',
      I.leave a b ρ m = .ok (.inr (ρ', c)) m' → Known a number t' c ρ) :
    g.Analyzed I a number ys (done ++ [b]) t' where
  ended c hc ρ hends := by
    rcases List.mem_append.mp hc with hc | hc
    · exact hkeep c ρ (fun h => hb (h ▸ hc)) (hdone.ended c hc ρ hends)
    · obtain rfl := List.mem_singleton.mp hc
      exact (hnew ρ hends).1
  left c hc ρ hends m ρ' d m' hleave hd := by
    rw [List.mem_append, List.mem_singleton, not_or] at hd
    rcases List.mem_append.mp hc with hc | hc
    · exact hkeep d ρ hd.2 (hdone.left c hc ρ hends m ρ' d m' hleave hd.1)
    · obtain rfl := List.mem_singleton.mp hc
      exact (hnew ρ hends).2 m ρ' d m' hleave
  start hnot := by
    rw [List.mem_append, List.mem_singleton, not_or] at hnot
    exact hkeep g.start _ hnot.2 (hdone.start hnot.1)

/-- The way that a run takes out of a block is one that the analysis follows, and what holds on it
covers the run. -/
theorem exists_way (hI : I.Arithmetical number bn) (hwt : g.WellTyped a) (hb : b ∈ g.blocks a)
    (hscope : g.Scope I a b (a.ops b).toList ρ) (htruths : Truths a number ρ)
    (hcovers : Covers a number here [] ρ) {ways : List (BlockId × RangeMap)}
    (hways : exitRanges a bn here (a.next b) = .ok ways)
    (hleave : I.leave a b ρ m = .ok (.inr (ρ', c)) m') :
    ∃ facts, (c, facts) ∈ ways ∧ Covers a number facts [] ρ := by
  rcases (leave_ok hleave).2 with
    ⟨pos, hnext⟩ | ⟨cond, yes, no, pos, y, hnext, hlook, rfl⟩
  · rw [hnext] at hways
    cases hways
    exact ⟨here, List.mem_singleton_self _, hcovers⟩
  · obtain ⟨truth, hnumber⟩ := htruths.look hI hwt.numbers
      (hwt.condition b hb cond yes no pos hnext) hlook
    rw [hnext, exitRanges_branch_iff] at hways
    obtain ⟨r, hr, hways⟩ := hways
    obtain ⟨n, hn, hn'⟩ := hcovers.fits_of_rangeOf hI hwt.numbers (by simp) hr hlook
    cases hn'.symm.trans hnumber
    rw [hI.isTrue y truth hnumber]
    -- a side that the condition excludes is not taken
    split_ifs at hways with hyes hno
    · rw [hyes, Interval.mem_yes] at hn
      obtain rfl : truth = true := Interval.ofBool_injective hn
      exact ⟨here, by simp [← hways], hcovers⟩
    · rw [hno, Interval.mem_no] at hn
      obtain rfl : truth = false := Interval.ofBool_injective hn
      exact ⟨here, by simp [← hways], hcovers⟩
    · obtain ⟨ifTrue, ifFalse, hcondition, rfl⟩ := hways
      have hsame (x : ValueId) (z : V) (hz : ρ x = some z) : I.look a ρ x = some z :=
        hscope.look_eq hwt.toWellFormed hz
      have hside := hcovers.analyzeCondition hI hwt.numbers hsame (by simp)
        (fun o ho => hscope.applied cond o y ho (by simpa [look, ho] using hlook))
        hnumber hcondition
      refine ⟨(if truth then ifTrue else ifFalse).insert cond (if truth then .yes else .no), ?_,
        hside.insert fun z hz => ⟨Interval.ofBool truth, ?_, ?_⟩⟩
      · cases truth <;> simp
      · cases truth <;> decide
      · rw [Option.some.inj ((hsame cond z hz).symm.trans hlook), hnumber]

section Walk

variable {done : List BlockId} (hI : I.Arithmetical number bn) (hwt : g.WellTyped a)
  (hloop : g.LoopFree a) (hinputs : g.Inputs a number ys)

include hI hwt hloop hinputs

section

variable (hdone : g.Analyzed I a number ys done t) (hb : b ∉ done)
  (hready : ∀ p, p ∈ g.blocks a ∧ a.Edge p b → p ∈ done)
include hdone hb hready

/-- A run that gets to the next block comes from a block that is done, so the intervals for the
start of the block cover its valuation, and those of the phis hold the numbers of their entries. -/
theorem Analyzed.entered (hrun : Follows (I.graphStep a) (g.initial ys) m (ρ, b) m') :
    ∃ start, t[b]? = some start ∧ Covers a number start (a.ops b).toList ρ ∧
      PhisFit a number t (a.ops b).toList ρ := by
  rcases hrun.exists_last with ⟨heq, -⟩ | ⟨⟨ρ₀, p⟩, m₁, hbefore, hstep⟩
  · obtain ⟨rfl, rfl⟩ := Prod.mk.inj heq
    obtain ⟨start, hstart, hcovers⟩ := hdone.start hb
    refine ⟨start, hstart, fun v y _ => hcovers v y (by simp), fun v hv p _ _ hp => ?_⟩
    exact absurd hp (hwt.start v (Array.mem_toList_iff.mp hv) p)
  · obtain ⟨ρ₁, m₂, heval, hleave⟩ := graphStep_ok hstep
    have hends : g.Ends I a ys p ρ₁ := ⟨_, _, _, _, hbefore, heval⟩
    have hedge := edge_of_leave hleave
    obtain ⟨hp, hscope, -⟩ := hends.scope hI hwt hloop hinputs
    have hpdone := hready p ⟨hp, hedge⟩
    obtain ⟨start, hstart, hcovers⟩ := hdone.left p hpdone ρ₁ hends _ _ _ _ hleave hb
    obtain ⟨here, hhere, hcovers'⟩ := hdone.ended p hpdone ρ₁ hends
    obtain ⟨rfl, -⟩ := leave_ok hleave
    refine ⟨start, hstart, fun v y hv htype hy => ?_, fun v hv q r y hq hr htype hy => ?_⟩
    · rw [enter_of_not_phi (fun h => hv (Array.mem_toList_iff.mpr h.1))] at hy
      exact hcovers v y (by simp) htype hy
    · have hmem := Array.mem_toList_iff.mp hv
      obtain ⟨w, hw, hwtype, -⟩ := hwt.entry b (mem_blocks_of_edge hp hedge) v hmem q hq p hp hedge
      rw [enter_phi hmem hq, hw] at hy
      exact fits_of_phiRange hI hwt.numbers hhere hcovers' hw (by rw [hwtype]; exact htype) hy hr

/-- What is found in the next block covers every run that gets to its end. -/
theorem Analyzed.covers {start here : RangeMap} (hstart : t[b]? = some start)
    (hfold : (a.ops b).toList.foldlM (analyzeValue a bn t) start = .ok here)
    (hends : g.Ends I a ys b ρ) : Covers a number here [] ρ := by
  obtain ⟨m₀, ρ₀, m, m', hrun, heval⟩ := hends
  obtain ⟨start', hsome, hcovers, hphis⟩ := hdone.entered hI hwt hloop hinputs hb hready hrun
  cases hstart.symm.trans hsome
  obtain ⟨hb, hscope, -⟩ := arrival hI hwt hloop hinputs hrun
  exact Covers.block hI hwt.numbers hwt.toWellFormed hloop hb (List.nil_append _).symm
    hscope hcovers hphis hfold heval

theorem Analyzed.step (hanalyze : analyzeBlock a bn t b = .ok t') :
    g.Analyzed I a number ys (done ++ [b]) t' := by
  cases hstart : t[b]? with
  | none =>
    -- no run gets here
    have hsame : t' = t := by
      unfold analyzeBlock at hanalyze
      simp only [hstart] at hanalyze
      exact (Except.ok.inj hanalyze).symm
    refine hdone.add hb (fun _ _ _ hknown => hsame ▸ hknown) fun ρ hends => ?_
    obtain ⟨m₀, ρ₀, m, m', hrun, -⟩ := hends
    obtain ⟨start, hsome, -⟩ := hdone.entered hI hwt hloop hinputs hb hready hrun
    cases hstart.symm.trans hsome
  | some start =>
    obtain ⟨here, hfold, ways, hways, hmerge⟩ := (analyzeBlock_iff hstart).mp hanalyze
    refine hdone.add hb ?_ fun ρ hends => ?_
    · rintro c ρ hc ⟨old, hold, hcovers⟩
      have hold' : (t.insert b here)[c]? = some old := by
        rw [Std.HashMap.getElem?_insert, if_neg (by simpa using Ne.symm hc), hold]
      obtain ⟨new, hnew, hwider⟩ := enters_of_foldlM hmerge (.inl (enters_of_eq hold'))
      exact ⟨new, hnew, hcovers.wider hwider⟩
    · have hcovers := hdone.covers hI hwt hloop hinputs hb hready hstart hfold hends
      obtain ⟨hb, hscope, htruths⟩ := hends.scope hI hwt hloop hinputs
      obtain ⟨new, hnew, hwider⟩ := enters_of_foldlM hmerge
        (.inl (enters_of_eq Std.HashMap.getElem?_insert_self))
      refine ⟨⟨new, hnew, hcovers.wider hwider⟩, fun m ρ' c m' hleave => ?_⟩
      obtain ⟨facts, hway, hfacts⟩ := exists_way hI hwt hb hscope htruths hcovers hways hleave
      obtain ⟨new, hnew, hwider⟩ := enters_of_foldlM hmerge (.inr hway)
      exact ⟨new, hnew, hfacts.wider hwider⟩

end

theorem Analyzed.walk {rest : List BlockId} (hdone : g.Analyzed I a number ys done t)
    (hnodup : (done ++ rest).Nodup) (hready : ReadyOrder g a done rest)
    (hanalyze : rest.foldlM (analyzeBlock a bn) t = .ok t') :
    g.Analyzed I a number ys (done ++ rest) t' := by
  induction rest generalizing done t with
  | nil =>
    cases hanalyze
    rwa [List.append_nil]
  | cons b rest ih =>
    obtain ⟨t₁, hfirst, hrest⟩ := exists_ok_of_bind hanalyze
    have hb : b ∉ done := fun h => List.disjoint_of_nodup_append hnodup h List.mem_cons_self
    have hstep := hdone.step hI hwt hloop hinputs hb hready.1 hfirst
    rw [List.append_cons] at hnodup ⊢
    exact ih hstep hnodup hready.2 hrest

end Walk

theorem getElem?_foldl_unbounded (hv : v ∈ vs ∨ start[v]? = some .unbounded) :
    (vs.foldl (fun m v => m.insert v .unbounded) start)[v]? = some .unbounded := by
  induction vs generalizing start with
  | nil => exact hv.resolve_left (by simp)
  | cons x vs ih =>
    refine ih ?_
    rw [Std.HashMap.getElem?_insert]
    by_cases hxv : x = v
    · exact .inr (by simp [hxv])
    · rw [if_neg (by simpa using hxv)]
      exact hv.imp_left fun h => (List.mem_cons.mp h).resolve_left (Ne.symm hxv)

theorem analyzed_start (hinputs : g.Inputs a number ys) :
    g.Analyzed I a number ys [] g.startRanges where
  ended b hb := by cases hb
  left b hb := by cases hb
  start _ := by
    refine ⟨_, Std.HashMap.getElem?_insert_self, fun v y _ htype hy => ?_⟩
    obtain ⟨n, -, hnumber⟩ := hinputs.fits hy htype
    refine ⟨.unbounded, ?_, n, Interval.mem_unbounded n, hnumber⟩
    rw [← Array.foldl_toList]
    exact getElem?_foldl_unbounded (.inl (mem_of_lookup_zip hy))

end Jib.Graph
