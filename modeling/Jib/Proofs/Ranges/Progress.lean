import Jib.Proofs.Ranges.Branches
import Jib.Proofs.Ranges.Tables

/-!
# Steps of the interval analysis that cannot fail

Making an interval fails if no number would be in it.  So a step of the analysis succeeds where a
run is at hand: the numbers of the run are in the intervals of the operands, and those that come out
are in the interval that is made.  A branch on the order of two numbers makes intervals for both of
its sides, and so needs two runs, one for each side.
-/

namespace Jib.Graph

variable {V E M : Type} {I : Interpretation V E M} {number : V → Option Int} {bn : Builtins}
variable {a : Arena} {here here' : RangeMap} {t t' : RangeTable} {pending : List ValueId}
variable {ρ : Valuation V} {v x : ValueId} {y : V} {n : Int} {b : BlockId} {r : Interval}
variable {f : Interval → Interval → Result Interval} {tr : Transfer} {truth : Bool}

/-! ### Operations -/

/-- A number that is written out. -/
def Literal (a : Arena) (v : ValueId) (n : Int) : Prop :=
  a.value v = .const (.machineInt n) ∨ a.value v = .const (.int n)

/-- Operands for which an interval can be found: numbers, and widths and bounds that are written
out. -/
def Transfer.Accepts (a : Arena) (xs : List ValueId) : Transfer → Prop
  | .one _ | .narrowing => ∃ x rest, xs = x :: rest ∧ isRangeType (a.typeOf x) = true
  | .two _ => ∃ x z, xs = [x, z] ∧ isRangeType (a.typeOf x) = true ∧ isRangeType (a.typeOf z) = true
  | .unsignedBits | .signedBits => ∃ x z w, xs = [x, z] ∧ Literal a z w ∧ 0 ≤ w
  | .assertRange => ∃ x z z' l h, xs = [x, z, z'] ∧ Literal a z l ∧ Literal a z' h
  | .nonNegative => True

theorem Literal.rangeOf (hv : Literal a v n) (here : RangeMap) :
    rangeOf a here v = .ok (some (.ofConst n)) := by
  rcases hv with hv | hv <;> simp [Graph.rangeOf, constRange?, hv]

theorem const?_ofConst (n : Int) : (Interval.ofConst n).const? = some n := by
  simp [Interval.const?, Interval.ofConst]

theorem Literal.number_eq (hv : Literal a v n) (hI : I.Arithmetical number bn)
    (hlook : I.look a ρ v = some y) : number y = some n := by
  rcases hv with hv | hv
  · obtain rfl : I.constant (.machineInt n) = y := by simpa [Interpretation.look, hv] using hlook
    exact hI.machineInt n
  · obtain rfl : I.constant (.int n) = y := by simpa [Interpretation.look, hv] using hlook
    exact hI.int n

/-- What has a value has an interval, if it is a number. -/
theorem Covers.exists_rangeOf (hcovers : Covers a number here pending ρ)
    (hnumbers : NumberConstants a) (hx : x ∉ pending) (hlook : I.look a ρ x = some y) :
    ∃ r, rangeOf a here x = .ok r ∧ (isRangeType (a.typeOf x) = true → ∃ s, r = some s) := by
  unfold rangeOf
  cases hconst : constRange? a x with
  | some r =>
    refine ⟨r, rfl, fun htype => ?_⟩
    cases r with
    | none => simp [isRangeType_of_constRange? hconst] at htype
    | some s => exact ⟨s, rfl⟩
  | none =>
    obtain ⟨htype, hsame⟩ := look_of_constRange? (ρ := ρ) hnumbers hconst
    obtain ⟨s, hs, -⟩ := hcovers x y hx htype (hsame ▸ hlook)
    exact ⟨some s, by simp only [hs], fun _ => ⟨s, rfl⟩⟩

theorem Covers.exists_range (hcovers : Covers a number here pending ρ)
    (hI : I.Arithmetical number bn)
    (hnumbers : NumberConstants a) (hx : x ∉ pending) (htype : isRangeType (a.typeOf x) = true)
    (hlook : I.look a ρ x = some y) :
    ∃ s, rangeOf a here x = .ok (some s) ∧ Fits number s y := by
  obtain ⟨r, hr, hsome⟩ := hcovers.exists_rangeOf hnumbers hx hlook
  obtain ⟨s, rfl⟩ := hsome htype
  exact ⟨s, hr, hcovers.fits_of_rangeOf hI hnumbers hx hr hlook⟩

/-! ### Operations that have been evaluated -/

section Operations

variable (hcovers : Covers a number here pending ρ) (hI : I.Arithmetical number bn)
  (hnumbers : NumberConstants a) {o : Operation} {ys : List V}
  (hpending : ∀ x ∈ o.args.toList, x ∉ pending)
  (hargs : o.args.toList.mapM (I.look a ρ) = some ys)

include hcovers hI hnumbers hpending hargs

/-- The interval of an operation that has been evaluated can be found. -/
theorem Covers.exists_applyTransfer {k : Arithmetic} (hsound : tr.Sound k)
    (haccepts : tr.Accepts a o.args.toList) (hgives : k.Gives (ys.map number) n) :
    ∃ r here', Graph.applyTransfer a here o tr = .ok (r, here') := by
  have hvalues := forall₂_of_mapM_some hargs
  have hrange {x : ValueId} {y : V} (hx : x ∈ o.args.toList) (hy : I.look a ρ x = some y) :=
    hcovers.exists_rangeOf hnumbers (hpending x hx) hy
  have hfits {x : ValueId} {y : V} (hx : x ∈ o.args.toList)
      (htype : isRangeType (a.typeOf x) = true) (hy : I.look a ρ x = some y) :=
    hcovers.exists_range hI hnumbers (hpending x hx) htype hy
  cases tr with
    cases k <;> try exact hsound.elim
  | nonNegative => exact ⟨_, _, rfl⟩
  | one f =>
    obtain ⟨x, xs, hxs, htype⟩ := haccepts
    rw [hxs] at hvalues
    obtain _ | ⟨hy, _⟩ := hvalues
    obtain ⟨s, hs, p, hp, -⟩ := hfits (by simp [hxs]) htype hy
    obtain ⟨r, hr, -⟩ := hsound s p hp
    exact ⟨r, here, applyTransfer_one_iff.mpr ⟨x, xs, s, hxs, hs, hr, rfl⟩⟩
  | narrowing =>
    obtain ⟨x, xs, hxs, htype⟩ := haccepts
    rw [hxs] at hvalues
    obtain _ | ⟨hy, _⟩ := hvalues
    obtain ⟨s, hs, p, hp, hnumber⟩ := hfits (by simp [hxs]) htype hy
    simp only [List.map_cons, hnumber] at hgives
    obtain ⟨rfl, hmachine⟩ := hgives
    obtain ⟨r, hr, -⟩ := exists_machinePart hp hmachine
    exact ⟨r, _, applyTransfer_narrowing_iff.mpr ⟨x, xs, s, hxs, hs, hr, rfl⟩⟩
  | two f =>
    obtain ⟨x, x', hxs, htype, htype'⟩ := haccepts
    rw [hxs] at hvalues
    obtain _ | ⟨hy, _ | ⟨hy', _⟩⟩ := hvalues
    obtain ⟨s, hs, p, hp, -⟩ := hfits (by simp [hxs]) htype hy
    obtain ⟨s', hs', q, hq, -⟩ := hfits (by simp [hxs]) htype' hy'
    obtain ⟨r, hr, -⟩ := hsound s s' p q hp hq
    exact ⟨r, here, applyTransfer_two_iff.mpr ⟨x, x', s, s', hxs, hs, hs', hr, rfl⟩⟩
  | unsignedBits | signedBits =>
    obtain ⟨x, x', w, hxs, hw, hwidth⟩ := haccepts
    rw [hxs] at hvalues
    obtain _ | ⟨hy, _⟩ := hvalues
    obtain ⟨known, hknown, -⟩ := hrange (by simp [hxs]) hy
    exact (exists_ofWidth (n := 0) (0 : BitVec w.toNat) (by simp)).elim fun r hr =>
      ⟨r, here, (applyTransfer_bits_iff (by simp)).mpr
        ⟨x, x', known, w, _, hxs, hknown, hw.rangeOf here, const?_ofConst w, hwidth, hr.1, rfl⟩⟩
  | assertRange =>
    obtain ⟨x, x', x'', l, h, hxs, hl, hh⟩ := haccepts
    rw [hxs] at hvalues
    obtain _ | ⟨hy, _ | ⟨hy', _ | ⟨hy'', _ | _⟩⟩⟩ := hvalues
    obtain ⟨known, hknown, -⟩ := hrange (by simp [hxs]) hy
    simp only [List.map_cons, hl.number_eq hI hy', hh.number_eq hI hy''] at hgives
    obtain ⟨-, hlow, hhigh⟩ := hgives
    obtain ⟨r, hr, -⟩ : ∃ r, Interval.make (some l) (some h) = .ok r ∧ n ∈ r :=
      Interval.exists_make (by simpa using hlow) (by simpa using hhigh)
    exact ⟨r, _, applyTransfer_assertRange_iff.mpr ⟨x, x', x'', known, _, _, hxs, hknown,
      hl.rangeOf here, hh.rangeOf here, by simp [Interval.isConst, const?_ofConst], hr, rfl⟩⟩

/-- An operation that has been evaluated can be analyzed. -/
theorem Covers.exists_analyze_op {m m' : M} (hlook : ∀ x y, ρ x = some y → I.look a ρ x = some y)
    (hoccupied : Occupied here) (ho : a.value v = .op o)
    (haccepts : ∀ tr, isRangeType o.type = true → o.kind = .call →
      transfer? (bn (stripMarks o.name)) = some tr → tr.Accepts a o.args.toList)
    (happly : I.apply o.kind o.name o.type ys m = .ok y m') (t : RangeTable) :
    ∃ here', analyzeValue a bn t here v = .ok here' ∧ Occupied here' := by
  unfold analyzeValue
  simp only [ho, Value.type]
  split
  · exact ⟨here, rfl, hoccupied⟩
  · rename_i htype
    replace htype : isRangeType o.type = true := by simpa using htype
    obtain ⟨n, hn, hnumber⟩ := hI.typed _ _ _ _ _ _ _ htype happly
    split_ifs with hkind
    · exact ⟨_, rfl, hoccupied.insert v hn⟩
    · replace hkind : o.kind = .call := by
        revert hkind
        cases o.kind <;> decide
      split
      · exact ⟨_, rfl, hoccupied.insert v hn⟩
      · rename_i tr htransfer
        obtain ⟨k, hk, hsound⟩ := transfer?_sound htransfer
        have hgives := hI.call _ _ _ _ _ _ _ _ (hkind ▸ happly) hnumber hk
        obtain ⟨r, here', htr⟩ := hcovers.exists_applyTransfer hI hnumbers hpending hargs hsound
          (haccepts tr htype hkind htransfer) hgives
        obtain ⟨hmem, -, htable⟩ := hcovers.applyTransfer hI hnumbers hlook hpending hargs hsound
          hgives htr
        rw [htr]
        refine ⟨_, rfl, Occupied.insert ?_ v hmem⟩
        rcases htable with rfl | ⟨x, rfl⟩
        · exact hoccupied
        · exact hoccupied.insert x hmem

end Operations

/-! ### Branches -/

section Branches

variable {cond z : ValueId} {o : Operation} {s : Interval} {equal : Bool} {p q : Int}

/-- A run at hand in which a test had the given outcome. -/
structure Tested (I : Interpretation V E M) (a : Arena) (number : V → Option Int) (here : RangeMap)
    (o : Operation) (truth : Bool) (ρ : Valuation V) : Prop where
  covers : Covers a number here [] ρ
  look : ∀ x y, ρ x = some y → I.look a ρ x = some y
  applied : ∃ ys y m m', o.args.toList.mapM (I.look a ρ) = some ys ∧
    I.apply o.kind o.name o.type ys m = .ok y m' ∧ number y = some (Interval.ofBool truth)

theorem Tested.exists_range (htested : Tested I a number here o truth ρ)
    (hI : I.Arithmetical number bn) (hnumbers : NumberConstants a) (hx : x ∈ o.args.toList)
    (htype : isRangeType (a.typeOf x) = true) :
    ∃ s, rangeOf a here x = .ok (some s) ∧ ∃ n, n ∈ s := by
  obtain ⟨ys, y, m, m', hargs, -, -⟩ := htested.applied
  obtain ⟨y, hy⟩ := exists_some_of_mapM hargs hx
  obtain ⟨s, hs, n, hn, -⟩ := htested.covers.exists_range hI hnumbers (by simp) htype hy
  exact ⟨s, hs, n, hn⟩

/-- A branch on an order can be analyzed if there are runs for both of its sides. -/
theorem exists_analyzeCondition_order (hI : I.Arithmetical number bn) (hnumbers : NumberConstants a)
    (hhere : Occupied here) (ho : a.value cond = .op o) (hname : IsOrder (stripAt (bn o.name)))
    (hxs : o.args.toList = [x, z]) (hx : isRangeType (a.typeOf x) = true)
    (hz : isRangeType (a.typeOf z) = true)
    (hboth : ∀ truth, ∃ ρ, Tested I a number here o truth ρ) :
    ∃ yes no, analyzeCondition a bn here cond = .ok (yes, no) ∧ Occupied yes ∧ Occupied no := by
  obtain ⟨u, w, r, s, hpair, hr, hs⟩ : ∃ u w r s,
      (if greaterFirst (stripAt (bn o.name)) then [z, x] else [x, z]) = [u, w] ∧
        rangeOf a here u = .ok (some r) ∧ rangeOf a here w = .ok (some s) := by
    obtain ⟨ρ, htested⟩ := hboth true
    obtain ⟨r, hr, -⟩ := htested.exists_range hI hnumbers (by simp [hxs]) hx
    obtain ⟨s, hs, -⟩ := htested.exists_range hI hnumbers (by simp [hxs]) hz
    split
    · exact ⟨z, x, s, r, rfl, hs, hr⟩
    · exact ⟨x, z, r, s, rfl, hr, hs⟩
  have hside (truth : Bool) : ∃ facts,
      orderFacts here u w r s (orEqual (stripAt (bn o.name))) truth = .ok facts ∧
      Occupied facts := by
    obtain ⟨ρ, hcovers, hlook, ys, y, m, m', hargs, happly, hnumber⟩ := hboth truth
    obtain ⟨p, hp, q, hq, -, -, hcompared⟩ :=
      hcovers.exists_compared hI hnumbers hlook (by simp) hargs happly hnumber hname hxs hpair hr hs
    obtain ⟨r', s', hfacts, hp', hq'⟩ := exists_orderFacts hp hq here hcompared
    exact ⟨_, hfacts, (hhere.insert u hp').insert w hq'⟩
  obtain ⟨yes, hyes, hyes'⟩ := hside true
  obtain ⟨no, hno, hno'⟩ := hside false
  exact ⟨yes, no,
    (analyzeCondition_order_iff ho hname).mpr ⟨x, z, [], u, w, r, s, hxs, fun _ => rfl,
    hpair, hr, hs, Bool.forall_bool.mpr ⟨hno, hyes⟩⟩, hyes', hno'⟩

theorem isRangeType_of_isIntType {type : Ty} (hint : isIntType type = true) :
    isRangeType type = true := by
  unfold isIntType at hint
  split at hint
  · rfl
  · rfl
  · cases hint

theorem exists_analyzeCondition_equality (hI : I.Arithmetical number bn)
    (hnumbers : NumberConstants a) (hhere : Occupied here) (ho : a.value cond = .op o)
    (horder : ¬ IsOrder (stripAt (bn o.name)))
    (hname : equalityNames.contains (stripAt (bn o.name)) = true) (hxs : o.args.toList = [x, z])
    (hz : isIntType (a.typeOf x) = true → isRangeType (a.typeOf z) = true)
    (htested : Tested I a number here o truth ρ) :
    ∃ yes no, analyzeCondition a bn here cond = .ok (yes, no) ∧ Occupied yes ∧ Occupied no := by
  by_cases hint : isIntType (a.typeOf x) = true
  · obtain ⟨r, hr, p, hp⟩ := htested.exists_range hI hnumbers (by simp [hxs])
      (isRangeType_of_isIntType hint)
    obtain ⟨s, hs, q, hq⟩ := htested.exists_range hI hnumbers (by simp [hxs]) (hz hint)
    refine ⟨_, here, (analyzeCondition_equality_iff ho horder hname).mpr
      ⟨x, [z], hxs, (if_pos hint).mpr ⟨z, r, s, rfl, hr, hs, rfl, rfl⟩⟩, ?_, hhere⟩
    have hsecond : Occupied (if r.isConst then here.insert z r else here) := by
      split
      · exact hhere.insert z hp
      · exact hhere
    split
    · exact hsecond.insert x hq
    · exact hsecond
  · exact ⟨here, here, (analyzeCondition_equality_iff ho horder hname).mpr
      ⟨x, [z], hxs, (if_neg hint).mpr ⟨rfl, rfl⟩⟩, hhere, hhere⟩

end Branches

end Jib.Graph
