import Jib.Proofs.Ranges.Values

/-!
# What a branch adds

A branch on a comparison narrows the intervals of the operands on either side.  On the side that is
taken the narrowed intervals hold the numbers of the operands.
-/

namespace Jib.Graph

variable {V E M : Type} {I : Interpretation V E M} {number : V → Option Int} {bn : Builtins}
variable {a : Arena} {here : RangeMap} {pending : List ValueId} {ρ : Valuation V}

section Condition

variable {cond : ValueId} {o : Operation} {yes no : RangeMap} {name : String}

def IsOrder (name : String) : Prop := name = "gteq" ∨ name = "gt" ∨ name = "lteq" ∨ name = "lt"

/-- A branch on the order of two operands, with the operand first that is to be the smaller one. -/
theorem analyzeCondition_order_iff (ho : a.value cond = .op o)
    (hname : IsOrder (stripAt (bn o.name))) : analyzeCondition a bn here cond = .ok (yes, no) ↔
      ∃ x y rest u w r s, o.args.toList = x :: y :: rest ∧
        (greaterFirst (stripAt (bn o.name)) = false → rest = []) ∧
        (if greaterFirst (stripAt (bn o.name)) then [y, x] else [x, y]) = [u, w] ∧
        rangeOf a here u = .ok (some r) ∧ rangeOf a here w = .ok (some s) ∧
        ∀ truth, orderFacts here u w r s (orEqual (stripAt (bn o.name))) truth =
          .ok (if truth then yes else no) := by
  unfold analyzeCondition
  simp only [ho]
  generalize stripAt (bn o.name) = name at hname
  rw [if_pos (by rcases hname with rfl | rfl | rfl | rfl <;> decide)]
  cases greaterFirst name <;> rcases o.args.toList with _ | ⟨x, _ | ⟨y, _ | ⟨z, rest⟩⟩⟩ <;>
    simp [-bind_pure_comp, bind_eq_ok_iff, present_eq_ok_iff, pure_eq_ok_iff, and_comm]

section Sides

variable {x y : ValueId} {r s : Interval} {p q : Int} {equal truth : Bool} (hp : p ∈ r) (hq : q ∈ s)
include hp hq

/-- The side of a branch that two numbers take narrows their intervals to ones that they are in. -/
theorem exists_orderFacts (here : RangeMap)
    (htruth : (if equal then decide (p ≤ q) else decide (p < q)) = truth) :
    ∃ r' s', orderFacts here x y r s equal truth = .ok ((here.insert x r').insert y s') ∧
      p ∈ r' ∧ q ∈ s' := by
  cases truth with
  | true =>
    have hgap : p + (if equal == true then 0 else 1) ≤ q := by
      cases equal <;> simpa [Int.add_one_le_iff] using htruth
    obtain ⟨r', hr, hp'⟩ := (Interval.selects_below hp hq _).exists_mem ⟨hp, q, hq, hgap⟩
    obtain ⟨s', hs, hq'⟩ := (Interval.selects_above hq hp _).exists_mem ⟨hq, p, hp, hgap⟩
    exact ⟨r', s', bind_eq_ok_iff.mpr ⟨r', hr, bind_eq_ok_iff.mpr ⟨s', hs, rfl⟩⟩, hp', hq'⟩
  | false =>
    have hgap : q + (if equal == false then 0 else 1) ≤ p := by
      cases equal <;> simpa [Int.add_one_le_iff] using htruth
    obtain ⟨r', hr, hp'⟩ := (Interval.selects_above hp hq _).exists_mem ⟨hp, q, hq, hgap⟩
    obtain ⟨s', hs, hq'⟩ := (Interval.selects_below hq hp _).exists_mem ⟨hq, p, hp, hgap⟩
    exact ⟨r', s', bind_eq_ok_iff.mpr ⟨r', hr, bind_eq_ok_iff.mpr ⟨s', hs, rfl⟩⟩, hp', hq'⟩

/-- A side whose intervals can be narrowed is taken by some numbers. -/
theorem exists_of_orderFacts (hfacts : orderFacts here x y r s equal truth = .ok yes) :
    ∃ p ∈ r, ∃ q ∈ s, (if equal then decide (p ≤ q) else decide (p < q)) = truth := by
  cases truth with
  | true =>
    obtain ⟨r', hr, -⟩ := bind_eq_ok_iff.mp hfacts
    obtain ⟨p, hp, q, hq, hgap⟩ := (Interval.selects_below hp hq _).exists_of_ok hr
    exact ⟨p, hp, q, hq, by cases equal <;> simpa [Int.add_one_le_iff] using hgap⟩
  | false =>
    obtain ⟨r', hr, -⟩ := bind_eq_ok_iff.mp hfacts
    obtain ⟨p, hp, q, hq, hgap⟩ := (Interval.selects_above hp hq _).exists_of_ok hr
    exact ⟨p, hp, q, hq, by cases equal <;> simpa [Int.add_one_le_iff] using hgap⟩

end Sides

theorem arithmetic?_order (hname : IsOrder name) :
    ∃ holds, arithmetic? name = some (.compares holds) ∧ ∀ x y, holds x y =
      if greaterFirst name then (if orEqual name then decide (y ≤ x) else decide (y < x))
      else if orEqual name then decide (x ≤ y) else decide (x < y) := by
  rcases hname with rfl | rfl | rfl | rfl
  all_goals exact ⟨_, rfl, fun x y => rfl⟩

theorem arithmetic?_equality (hname : equalityNames.contains name = true) :
    arithmetic? name = some (.compares fun x y => decide (x = y)) := by
  have hcases : name = "eq" ∨ name = "eq_int" ∨ name = "eq_int_o_i" ∨ name = "eq_int_i_i" := by
    simpa [equalityNames] using hname
  rcases hcases with rfl | rfl | rfl | rfl <;> rfl

theorem analyzeCondition_equality_iff (ho : a.value cond = .op o)
    (horder : ¬ IsOrder (stripAt (bn o.name)))
    (hname : equalityNames.contains (stripAt (bn o.name)) = true) :
    analyzeCondition a bn here cond = .ok (yes, no) ↔ ∃ x rest, o.args.toList = x :: rest ∧
      if isIntType (a.typeOf x) then ∃ y r s, rest = [y] ∧ rangeOf a here x = .ok (some r) ∧
        rangeOf a here y = .ok (some s) ∧
        (if s.isConst then (if r.isConst then here.insert y r else here).insert x s
          else if r.isConst then here.insert y r else here) = yes ∧ here = no
      else here = yes ∧ here = no := by
  unfold analyzeCondition
  simp only [ho]
  rw [if_neg (by simpa [IsOrder, greaterFirst, and_assoc] using horder), if_pos hname]
  rcases o.args.toList with _ | ⟨x, rest⟩
  · simp [throw_eq_error]
  cases hint : isIntType (a.typeOf x)
  · simp [hint, pure_eq_ok_iff]
  rcases rest with _ | ⟨y, _ | ⟨z, rest⟩⟩ <;>
    simp [-bind_pure_comp, hint, bind_eq_ok_iff, present_eq_ok_iff, pure_eq_ok_iff]

theorem analyzeCondition_other (ho : a.value cond = .op o)
    (horder : ¬ IsOrder (stripAt (bn o.name)))
    (hname : ¬ equalityNames.contains (stripAt (bn o.name)) = true) :
    analyzeCondition a bn here cond = .ok (here, here) := by
  unfold analyzeCondition
  simp only [ho]
  rw [if_neg (by simpa [IsOrder, greaterFirst, and_assoc] using horder), if_neg hname]
  rfl

theorem analyzeCondition_of_not_op (hop : ∀ o, a.value cond ≠ .op o) :
    analyzeCondition a bn here cond = .ok (here, here) := by
  unfold analyzeCondition
  split
  · rename_i o ho
    exact absurd ho (hop o)
  · rfl

section Compared

variable {y : V} {b : Bool} (hcovers : Covers a number here pending ρ)
    (hI : I.Arithmetical number bn)
  (hnumbers : NumberConstants a) (hlook : ∀ x y, ρ x = some y → I.look a ρ x = some y)
  (hpending : ∀ x, x ∉ pending)

include hcovers hI hnumbers hlook hpending

/-- The number of a value is in the interval that is looked up for it. -/
theorem Covers.exists_number {x : ValueId} {s : Interval} {z : V}
    (hs : rangeOf a here x = .ok (some s)) (hz : I.look a ρ x = some z) :
    ∃ p ∈ s, number z = some p ∧ ∀ z', ρ x = some z' → number z' = some p := by
  obtain ⟨p, hp, hnum⟩ := hcovers.fits_of_rangeOf hI hnumbers (hpending x) hs hz
  refine ⟨p, hp, hnum, fun z' hz' => ?_⟩
  rw [Option.some.inj ((hlook x z' hz').symm.trans hz), hnum]

/-- The numbers that were compared by order, with the operand first that is to be the smaller
one. -/
theorem Covers.exists_compared {ys : List V} {m m' : M} {x x' u w : ValueId} {rest : List ValueId}
    {r s : Interval} (hargs : o.args.toList.mapM (I.look a ρ) = some ys)
    (happly : I.apply o.kind o.name o.type ys m = .ok y m')
    (hnumber : number y = some (Interval.ofBool b)) (hname : IsOrder (stripAt (bn o.name)))
    (hxs : o.args.toList = x :: x' :: rest)
    (hpair : (if greaterFirst (stripAt (bn o.name)) then [x', x] else [x, x']) = [u, w])
    (hr : rangeOf a here u = .ok (some r)) (hs : rangeOf a here w = .ok (some s)) :
    ∃ p ∈ r, ∃ q ∈ s, (∀ z, ρ u = some z → number z = some p) ∧
      (∀ z, ρ w = some z → number z = some q) ∧
      (if orEqual (stripAt (bn o.name)) then decide (p ≤ q) else decide (p < q)) = b := by
  obtain ⟨holds, hholds, hmeaning⟩ := arithmetic?_order hname
  have hgives := hI.compare _ _ _ _ _ _ _ _ _ happly hnumber hholds
  have hvalues := forall₂_of_mapM_some hargs
  rw [hxs] at hvalues
  obtain _ | ⟨hz, _ | ⟨hz', _⟩⟩ := hvalues
  cases hfirst : greaterFirst (stripAt (bn o.name)) with
  | true =>
    rw [hfirst] at hpair
    cases hpair
    obtain ⟨p, hp, hnum, hx⟩ := hcovers.exists_number hI hnumbers hlook hpending hr hz'
    obtain ⟨q, hq, hnum', hx'⟩ := hcovers.exists_number hI hnumbers hlook hpending hs hz
    simp only [List.map_cons, hnum, hnum', Arithmetic.Gives, hmeaning, hfirst, if_true] at hgives
    exact ⟨p, hp, q, hq, hx, hx', (Interval.ofBool_injective hgives).symm⟩
  | false =>
    rw [hfirst] at hpair
    cases hpair
    obtain ⟨p, hp, hnum, hx⟩ := hcovers.exists_number hI hnumbers hlook hpending hr hz
    obtain ⟨q, hq, hnum', hx'⟩ := hcovers.exists_number hI hnumbers hlook hpending hs hz'
    simp only [List.map_cons, hnum, hnum', Arithmetic.Gives, hmeaning, hfirst,
      Bool.false_eq_true, if_false] at hgives
    exact ⟨p, hp, q, hq, hx, hx', (Interval.ofBool_injective hgives).symm⟩

/-- The facts that a branch adds hold on the side that is taken. -/
theorem Covers.analyzeCondition (happlied : ∀ o, a.value cond = .op o → ∃ ys m m',
      o.args.toList.mapM (I.look a ρ) = some ys ∧ I.apply o.kind o.name o.type ys m = .ok y m')
    (hnumber : number y = some (Interval.ofBool b))
    (hanalyze : Graph.analyzeCondition a bn here cond = .ok (yes, no)) :
    Covers a number (if b then yes else no) pending ρ := by
  by_cases hop : ∃ o, a.value cond = .op o
  · obtain ⟨o, ho⟩ := hop
    obtain ⟨ys, m, m', hargs, happly⟩ := happlied o ho
    by_cases horder : IsOrder (stripAt (bn o.name))
    · obtain ⟨x, x', rest, u, w, r, s, hxs, -, hpair, hr, hs, hsides⟩ :=
        (analyzeCondition_order_iff ho horder).mp hanalyze
      obtain ⟨p, hp, q, hq, hu, hw, htruth⟩ :=
        hcovers.exists_compared hI hnumbers hlook hpending hargs
        happly hnumber horder hxs hpair hr hs
      obtain ⟨r', s', hfacts, hp', hq'⟩ := exists_orderFacts hp hq here htruth
      rw [Except.ok.inj ((hsides b).symm.trans hfacts)]
      exact (hcovers.insert fun z hz => ⟨p, hp', hu z hz⟩).insert fun z hz => ⟨q, hq', hw z hz⟩
    · by_cases hequal : equalityNames.contains (stripAt (bn o.name)) = true
      · obtain ⟨x, rest, hxs, hsides⟩ :=
          (analyzeCondition_equality_iff ho horder hequal).mp hanalyze
        split at hsides
        · obtain ⟨x', r, s, rfl, hr, hs, rfl, rfl⟩ := hsides
          have hgives := hI.compare _ _ _ _ _ _ _ _ _ happly hnumber (arithmetic?_equality hequal)
          have hvalues := forall₂_of_mapM_some hargs
          rw [hxs] at hvalues
          obtain _ | ⟨hz, _ | ⟨hz', _⟩⟩ := hvalues
          obtain ⟨p, hp, hnum, hx⟩ := hcovers.exists_number hI hnumbers hlook hpending hr hz
          obtain ⟨q, hq, hnum', hx'⟩ := hcovers.exists_number hI hnumbers hlook hpending hs hz'
          simp only [List.map_cons, hnum, hnum'] at hgives
          obtain rfl := Interval.ofBool_injective hgives
          by_cases hpq : p = q
          · -- where they are equal, each operand takes over what the other is known to be
            subst hpq
            have hsecond :
                Covers a number (if r.isConst then here.insert x' r else here) pending ρ := by
              split
              · exact hcovers.insert fun z hz => ⟨p, hp, hx' z hz⟩
              · exact hcovers
            simp only [decide_true, if_true]
            split
            · exact hsecond.insert fun z hz => ⟨p, hq, hx z hz⟩
            · exact hsecond
          · simpa [hpq] using hcovers
        · obtain ⟨rfl, rfl⟩ := hsides
          rwa [ite_self]
      · rw [analyzeCondition_other ho horder hequal] at hanalyze
        cases hanalyze
        rwa [ite_self]
  · rw [analyzeCondition_of_not_op fun o ho => hop ⟨o, ho⟩] at hanalyze
    cases hanalyze
    rwa [ite_self]

end Compared

end Condition

end Jib.Graph
