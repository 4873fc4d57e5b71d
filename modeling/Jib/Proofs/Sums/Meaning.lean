import Mathlib.Tactic
import Jib.Proofs.Optimizer.Steps

/-!
# What sums mean

The numbers that additions, subtractions and conversions of integers give, over arbitrary numbers
for all other values.  An operation has a result only if its operands have the types that its name
promises and, for a machine integer, only if the result fits a machine word.
-/

namespace Jib.Graph

variable {o : Operation} {isSub : Bool} {n : Int} {x y : ValueId}

/-- The types that the name of an operation promises, for its operands and for its result. -/
def signature? (name : String) : Option (List Ty × Ty) :=
  if name ∈ ["add_int", "sub_int"] then some ([.int, .int], .int)
  else if name ∈ ["@add_o_i_wrapped_res", "@sub_o_i_wrapped_res"] then
    some ([.int, .machineInt], .int)
  else if name = "@sub_i_o_wrapped_res" then some ([.machineInt, .int], .int)
  else if name ∈ ["@add_i_i_wrapped_res", "@sub_i_i_wrapped_res"] then
    some ([.machineInt, .machineInt], .int)
  else if name ∈ ["@add_i_i_must_fit", "@sub_i_i_must_fit"] then
    some ([.machineInt, .machineInt], .machineInt)
  else if name = ofMachineIntName then some ([.machineInt], .int)
  else if name = toMachineIntName then some ([.int], .machineInt)
  else none

/-- Whether a value of a type can be a given number. -/
def Holds (type : Ty) (n : Int) : Prop :=
  type = .int ∨ type = .machineInt ∧ GraphM.fitsWord n = true

/-- Whether an operation converts an integer into its other form. -/
def isConversion (o : Operation) : Bool :=
  o.kind == .call && (o.name == ofMachineIntName || o.name == toMachineIntName)

/-- Whether a value is neither a number nor computed by a sum or a conversion. -/
def isOther : Value → Bool
  | .op o => (sumOp? o).isNone && !isConversion o
  | x => (numeral? x).isNone

/-- The result of an addition or a subtraction. -/
def combine (isSub : Bool) (m n : Int) : Int := if isSub then m - n else m + n

namespace OptState

/-- Whether an operation has the operands and the result that its name promises. -/
def Typed (s : OptState) (o : Operation) : Prop :=
  signature? o.name = some (o.args.toList.map (fun x => s.arena.typeOf (s.look x)), o.type)

instance (s : OptState) (o : Operation) : Decidable (s.Typed o) :=
  inferInstanceAs (Decidable (_ = _))

/-- The number that a value is, where `numbers` gives the values that are computed elsewhere. -/
inductive Evaluates (s : OptState) (numbers : ValueId → Int) : ValueId → Int → Prop
  | numeral {v : ValueId} {n : Int} (hvalue : numeral? (s.arena.value v) = some n)
      (hholds : Holds (s.arena.typeOf v) n) : Evaluates s numbers v n
  | sum {v x y : ValueId} {o : Operation} {isSub : Bool} {m n : Int}
      (hvalue : s.arena.value v = .op o) (hsum : sumOp? o = some isSub)
      (hargs : o.args.toList = [x, y]) (htyped : s.Typed o)
      (hleft : Evaluates s numbers (s.look x) m) (hright : Evaluates s numbers (s.look y) n)
      (hholds : Holds o.type (combine isSub m n)) : Evaluates s numbers v (combine isSub m n)
  | converted {v x : ValueId} {o : Operation} {n : Int}
      (hvalue : s.arena.value v = .op o) (hconversion : isConversion o = true)
      (hargs : o.args.toList = [x]) (htyped : s.Typed o)
      (hoperand : Evaluates s numbers (s.look x) n)
      (hholds : Holds o.type n) : Evaluates s numbers v n
  | other {v : ValueId} (hother : isOther (s.arena.value v) = true)
      (hholds : Holds (s.arena.typeOf v) (numbers v)) : Evaluates s numbers v (numbers v)

/-- Trees of additions and subtractions with operands of the promised types.  A tree may share
parts, and whatever is not an addition or subtraction is a term of the tree. -/
inductive SumTree (s : OptState) : ValueId → Prop
  | term {v : ValueId} (hterm : ∀ o, s.arena.value v = .op o → sumOp? o = none)
      (htype : s.arena.typeOf v = .int ∨ s.arena.typeOf v = .machineInt) : SumTree s v
  | sum {v x y : ValueId} {o : Operation} {isSub : Bool}
      (hvalue : s.arena.value v = .op o) (hsum : sumOp? o = some isSub)
      (hargs : o.args.toList = [x, y]) (htyped : s.Typed o)
      (hleft : SumTree s (s.look x)) (hright : SumTree s (s.look y)) : SumTree s v

end OptState

/-! ### Properties of the meaning -/

theorem signature_of_sumOp (hsum : sumOp? o = some isSub) :
    ∃ left right result, signature? o.name = some ([left, right], result) ∧
      (result = .int ∨ result = .machineInt ∧ left = .machineInt ∧ right = .machineInt) := by
  have hname : o.name ∈ addNames ∨ o.name ∈ subNames := by
    unfold sumOp? at hsum
    split at hsum
    · simp at hsum
    · split at hsum
      · rename_i hsub
        exact Or.inr (List.contains_iff_mem.mp hsub)
      · split at hsum
        · rename_i hadd
          exact Or.inl (List.contains_iff_mem.mp hadd)
        · simp at hsum
  simp only [addNames, subNames, List.mem_cons, List.not_mem_nil, or_false] at hname
  rcases hname with (h | h | h | h) | (h | h | h | h | h) <;> rw [h] <;>
    exact ⟨_, _, _, rfl, by decide⟩

theorem signature_types {name : String} {operands : List Ty} {result : Ty}
    (hsignature : signature? name = some (operands, result)) :
    ∀ type ∈ operands, type = .int ∨ type = .machineInt := by
  unfold signature? at hsignature
  split_ifs at hsignature <;> cases hsignature <;> decide

theorem isConversion_sumOp (hconversion : isConversion o = true) : sumOp? o = none := by
  simp only [isConversion, Bool.and_eq_true, Bool.or_eq_true, beq_iff_eq] at hconversion
  unfold sumOp?
  rcases hconversion.2 with hname | hname <;> rw [hname] <;> split <;> rfl

theorem isOther_of_numeral {x : Value} (hnumeral : numeral? x = some n) : isOther x = false := by
  cases x <;> simp_all [isOther, numeral?]

theorem Holds.type {type : Ty} (hholds : Holds type n) : type = .int ∨ type = .machineInt :=
  hholds.imp id And.left

theorem Arena.lt_size_of_typeOf {a : Arena} {v : ValueId}
    (htype : a.typeOf v = .int ∨ a.typeOf v = .machineInt) : v < a.values.size := by
  by_contra hlarge
  rw [Arena.typeOf, Arena.value_of_size_le (not_lt.mp hlarge)] at htype
  simp [Value.type] at htype

namespace OptState

variable {s s' : OptState} {numbers : ValueId → Int} {v : ValueId}

theorem SumTree.type (htree : s.SumTree v) :
    s.arena.typeOf v = .int ∨ s.arena.typeOf v = .machineInt := by
  cases htree with
  | term _ htype => exact htype
  | sum hvalue hsum _ htyped _ _ =>
    obtain ⟨_, _, result, hsignature, hresult⟩ := signature_of_sumOp hsum
    rw [Typed, hsignature, Option.some.injEq, Prod.mk.injEq] at htyped
    rw [Arena.typeOf, hvalue, Value.type, ← htyped.2]
    exact hresult.imp id And.left

section

variable (htree : s.SumTree v) (hvalue : s.arena.value v = .op o) (hsum : sumOp? o = some isSub)
  (hargs : o.args.toList = [x, y])
include htree hvalue hsum hargs

theorem SumTree.operands : s.SumTree (s.look x) ∧ s.SumTree (s.look y) := by
  cases htree with
  | term hterm _ => simp [hterm o hvalue] at hsum
  | sum hvalue' _ hargs' _ hleft hright =>
    cases hvalue.symm.trans hvalue'
    cases hargs.symm.trans hargs'
    exact ⟨hleft, hright⟩

theorem SumTree.machine_operands (htype : s.arena.typeOf v = .machineInt) :
    s.arena.typeOf (s.look x) = .machineInt ∧ s.arena.typeOf (s.look y) = .machineInt := by
  cases htree with
  | term hterm _ => simp [hterm o hvalue] at hsum
  | sum hvalue' _ _ htyped _ _ =>
    cases hvalue.symm.trans hvalue'
    obtain ⟨left, right, result, hsignature, hresult⟩ := signature_of_sumOp hsum
    rw [Arena.typeOf, hvalue, Value.type] at htype
    rw [Typed, hsignature, hargs, Option.some.injEq, Prod.mk.injEq] at htyped
    simp only [List.map_cons, List.cons.injEq] at htyped
    obtain ⟨⟨hx, hy, _⟩, hres⟩ := htyped
    rw [hres, htype] at hresult
    rw [← hx, ← hy]
    exact (hresult.resolve_left (by simp)).2

end

theorem Evaluates.holds (hvalue : s.Evaluates numbers v n) : Holds (s.arena.typeOf v) n := by
  cases hvalue with
  | numeral _ hholds => exact hholds
  | sum hop _ _ _ _ _ hholds => rwa [Arena.typeOf, hop]
  | converted hop _ _ _ _ hholds => rwa [Arena.typeOf, hop]
  | other _ hholds => exact hholds

theorem Evaluates.eq_of_numeral {m : Int} (hvalue : s.Evaluates numbers v n)
    (hnumeral : numeral? (s.arena.value v) = some m) : n = m := by
  cases hvalue with
  | numeral hvalue _ => exact Option.some.inj (hvalue.symm.trans hnumeral)
  | sum hop _ _ _ _ _ _ | converted hop _ _ _ _ _ => simp [hop, numeral?] at hnumeral
  | other hother _ => simp [isOther_of_numeral hnumeral] at hother

theorem Evaluates.operands (hvalue : s.Evaluates numbers v n) (hop : s.arena.value v = .op o)
    (hsum : sumOp? o = some isSub) (hargs : o.args.toList = [x, y]) :
    ∃ k l, s.Evaluates numbers (s.look x) k ∧ s.Evaluates numbers (s.look y) l ∧
      n = combine isSub k l := by
  cases hvalue with
  | numeral hnumeral _ => simp [hop, numeral?] at hnumeral
  | sum hop' hsum' hargs' _ hleft hright _ =>
    cases hop.symm.trans hop'
    cases hargs.symm.trans hargs'
    rw [Option.some.inj (hsum.symm.trans hsum')]
    exact ⟨_, _, hleft, hright, rfl⟩
  | converted hop' hconversion _ _ _ _ =>
    cases hop.symm.trans hop'
    rw [isConversion_sumOp hconversion] at hsum
    cases hsum
  | other hother _ => simp [hop, isOther, hsum] at hother

/-- A value is at most one number. -/
theorem Evaluates.unique {m : Int} (hfirst : s.Evaluates numbers v m)
    (hsecond : s.Evaluates numbers v n) : m = n := by
  induction hfirst generalizing n with
  | numeral hvalue _ => exact (hsecond.eq_of_numeral hvalue).symm
  | sum hop hsum hargs _ _ _ _ ihleft ihright =>
    obtain ⟨k, l, hk, hl, rfl⟩ := hsecond.operands hop hsum hargs
    rw [ihleft hk, ihright hl]
  | converted hop hconversion hargs _ _ _ ih =>
    cases hsecond with
    | numeral hvalue _ => simp [hop, numeral?] at hvalue
    | sum hop' hsum _ _ _ _ _ =>
      cases hop.symm.trans hop'
      rw [isConversion_sumOp hconversion] at hsum
      cases hsum
    | converted hop' _ hargs' _ hoperand _ =>
      cases hop.symm.trans hop'
      cases hargs.symm.trans hargs'
      exact ih hoperand
    | other hother _ => simp [hop, isOther, hconversion] at hother
  | other hother _ =>
    cases hsecond with
    | numeral hvalue _ => simp [isOther_of_numeral hvalue] at hother
    | sum hop hsum _ _ _ _ _ => simp [hop, isOther, hsum] at hother
    | converted hop hconversion _ _ _ _ => simp [hop, isOther, hconversion] at hother
    | other _ _ => rfl

/-! ### Larger states -/

/-- A state that has grown out of another one: every value is still there, and operands are looked
up as before. -/
structure Extends (s s' : OptState) : Prop where
  size_le : s.arena.values.size ≤ s'.arena.values.size
  value_eq : ∀ v, v < s.arena.values.size → s'.arena.value v = s.arena.value v
  look_eq : ∀ v, s'.look v = s.look v
  isSome : s.newOps.isSome → s'.newOps.isSome

theorem Extends.refl (s : OptState) : Extends s s := ⟨le_rfl, fun _ _ => rfl, fun _ => rfl, id⟩

theorem Extends.trans {s'' : OptState} (hfirst : Extends s s') (hsecond : Extends s' s'') :
    Extends s s'' where
  size_le := hfirst.size_le.trans hsecond.size_le
  value_eq v hv := by
    rw [hsecond.value_eq v (hv.trans_le hfirst.size_le), hfirst.value_eq v hv]
  look_eq v := by rw [hsecond.look_eq, hfirst.look_eq]
  isSome hopen := hsecond.isSome (hfirst.isSome hopen)

theorem Extends.typeOf_eq (hextends : Extends s s') (hv : v < s.arena.values.size) :
    s'.arena.typeOf v = s.arena.typeOf v := by
  rw [Arena.typeOf, Arena.typeOf, hextends.value_eq v hv]

theorem Extends.value_op (hextends : Extends s s') (hvalue : s.arena.value v = .op o) :
    s'.arena.value v = .op o := by
  have hlt : v < s.arena.values.size := by
    by_contra hge
    simp [Arena.value_of_size_le (not_lt.mp hge)] at hvalue
  rw [hextends.value_eq v hlt, hvalue]

section

variable (s : OptState) (x : Value)

/-- The state with one more value that stands in no block. -/
theorem extends_addValue : Extends s (s.addValue x) where
  size_le := by simp [addValue]
  value_eq _ hv := Arena.value_addValue_of_lt hv
  look_eq _ := rfl
  isSome := id

theorem extends_emitted : Extends s (s.emitted x) where
  size_le := (extends_addValue s x).size_le
  value_eq := (extends_addValue s x).value_eq
  look_eq _ := rfl
  isSome hopen := by simpa [emitted] using hopen

@[simp]
theorem value_addValue : (s.addValue x).arena.value s.arena.values.size = x :=
  Arena.value_addValue_self s.arena x

@[simp]
theorem value_emitted : (s.emitted x).arena.value s.arena.values.size = x :=
  value_addValue s x

end

theorem Typed.lt_size (htyped : s.Typed o) :
    ∀ x ∈ o.args.toList, s.look x < s.arena.values.size := by
  intro x hx
  apply Arena.lt_size_of_typeOf
  exact signature_types htyped _ (List.mem_map_of_mem hx)

theorem typed_iff_of_extends (hextends : Extends s s')
    (hargs : ∀ x ∈ o.args.toList, s.look x < s.arena.values.size) : s'.Typed o ↔ s.Typed o := by
  have htypes : o.args.toList.map (fun x => s'.arena.typeOf (s'.look x)) =
      o.args.toList.map (fun x => s.arena.typeOf (s.look x)) := by
    apply List.map_congr_left
    intro x hx
    rw [hextends.look_eq, hextends.typeOf_eq (hargs x hx)]
  rw [Typed, Typed, htypes]

theorem Typed.extend (hextends : Extends s s') (htyped : s.Typed o) : s'.Typed o :=
  (typed_iff_of_extends hextends htyped.lt_size).mpr htyped

/-- Numbers stay what they are when a state grows. -/
theorem Evaluates.extend (hextends : Extends s s') (hvalue : s.Evaluates numbers v n) :
    s'.Evaluates numbers v n := by
  induction hvalue with
  | numeral hnumeral hholds =>
    have hw := Arena.lt_size_of_typeOf hholds.type
    refine .numeral ?_ ?_
    · rw [hextends.value_eq _ hw, hnumeral]
    · rwa [hextends.typeOf_eq hw]
  | sum hop hsum hargs htyped _ _ hholds ihleft ihright =>
    rw [← hextends.look_eq] at ihleft ihright
    exact .sum (hextends.value_op hop) hsum hargs (htyped.extend hextends) ihleft ihright hholds
  | converted hop hconversion hargs htyped _ hholds ih =>
    rw [← hextends.look_eq] at ih
    exact .converted (hextends.value_op hop) hconversion hargs (htyped.extend hextends) ih hholds
  | other hother hholds =>
    have hw := Arena.lt_size_of_typeOf hholds.type
    refine .other ?_ ?_
    · rwa [hextends.value_eq _ hw]
    · rwa [hextends.typeOf_eq hw]

end OptState

end Jib.Graph
