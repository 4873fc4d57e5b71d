import Jib.Proofs.Sums.AddUp

/-!
# Rebuilding sums

A sum is rebuilt from what is added, what is subtracted and one number, and then gets the type that
its place asks for.  The types of the terms decide whether that succeeds: at every addition and at
the final subtraction one of the two operands has to be a machine integer.  Where that is so the
rebuilt sum is the same number as the original one.
-/

namespace Jib.Graph

variable {x : ValueId} {o : Operation} {t : Terms}

def numberType (t : Terms) : List Ty :=
  match t.constant with
  | some n => if n = 0 then [] else if GraphM.fitsWord n then [.machineInt] else [.int]
  | none => []

section Keeps

theorem keeps_minuend (plus : Option ValueId) : Keeps (minuend plus) := by
  cases plus with
  | none => exact keeps_newMachineInt_zero
  | some x => exact keeps_pure x

theorem keeps_subtractFrom (x : ValueId) (minus : Option ValueId) :
    Keeps (subtractFrom x minus) := by
  cases minus with
  | none => exact keeps_pure x
  | some y =>
    refine (keeps_typeOf x).bind (fun tx => (keeps_typeOf y).bind (fun ty => ?_))
    refine Keeps.bind ?_ (fun name => keeps_newOp name [x, y] .int)
    unfold subtractName
    split <;> first | exact keeps_pure _ | exact keeps_throw _

theorem keeps_convertSum (o : Operation) (res : ValueId) : Keeps (convertSum o res) := by
  refine (keeps_typeOf res).bind (fun type => ?_)
  split
  · exact keeps_pure res
  split
  · exact keeps_newOp _ _ _
  refine (keeps_value res).bind (fun x => ?_)
  split
  · split
    · exact keeps_markDeadCode.bind (fun _ => keeps_newOp _ _ _)
    split
    · exact keeps_markDeadCode.bind (fun _ => keeps_newOp _ _ _)
    · exact keeps_newOp _ _ _
  · exact keeps_newOp _ _ _
  · exact keeps_throw _

end Keeps

namespace OptState

variable {s s' : OptState} {numbers : ValueId → Int} {v : ValueId}

structure NewNumber (s s' : OptState) (v : ValueId) (type : Ty) (n : Int) : Prop
    extends Grown s s' where
  builtins_eq : s'.builtins = s.builtins
  final : s'.Final v
  type_eq : s'.arena.typeOf v = type
  evaluates (numbers : ValueId → Int) : s'.Evaluates numbers v n

theorem newConst_run (hrebuilding : s.Rebuilding) {c : Const} {n : Int}
    (hnumeral : numeral? (.const c) = some n) (hholds : Holds c.type n) :
    ∃ v s', OptM.newConst c s = .ok v s' ∧ NewNumber s s' v c.type n := by
  have htype : (s.addValue (.const c)).arena.typeOf s.arena.values.size = c.type :=
    congrArg Value.type (value_addValue s _)
  refine ⟨_, _, OptM.newConst_run c s, grown_addValue s c, rfl, ⟨?_, ?_⟩, htype, ?_⟩
  · rw [(extends_addValue s _).look_eq, hrebuilding.look_new _ le_rfl]
  · rw [htype]
    exact hholds.type
  · exact fun _ => .numeral (by rwa [value_addValue]) (by rwa [htype])

theorem newMachineInt_run (hrebuilding : s.Rebuilding) {n : Int}
    (hfits : GraphM.fitsWord n = true) :
    ∃ v s', OptM.newMachineInt n s = .ok v s' ∧ NewNumber s s' v .machineInt n := by
  rw [OptM.newMachineInt_run hfits]
  exact newConst_run hrebuilding rfl (.inr ⟨rfl, hfits⟩)

theorem numberType_eq (t : Terms) : numberType t = t.number?.toList.map Const.type := by
  unfold numberType Terms.number?
  cases t.constant with
  | none => rfl
  | some n =>
    rw [Option.filter_some]
    by_cases hzero : n = 0
    · simp [hzero]
    · simp [hzero, apply_ite, Const.type]

theorem number?_eq_some {c : Const} (hc : t.number? = some c) :
    numeral? (.const c) = some (t.constant.getD 0) ∧ Holds c.type (t.constant.getD 0) := by
  obtain ⟨n, hn, rfl⟩ := Option.map_eq_some_iff.mp hc
  rw [(Option.filter_eq_some_iff.mp hn).1]
  split_ifs with hfits
  · exact ⟨rfl, .inr ⟨rfl, hfits⟩⟩
  · exact ⟨rfl, .inl rfl⟩

theorem addends_run (hrebuilding : s.Rebuilding) (t : Terms) (hfinal : ∀ v ∈ t.added, s.Final v) :
    ∃ vs s', addends t s = .ok vs s' ∧ Grown s s' ∧ (∀ v ∈ vs, s'.Final v) ∧
      vs.map s'.arena.typeOf = t.added.map s.arena.typeOf ++ numberType t ∧
      ∀ numbers ns, List.Forall₂ (s.Evaluates numbers) t.added ns →
        ∃ ns', List.Forall₂ (s'.Evaluates numbers) vs ns' ∧
          ns'.sum = ns.sum + t.constant.getD 0 := by
  rw [numberType_eq, addends]
  cases hnumber : t.number? with
  | none =>
    have hzero : t.constant.getD 0 = 0 := by
      simp only [Terms.number?, Option.map_eq_none_iff, Option.filter_eq_none_iff] at hnumber
      cases hconstant : t.constant with
      | none => rfl
      | some n => simpa using hnumber n hconstant
    exact ⟨t.added, s, rfl, .refl s, hfinal, by simp, fun _ ns hns => ⟨ns, hns, by simp [hzero]⟩⟩
  | some c =>
    obtain ⟨hnumeral, hholds⟩ := number?_eq_some hnumber
    obtain ⟨w, s', hrun, hnew⟩ := newConst_run hrebuilding hnumeral hholds
    refine ⟨t.added ++ [w], s', bind_ok hrun, hnew.toGrown, ?_, ?_, ?_⟩
    · intro v hv
      rcases List.mem_append.mp hv with hv | hv
      · exact (hfinal v hv).extend hnew.toExtends
      · exact List.mem_singleton.mp hv ▸ hnew.final
    · rw [List.map_append, List.map_singleton, hnew.type_eq]
      congr 1
      exact List.map_congr_left (fun v hv => hnew.typeOf_eq (hfinal v hv).lt_size)
    · intro numbers ns hns
      exact ⟨ns ++ [t.constant.getD 0], List.rel_append
        (hns.imp (fun _ _ h => h.extend hnew.toExtends)) (.cons (hnew.evaluates numbers) .nil),
        by simp⟩

theorem Amounts.extend {sum : Option ValueId} {n : Int} (hsum : s.Amounts numbers sum n)
    (hextends : Extends s s') : s'.Amounts numbers sum n := by
  cases sum with
  | none => exact hsum
  | some w => exact Evaluates.extend hextends hsum

/-! ### The difference -/

/-- The name under which operands are subtracted, unless both are unbounded. -/
theorem subtractName_run {left right : Ty} (hleft : left = .int ∨ left = .machineInt)
    (hright : right = .int ∨ right = .machineInt)
    (hmachine : left = .machineInt ∨ right = .machineInt) (s : OptState) :
    ∃ name, subtractName left right s = .ok name s ∧
      signature? name = some ([left, right], .int) ∧
      ∀ x y, sumOp? (binary name x y .int) = some true := by
  rcases hleft with rfl | rfl <;> rcases hright with rfl | rfl
  · simp at hmachine
  all_goals exact ⟨_, rfl, rfl, fun _ _ => rfl⟩

theorem minuend_run (hrebuilding : s.Rebuilding) (plus : Option ValueId)
    (hplus : ∀ v ∈ plus, s.Final v) :
    ∃ x s', minuend plus s = .ok x s' ∧ Grown s s' ∧ s'.Final x ∧
      (plus = some x ∨ s'.arena.typeOf x = .machineInt) ∧
      s'.arena.typeOf x = s.typeOfSum plus ∧
      ∀ numbers m, s.Amounts numbers plus m → s'.Evaluates numbers x m := by
  cases plus with
  | some x => exact ⟨x, s, rfl, .refl s, hplus x rfl, .inl rfl, rfl, fun _ _ h => h⟩
  | none =>
    obtain ⟨x, s', hrun, hnew⟩ := newMachineInt_run hrebuilding (n := 0) rfl
    refine ⟨x, s', hrun, hnew.toGrown, hnew.final, .inr hnew.type_eq, hnew.type_eq, ?_⟩
    rintro numbers _ rfl
    exact hnew.evaluates numbers

theorem subtractFrom_run (hrebuilding : s.Rebuilding) (minus : Option ValueId) (hx : s.Final x)
    (hminus : ∀ v ∈ minus, s.Final v) (hmachine : minus = none ∨ s.arena.typeOf x = .machineInt ∨
      s.typeOfSum minus = .machineInt) :
    ∃ r s', subtractFrom x minus s = .ok r s' ∧ Grown s s' ∧ s'.Final r ∧
      (minus = none ∧ r = x ∨ s'.IsSum r) ∧
      ∀ numbers m n, s.Evaluates numbers x m → s.Amounts numbers minus n →
        s'.Evaluates numbers r (m - n) := by
  cases minus with
  | none =>
    refine ⟨x, s, rfl, .refl s, hx, .inl ⟨rfl, rfl⟩, ?_⟩
    intro numbers m n hm hn
    rwa [show n = 0 from hn, sub_zero]
  | some y =>
    have hy : s.Final y := hminus y rfl
    obtain ⟨name, hname, hsignature, hsub⟩ := subtractName_run hx.type hy.type
      (hmachine.resolve_left (by simp)) s
    have htyped : s.Typed (binary name x y .int) := typed_binary hx hy hsignature
    have hemitted := grown_emitted htyped
    refine ⟨s.arena.values.size, s.emitted (.op (binary name x y .int)), ?_, hemitted,
      final_emitted hrebuilding (.inl rfl), .inr ?_, ?_⟩
    · rw [subtractFrom, bind_ok (OptM.typeOf_run x s), bind_ok (OptM.typeOf_run y s), bind_ok hname]
      exact OptM.newOp_run name [x, y] .int s hrebuilding.isSome
    · exact ⟨_, x, y, true, value_emitted s _, hsub x y, rfl, htyped.extend hemitted.toExtends⟩
    · intro numbers m n hm hn
      exact evaluates_binary (hsub x y) htyped hx hy hm hn (.inl rfl)

/-- Two unbounded sums cannot be subtracted. -/
theorem subtractFrom_error {y : ValueId} (htypex : s.arena.typeOf x = .int)
    (htypey : s.arena.typeOf y = .int) : subtractFrom x (some y) s = .error .internal s := by
  rw [subtractFrom, bind_ok (OptM.typeOf_run x s), bind_ok (OptM.typeOf_run y s), htypex, htypey]
  rfl

/-! ### The final conversion -/

/-- The state in which code may have become unused. -/
def marked (s : OptState) : OptState := { s with deadCode := true }

theorem extends_marked (s : OptState) : Extends s s.marked :=
  ⟨le_rfl, fun _ _ => rfl, fun _ => rfl, id⟩

theorem grown_marked (s : OptState) : Grown s s.marked where
  toExtends := extends_marked s
  typed w o hw hvalue := by
    have hnone : s.marked.arena.value w = .missing := Arena.value_of_size_le hw
    rw [hnone] at hvalue
    cases hvalue

/-- A conversion of a final value is the same number, if that is one of the new type. -/
theorem conversion_run (hrebuilding : s.Rebuilding) {name : String} {type : Ty} (hx : s.Final x)
    (hname : name = ofMachineIntName ∨ name = toMachineIntName)
    (hsignature : signature? name = some ([s.arena.typeOf x], type)) :
    ∃ r s', OptM.newOp name [x] type none none s = .ok r s' ∧ Grown s s' ∧
      s'.arena.typeOf r = type ∧
      ∀ numbers n, s.Evaluates numbers x n → Holds type n → s'.Evaluates numbers r n := by
  have htyped : s.Typed ⟨.call, name, #[x], type, none, none⟩ := by
    simp only [Typed, List.map_cons, hx.look_eq]
    exact hsignature
  have hgrown := grown_emitted htyped
  refine ⟨_, _, OptM.newOp_run name [x] type s hrebuilding.isSome, hgrown,
    congrArg Value.type (value_emitted s _), ?_⟩
  intro numbers n hn hholds
  refine .converted (value_emitted s _) ?_ rfl (htyped.extend hgrown.toExtends) ?_ hholds
  · rcases hname with rfl | rfl <;> rfl
  · rw [(hx.extend hgrown.toExtends).look_eq]
    exact hn.extend hgrown.toExtends

/-- A sum of two machine integers whose result fits is computed on machine integers. -/
theorem refit_run (hrebuilding : s.Rebuilding) {r : Operation} {fit : String} {isSub : Bool}
    {a b : ValueId} (hvalue : s.arena.value x = .op r) (hsum : sumOp? r = some isSub)
    (hargs : r.args.toList = [a, b]) (htyped : s.Typed r)
    (hsignature : signature? r.name = some ([.machineInt, .machineInt], .int))
    (hfit : signature? fit = some ([.machineInt, .machineInt], .machineInt))
    (hsub : sumOp? ⟨.call, fit, r.args.toList.toArray, .machineInt, none, none⟩ = some isSub) :
    ∃ v s', OptM.newOp fit r.args.toList .machineInt none none s.marked = .ok v s' ∧ Grown s s' ∧
      s'.arena.typeOf v = .machineInt ∧
      ∀ numbers n, s.Evaluates numbers x n → Holds .machineInt n → s'.Evaluates numbers v n := by
  have hnew : s.marked.Typed ⟨.call, fit, r.args.toList.toArray, .machineInt, none, none⟩ := by
    have htypes : r.args.toList.map (fun x => s.marked.arena.typeOf (s.marked.look x)) =
        [.machineInt, .machineInt] := by
      rw [Typed, hsignature, Option.some.injEq, Prod.mk.injEq] at htyped
      exact htyped.1.symm
    rw [Typed]
    simp only [htypes, hfit]
  have hopen := hrebuilding.extend (extends_marked s)
  have hgrown := (grown_marked s).trans (grown_emitted hnew)
  refine ⟨_, _, OptM.newOp_run fit r.args.toList .machineInt s.marked hopen.isSome, hgrown,
    congrArg Value.type (value_emitted s.marked _), ?_⟩
  intro numbers n hn hholds
  obtain ⟨k, l, hk, hl, rfl⟩ := hn.operands hvalue hsum hargs
  refine .sum (value_emitted s.marked _) hsub (by simpa using hargs)
    (hnew.extend (grown_emitted hnew).toExtends) ?_ ?_ hholds
  · exact hk.extend hgrown.toExtends
  · exact hl.extend hgrown.toExtends

/-- A sum gets the type that its place asks for, unless it is unbounded, the place asks for a
machine integer, and no operation has computed it. -/
theorem convertSum_run (hrebuilding : s.Rebuilding) (hx : s.Final x)
    (htype : o.type = .int ∨ o.type = .machineInt)
    (hsum : o.type = .int ∨ s.arena.typeOf x = .machineInt ∨ s.IsSum x) :
    ∃ r s', convertSum o x s = .ok r s' ∧ Grown s s' ∧ s'.arena.typeOf r = o.type ∧
      ∀ numbers n, s.Evaluates numbers x n → Holds o.type n → s'.Evaluates numbers r n := by
  rw [convertSum, bind_ok (OptM.typeOf_run x s)]
  by_cases hsame : s.arena.typeOf x = o.type
  · exact ⟨x, s, by simp [hsame], .refl s, hsame, fun _ _ hn _ => hn⟩
  rw [if_neg (by simpa using hsame)]
  by_cases hmachine : s.arena.typeOf x = .machineInt
  · have hint : o.type = .int := htype.resolve_right (fun h => hsame (hmachine.trans h.symm))
    rw [if_pos (by simp [hmachine]), hint]
    exact conversion_run hrebuilding hx (.inl rfl) (by rw [hmachine]; rfl)
  have hint : s.arena.typeOf x = .int := hx.type.resolve_right hmachine
  have hword : o.type = .machineInt := htype.resolve_left (fun h => hsame (hint.trans h.symm))
  obtain ⟨r, a, b, isSub, hvalue, hop, hargs, htyped⟩ :=
    (hsum.resolve_left (by simp [hword])).resolve_left hmachine
  rw [if_neg (by simp [hint]), bind_ok (OptM.value_run x s), hvalue, hword]
  simp only
  split
  · rename_i hname
    rw [beq_iff_eq] at hname
    have hadd : isSub = false := by
      simp [sumOp?, hname, subNames, addNames] at hop
      exact hop.2
    exact refit_run hrebuilding hvalue hop hargs htyped (by rw [hname]; rfl) rfl (by rw [hadd]; rfl)
  split
  · rename_i _ hname
    rw [beq_iff_eq] at hname
    have hsub : isSub = true := by
      simp [sumOp?, hname, subNames] at hop
      exact hop.2
    exact refit_run hrebuilding hvalue hop hargs htyped (by rw [hname]; rfl) rfl (by rw [hsub]; rfl)
  · exact conversion_run hrebuilding hx (.inr rfl) (by rw [hint]; rfl)

/-! ### The whole sum -/

def addedTypes (s : OptState) (t : Terms) : List Ty :=
  (t.added.map s.arena.typeOf ++ numberType t).reverse

def subtractedTypes (s : OptState) (t : Terms) : List Ty :=
  (t.subtracted.map s.arena.typeOf).reverse

/-- Whether terms can be put together again: no more than four gains, one machine integer at every
addition and at the subtraction, and no lone number that is too large for the place of the sum. -/
def Rebuildable (s : OptState) (o : Operation) (t : Terms) : Prop :=
  t.gains ≤ 4 ∧ AddsUp (s.addedTypes t) ∧ AddsUp (s.subtractedTypes t) ∧
    (t.subtracted = [] ∨ sumType (s.addedTypes t) = .machineInt ∨
      sumType (s.subtractedTypes t) = .machineInt) ∧
    (o.type = .int ∨ t.all ≠ [] ∨ numberType t ≠ [.int])

instance (s : OptState) (o : Operation) (t : Terms) : Decidable (s.Rebuildable o t) :=
  inferInstanceAs (Decidable (_ ∧ _ ∧ _ ∧ _ ∧ _))

theorem sides_run (hrebuilding : s.Rebuilding) (hterms : ∀ v ∈ t.all, s.Final v)
    (hadded : AddsUp (s.addedTypes t)) :
    ∃ added plus s₁ s₂, addends t s = .ok added s₁ ∧
      addUp none added.reverse s₁ = .ok plus s₂ ∧ Grown s s₂ ∧ (∀ v ∈ plus, s₂.Final v) ∧
      (∀ v ∈ plus, t.added.map s.arena.typeOf ++ numberType t = [s₂.arena.typeOf v] ∨ s₂.IsSum v) ∧
      s₂.typeOfSum plus = sumType (s.addedTypes t) ∧
      ∀ numbers ms, List.Forall₂ (s.Evaluates numbers) t.added ms →
        s₂.Amounts numbers plus (ms.sum + t.constant.getD 0) := by
  obtain ⟨added, s₁, hadds, hgrown₁, hfinal₁, htypes, hworth⟩ :=
    addends_run hrebuilding t (fun v hv => hterms v (List.mem_append_left _ hv))
  have hreverse : added.reverse.map s₁.arena.typeOf = s.addedTypes t := by
    rw [List.map_reverse, htypes, addedTypes]
  obtain ⟨plus, s₂, hplus, hgrown₂, hfinal₂, hresult, _, htype, hsum⟩ :=
    addUp_run none added.reverse (hrebuilding.extend hgrown₁.toExtends)
      (fun v hv => hfinal₁ v (List.mem_reverse.mp hv)) (by rwa [hreverse])
  refine ⟨added, plus, s₁, s₂, hadds, hplus, hgrown₁.trans hgrown₂, hfinal₂, ?_, ?_, ?_⟩
  · intro v hv
    refine (hresult v hv).imp (fun hsingle => ?_) id
    have hadded : added = [v] := by simpa using hsingle
    rw [← htypes, hgrown₂.typeOf_eq (hfinal₁ v (by simp [hadded])).lt_size, hadded]
    rfl
  · rw [htype, hreverse]
  · intro numbers ms hms
    obtain ⟨ms', hms', hsums⟩ := hworth numbers ms hms
    rw [← hsums, ← List.sum_reverse]
    exact hsum numbers ms'.reverse (List.rel_reverse hms')

/-- A lone addend among machine integers is one as well, or it is a large number. -/
theorem lone_type {type : Ty} (hwords : ∀ v ∈ t.added, s.arena.typeOf v = .machineInt)
    (hlone : t.added.map s.arena.typeOf ++ numberType t = [type]) :
    type = .machineInt ∨ t.added = [] ∧ numberType t = [.int] := by
  cases hadded : t.added with
  | nil =>
    rw [hadded, List.map_nil, List.nil_append] at hlone
    rw [hlone]
    unfold numberType at hlone
    split at hlone
    · split_ifs at hlone <;> simp_all
    · cases hlone
  | cons v rest =>
    rw [hadded, List.map_cons, List.cons_append, List.cons.injEq] at hlone
    exact .inl (hlone.1.symm.trans (hwords v (by simp [hadded])))

/-- The types of the subtracted terms stay what they are while other terms are added up. -/
theorem subtractedTypes_eq (hgrown : Grown s s') (hterms : ∀ v ∈ t.all, s.Final v) :
    t.subtracted.reverse.map s'.arena.typeOf = s.subtractedTypes t := by
  rw [List.map_reverse]
  congr 1
  apply List.map_congr_left
  intro v hv
  exact hgrown.typeOf_eq (hterms v (List.mem_append_right _ hv)).lt_size

theorem typeOfSum_eq (hgrown : Grown s s') {sum : Option ValueId} (hsum : ∀ v ∈ sum, s.Final v) :
    s'.typeOfSum sum = s.typeOfSum sum := by
  cases sum with
  | none => rfl
  | some v => exact hgrown.typeOf_eq (hsum v rfl).lt_size

theorem operands_run (o : Operation) (hrebuilding : s.Rebuilding) (hterms : ∀ v ∈ t.all, s.Final v)
    (hadded : AddsUp (s.addedTypes t)) (hsubtracted : AddsUp (s.subtractedTypes t)) :
    ∃ x minus s', rebuildSum o t s = (do convertSum o (← subtractFrom x minus)) s' ∧ Grown s s' ∧
      s'.Final x ∧ (∀ v ∈ minus, s'.Final v) ∧ (minus = none ↔ t.subtracted = []) ∧
      s'.arena.typeOf x = sumType (s.addedTypes t) ∧
      s'.typeOfSum minus = sumType (s.subtractedTypes t) ∧
      (s'.arena.typeOf x = .machineInt ∨
        t.added.map s.arena.typeOf ++ numberType t = [s'.arena.typeOf x] ∨ s'.IsSum x) ∧
      ∀ numbers ms ns, List.Forall₂ (s.Evaluates numbers) t.added ms →
        List.Forall₂ (s.Evaluates numbers) t.subtracted ns →
        s'.Evaluates numbers x (ms.sum + t.constant.getD 0) ∧ s'.Amounts numbers minus ns.sum := by
  obtain ⟨added, plus, s₁, s₂, hrun₁, hrun₂, hgrown₂, hplus, hplain, htypeplus, hworth⟩ :=
    sides_run hrebuilding hterms hadded
  have hsubtractedTypes := subtractedTypes_eq hgrown₂ hterms
  obtain ⟨minus, s₃, hrun₃, hgrown₃, hminus, _, hnone, htypeminus, hworth'⟩ :=
    addUp_run none t.subtracted.reverse (hrebuilding.extend hgrown₂.toExtends)
      (fun v hv => (hterms v (List.mem_append_right _ (List.mem_reverse.mp hv))).extend
        hgrown₂.toExtends)
      (by rwa [hsubtractedTypes])
  have hgrown₃' := hgrown₂.trans hgrown₃
  obtain ⟨x, s₄, hrun₄, hgrown₄, hx, hsame, htypex, hamount⟩ :=
    minuend_run (hrebuilding.extend hgrown₃'.toExtends) plus
      (fun v hv => (hplus v hv).extend hgrown₃.toExtends)
  refine ⟨x, minus, s₄, ?_, hgrown₃'.trans hgrown₄, hx, fun v hv =>
    (hminus v hv).extend hgrown₄.toExtends, hnone.trans List.reverse_eq_nil_iff, ?_, ?_, ?_, ?_⟩
  · rw [rebuildSum, bind_ok hrun₁, bind_ok hrun₂, bind_ok hrun₃, bind_ok hrun₄]
  · rw [htypex, typeOfSum_eq hgrown₃ hplus, htypeplus]
  · rw [typeOfSum_eq hgrown₄ hminus, htypeminus, hsubtractedTypes]
  · rcases hsame with rfl | hmachine
    · have hgrown := hgrown₃.trans hgrown₄
      rw [hgrown.typeOf_eq (hplus x rfl).lt_size]
      exact .inr ((hplain x rfl).imp id fun hsum => hsum.extend hgrown.toExtends)
    · exact .inl hmachine
  · intro numbers ms ns hms hns
    refine ⟨hamount numbers _ ((hworth numbers ms hms).extend hgrown₃.toExtends), ?_⟩
    have hns' := hworth' numbers ns.reverse (List.rel_reverse
      (hns.imp (fun _ _ hn => hn.extend hgrown₂.toExtends)))
    rw [List.sum_reverse] at hns'
    exact hns'.extend hgrown₄.toExtends

/-- Terms that can be put together again are, and the result is their sum. -/
theorem rebuildSum_run (hrebuilding : s.Rebuilding) (hterms : ∀ v ∈ t.all, s.Final v)
    (htype : o.type = .int ∨ o.type = .machineInt)
    (hwords : o.type = .machineInt → ∀ v ∈ t.all, s.arena.typeOf v = .machineInt)
    (hrebuildable : s.Rebuildable o t) :
    ∃ r s', rebuildSum o t s = .ok r s' ∧ Grown s s' ∧ s'.arena.typeOf r = o.type ∧
      ∀ numbers ms ns, List.Forall₂ (s.Evaluates numbers) t.added ms →
        List.Forall₂ (s.Evaluates numbers) t.subtracted ns →
        Holds o.type (ms.sum + t.constant.getD 0 - ns.sum) →
        s'.Evaluates numbers r (ms.sum + t.constant.getD 0 - ns.sum) := by
  obtain ⟨_, hadded, hsubtracted, hmachine, hnumber⟩ := hrebuildable
  obtain ⟨x, minus, s₁, hrun₁, hgrown₁, hx, hminus, hnone, htypex, htypeminus, hplain, hworth⟩ :=
    operands_run o hrebuilding hterms hadded hsubtracted
  obtain ⟨y, s₂, hrun₂, hgrown₂, hy, hplain₂, hamount⟩ :=
    subtractFrom_run (hrebuilding.extend hgrown₁.toExtends) minus hx hminus
      (by rwa [htypex, htypeminus, hnone])
  -- in the place of a machine integer, what is unbounded has been computed by an operation
  have hcomputed : o.type = .int ∨ s₂.arena.typeOf y = .machineInt ∨ s₂.IsSum y := by
    rcases htype with hint | hword
    · exact .inl hint
    rcases hplain₂ with ⟨hnone', rfl⟩ | hsum
    · rw [hgrown₂.typeOf_eq hx.lt_size]
      rcases hplain with hmachine' | hlone | hsum
      · exact .inr (.inl hmachine')
      · rcases lone_type (fun v hv => hwords hword v (List.mem_append_left _ hv)) hlone with
          hmachine' | ⟨hadded', hnumber'⟩
        · exact .inr (.inl hmachine')
        · simp [hword, Terms.all, hadded', hnone.mp hnone', hnumber'] at hnumber
      · exact .inr (.inr (hsum.extend hgrown₂.toExtends))
    · exact .inr (.inr hsum)
  have hgrown₂' := hgrown₁.trans hgrown₂
  obtain ⟨r, s₃, hrun₃, hgrown₃, htyper, hamount₃⟩ :=
    convertSum_run (hrebuilding.extend hgrown₂'.toExtends) hy htype hcomputed
  refine ⟨r, s₃, by rw [hrun₁, bind_ok hrun₂, hrun₃], hgrown₂'.trans hgrown₃, htyper, ?_⟩
  intro numbers ms ns hms hns hholds
  obtain ⟨hleft, hright⟩ := hworth numbers ms ns hms hns
  exact hamount₃ numbers _ (hamount numbers _ _ hleft hright) hholds

/-- A number that is no machine integer cannot stand alone in the place of one. -/
theorem rebuildSum_lone (htype : o.type = .machineInt) (hempty : t.all = [])
    (hnumber : numberType t = [.int]) : ∃ s', rebuildSum o t s = .error .internal s' := by
  obtain ⟨hadded, hsubtracted⟩ := List.append_eq_nil_iff.mp hempty
  have hconst : ∃ n, t.number? = some (.int n) := by
    unfold numberType at hnumber
    split at hnumber
    · rename_i n hn
      split_ifs at hnumber with hzero hfits
      · simp at hnumber
      · exact ⟨n, by simp [Terms.number?, Option.filter_some, hn, hzero, hfits]⟩
    · cases hnumber
  obtain ⟨n, hn⟩ := hconst
  have haddends : addends t s = .ok [s.arena.values.size] (s.addValue (.const (.int n))) := by
    rw [addends, hn, hadded]
    rfl
  have hplus : addUp none [s.arena.values.size].reverse (s.addValue (.const (.int n))) =
      .ok (some s.arena.values.size) (s.addValue (.const (.int n))) := by
    rw [List.reverse_singleton, addUp]
    rfl
  have hminus : addUp none t.subtracted.reverse (s.addValue (.const (.int n))) =
      .ok none (s.addValue (.const (.int n))) := by
    rw [hsubtracted, List.reverse_nil, addUp]
    rfl
  have hint : (s.addValue (.const (.int n))).arena.typeOf s.arena.values.size = .int :=
    congrArg Value.type (value_addValue s _)
  refine ⟨s.addValue (.const (.int n)), ?_⟩
  rw [rebuildSum, bind_ok haddends, bind_ok hplus, bind_ok hminus, minuend,
    bind_ok (OptM.pure_run _ _), subtractFrom, bind_ok (OptM.pure_run _ _), convertSum,
    bind_ok (OptM.typeOf_run _ _), hint, htype, if_neg (by decide), if_neg (by decide),
    bind_ok (OptM.value_run _ _), value_addValue]
  rfl

/-- Two unbounded sums cannot be subtracted from each other. -/
theorem rebuildSum_unbounded (hrebuilding : s.Rebuilding) (hterms : ∀ v ∈ t.all, s.Final v)
    (hadded : AddsUp (s.addedTypes t)) (hsubtracted : AddsUp (s.subtractedTypes t))
    (hsome : t.subtracted ≠ []) (hleft : sumType (s.addedTypes t) ≠ .machineInt)
    (hright : sumType (s.subtractedTypes t) ≠ .machineInt) :
    ∃ s', rebuildSum o t s = .error .internal s' := by
  obtain ⟨x, minus, s₁, hrun, -, hx, hminus, hnone, htypex, htypeminus, -⟩ :=
    operands_run o hrebuilding hterms hadded hsubtracted
  cases minus with
  | none => exact absurd (hnone.mp rfl) hsome
  | some y =>
    have htypey : s₁.arena.typeOf y = sumType (s.subtractedTypes t) := htypeminus
    refine ⟨s₁, hrun.trans (bind_error (subtractFrom_error ?_ ?_))⟩
    · exact hx.type.resolve_right (htypex ▸ hleft)
    · exact (hminus y rfl).type.resolve_right (htypey ▸ hright)

/-- Terms that cannot be put together again spoil the sum. -/
theorem spoiled_rebuildSum (hrebuilding : s.Rebuilding) (hterms : ∀ v ∈ t.all, s.Final v)
    (hgains : t.gains ≤ 4) (htype : o.type = .int ∨ o.type = .machineInt)
    (hnot : ¬ s.Rebuildable o t) :
    Spoiled s (rebuildSum o t s) := by
  have hkeeps (plus minus : Option ValueId) :
      Keeps (do convertSum o (← subtractFrom (← minuend plus) minus)) :=
    (keeps_minuend plus).bind (fun x => (keeps_subtractFrom x minus).bind (keeps_convertSum o))
  by_cases hadded : AddsUp (s.addedTypes t)
  swap
  · obtain ⟨added, s₁, hrun₁, hgrown₁, hfinal₁, htypes, _⟩ :=
      addends_run hrebuilding t (fun v hv => hterms v (List.mem_append_left _ hv))
    rw [rebuildSum, bind_ok hrun₁]
    refine Spoiled.bind (.of_extends hgrown₁.toExtends ?_)
      (fun plus => (keeps_addUp _ _).bind (fun minus => hkeeps plus minus))
    refine spoiled_addUp _ _ (hrebuilding.extend hgrown₁.toExtends)
      (fun v hv => hfinal₁ v (List.mem_reverse.mp hv)) (by simp) ?_
    rwa [List.map_reverse, htypes]
  by_cases hsubtracted : AddsUp (s.subtractedTypes t)
  swap
  · obtain ⟨added, plus, s₁, s₂, hrun₁, hrun₂, hgrown₂, _⟩ := sides_run hrebuilding hterms hadded
    rw [rebuildSum, bind_ok hrun₁, bind_ok hrun₂]
    refine Spoiled.bind (.of_extends hgrown₂.toExtends ?_) (fun minus => hkeeps plus minus)
    refine spoiled_addUp _ _ (hrebuilding.extend hgrown₂.toExtends) ?_ (by simp) ?_
    · exact fun v hv => (hterms v (List.mem_append_right _ (List.mem_reverse.mp hv))).extend
        hgrown₂.toExtends
    · rwa [subtractedTypes_eq hgrown₂ hterms]
  have herror : ∃ s', rebuildSum o t s = .error .internal s' := by
    by_cases hmachine : t.subtracted = [] ∨ sumType (s.addedTypes t) = .machineInt ∨
        sumType (s.subtractedTypes t) = .machineInt
    · have hnumber : ¬ (o.type = .int ∨ t.all ≠ [] ∨ numberType t ≠ [.int]) :=
        fun h => hnot ⟨hgains, hadded, hsubtracted, hmachine, h⟩
      push Not at hnumber
      exact rebuildSum_lone (htype.resolve_left hnumber.1) hnumber.2.1 hnumber.2.2
    · push Not at hmachine
      exact rebuildSum_unbounded hrebuilding hterms hadded hsubtracted hmachine.1 hmachine.2.1
        hmachine.2.2
  obtain ⟨s', hrun⟩ := herror
  rw [hrun]
  trivial

end OptState

end Jib.Graph
