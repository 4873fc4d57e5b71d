import Jib.Proofs.Sums.Terms

/-!
# Adding up terms

Terms are added up two at a time, the last ones first.  There is no addition for two unbounded
operands, so whether that works depends on the types of the terms only: where it does, all operands
are of the promised types and the result is the sum of the terms; everywhere else it fails or leaves
an operation whose operands are not of the promised types.
-/

namespace Jib.Graph

variable {o : Operation} {x y : ValueId}

/-- Whether terms of given types can be added up, the last ones first. -/
def AddsUp : List Ty → Prop
  | first :: second :: rest =>
    (first = .machineInt ∨ second = .machineInt) ∧ ∀ type ∈ rest, type = .machineInt
  | _ => True

instance : DecidablePred AddsUp
  | [] | [_] => .isTrue trivial
  | first :: second :: rest =>
    inferInstanceAs (Decidable ((first = .machineInt ∨ second = .machineInt) ∧
      ∀ type ∈ rest, type = .machineInt))

theorem addsUp_cons_int (types : List Ty) :
    AddsUp (.int :: types) ↔ ∀ type ∈ types, type = .machineInt := by
  cases types <;> simp [AddsUp]

/-- The type of a sum of terms of given types. -/
def sumType : List Ty → Ty
  | [] => .machineInt
  | [type] => type
  | _ => .int

namespace OptState

/-- A state in which a block is being rebuilt and operands are looked up once and for all. -/
structure Rebuilding (s : OptState) : Prop where
  isSome : s.newOps.isSome
  look_look : ∀ v, s.look (s.look v) = s.look v
  look_new : ∀ v, s.arena.values.size ≤ v → s.look v = v

/-- A value that can be an operand of a sum as it is. -/
structure Final (s : OptState) (v : ValueId) : Prop where
  look_eq : s.look v = v
  type : s.arena.typeOf v = .int ∨ s.arena.typeOf v = .machineInt

/-- A value that is the result of an addition or a subtraction. -/
def IsSum (s : OptState) (v : ValueId) : Prop :=
  ∃ o x y isSub, s.arena.value v = .op o ∧ sumOp? o = some isSub ∧ o.args.toList = [x, y] ∧
    s.Typed o

/-- A state that has grown by operations with operands of the promised types. -/
structure Grown (s s' : OptState) : Prop extends Extends s s' where
  typed : ∀ v o, s.arena.values.size ≤ v → s'.arena.value v = .op o → s'.Typed o

/-- A state that has grown by an operation some of whose operands are not of the promised types. -/
structure Flawed (s s' : OptState) : Prop extends Extends s s' where
  untyped : ∃ v o, s.arena.values.size ≤ v ∧ s'.arena.value v = .op o ∧ ¬ s'.Typed o ∧
    ∀ x ∈ o.args.toList, s'.look x < s'.arena.values.size

/-- What a sum of no terms or one sum is worth. -/
def Amounts (s : OptState) (numbers : ValueId → Int) : Option ValueId → Int → Prop
  | none, n => n = 0
  | some v, n => s.Evaluates numbers v n

def typeOfSum (s : OptState) (v : Option ValueId) : Ty := v.elim .machineInt s.arena.typeOf

variable {s s' s'' : OptState} {numbers : ValueId → Int} {v : ValueId}

theorem Rebuilding.extend (hrebuilding : s.Rebuilding) (hextends : Extends s s') :
    s'.Rebuilding where
  isSome := hextends.isSome hrebuilding.isSome
  look_look w := by rw [hextends.look_eq, hextends.look_eq, hrebuilding.look_look]
  look_new w hw := by rw [hextends.look_eq, hrebuilding.look_new w (hextends.size_le.trans hw)]

theorem Final.lt_size (hfinal : s.Final v) : v < s.arena.values.size :=
  Arena.lt_size_of_typeOf hfinal.type

theorem Final.extend (hfinal : s.Final v) (hextends : Extends s s') : s'.Final v where
  look_eq := by rw [hextends.look_eq, hfinal.look_eq]
  type := by rw [hextends.typeOf_eq hfinal.lt_size]; exact hfinal.type

theorem IsSum.extend (hsum : s.IsSum v) (hextends : Extends s s') : s'.IsSum v := by
  obtain ⟨o, x, y, isSub, hvalue, hsum, hargs, htyped⟩ := hsum
  exact ⟨o, x, y, isSub, hextends.value_op hvalue, hsum, hargs, htyped.extend hextends⟩

theorem Grown.refl (s : OptState) : Grown s s where
  toExtends := .refl s
  typed w o hw hvalue := by simp [Arena.value_of_size_le hw] at hvalue

theorem Grown.trans (hfirst : Grown s s') (hsecond : Grown s' s'') : Grown s s'' where
  toExtends := hfirst.toExtends.trans hsecond.toExtends
  typed w o hw hvalue := by
    rcases Nat.lt_or_ge w s'.arena.values.size with hlt | hge
    · rw [hsecond.value_eq w hlt] at hvalue
      exact (hfirst.typed w o hw hvalue).extend hsecond.toExtends
    · exact hsecond.typed w o hge hvalue

theorem Flawed.extend (hflawed : Flawed s s') (hextends : Extends s' s'') : Flawed s s'' where
  toExtends := hflawed.toExtends.trans hextends
  untyped := by
    obtain ⟨w, o, hge, hvalue, huntyped, hargs⟩ := hflawed.untyped
    refine ⟨w, o, hge, hextends.value_op hvalue, ?_, ?_⟩
    · rwa [typed_iff_of_extends hextends hargs]
    · intro x hx
      rw [hextends.look_eq]
      exact (hargs x hx).trans_le hextends.size_le

theorem Flawed.of_extends (hextends : Extends s s') (hflawed : Flawed s' s'') : Flawed s s'' where
  toExtends := hextends.trans hflawed.toExtends
  untyped := by
    obtain ⟨w, o, hge, hrest⟩ := hflawed.untyped
    exact ⟨w, o, hextends.size_le.trans hge, hrest⟩

theorem Flawed.not_grown (hflawed : Flawed s s') : ¬ Grown s s' := by
  intro hgrown
  obtain ⟨w, o, hge, hvalue, huntyped, _⟩ := hflawed.untyped
  exact huntyped (hgrown.typed w o hge hvalue)

/-! ### New values -/

/-- One new value lets a state grow, unless it is an operation with wrong operands. -/
theorem Extends.grown {x : Value} (hextends : Extends s s')
    (harena : s'.arena = (s.addValue x).arena) (htyped : ∀ o, x = .op o → s.Typed o) :
    Grown s s' where
  toExtends := hextends
  typed w o hw hvalue := by
    rw [harena] at hvalue
    rcases Nat.lt_or_ge s.arena.values.size w with hlt | hle
    · rw [Arena.value_of_size_le (by simp [addValue]; omega)] at hvalue
      cases hvalue
    · rw [le_antisymm hle hw, value_addValue] at hvalue
      exact (htyped o hvalue).extend hextends

theorem grown_addValue (s : OptState) (c : Const) : Grown s (s.addValue (.const c)) :=
  (extends_addValue s _).grown rfl (by rintro _ ⟨⟩)

theorem grown_emitted (htyped : s.Typed o) : Grown s (s.emitted (.op o)) :=
  (extends_emitted s _).grown rfl (by rintro _ ⟨⟩; exact htyped)

theorem flawed_emitted (huntyped : ¬ s.Typed o)
    (hargs : ∀ x ∈ o.args.toList, s.look x < s.arena.values.size) :
    Flawed s (s.emitted (.op o)) where
  toExtends := extends_emitted s _
  untyped := by
    refine ⟨s.arena.values.size, o, le_rfl, value_emitted s _, ?_, ?_⟩
    · rwa [typed_iff_of_extends (extends_emitted s _) hargs]
    · intro x hx
      rw [(extends_emitted s _).look_eq]
      exact (hargs x hx).trans_le (extends_emitted s _).size_le

theorem final_emitted (hrebuilding : s.Rebuilding) (htype : o.type = .int ∨ o.type = .machineInt) :
    (s.emitted (.op o)).Final s.arena.values.size where
  look_eq := by rw [(extends_emitted s _).look_eq, hrebuilding.look_new _ le_rfl]
  type := by rwa [Arena.typeOf, value_emitted]

def binary (name : String) (x y : ValueId) (type : Ty) : Operation :=
  ⟨.call, name, #[x, y], type, none, none⟩

theorem typed_binary {name : String} {type : Ty} (hx : s.Final x) (hy : s.Final y)
    (hsignature : signature? name = some ([s.arena.typeOf x, s.arena.typeOf y], type)) :
    s.Typed (binary name x y type) := by
  simp only [Typed, binary, List.map_cons, hx.look_eq, hy.look_eq]
  exact hsignature

theorem evaluates_binary {name : String} {type : Ty} {isSub : Bool} {m n : Int}
    (hsum : sumOp? (binary name x y type) = some isSub) (htyped : s.Typed (binary name x y type))
    (hx : s.Final x) (hy : s.Final y) (hleft : s.Evaluates numbers x m)
    (hright : s.Evaluates numbers y n) (hholds : Holds type (combine isSub m n)) :
    (s.emitted (.op (binary name x y type))).Evaluates numbers s.arena.values.size
      (combine isSub m n) := by
  have hextends := extends_emitted s (.op (binary name x y type))
  refine .sum (value_emitted s _) hsum rfl (htyped.extend hextends) ?_ ?_ hholds
  · rw [(hx.extend hextends).look_eq]
    exact hleft.extend hextends
  · rw [(hy.extend hextends).look_eq]
    exact hright.extend hextends

/-! ### Adding up -/

theorem addUp_cons_cons {last : Option String} {name : String} {left right : ValueId}
    (rest : List ValueId) (hrebuilding : s.Rebuilding)
    (hadd : addition last x y (s.arena.typeOf x) (s.arena.typeOf y) s = .ok (name, left, right) s) :
    addUp last (y :: x :: rest) s = addUp (some name) (s.arena.values.size :: rest)
      (s.emitted (.op (binary name left right .int))) := by
  rw [addUp, bind_ok (OptM.typeOf_run x s), bind_ok (OptM.typeOf_run y s), bind_ok hadd]
  exact bind_ok (OptM.newOp_run name [left, right] .int s hrebuilding.isSome)

/-- One step of adding up: unless both operands are unbounded they are added. -/
theorem addUp_step (last : Option String) (rest : List ValueId) (hrebuilding : s.Rebuilding)
    (hx : s.Final x) (hy : s.Final y)
    (hmachine : s.arena.typeOf y = .machineInt ∨ s.arena.typeOf x = .machineInt) :
    ∃ name left right, (left = x ∧ right = y ∨ left = y ∧ right = x) ∧
      (name = "@add_o_i_wrapped_res" ∨ name = "@add_i_i_wrapped_res") ∧
      s.Typed (binary name left right .int) ∧
      addUp last (y :: x :: rest) s =
        addUp (some name) (s.arena.values.size :: rest)
          (s.emitted (.op (binary name left right .int))) := by
  rcases hx.type with htx | htx <;> rcases hy.type with hty | hty
  · simp [htx, hty] at hmachine
  · exact ⟨_, x, y, .inl ⟨rfl, rfl⟩, .inl rfl, typed_binary hx hy (by rw [htx, hty]; rfl),
      addUp_cons_cons rest hrebuilding (by rw [htx, hty]; rfl)⟩
  · exact ⟨_, y, x, .inr ⟨rfl, rfl⟩, .inl rfl, typed_binary hy hx (by rw [htx, hty]; rfl),
      addUp_cons_cons rest hrebuilding (by rw [htx, hty]; rfl)⟩
  · exact ⟨_, x, y, .inl ⟨rfl, rfl⟩, .inr rfl, typed_binary hx hy (by rw [htx, hty]; rfl),
      addUp_cons_cons rest hrebuilding (by rw [htx, hty]; rfl)⟩

/-- After a new sum the terms that are left can be added to it as before. -/
theorem emitted_sum (rest : List ValueId) (hrebuilding : s.Rebuilding)
    (hfinal : ∀ v ∈ rest, s.Final v) (htyped : s.Typed o) (htype : o.type = .int) :
    Grown s (s.emitted (.op o)) ∧ (s.emitted (.op o)).Rebuilding ∧
      (∀ v ∈ s.arena.values.size :: rest, (s.emitted (.op o)).Final v) ∧
      (s.arena.values.size :: rest).map (s.emitted (.op o)).arena.typeOf =
        .int :: rest.map s.arena.typeOf := by
  have hgrown := grown_emitted htyped
  refine ⟨hgrown, hrebuilding.extend hgrown.toExtends, List.forall_mem_cons.mpr
    ⟨final_emitted hrebuilding (.inl htype), fun v hv => (hfinal v hv).extend hgrown.toExtends⟩, ?_⟩
  rw [List.map_cons, Arena.typeOf, value_emitted, show (Value.op o).type = .int from htype]
  exact congrArg _ (List.map_congr_left fun v hv => hgrown.typeOf_eq (hfinal v hv).lt_size)

/-- Terms that can be added up are, and the result is their sum. -/
theorem addUp_run (last : Option String) (vs : List ValueId) (hrebuilding : s.Rebuilding)
    (hfinal : ∀ v ∈ vs, s.Final v) (hadds : AddsUp (vs.map s.arena.typeOf)) :
    ∃ r s', addUp last vs s = .ok r s' ∧ Grown s s' ∧ (∀ v ∈ r, s'.Final v) ∧
      (∀ v ∈ r, vs = [v] ∨ s'.IsSum v) ∧ (r = none ↔ vs = []) ∧
      s'.typeOfSum r = sumType (vs.map s.arena.typeOf) ∧
      ∀ numbers ns, List.Forall₂ (s.Evaluates numbers) vs ns → s'.Amounts numbers r ns.sum := by
  induction last, vs using addUp.induct generalizing s with
  | case1 last =>
    refine ⟨none, s, by rw [addUp]; rfl, .refl s, by simp, by simp, by simp, rfl, ?_⟩
    intro numbers ns hns
    cases hns
    rfl
  | case2 last y =>
    refine ⟨some y, s, by rw [addUp]; rfl, .refl s, by simpa using hfinal, by simp, by simp,
      rfl, ?_⟩
    intro numbers ns hns
    obtain ⟨n, _, hn, ⟨⟩, rfl⟩ := List.forall₂_cons_left_iff.mp hns
    simpa [Amounts] using hn
  | case3 last y x rest ih =>
    have hx : s.Final x := hfinal x (by simp)
    have hy : s.Final y := hfinal y (by simp)
    obtain ⟨hmachine, hrest⟩ := hadds
    obtain ⟨name, left, right, hsides, hname, htyped, hrun⟩ :=
      addUp_step last rest hrebuilding hx hy hmachine
    obtain ⟨hgrown, hrebuilding', hfinal', htypes⟩ :=
      emitted_sum rest hrebuilding (fun v hv => hfinal v (by simp [hv])) htyped rfl
    obtain ⟨r, s', hrest', hgrown', hr, hresult, hnone, htype, hsum⟩ := ih name s.arena.values.size
      hrebuilding' hfinal' (by rw [htypes]; exact (addsUp_cons_int _).mpr hrest)
    have hadd : sumOp? (binary name left right .int) = some false := by
      rcases hname with rfl | rfl <;> rfl
    refine ⟨r, s', by rw [hrun, hrest'], hgrown.trans hgrown', hr, fun v hv => .inr ?_,
      by simpa using hnone, ?_, ?_⟩
    · rcases hresult v hv with hlone | hresult
      · obtain ⟨rfl, -⟩ := List.cons.inj hlone
        exact IsSum.extend ⟨_, left, right, false, value_emitted s _, hadd, rfl,
          htyped.extend hgrown.toExtends⟩ hgrown'.toExtends
      · exact hresult
    · rw [htype, htypes]
      cases rest <;> rfl
    · intro numbers ns hns
      obtain ⟨n, tail, hn, htail, rfl⟩ := List.forall₂_cons_left_iff.mp hns
      obtain ⟨m, others, hm, hothers, rfl⟩ := List.forall₂_cons_left_iff.mp htail
      have hfirst : (s.emitted (.op (binary name left right .int))).Evaluates numbers
          s.arena.values.size (n + m) := by
        rcases hsides with ⟨rfl, rfl⟩ | ⟨rfl, rfl⟩
        · rw [add_comm]
          exact evaluates_binary hadd htyped hx hy hm hn (.inl rfl)
        · exact evaluates_binary hadd htyped hy hx hn hm (.inl rfl)
      have hsum' := hsum numbers ((n + m) :: others) (.cons hfirst
        (hothers.imp (fun _ _ hvalue => hvalue.extend hgrown.toExtends)))
      simpa [add_assoc] using hsum'

end OptState

/-! ### Steps that spoil a sum -/

/-- A step that, if it succeeds, lets the state grow. -/
def Keeps {α : Type} (x : OptM α) : Prop :=
  ∀ s a s', x s = .ok a s' → OptState.Extends s s'

/-- A result that is of no use: an error, or a state with an operation that has wrong operands. -/
def Spoiled {α : Type} (s : OptState) : EStateM.Result Fault OptState α → Prop
  | .ok _ s' => OptState.Flawed s s'
  | .error _ _ => True

section Keeps

variable {α β : Type} {x : OptM α} {f : α → OptM β} {s s' : OptState}

theorem Keeps.bind (hx : Keeps x) (hf : ∀ a, Keeps (f a)) : Keeps (x >>= f) := by
  intro s b s'' hrun
  rw [bind_run] at hrun
  cases hfirst : x s with
    rw [hfirst] at hrun
  | ok a s' => exact (hx s a s' hfirst).trans (hf a s' b s'' hrun)
  | error e s' => cases hrun

theorem keeps_pure (a : α) : Keeps (pure a : OptM α) := by
  intro s b s' hrun
  cases hrun
  exact .refl s

theorem keeps_throw (e : Fault) : Keeps (throw e : OptM α) := by
  intro s b s' hrun
  cases hrun

theorem keeps_typeOf (v : ValueId) : Keeps (OptM.typeOf v) := by
  intro s b s' hrun
  cases hrun
  exact .refl s

theorem keeps_value (v : ValueId) : Keeps (OptM.value v) := by
  intro s b s' hrun
  cases hrun
  exact .refl s

theorem keeps_markDeadCode :
    Keeps (modify (fun s => { s with deadCode := true }) : OptM PUnit) := by
  intro s b s' hrun
  cases hrun
  exact ⟨le_rfl, fun _ _ => rfl, fun _ => rfl, id⟩

theorem keeps_newMachineInt_zero : Keeps (OptM.newMachineInt 0) := by
  intro s b s' hrun
  cases hrun
  exact OptState.extends_addValue s _

theorem keeps_newOp (name : String) (args : List ValueId) (type : Ty) :
    Keeps (OptM.newOp name args type) := by
  intro s v s' hrun
  cases hopen : s.newOps with
  | some ops =>
    rw [OptM.newOp_run _ _ _ s (by simp [hopen])] at hrun
    cases hrun
    exact OptState.extends_emitted s _
  | none =>
    rw [OptM.newOp, OptM.emit_closed _ s hopen] at hrun
    cases hrun

theorem keeps_addUp (last : Option String) (vs : List ValueId) : Keeps (addUp last vs) := by
  induction last, vs using addUp.induct with
    rw [addUp]
  | case1 last => exact keeps_pure _
  | case2 last y => exact keeps_pure _
  | case3 last y x rest ih =>
    refine (keeps_typeOf x).bind (fun tx => (keeps_typeOf y).bind (fun ty => ?_))
    refine Keeps.bind ?_ (fun _ => (keeps_newOp _ _ _).bind (fun v => ih _ v))
    unfold addition
    split <;> (try split) <;> first | exact keeps_pure _ | exact keeps_throw _

theorem Keeps.spoiled (hx : Keeps x) (hflawed : OptState.Flawed s s') : Spoiled s (x s') := by
  cases hrun : x s' with
  | error e s'' => trivial
  | ok a s'' => exact hflawed.extend (hx s' a s'' hrun)

theorem Spoiled.bind (hx : Spoiled s (x s')) (hf : ∀ a, Keeps (f a)) :
    Spoiled s ((x >>= f) s') := by
  rw [bind_run]
  cases hfirst : x s' with
  | error e s'' => trivial
  | ok a s'' =>
    rw [hfirst] at hx
    exact (hf a).spoiled hx

theorem Spoiled.of_extends {result : EStateM.Result Fault OptState α}
    (hextends : OptState.Extends s s') (hspoiled : Spoiled s' result) : Spoiled s result := by
  cases result with
  | error e t => trivial
  | ok a t => exact OptState.Flawed.of_extends hextends hspoiled

end Keeps

namespace OptState

variable {s s' : OptState} {numbers : ValueId → Int} {v : ValueId}

/-- Terms that cannot be added up spoil the sum: the first two stop it, and after them the name of
the addition before is used for operands that are not of the promised types. -/
theorem spoiled_addUp (last : Option String) (vs : List ValueId) (hrebuilding : s.Rebuilding)
    (hfinal : ∀ v ∈ vs, s.Final v)
    (hlast : ∀ name ∈ last, name = "@add_o_i_wrapped_res" ∨ name = "@add_i_i_wrapped_res")
    (hadds : ¬ AddsUp (vs.map s.arena.typeOf)) : Spoiled s (addUp last vs s) := by
  induction last, vs using addUp.induct generalizing s with
  | case1 last => exact absurd trivial hadds
  | case2 last y => exact absurd trivial hadds
  | case3 last y x rest ih =>
    have hx : s.Final x := hfinal x (by simp)
    have hy : s.Final y := hfinal y (by simp)
    by_cases hmachine : s.arena.typeOf y = .machineInt ∨ s.arena.typeOf x = .machineInt
    · obtain ⟨name, left, right, _, hname, htyped, hrun⟩ :=
        addUp_step last rest hrebuilding hx hy hmachine
      obtain ⟨hgrown, hrebuilding', hfinal', htypes⟩ :=
        emitted_sum rest hrebuilding (fun v hv => hfinal v (by simp [hv])) htyped rfl
      rw [hrun]
      refine Spoiled.of_extends hgrown.toExtends
        (ih name _ hrebuilding' hfinal' (by simpa using hname) ?_)
      rw [htypes, addsUp_cons_int]
      exact fun hrest => hadds ⟨hmachine, hrest⟩
    · have htx : s.arena.typeOf x = .int := hx.type.resolve_right (fun h => hmachine (.inr h))
      have hty : s.arena.typeOf y = .int := hy.type.resolve_right (fun h => hmachine (.inl h))
      cases last with
      | none =>
        rw [addUp, bind_ok (OptM.typeOf_run x s), bind_ok (OptM.typeOf_run y s), htx, hty]
        trivial
      | some name =>
        have hadd : addition (some name) x y (s.arena.typeOf x) (s.arena.typeOf y) s =
            .ok (name, x, y) s := by
          rw [htx, hty]
          rfl
        rw [addUp_cons_cons rest hrebuilding hadd]
        have huntyped : ¬ s.Typed (binary name x y .int) := by
          simp only [Typed, binary, List.map_cons, List.map_nil, hx.look_eq, hy.look_eq, htx, hty]
          rcases hlast name rfl with rfl | rfl <;> decide
        have hflawed : Flawed s (s.emitted (.op (binary name x y .int))) := flawed_emitted huntyped
          (by simp [binary, hx.look_eq, hy.look_eq, hx.lt_size, hy.lt_size])
        exact (keeps_addUp _ _).spoiled hflawed

end OptState

end Jib.Graph
