import Jib.Proofs.Construction.Entering

/-!
# The start of a body

At its start a body has its arguments and a result that is not set yet.  Their values in the graph
are the argument values and a constant, so that the store in which the body starts and the valuation
in which the graph starts agree.
-/

namespace Jib

open Jib.BuildM Jib.Interpretation

variable {f : FunctionBody} {types : String → Ty} {known : String → Option Const}
variable {src : BuildSource} {s s' : BuildState} {a a' : Arena} {vars : VarTable}
    {args : List ValueId}

/-- The values of the arguments and of the result at the start of a body. -/
structure Starts (f : FunctionBody) (a : Arena) (args : List ValueId) (vars : VarTable) : Prop where
  nodup : args.Nodup
  argument : List.Forall₂ (fun p v => vars.get? p.1 = some (some v) ∧ a.value v = .argument p.1 p.2)
    f.args args
  result : ∃ v, vars.get? "return" = some (some v) ∧ a.value v = .const (.default f.result)

theorem Starts.grows (h : Starts f a args vars) (hgrows : a.Grows a') : Starts f a' args vars where
  nodup := h.nodup
  argument := h.argument.imp fun p v ⟨hget, hvalue⟩ => by
    refine ⟨hget, ?_⟩
    rw [hgrows.value_eq v (Arena.lt_size_of_value hvalue (by simp)) (by rw [hvalue]; rfl), hvalue]
  result := by
    obtain ⟨v, hget, hvalue⟩ := h.result
    exact ⟨v, hget, hgrows.const hvalue⟩

theorem Starts.exists_argument (h : Starts f a args vars) {x : String} (hx : x ∈ f.argNames) :
    ∃ (k : Nat) (p : String × Ty) (v : Nat), f.args[k]? = some p ∧ args[k]? = some v ∧ p.1 = x ∧
      vars.get? x = some (some v) ∧ a.value v = .argument p.1 p.2 := by
  obtain ⟨p, hp, rfl⟩ := List.mem_map.mp hx
  obtain ⟨k, hk⟩ := List.mem_iff_getElem?.mp hp
  obtain ⟨v, hv, hget, hvalue⟩ := forall₂_getElem? h.argument hk
  exact ⟨k, p, v, hk, hv, rfl, hget, hvalue⟩

/-! ### What the builder does at the start -/

theorem argumentVars_run (l : List (String × Ty)) (hnodup : (l.map Prod.fst).Nodup)
    (s : BuildState) :
    ∃ s' ids, argumentVars l s = .ok () s' ∧
      s' = { s with arena := s'.arena, vars := s'.vars } ∧ s.arena.Adds s'.arena ∧
      s'.arena.blocks = s.arena.blocks ∧ (s.vars.Valid → s'.vars.Valid) ∧
      (∀ x, x ∉ l.map Prod.fst → s'.vars.get? x = s.vars.get? x) ∧
      List.Forall₂ (fun p v => s'.vars.get? p.1 = some (some v) ∧
        s'.arena.value v = .argument p.1 p.2) l ids ∧
      ids.Nodup ∧ ∀ v ∈ ids, s.arena.values.size ≤ v := by
  induction l generalizing s with
  | nil => exact ⟨s, [], rfl, rfl, .refl _, rfl, id, fun _ _ => rfl, .nil, List.nodup_nil, by simp⟩
  | cons p l ih =>
    obtain ⟨n, t⟩ := p
    rw [List.map_cons, List.nodup_cons] at hnodup
    obtain ⟨s', ids, hrun, hframe, hadds, hblocks, hvalid, hother, hids, hdistinct, hfresh⟩ :=
      ih hnodup.2 { s with
        arena := (s.arena.addValue (.argument n t)).2
        vars := s.vars.insert n (some s.arena.values.size) }
    have hlt : s.arena.values.size < (s.arena.addValue (.argument n t)).2.values.size := by simp
    refine ⟨s', s.arena.values.size :: ids, hrun, hframe, (Arena.adds_addValue _ _).trans hadds,
      hblocks, fun h => hvalid (h.insert _ _), fun x hx => ?_, .cons ⟨?_, ?_⟩ hids, ?_, ?_⟩
    · rw [List.map_cons, List.mem_cons, not_or] at hx
      rw [hother x hx.2, Table.get?_insert_of_ne _ _ (Ne.symm hx.1)]
    · rw [hother n hnodup.1, Table.get?_insert_self]
    · rw [hadds.value_eq _ hlt, Arena.value_addValue_self]
    · exact List.nodup_cons.mpr ⟨fun hmem => absurd (hfresh _ hmem) (Nat.not_le.mpr hlt), hdistinct⟩
    · intro v hv
      rcases List.mem_cons.mp hv with rfl | hv
      · exact le_rfl
      · exact hlt.le.trans (hfresh v hv)

theorem passArguments_run {names : List String} {ids : List ValueId}
    (hids : List.Forall₂ (fun n v => vars.get? n = some (some v)) names ids)
    (s : BuildState) (hvars : s.vars = vars) :
    passArguments names s = .ok () { s with args := s.args ++ ids.toArray } := by
  induction hids generalizing s with
  | nil => simp [passArguments, pure, EStateM.pure]
  | @cons n v names ids hget _ ih =>
    rw [passArguments, bind_ok (get_run s)]
    simp only [hvars, hget]
    exact (ih { s with args := s.args.push v } hvars).trans (by simp [hvars])

/-- The builder makes variables of the arguments, of none if there are none, and of the result. -/
theorem startVars_eq (hsrc : src.Describes f) :
    startVars src = (do
      modify (fun s => { s with vars := {}, args := #[] })
      argumentVars f.args
      passArguments f.argNames
      setVar "return" (some (← newConst (.default f.result)))) := by
  rw [startVars, hsrc.args, hsrc.type, FunctionBody.argNames, FunctionBody.type]
  cases hargs : f.args with
  | nil => rfl
  | cons p l =>
    have hzip : ((p :: l).map Prod.fst).zip ((p :: l).map Prod.snd) = p :: l :=
      (List.zip_of_prod rfl rfl).symm
    dsimp only
    rw [hzip]
    rfl

/-- The builder starts a body with its arguments and its result. -/
theorem startVars_run (hwell : f.WellFormed types known) (hsrc : src.Describes f) (s : BuildState) :
    ∃ s', startVars src s = .ok () s' ∧
      s' = { s with arena := s'.arena, vars := s'.vars, args := s'.args } ∧
      s.arena.Adds s'.arena ∧ s'.arena.blocks = s.arena.blocks ∧ s'.vars.Valid ∧
      (∀ x, x ∉ "return" :: f.argNames → s'.vars.get? x = none) ∧
      Starts f s'.arena s'.args.toList s'.vars := by
  obtain ⟨s₁, ids, hrun₁, hframe₁, hadds₁, hblocks₁, hvalid₁, hother₁, hids₁, hnodup₁, -⟩ :=
    argumentVars_run f.args hwell.nodup { s with vars := {}, args := #[] }
  have hget : List.Forall₂ (fun n v => s₁.vars.get? n = some (some v)) f.argNames ids :=
    List.forall₂_map_left_iff.mpr (hids₁.imp fun _ _ h => h.1)
  have hargs : s₁.args ++ ids.toArray = ids.toArray := by rw [hframe₁]; simp
  have hadds := Arena.adds_addValue s₁.arena (.const (.default f.result))
  refine ⟨{ s₁ with
      arena := (s₁.arena.addValue (.const (.default f.result))).2
      vars := s₁.vars.insert "return" (some s₁.arena.values.size)
      args := ids.toArray }, ?_, by rw [hframe₁], hadds₁.trans hadds, hblocks₁,
    (hvalid₁ Table.valid_empty).insert _ _, fun x hx => ?_, hnodup₁, ?_, ?_⟩
  · rw [startVars_eq hsrc, bind_ok (modify_run _ s), bind_ok hrun₁,
      bind_ok (passArguments_run hget s₁ rfl), hargs]
    rfl
  · rw [List.mem_cons, not_or] at hx
    rw [Table.get?_insert_of_ne _ _ (Ne.symm hx.1), hother₁ x hx.2, Table.get?_empty]
  · have hne : ∀ p ∈ f.args, p.1 ≠ "return" := fun p hp heq =>
      hwell.return_not_arg (heq ▸ List.mem_map_of_mem hp)
    refine ((List.forall₂_and_left _ _).mpr ⟨hne, hids₁⟩).imp fun p v ⟨hp, hget, hvalue⟩ => ⟨?_, ?_⟩
    · rw [Table.get?_insert_of_ne _ _ hp.symm, hget]
    · rw [hadds.value_eq v (Arena.lt_size_of_value hvalue (by simp)), hvalue]
  · exact ⟨_, Table.get?_insert_self _ _ _, Arena.value_addValue_self _ _⟩

/-- The start of a body has no ways into it. -/
theorem enter_start (hwell : f.WellFormed types known) (hsrc : src.Describes f) (s : BuildState) :
    ∃ s', (do check ((0 : Int) == src.start); startVars src) s = .ok () s' ∧
      Entered f types src 0 s s' [] ∧ Starts f s'.arena s'.args.toList s'.vars ∧
      s'.hasLoop = s.hasLoop ∧ s'.exits = s.exits := by
  obtain ⟨s', hrun, hframe, hadds, hblocks, hvalid, hother, hstarts⟩ := startVars_run hwell hsrc s
  refine ⟨s', ?_, ?_, hstarts, by rw [hframe], by rw [hframe]⟩
  · rw [hsrc.start, bind_ok (by rfl : check ((0 : Int) == 0) s = .ok () s), hrun]
  · have hphis : AddsPhis src s s' [] :=
      ⟨by rw [hframe], by rw [hframe]; simp, hadds, hblocks, by simp,
      fun q e he => by rw [hframe]; exact he,
      fun q e he => .inl (by rw [hframe] at he; exact he)⟩
    refine ⟨hphis, ⟨hvalid, fun x v hx => ?_, fun x hx => ?_⟩, fun p _ _ _ _ hleads =>
      absurd hleads (FunctionBody.not_leads_zero hwell p)⟩
    · by_contra hlocal
      rw [hother x fun hmem => hlocal (List.mem_append_left _ hmem)] at hx
      cases hx
    · rcases List.mem_cons.mp (hx _ .start) with rfl | hx
      · obtain ⟨v, hget, hvalue⟩ := hstarts.result
        refine ⟨v, hget, Arena.lt_size_of_value hvalue (by simp), ?_⟩
        rw [Arena.typeOf, hvalue, hwell.result_type]
        rfl
      · obtain ⟨k, p, v, hk, -, rfl, hget, hvalue⟩ := hstarts.exists_argument hx
        refine ⟨v, hget, Arena.lt_size_of_value hvalue (by simp), ?_⟩
        rw [Arena.typeOf, hvalue, hwell.arg_types p (List.mem_of_getElem? hk)]
        rfl

/-! ### What the arguments mean -/

theorem lookup_zip {α β : Type} [BEq α] [LawfulBEq α] {l : List α} {l' : List β} (hnodup : l.Nodup)
    {k : Nat} {x : α} {y : β} (hx : l[k]? = some x) (hy : l'[k]? = some y) :
    (l.zip l').lookup x = some y := by
  induction l generalizing l' k with
  | nil => cases hx
  | cons z l ih =>
    rw [List.nodup_cons] at hnodup
    cases l' with
    | nil => cases hy
    | cons z' l' =>
      cases k with
      | zero =>
        cases hx
        cases hy
        simp
      | succ k =>
        have hne : x ≠ z := fun h => hnodup.1 (h ▸ List.mem_of_getElem? hx)
        rw [List.zip_cons_cons, List.lookup_cons, beq_eq_false_iff_ne.mpr hne]
        exact ih hnodup.2 hx hy

/-- A body and its graph start with the same values. -/
theorem Starts.agrees {V E M : Type} (I : Interpretation V E M) (h : Starts f a args vars)
    (hwell : f.WellFormed types known) {ys : List V} (hlength : ys.length = f.args.length)
    (hunit : ∀ p y, (p, y) ∈ f.args.zip ys → p.2 = .unit → y = I.constant .unit) :
    Agrees I f (f.Declared 0) a vars (I.startStore (f.argNames.zip ys) f.result)
      (startValuation (args.zip ys)) where
  value x hx := by
    rcases List.mem_cons.mp (hx _ .start) with rfl | hx
    · obtain ⟨v, hget, hvalue⟩ := h.result
      exact ⟨v, _, hget, if_pos rfl, holds_const hvalue _⟩
    · obtain ⟨k, p, v, hk, hv, rfl, hget, hvalue⟩ := h.exists_argument hx
      have hlt : k < ys.length := hlength ▸ (List.getElem?_eq_some_iff.mp hk).1
      have hy : ys[k]? = some ys[k] := List.getElem?_eq_getElem hlt
      have hne : p.1 ≠ "return" := fun heq => hwell.return_not_arg (heq ▸ hx)
      refine ⟨v, ys[k], hget, ?_, ?_, fun htype => hunit p _ ?_ ?_⟩
      · rw [startStore, if_neg hne]
        exact lookup_zip hwell.nodup (by rw [FunctionBody.argNames, List.getElem?_map, hk]; rfl) hy
      · simp only [look, hvalue]
        exact lookup_zip h.nodup hv hy
      · refine List.mem_of_getElem? (i := k) ?_
        rw [List.getElem?_zip_eq_some]
        exact ⟨hk, hy⟩
      · rw [Arena.typeOf, hvalue] at htype
        exact htype
  outside x hx := by
    have hne : x ≠ "return" := fun heq => hx (heq ▸ List.mem_cons_self)
    rw [startStore, if_neg hne, List.lookup_eq_none_iff]
    intro p hp
    have hmem : p.1 ∈ f.argNames := (List.of_mem_zip hp).1
    refine bne_iff_ne.mpr fun heq => hx ?_
    exact List.mem_cons_of_mem _ (List.mem_append_left _ (heq ▸ hmem))

end Jib
