import Jib.Proofs.Construction.Meaning
import Jib.Proofs.Order

/-!
# Runs of graphs in single-assignment form

On a run through a graph without loops every value is computed at most once, from operands that keep
their values.  What dominates a block has been computed when the run gets there.
-/

namespace Jib

open Jib.Interpretation

variable {V E M : Type} {I : Interpretation V E M} {a : Arena} {g : Graph}
variable {ρ ρ' : Valuation V} {b c : BlockId} {v : ValueId} {m m' : M}
variable {after xs : List ValueId} {ys : List V} {y : V} {o : Operation}

/-! ### Steps of a run -/

namespace Interpretation

theorem mapM_look_of_extends (hext : ∀ x y, ρ x = some y → ρ' x = some y)
    (hlook : xs.mapM (I.look a ρ) = some ys) : xs.mapM (I.look a ρ') = some ys := by
  have hvalue {x : ValueId} {y : V} (hx : I.look a ρ x = some y) : I.look a ρ' x = some y := by
    unfold look at hx ⊢
    split
    · simpa [*] using hx
    · rename_i hconst
      exact hext x y (by simpa [hconst] using hx)
  induction xs generalizing ys with
  | nil => exact hlook
  | cons x xs ih =>
    simp only [List.mapM_cons, Option.bind_eq_bind, Option.bind_eq_some_iff] at hlook ⊢
    obtain ⟨y, hy, zs, hzs, hresult⟩ := hlook
    exact ⟨y, hvalue hy, zs, ih hzs, hresult⟩

/-- How the operations of a block are evaluated: the first one, then the others. -/
theorem evalOps_cons_ok {vs : List ValueId} (heval : I.evalOps a (v :: vs) ρ m = .ok ρ' m') :
    (∃ o ys y m₁, a.value v = .op o ∧ o.args.toList.mapM (I.look a ρ) = some ys ∧
      I.apply o.kind o.name o.type ys m = .ok y m₁ ∧
      I.evalOps a vs (Function.update ρ v (some y)) m₁ = .ok ρ' m') ∨
    ((∀ o, a.value v ≠ .op o) ∧ I.evalOps a vs ρ m = .ok ρ' m') := by
  by_cases hop : ∃ o, a.value v = .op o
  · obtain ⟨o, ho⟩ := hop
    rw [evalOps, ho] at heval
    dsimp only at heval
    cases hargs : o.args.toList.mapM (I.look a ρ) with
      rw [hargs] at heval
    | none => cases heval
    | some ys =>
      dsimp only at heval
      rw [bind_run] at heval
      cases happly : I.apply o.kind o.name o.type ys m with
        rw [happly] at heval
      | error e m₁ => cases heval
      | ok y m₁ => exact .inl ⟨o, ys, y, m₁, ho, hargs, happly, heval⟩
  · have hskip : I.evalOps a (v :: vs) ρ = I.evalOps a vs ρ := by
      rw [evalOps]
      split
      · rename_i o ho
        exact absurd ⟨o, ho⟩ hop
      · rfl
    exact .inr ⟨fun o ho => hop ⟨o, ho⟩, hskip ▸ heval⟩

/-- How a block is left for another one. -/
theorem leave_ok (hleave : I.leave a b ρ m = .ok (.inr (ρ', c)) m') :
    ρ' = I.enter a b c ρ ∧
      ((∃ pos, a.next b = .goto c pos) ∨
        ∃ cond t f pos y, a.next b = .branch cond t f pos ∧ I.look a ρ cond = some y ∧
          c = if I.isTrue y then t else f) := by
  cases hnext : a.next b with
    rw [leave, hnext] at hleave
  | unset | justStop => cases hleave
  | ret v pos =>
    cases v with
    | none => cases hleave
    | some v =>
      dsimp only at hleave
      cases hlook : I.look a ρ v <;> rw [hlook] at hleave <;> cases hleave
  | raise k pos =>
    dsimp only at hleave
    cases hlook : I.look a ρ k <;> rw [hlook] at hleave <;> cases hleave
  | goto t pos =>
    cases hleave
    exact ⟨rfl, .inl ⟨pos, rfl⟩⟩
  | branch cond t f pos =>
    dsimp only at hleave
    cases hlook : I.look a ρ cond with
      rw [hlook] at hleave
    | none => cases hleave
    | some y =>
      cases hleave
      exact ⟨rfl, .inr ⟨cond, t, f, pos, y, rfl, hlook, rfl⟩⟩

theorem edge_of_leave (hleave : I.leave a b ρ m = .ok (.inr (ρ', c)) m') : a.Edge b c := by
  unfold Arena.Edge Arena.targets
  rcases (leave_ok hleave).2 with ⟨pos, hnext⟩ | ⟨cond, t, f, pos, y, hnext, -, rfl⟩
  · simp [hnext, Next.targets]
  · rw [hnext, Next.targets]
    split <;> simp

theorem graphStep_ok (hstep : I.graphStep a (ρ, b) m = .ok (.inr (ρ', c)) m') :
    ∃ ρ₁ m₁, I.evalOps a (a.ops b).toList ρ m = .ok ρ₁ m₁ ∧
      I.leave a b ρ₁ m₁ = .ok (.inr (ρ', c)) m' := by
  rw [graphStep, bind_run] at hstep
  split at hstep
  · rename_i ρ₁ m₁ heval
    exact ⟨ρ₁, m₁, heval, hstep⟩
  · cases hstep

theorem enter_of_not_phi (hv : ¬ (v ∈ a.ops c ∧ ∃ p, a.value v = .phi p)) :
    I.enter a b c ρ v = ρ v := by
  unfold enter
  split
  · rename_i p hp
    exact if_neg fun hmem => hv ⟨hmem, p, hp⟩
  · rfl

theorem enter_phi {p : Phi} (hv : v ∈ a.ops c) (hp : a.value v = .phi p) :
    I.enter a b c ρ v = (p.entry? b).bind (I.look a ρ) := by
  simp [enter, hp, hv]

end Interpretation

/-! ### Single assignment -/

namespace Graph

/-- A value that can be used at the end of a block. -/
def Usable (g : Graph) (a : Arena) (b : BlockId) (v : ValueId) : Prop :=
  (∃ c, a.value v = .const c) ∨ v ∈ g.args ∨ ∃ d, g.Dominates a d b ∧ v ∈ a.ops d

/-- Graphs in single-assignment form. -/
structure WellFormed (g : Graph) (a : Arena) : Prop where
  argument : ∀ v ∈ g.args, ∃ n t, a.value v = .argument n t
  computed : ∀ b ∈ g.blocks a, ∀ v ∈ a.ops b, (∃ o, a.value v = .op o) ∨ ∃ p, a.value v = .phi p
  /-- Nothing is listed twice, neither in one block nor in two. -/
  nodup : ∀ b ∈ g.blocks a, (a.ops b).toList.Nodup
  once : ∀ b ∈ g.blocks a, ∀ c ∈ g.blocks a, ∀ v ∈ a.ops b, v ∈ a.ops c → b = c
  /-- Within a block a value is listed before it is used. -/
  ordered : ∀ b ∈ g.blocks a, ∀ before v after o, (a.ops b).toList = before ++ v :: after →
    a.value v = .op o → ∀ x ∈ o.args, x ∉ after
  /-- A phi has an entry of its type for every way into its block; none leads into the first. -/
  entry : ∀ b ∈ g.blocks a, ∀ v ∈ a.ops b, ∀ p, a.value v = .phi p →
    ∀ c ∈ g.blocks a, a.Edge c b → ∃ w, p.entry? c = some w ∧ a.typeOf w = p.type ∧ g.Usable a c w
  start : ∀ v ∈ a.ops g.start, ∀ p, a.value v ≠ .phi p

/-- What is known of a valuation in a block of which a part has been evaluated. -/
structure Scope (g : Graph) (I : Interpretation V E M) (a : Arena) (b : BlockId)
    (evaluated : List ValueId) (ρ : Valuation V) : Prop where
  /-- Whatever has a value is an argument or stands in a block that the run has come through. -/
  origin : ∀ v y, ρ v = some y → v ∈ g.args ∨ ∃ c ∈ g.blocks a, v ∈ a.ops c ∧
    (Relation.TransGen a.Edge c b ∨ c = b ∧ (v ∈ evaluated ∨ ∃ p, a.value v = .phi p))
  /-- The operands of an operation are still those that it was applied to. -/
  applied : ∀ v o y, a.value v = .op o → ρ v = some y → ∃ ys m m',
    o.args.toList.mapM (I.look a ρ) = some ys ∧ I.apply o.kind o.name o.type ys m = .ok y m'
  argument : ∀ v ∈ g.args, ∃ y, ρ v = some y
  defined : ∀ d, g.Dominates a d b → ∀ v ∈ a.ops d,
    (d ≠ b ∨ v ∈ evaluated ∨ ∃ p, a.value v = .phi p) → ∃ y, ρ v = some y

variable {evaluated : List ValueId}

section

variable (hscope : g.Scope I a b evaluated ρ) (hwf : g.WellFormed a) (hv : ρ v = some y)
include hscope hwf hv

theorem Scope.not_const (k : Const) : a.value v ≠ .const k := by
  intro hconst
  rcases hscope.origin v y hv with harg | ⟨c, hc, hmem, -⟩
  · obtain ⟨n, t, hvalue⟩ := hwf.argument v harg
    cases hconst.symm.trans hvalue
  · rcases hwf.computed c hc v hmem with ⟨o, hvalue⟩ | ⟨p, hvalue⟩ <;>
      cases hconst.symm.trans hvalue

theorem Scope.look_eq : I.look a ρ v = some y := by
  unfold look
  split
  · rename_i k hk
    exact absurd hk (hscope.not_const hwf hv k)
  · exact hv

end

theorem mem_of_lookup_zip (hlookup : (xs.zip ys).lookup v = some y) : v ∈ xs := by
  obtain ⟨before, after, hzip, -⟩ := List.lookup_eq_some_iff.mp hlookup
  exact (List.of_mem_zip (by rw [hzip]; simp : (v, y) ∈ xs.zip ys)).1

theorem exists_lookup_zip (hlength : ys.length = xs.length) (hv : v ∈ xs) :
    ∃ y, (xs.zip ys).lookup v = some y := by
  induction xs generalizing ys with
  | nil => cases hv
  | cons x xs ih =>
    cases ys with
    | nil => cases hlength
    | cons z ys =>
      rw [List.zip_cons_cons, List.lookup_cons]
      by_cases hvx : v = x
      · exact ⟨z, by simp [hvx]⟩
      · obtain ⟨y, hy⟩ := ih (Nat.succ.inj hlength) ((List.mem_cons.mp hv).resolve_left hvx)
        exact ⟨y, by simpa [beq_false_of_ne hvx] using hy⟩

theorem scope_start (hwf : g.WellFormed a) (hlength : ys.length = g.args.size) :
    g.Scope I a g.start [] (startValuation (g.args.toList.zip ys)) where
  origin v y hv := .inl (Array.mem_toList_iff.mp (mem_of_lookup_zip hv))
  applied v o y ho hv := by
    obtain ⟨n, t, hvalue⟩ := hwf.argument v (Array.mem_toList_iff.mp (mem_of_lookup_zip hv))
    cases ho.symm.trans hvalue
  argument v hv := exists_lookup_zip (by simpa using hlength) (Array.mem_toList_iff.mpr hv)
  defined d hd v hv hcase := by
    obtain rfl := eq_start_of_dominates hd
    rcases hcase with hne | hmem | ⟨p, hp⟩
    · exact absurd rfl hne
    · cases hmem
    · exact absurd hp (hwf.start v hv p)

section

variable (hscope : g.Scope I a b evaluated ρ)
include hscope

/-- An operation that is about to be evaluated has no value yet. -/
theorem Scope.fresh (hwf : g.WellFormed a) (hloop : g.LoopFree a) (hb : b ∈ g.blocks a)
    (hv : v ∈ a.ops b) (hnew : v ∉ evaluated) (ho : a.value v = .op o) : ρ v = none := by
  cases hρ : ρ v with
  | none => rfl
  | some y =>
    rcases hscope.origin v y hρ with harg | ⟨c, hc, hmem, hcase⟩
    · obtain ⟨n, t, hvalue⟩ := hwf.argument v harg
      cases ho.symm.trans hvalue
    · obtain rfl := hwf.once b hb c hc v hv hmem
      rcases hcase with hreach | ⟨-, hmem | ⟨p, hp⟩⟩
      · exact absurd hreach (hloop b hb)
      · exact absurd hmem hnew
      · cases ho.symm.trans hp

/-- The operands of an operation that is evaluated have their values already. -/
theorem Scope.operands (hwf : g.WellFormed a) (hloop : g.LoopFree a) (hb : b ∈ g.blocks a)
    (hops : (a.ops b).toList = evaluated ++ v :: after) (ho : a.value v = .op o)
    (hargs : o.args.toList.mapM (I.look a ρ) = some ys) {x : ValueId} (hx : x ∈ o.args.toList) :
    x ∉ v :: after := by
  intro hmem
  rcases List.mem_cons.mp hmem with rfl | hmem
  · have hnodup := hwf.nodup b hb
    rw [hops] at hnodup
    have hnone := hscope.fresh hwf hloop hb (Array.mem_toList_iff.mp (by rw [hops]; simp))
      (fun h => List.disjoint_of_nodup_append hnodup h List.mem_cons_self) ho
    obtain ⟨y, hy⟩ := exists_some_of_mapM hargs hx
    simp [look, ho, hnone] at hy
  · exact hwf.ordered b hb evaluated v after o hops ho x (Array.mem_toList_iff.mp hx) hmem

/-- A valuation that keeps all values keeps what operations were applied to. -/
theorem Scope.applied_of_extends (hext : ∀ x y, ρ x = some y → ρ' x = some y)
    (ho : a.value v = .op o) (hv : ρ v = some y) :
    ∃ ys m m', o.args.toList.mapM (I.look a ρ') = some ys ∧
      I.apply o.kind o.name o.type ys m = .ok y m' := by
  obtain ⟨ys, m, m', hargs, happly⟩ := hscope.applied v o y ho hv
  exact ⟨ys, m, m', mapM_look_of_extends hext hargs, happly⟩

/-- A block that is evaluated up to an operation, and then the operation. -/
theorem Scope.evaluate (hwf : g.WellFormed a) (hloop : g.LoopFree a) (hb : b ∈ g.blocks a)
    (hops : (a.ops b).toList = evaluated ++ v :: after) (ho : a.value v = .op o)
    (hargs : o.args.toList.mapM (I.look a ρ) = some ys)
    (happly : I.apply o.kind o.name o.type ys m = .ok y m') :
    g.Scope I a b (evaluated ++ [v]) (Function.update ρ v (some y)) := by
  have hv : v ∈ a.ops b := Array.mem_toList_iff.mp (by rw [hops]; simp)
  have hnew : v ∉ evaluated := by
    have hnodup := hwf.nodup b hb
    rw [hops] at hnodup
    exact fun hmem => (List.disjoint_of_nodup_append hnodup) hmem List.mem_cons_self
  have hnone := hscope.fresh hwf hloop hb hv hnew ho
  have hext (x : ValueId) (z : V) (hx : ρ x = some z) :
      Function.update ρ v (some y) x = some z := by
    rw [Function.update_of_ne (fun h => by rw [h, hnone] at hx; cases hx)]
    exact hx
  constructor
  · intro x z hx
    by_cases hxv : x = v
    · subst hxv
      exact .inr ⟨b, hb, hv, .inr ⟨rfl, .inl (by simp)⟩⟩
    · rw [Function.update_of_ne hxv] at hx
      refine (hscope.origin x z hx).imp_right ?_
      rintro ⟨c, hc, hmem, hcase⟩
      exact ⟨c, hc, hmem, hcase.imp_right (fun h => ⟨h.1, h.2.imp_left (List.mem_append_left _)⟩)⟩
  · intro x o' z ho' hx
    by_cases hxv : x = v
    · subst hxv
      rw [Function.update_self] at hx
      cases hx
      obtain rfl : o = o' := by injection ho.symm.trans ho'
      exact ⟨ys, m, m', mapM_look_of_extends hext hargs, happly⟩
    · rw [Function.update_of_ne hxv] at hx
      exact hscope.applied_of_extends hext ho' hx
  · intro x hx
    obtain ⟨z, hz⟩ := hscope.argument x hx
    exact ⟨z, hext x z hz⟩
  · intro d hd x hx hcase
    by_cases hxv : x = v
    · exact ⟨y, by rw [hxv, Function.update_self]⟩
    · obtain ⟨z, hz⟩ := hscope.defined d hd x hx
        (hcase.imp_right (Or.imp_left fun h => by simpa [hxv] using h))
      exact ⟨z, hext x z hz⟩

/-- What is no operation is passed over. -/
theorem Scope.skip (hwf : g.WellFormed a) (hb : b ∈ g.blocks a) (hv : v ∈ a.ops b)
    (hop : ∀ o, a.value v ≠ .op o) :
    g.Scope I a b (evaluated ++ [v]) ρ where
  origin x y hx := by
    refine (hscope.origin x y hx).imp_right ?_
    rintro ⟨c, hc, hmem, hcase⟩
    exact ⟨c, hc, hmem, hcase.imp_right (fun h => ⟨h.1, h.2.imp_left (List.mem_append_left _)⟩)⟩
  applied := hscope.applied
  argument := hscope.argument
  defined d hd x hx hcase := by
    refine hscope.defined d hd x hx (hcase.imp_right ?_)
    rintro (hmem | hphi)
    · rcases List.mem_append.mp hmem with hmem | hmem
      · exact .inl hmem
      · rw [List.mem_singleton.mp hmem]
        exact .inr ((hwf.computed b hb v hv).resolve_left (fun ⟨o, ho⟩ => hop o ho))
    · exact .inr hphi

theorem Scope.evalOps (hwf : g.WellFormed a) (hloop : g.LoopFree a) (hb : b ∈ g.blocks a)
    (hops : (a.ops b).toList = evaluated ++ after) (heval : I.evalOps a after ρ m = .ok ρ' m') :
    g.Scope I a b (a.ops b).toList ρ' := by
  induction after generalizing evaluated ρ m with
  | nil =>
    cases heval
    rwa [hops, List.append_nil]
  | cons v after ih =>
    have hnext : (a.ops b).toList = (evaluated ++ [v]) ++ after := by rw [hops]; simp
    rcases evalOps_cons_ok heval with
      ⟨o, ys, y, m₁, ho, hargs, happly, hrest⟩ | ⟨hop, hrest⟩
    · exact ih (hscope.evaluate hwf hloop hb hops ho hargs happly) hnext hrest
    · have hv : v ∈ a.ops b := Array.mem_toList_iff.mp (by rw [hops]; simp)
      exact ih (hscope.skip hwf hb hv hop) hnext hrest

end

section

variable (hscope : g.Scope I a b (a.ops b).toList ρ)
include hscope

/-- The phis of a block have no values before it is entered. -/
theorem Scope.enter_extends (hwf : g.WellFormed a) (hloop : g.LoopFree a) (hb : b ∈ g.blocks a)
    (hedge : a.Edge b c) (x : ValueId) (y : V) (hx : ρ x = some y) :
    I.enter a b c ρ x = some y := by
  have hc := mem_blocks_of_edge hb hedge
  rw [enter_of_not_phi]
  · exact hx
  · -- otherwise the run would have come through the block before
    rintro ⟨hmem, p, hp⟩
    rcases hscope.origin x y hx with harg | ⟨d, hd, hmem', hcase⟩
    · obtain ⟨n, t, hvalue⟩ := hwf.argument x harg
      cases hp.symm.trans hvalue
    · obtain rfl := hwf.once c hc d hd x hmem hmem'
      rcases hcase with hreach | ⟨rfl, -⟩
      · exact hloop c hc (hreach.tail hedge)
      · exact hloop c hc (.single hedge)

/-- At the end of a block everything in it and in its dominators has been computed. -/
theorem Scope.exists_value {d : BlockId} (hd : g.Dominates a d b) (hv : v ∈ a.ops d) :
    ∃ y, ρ v = some y := by
  refine hscope.defined d hd v hv ?_
  by_cases hdb : d = b
  · exact .inr (.inl (Array.mem_toList_iff.mpr (hdb ▸ hv)))
  · exact .inl hdb

/-- What can be used at the end of a block has a value there. -/
theorem Scope.exists_look (hwf : g.WellFormed a) (hv : g.Usable a b v) :
    ∃ y, I.look a ρ v = some y := by
  rcases hv with ⟨k, hk⟩ | harg | ⟨d, hd, hmem⟩
  · exact ⟨I.constant k, by simp [look, hk]⟩
  · obtain ⟨y, hy⟩ := hscope.argument v harg
    exact ⟨y, hscope.look_eq hwf hy⟩
  · obtain ⟨y, hy⟩ := hscope.exists_value hd hmem
    exact ⟨y, hscope.look_eq hwf hy⟩

theorem Scope.enter (hwf : g.WellFormed a) (hloop : g.LoopFree a) (hb : b ∈ g.blocks a)
    (hedge : a.Edge b c) : g.Scope I a c [] (I.enter a b c ρ) := by
  have hc := mem_blocks_of_edge hb hedge
  have hext := hscope.enter_extends hwf hloop hb hedge
  constructor
  · intro x y hx
    by_cases hphi : x ∈ a.ops c ∧ ∃ p, a.value x = .phi p
    · exact .inr ⟨c, hc, hphi.1, .inr ⟨rfl, .inr hphi.2⟩⟩
    · rw [enter_of_not_phi hphi] at hx
      refine (hscope.origin x y hx).imp_right ?_
      rintro ⟨d, hd, hmem, hreach | ⟨rfl, -⟩⟩
      · exact ⟨d, hd, hmem, .inl (hreach.tail hedge)⟩
      · exact ⟨d, hd, hmem, .inl (.single hedge)⟩
  · intro x o y ho hx
    rw [enter_of_not_phi (by simp [ho])] at hx
    exact hscope.applied_of_extends hext ho hx
  · intro x hx
    obtain ⟨y, hy⟩ := hscope.argument x hx
    exact ⟨y, hext x y hy⟩
  · intro d hd x hx hcase
    by_cases hdc : d = c
    · subst hdc
      obtain ⟨p, hp⟩ := (hcase.resolve_left (· rfl)).resolve_left (by simp)
      obtain ⟨w, hw, -, husable⟩ := hwf.entry d hc x hx p hp b hb hedge
      obtain ⟨y, hy⟩ := hscope.exists_look hwf husable
      exact ⟨y, by rw [enter_phi hx hp, hw, Option.bind_some, hy]⟩
    · obtain ⟨y, hy⟩ := hscope.exists_value (hd.of_edge hdc hedge) hx
      exact ⟨y, hext x y hy⟩

end

end Graph

end Jib
