import Mathlib.Data.List.Sort
import Jib.Proofs.Arena
import Jib.Proofs.Construction.Scope
import Jib.Proofs.Table

/-!
# Emitting operations

The builder adds values to an arena and operations to the block that it works on.  The operations
that it emits for a part of a body carry that part: evaluating them does to the memory what the part
does, fails where the part fails, and leaves every older value as it was.  All this is about the
arena at the end of the construction; of the values that are there only the entries of phis change
until then.
-/

namespace Jib

namespace Arena

/-- Values are added, and of the values that are there only the entries of phis change. -/
structure Grows (a a' : Arena) : Prop where
  size_le : a.values.size ≤ a'.values.size
  value_eq : ∀ v : Nat, v < a.values.size → (a.value v).isPhi = false → a'.value v = a.value v
  phi : ∀ v p, a.value v = .phi p →
    ∃ values, a'.value v = .phi { p with values := values } ∧ values.size = p.values.size

variable {a a' a'' : Arena} {v : Nat}

theorem Grows.refl (a : Arena) : a.Grows a :=
  ⟨le_rfl, fun _ _ _ => rfl, fun _ p hp => ⟨p.values, hp, rfl⟩⟩

theorem Grows.trans (h : a.Grows a') (h' : a'.Grows a'') : a.Grows a'' where
  size_le := h.size_le.trans h'.size_le
  value_eq v hv hphi := by
    have heq := h.value_eq v hv hphi
    rw [h'.value_eq v (hv.trans_le h.size_le) (by rw [heq, hphi]), heq]
  phi v p hp := by
    obtain ⟨values, hvalues, hsize⟩ := h.phi v p hp
    obtain ⟨values', hvalues', hsize'⟩ := h'.phi v _ hvalues
    exact ⟨values', hvalues', hsize'.trans hsize⟩

theorem Grows.const {c : Const} (h : a.Grows a') (hv : a.value v = .const c) :
    a'.value v = .const c := by
  rw [h.value_eq v (lt_size_of_value hv (by simp)) (by rw [hv]; rfl), hv]

theorem Grows.op {o : Operation} (h : a.Grows a') (hv : a.value v = .op o) :
    a'.value v = .op o := by
  rw [h.value_eq v (lt_size_of_value hv (by simp)) (by rw [hv]; rfl), hv]

theorem Grows.typeOf (h : a.Grows a') (hv : v < a.values.size) : a'.typeOf v = a.typeOf v := by
  rw [Arena.typeOf, Arena.typeOf]
  cases hphi : (a.value v).isPhi with
  | false => rw [h.value_eq v hv hphi]
  | true =>
    cases hvalue : a.value v with
    | phi p =>
      obtain ⟨values, hvalues, -⟩ := h.phi v p hvalue
      rw [hvalues]
      rfl
    | _ =>
      rw [hvalue] at hphi
      cases hphi

/-- Values are added, and those that are there stay as they are. -/
structure Adds (a a' : Arena) : Prop where
  size_le : a.values.size ≤ a'.values.size
  value_eq : ∀ v : Nat, v < a.values.size → a'.value v = a.value v

theorem Adds.refl (a : Arena) : a.Adds a := ⟨le_rfl, fun _ _ => rfl⟩

theorem Adds.trans (h : a.Adds a') (h' : a'.Adds a'') : a.Adds a'' :=
  ⟨h.size_le.trans h'.size_le, fun v hv =>
    (h'.value_eq v (hv.trans_le h.size_le)).trans (h.value_eq v hv)⟩

theorem adds_addValue (a : Arena) (x : Value) : a.Adds (a.addValue x).2 :=
  ⟨by rw [size_addValue]; omega, fun _ hv => value_addValue_of_lt hv⟩

theorem Adds.typeOf (h : a.Adds a') (hv : v < a.values.size) : a'.typeOf v = a.typeOf v := by
  rw [Arena.typeOf, Arena.typeOf, h.value_eq v hv]

theorem Adds.grows (h : a.Adds a') : a.Grows a' :=
  ⟨h.size_le, fun v hv _ => h.value_eq v hv, fun v p hp =>
    ⟨p.values, by rw [h.value_eq v (lt_size_of_value hp (by simp)), hp], rfl⟩⟩

/-- Blocks do not matter. -/
theorem Adds.of_values_eq (h : a.Adds a') (hvalues : a''.values = a'.values) : a.Adds a'' := by
  refine ⟨hvalues ▸ h.size_le, fun v hv => ?_⟩
  rw [value, hvalues, ← value, h.value_eq v hv]

theorem Grows.of_values_eq (h : a.Grows a') (hvalues : a''.values = a'.values) : a.Grows a'' :=
  h.trans ((Adds.refl a').of_values_eq hvalues).grows

end Arena

namespace Interpretation

variable {V E M β γ : Type} (I : Interpretation V E M) (a : Arena)

/-- A value of the graph has a given value; what has unit type is the unit value. -/
def Holds (ρ : Valuation V) (v : ValueId) (y : V) : Prop :=
  I.look a ρ v = some y ∧ (a.typeOf v = .unit → y = I.constant .unit)

/-- Evaluating new operations does what a computation does, and changes no value below `n`. -/
def Carries (n : Nat) (new : List ValueId) (ρ : Valuation V) (x : EStateM E M β)
    (result : β → Valuation V → Prop) : Prop :=
  ∀ m, match x m with
    | .ok y m' => ∃ ρ', I.evalOps a new ρ m = .ok ρ' m' ∧ (∀ v : Nat, v < n → ρ' v = ρ v) ∧
      result y ρ'
    | .error e m' => I.evalOps a new ρ m = .error e m'

variable {I a} {n n' : Nat} {new new' : List ValueId} {ρ ρ' : Valuation V} {v : Nat} {y : V}
    {c : Const}
  {x : EStateM E M β} {result : β → Valuation V → Prop} {result' : γ → Valuation V → Prop}

theorem evalOps_append (new new' : List ValueId) (ρ : Valuation V) :
    I.evalOps a (new ++ new') ρ = (do I.evalOps a new' (← I.evalOps a new ρ)) := by
  induction new generalizing ρ with
  | nil => rfl
  | cons v new ih =>
    rw [List.cons_append, evalOps, evalOps]
    cases a.value v with
    | op o =>
      dsimp only
      cases o.args.toList.mapM (I.look a ρ) with
      | none => rfl
      | some ys =>
        simp only [bind_assoc]
        exact bind_congr fun y => ih _
    | _ => exact ih ρ

theorem Carries.pure {y : β} (hresult : result y ρ) :
    I.Carries a n [] ρ (pure y) result :=
  fun _ => ⟨ρ, rfl, fun _ _ => rfl, hresult⟩

section

variable (hx : I.Carries a n new ρ x result)
include hx

theorem Carries.run_ok {m m' : M} {y : β} (hrun : x m = .ok y m') :
    ∃ ρ', I.evalOps a new ρ m = .ok ρ' m' ∧ (∀ v : Nat, v < n → ρ' v = ρ v) ∧ result y ρ' := by
  have hmatch := hx m
  rwa [hrun] at hmatch

theorem Carries.run_error {m m' : M} {e : E} (hrun : x m = .error e m') :
    I.evalOps a new ρ m = .error e m' := by
  have hmatch := hx m
  rwa [hrun] at hmatch

theorem Carries.bind {g : β → EStateM E M γ} (hle : n ≤ n')
    (hg : ∀ y ρ', (∀ v : Nat, v < n → ρ' v = ρ v) → result y ρ' →
      I.Carries a n' new' ρ' (g y) result') :
    I.Carries a n (new ++ new') ρ (x >>= g) result' := by
  intro m
  rw [evalOps_append]
  cases hrun : x m with
  | error e m' =>
    rw [bind_error hrun, bind_error (hx.run_error hrun)]
  | ok y m' =>
    obtain ⟨ρ', heval, hsame, hresult⟩ := hx.run_ok hrun
    rw [bind_ok hrun, bind_ok heval]
    have hsecond := hg y ρ' hsame hresult
    cases hrun' : g y m' with
    | error e m'' => exact hsecond.run_error hrun'
    | ok z m'' =>
      obtain ⟨ρ'', heval', hsame', hresult'⟩ := hsecond.run_ok hrun'
      exact ⟨ρ'', heval', fun v hv => (hsame' v (by omega)).trans (hsame v hv), hresult'⟩

theorem Carries.mono {result' : β → Valuation V → Prop}
    (himp : ∀ y ρ', (∀ v : Nat, v < n → ρ' v = ρ v) → result y ρ' → result' y ρ') :
    I.Carries a n new ρ x result' := by
  intro m
  cases hrun : x m with
  | error e m' => exact hx.run_error hrun
  | ok y m' =>
    obtain ⟨ρ', heval, hsame, hresult⟩ := hx.run_ok hrun
    exact ⟨ρ', heval, hsame, himp y ρ' hsame hresult⟩

theorem Carries.map (g : β → γ)
    (himp : ∀ y ρ', (∀ v : Nat, v < n → ρ' v = ρ v) → result y ρ' → result' (g y) ρ') :
    I.Carries a n new ρ (do return g (← x)) result' := by
  have hbind : I.Carries a n (new ++ []) ρ (x >>= fun y => Pure.pure (g y)) result' :=
    hx.bind le_rfl fun y ρ' hsame hresult => .pure (himp y ρ' hsame hresult)
  rwa [List.append_nil] at hbind

end

theorem look_const (hvalue : a.value v = .const c) (ρ : Valuation V) :
    I.look a ρ v = some (I.constant c) := by
  rw [look, hvalue]

theorem holds_const (hvalue : a.value v = .const c) (ρ : Valuation V) :
    I.Holds a ρ v (I.constant c) := by
  refine ⟨look_const hvalue ρ, fun htype => I.constant_unit c ?_⟩
  rw [Arena.typeOf, hvalue] at htype
  exact htype

theorem Holds.of_same (hholds : I.Holds a ρ v y) (hsame : ∀ w : Nat, w < n → ρ' w = ρ w)
    (hv : v < n) : I.Holds a ρ' v y := by
  refine ⟨?_, hholds.2⟩
  rw [← hholds.1, look, look, hsame v hv]

theorem mapM_look {vs : List ValueId} {ys : List V} (hholds : List.Forall₂ (I.Holds a ρ) vs ys) :
    vs.mapM (I.look a ρ) = some ys := by
  induction hholds with
  | nil => rfl
  | cons hv _ ih =>
    rw [List.mapM_cons, hv.1, ih]
    rfl

theorem Carries.op {o : Operation} {ys : List V} (hvalue : a.value v = .op o) (hv : n ≤ v)
    (hargs : List.Forall₂ (I.Holds a ρ) o.args.toList ys) :
    I.Carries a n [v] ρ (I.apply o.kind o.name o.type ys) (fun y ρ' => I.Holds a ρ' v y) := by
  intro m
  have heval : I.evalOps a [v] ρ =
      (do return Function.update ρ v (some (← I.apply o.kind o.name o.type ys))) := by
    rw [evalOps, hvalue]
    dsimp only
    rw [mapM_look hargs]
    rfl
  rw [heval, bind_run]
  cases hrun : I.apply o.kind o.name o.type ys m with
  | error e m' => rfl
  | ok y m' =>
    refine ⟨_, rfl, fun w hw => Function.update_of_ne (show w ≠ v by omega) _ _, ?_,
      fun htype => ?_⟩
    · rw [look, hvalue]
      exact Function.update_self _ _ _
    · rw [Arena.typeOf, hvalue] at htype
      rw [show o.type = .unit from htype] at hrun
      exact I.apply_unit _ _ _ _ _ _ hrun

end Interpretation

/-! ### Emitting values -/

/-- A computation of the builder that emits operations. -/
structure Emission {α : Type} (x : BuildM α) (s : BuildState) (r : α) (s' : BuildState)
    (new : List ValueId) : Prop where
  run : x s = .ok r s'
  frame : s' = { s with arena := s'.arena, vars := s'.vars, ops := s'.ops }
  ops : s'.ops.toList = s.ops.toList ++ new
  adds : s.arena.Adds s'.arena
  blocks : s'.arena.blocks = s.arena.blocks
  fresh : ∀ v ∈ new, s.arena.values.size ≤ v

namespace Emission

variable {α β : Type} {x : BuildM α} {r : α} {s s' s'' : BuildState} {new new' : List ValueId}

theorem grows (h : Emission x s r s' new) : s.arena.Grows s'.arena :=
  h.adds.grows

theorem pure (r : α) (s : BuildState) : Emission (Pure.pure r) s r s [] :=
  ⟨rfl, rfl, by simp, .refl _, rfl, by simp⟩

theorem bind {g : α → BuildM β} {r' : β}
    (hx : Emission x s r s' new) (hg : Emission (g r) s' r' s'' new') :
    Emission (x >>= g) s r' s'' (new ++ new') where
  run := by rw [bind_ok hx.run, hg.run]
  frame := by
    refine hg.frame.trans ?_
    rw [hx.frame]
  ops := by rw [hg.ops, hx.ops, List.append_assoc]
  adds := hx.adds.trans hg.adds
  blocks := hg.blocks.trans hx.blocks
  fresh v hv := by
    rcases List.mem_append.mp hv with hv | hv
    · exact hx.fresh v hv
    · exact hx.adds.size_le.trans (hg.fresh v hv)

theorem map (hx : Emission x s r s' new) (g : α → β) :
    Emission (do return g (← x)) s (g r) s' new := by
  have hbind := hx.bind (g := fun a => Pure.pure (g a)) (pure (g r) s')
  rwa [List.append_nil] at hbind

theorem typeOf (v : ValueId) (s : BuildState) :
    Emission (BuildM.typeOf v) s (s.arena.typeOf v) s [] :=
  ⟨rfl, rfl, by simp, .refl _, rfl, by simp⟩

theorem push (x : Value) (s : BuildState) :
    Emission (BuildM.push x) s s.arena.values.size
      { s with arena := (s.arena.addValue x).2, ops := s.ops.push s.arena.values.size }
      [s.arena.values.size] :=
  ⟨rfl, rfl, by simp, Arena.adds_addValue _ _, rfl, by simp⟩

theorem newValue (x : Value) (s : BuildState) :
    Emission (BuildM.onArena (GraphM.newValue x)) s s.arena.values.size
      { s with arena := (s.arena.addValue x).2 } [] :=
  ⟨rfl, rfl, by simp, Arena.adds_addValue _ _, rfl, by simp⟩

end Emission

section Emits

variable {V E M : Type} (I : Interpretation V E M)

/-- The builder emits a value of a given type that carries a computation on the values of
arguments. -/
def Applies (x : BuildM ValueId) (s : BuildState) (type : Ty) (args : List ValueId)
    (prog : List V → EStateM E M V) : Prop :=
  ∃ v s' new, Emission x s v s' new ∧ s'.vars = s.vars ∧ v < s'.arena.values.size ∧
    s'.arena.typeOf v = type ∧
    ∀ a, s'.arena.Grows a → ∀ ρ ys, List.Forall₂ (I.Holds a ρ) args ys →
      I.Carries a s.arena.values.size new ρ (prog ys) (fun y ρ' => I.Holds a ρ' v y)

/-- The builder adds an operation that carries its own application. -/
theorem push_emits (o : Operation) (s : BuildState) :
    Applies I (BuildM.push (.op o)) s o.type o.args.toList (I.apply o.kind o.name o.type) := by
  have hvalue := Arena.value_addValue_self s.arena (.op o)
  refine ⟨_, _, _, Emission.push (.op o) s, rfl, by simp, ?_, fun a ha ρ ys hargs => ?_⟩
  · rw [Arena.typeOf, hvalue]
    rfl
  · exact .op (ha.op hvalue) le_rfl hargs

/-- The same for an operation whose value, if it has unit type, is the unit constant. -/
theorem addOp_emits (kind : OpKind) (name : String) (args : List ValueId) (type : Ty)
    (pos hint : Option String) (s : BuildState)
    (hunit : s.arena.value Arena.unitId = .const .unit) :
    Applies I (BuildM.addOp kind name args type pos hint) s type args (I.apply kind name type) := by
  obtain ⟨v, s', new, hpush, hvars, hv, htype, hcarries⟩ :=
    push_emits I ⟨kind, name, args.toArray, type, pos, hint⟩ s
  have hadd : Emission (BuildM.addOp kind name args type pos hint) s
      (if type == .unit then Arena.unitId else v) s' new := hpush.map _
  cases hbeq : type == Ty.unit with
    rw [hbeq] at hadd
  | false => exact ⟨v, s', new, hadd, hvars, hv, htype, hcarries⟩
  | true =>
    have heq : type = .unit := eq_of_beq hbeq
    have hunit' := hpush.grows.const hunit
    refine ⟨Arena.unitId, s', new, hadd, hvars, Arena.lt_size_of_value hunit' (by simp), ?_,
      fun a ha ρ ys hargs => ?_⟩
    · rw [Arena.typeOf, hunit', heq]
      rfl
    · refine (hcarries a ha ρ ys hargs).mono fun y ρ' _ hy => ?_
      rw [hy.2 (by rw [ha.typeOf hv, htype, heq])]
      exact Interpretation.holds_const (ha.const hunit') ρ'

end Emits

end Jib
