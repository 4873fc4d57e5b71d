import Jib.Proofs.Construction.Emission

/-!
# Building expressions

The operations emitted for an expression carry its evaluation, provided that the variables that it
mentions have values.
-/

namespace Jib

open Jib.BuildM Jib.Interpretation

/-- The values that stand in every arena, and those of the constants that are known. -/
structure Arena.Standard (known : String → Option Const) (constants : Table String ValueId)
    (a : Arena) : Prop where
  unit : a.value Arena.unitId = .const .unit
  bool : ∀ b, a.value (Arena.boolId b) = .const (.bool b)
  constant : ∀ n v, constants.get? n = some v → ∃ c, known n = some c ∧ a.value v = .const c
  unknown : ∀ n, constants.get? n = none → known n = none

/-- A table of variables in which those that are declared have values of their types. -/
structure Ready (f : FunctionBody) (types : String → Ty) (declared : String → Prop) (a : Arena)
    (vars : VarTable) : Prop where
  valid : vars.Valid
  isLocal : ∀ x v, vars.get? x = some v → x ∈ f.locals
  value : ∀ x, declared x →
    ∃ v, vars.get? x = some (some v) ∧ v < a.values.size ∧ a.typeOf v = types x

/-- The declared variables have the same values in a store and in a graph. -/
structure Agrees {V E M : Type} (I : Interpretation V E M) (f : FunctionBody)
    (declared : String → Prop) (a : Arena) (vars : VarTable) (σ : Store V) (ρ : Valuation V) :
    Prop where
  value : ∀ x, declared x →
    ∃ v y, vars.get? x = some (some v) ∧ σ x = some y ∧ I.Holds a ρ v y
  outside : ∀ x, x ∉ f.locals → σ x = none

variable {V E M : Type} {I : Interpretation V E M} {f : FunctionBody} {types : String → Ty}
variable {known : String → Option Const} {constants : Table String ValueId}
variable {declared declared' : String → Prop} {a a' : Arena} {vars : VarTable} {s : BuildState}
variable {ts : List Ty} {x : BuildM ValueId} {t : Ty} {prog : Store V → EStateM E M V}
variable {vs : List ValueId} {n : String} {values : List Expr} {e : Expr}
variable {fields : List String} {es : List Expr}

theorem Arena.Standard.grows (h : a.Standard known constants) (hgrows : a.Grows a') :
    a'.Standard known constants where
  unit := hgrows.const h.unit
  bool b := hgrows.const (h.bool b)
  constant n v hv := by
    obtain ⟨c, hknown, hvalue⟩ := h.constant n v hv
    exact ⟨c, hknown, hgrows.const hvalue⟩
  unknown := h.unknown

theorem Ready.grows (h : Ready f types declared a vars) (hgrows : a.Grows a') :
    Ready f types declared a' vars where
  valid := h.valid
  isLocal := h.isLocal
  value x hx := by
    obtain ⟨v, hget, hv, htype⟩ := h.value x hx
    exact ⟨v, hget, hv.trans_le hgrows.size_le, (hgrows.typeOf hv).trans htype⟩

theorem Ready.get?_eq_none (h : Ready f types declared a vars) (hn : n ∉ f.locals) :
    vars.get? n = none :=
  Option.eq_none_iff_forall_ne_some.mpr fun v hv => hn (h.isLocal n v hv)

theorem Ready.mono (h : Ready f types declared a vars) (himp : ∀ x, declared' x → declared x) :
    Ready f types declared' a vars :=
  ⟨h.valid, h.isLocal, fun x hx => h.value x (himp x hx)⟩

theorem Agrees.mono {σ : Store V} {ρ : Valuation V} (h : Agrees I f declared a vars σ ρ)
    (himp : ∀ x, declared' x → declared x) : Agrees I f declared' a vars σ ρ :=
  ⟨fun x hx => h.value x (himp x hx), h.outside⟩

/-- Newer values do not matter to a table of variables. -/
theorem Agrees.of_same {σ : Store V} {ρ ρ' : Valuation V} (h : Agrees I f declared a vars σ ρ)
    (hready : Ready f types declared a' vars)
    (hsame : ∀ v : Nat, v < a'.values.size → ρ' v = ρ v) : Agrees I f declared a vars σ ρ' := by
  refine ⟨fun x hx => ?_, h.outside⟩
  obtain ⟨v, y, hget, hstore, hholds⟩ := h.value x hx
  obtain ⟨v', hget', hv, -⟩ := hready.value x hx
  cases hget.symm.trans hget'
  exact ⟨v, y, hget, hstore, hholds.of_same hsame hv⟩

section Emits

variable (I f declared)

def EmitsValue (x : BuildM ValueId) (s : BuildState) (t : Ty) (prog : Store V → EStateM E M V) :
    Prop :=
  ∃ v s' new, Emission x s v s' new ∧ s'.vars = s.vars ∧ v < s'.arena.values.size ∧
    s'.arena.typeOf v = t ∧
    ∀ a, s'.arena.Grows a → ∀ σ ρ, Agrees I f declared a s.vars σ ρ →
      I.Carries a s.arena.values.size new ρ (prog σ) (fun y ρ' => I.Holds a ρ' v y)

def EmitsValues (x : BuildM (List ValueId)) (s : BuildState) (ts : List Ty)
    (prog : Store V → EStateM E M (List V)) : Prop :=
  ∃ vs s' new, Emission x s vs s' new ∧ s'.vars = s.vars ∧
    List.Forall₂ (fun v t => v < s'.arena.values.size ∧ s'.arena.typeOf v = t) vs ts ∧
    ∀ a, s'.arena.Grows a → ∀ σ ρ, Agrees I f declared a s.vars σ ρ →
      I.Carries a s.arena.values.size new ρ (prog σ)
        (fun ys ρ' => List.Forall₂ (I.Holds a ρ') vs ys)

end Emits

theorem Emission.congr {α : Type} {x y : BuildM α} {r : α} {s' : BuildState} {new : List ValueId}
    (h : Emission x s r s' new) (heq : y s = x s) : Emission y s r s' new :=
  { h with run := heq.trans h.run }

/-- Operations on emitted values carry the same operations on what the values carry. -/
theorem EmitsValues.bind {x : BuildM (List ValueId)} {prog : Store V → EStateM E M (List V)}
    {g : List ValueId → BuildM ValueId} {k : List V → EStateM E M V}
    (hx : EmitsValues I f declared x s ts prog)
    (hg : ∀ vs s', s.arena.Grows s'.arena → vs.length = ts.length → Applies I (g vs) s' t vs k) :
    EmitsValue I f declared (do g (← x)) s t (fun σ => do k (← prog σ)) := by
  obtain ⟨vs, s₁, new₁, hem₁, hvars₁, hvs, hcarries₁⟩ := hx
  obtain ⟨v, s₂, new₂, hem₂, hvars₂, hv, htype, hcarries₂⟩ := hg vs s₁ hem₁.grows hvs.length_eq
  refine ⟨v, s₂, _, hem₁.bind hem₂, hvars₂.trans hvars₁, hv, htype, fun a ha σ ρ hagrees => ?_⟩
  refine (hcarries₁ a (hem₂.grows.trans ha) σ ρ hagrees).bind hem₁.grows.size_le
    fun ys ρ' _ hholds => ?_
  exact hcarries₂ a ha ρ' ys hholds

theorem EmitsValues.addOp {x : BuildM (List ValueId)} {prog : Store V → EStateM E M (List V)}
    (hx : EmitsValues I f declared x s ts prog) (hstandard : s.arena.Standard known constants)
    (kind : OpKind) (name : String) (t : Ty) (pos hint : Option String) :
    EmitsValue I f declared (do addOp kind name (← x) t pos hint) s t
      (fun σ => do I.apply kind name t (← prog σ)) :=
  hx.bind fun vs s' hgrows _ =>
    addOp_emits I kind name vs t pos hint s' (hgrows.const hstandard.unit)

theorem EmitsValue.singleton (hx : EmitsValue I f declared x s t prog) :
    EmitsValues I f declared (do return [← x]) s [t] (fun σ => do return [← prog σ]) := by
  obtain ⟨v, s₁, new₁, hem₁, hvars₁, hv, htype, hcarries₁⟩ := hx
  refine ⟨[v], s₁, new₁, hem₁.map _, hvars₁, .cons ⟨hv, htype⟩ .nil, fun a ha σ ρ hagrees => ?_⟩
  exact (hcarries₁ a ha σ ρ hagrees).map _ fun y ρ' _ hholds => .cons hholds .nil

/-- The same for operations whose value is never the unit constant. -/
theorem EmitsValues.push {x : BuildM (List ValueId)} {prog : Store V → EStateM E M (List V)}
    (hx : EmitsValues I f declared x s ts prog) (kind : OpKind) (name : String) (t : Ty)
    (pos hint : Option String) :
    EmitsValue I f declared (do push (.op ⟨kind, name, (← x).toArray, t, pos, hint⟩)) s t
      (fun σ => do I.apply kind name t (← prog σ)) :=
  hx.bind fun vs s' _ _ => push_emits I ⟨kind, name, vs.toArray, t, pos, hint⟩ s'

theorem EmitsValue.addOp (hx : EmitsValue I f declared x s t prog)
    (hstandard : s.arena.Standard known constants) (kind : OpKind) (name : String) (t' : Ty)
    (pos hint : Option String) :
    EmitsValue I f declared (do addOp kind name [← x] t' pos hint) s t'
      (fun σ => do I.apply kind name t' [← prog σ]) := by
  simpa only [bind_assoc, pure_bind] using hx.singleton.addOp hstandard kind name t' pos hint

theorem EmitsValue.push (hx : EmitsValue I f declared x s t prog) (kind : OpKind) (name : String)
    (t' : Ty) (pos hint : Option String) :
    EmitsValue I f declared (do push (.op ⟨kind, name, #[← x], t', pos, hint⟩)) s t'
      (fun σ => do I.apply kind name t' [← prog σ]) := by
  simpa only [bind_assoc, pure_bind] using hx.singleton.push kind name t' pos hint

/-! ### Conversions -/

/-- A conversion of a value carries the conversion of what the value holds. -/
theorem converted_emits (I : Interpretation V E M) (hstandard : s.arena.Standard known constants)
    {v : Nat} (hv : v < s.arena.values.size) (target : Ty) (pos : Option String) :
    ∃ w s' new, Emission (converted v target pos) s w s' new ∧ s'.vars = s.vars ∧
      w < s'.arena.values.size ∧ s'.arena.typeOf w = target ∧
      ∀ a, s'.arena.Grows a → ∀ ρ y, I.Holds a ρ v y →
        I.Carries a s.arena.values.size new ρ (I.convert (s.arena.typeOf v) target y)
          (fun z ρ' => I.Holds a ρ' w z) := by
  have hrun : converted v target pos s =
      (if s.arena.typeOf v == target then pure v
        else addOp .cast "$cast" [v] target pos none) s := by
    rw [converted, bind_ok (show typeOf v s = .ok (s.arena.typeOf v) s from rfl)]
  by_cases htype : s.arena.typeOf v = target
  · rw [if_pos (by simp [htype])] at hrun
    refine ⟨v, s, [], (Emission.pure v s).congr hrun, rfl, hv, htype, fun a _ ρ y hy => ?_⟩
    rw [convert, if_pos htype]
    exact .pure hy
  · rw [if_neg (by simp [htype])] at hrun
    obtain ⟨w, s', new, hem, hvars, hw, htarget, hcarries⟩ :=
      addOp_emits I .cast "$cast" [v] target pos none s hstandard.unit
    refine ⟨w, s', new, hem.congr hrun, hvars, hw, htarget, fun a ha ρ y hy => ?_⟩
    rw [convert, if_neg htype]
    exact hcarries a ha ρ [y] (.cons hy .nil)

theorem fieldType_eq {u : Ty} {name : String} (hfield : t.field? name = some u) :
    fieldType t name = pure u := by
  cases t with
  | struct => simp only [fieldType, hfield]
  | _ => cases hfield

theorem forall₂_of_grows (hgrows : a.Grows a')
    (hvs : List.Forall₂ (fun (v : Nat) t => v < a.values.size ∧ a.typeOf v = t) vs ts) :
    List.Forall₂ (fun (v : Nat) t => v < a'.values.size ∧ a'.typeOf v = t) vs ts :=
  hvs.imp fun _ _ hv => ⟨hv.1.trans_le hgrows.size_le, (hgrows.typeOf hv.1).trans hv.2⟩

theorem forall₂_of_same {ys : List V} {ρ ρ' : Valuation V}
    (hvs : List.Forall₂ (fun (v : Nat) t => v < a'.values.size ∧ a'.typeOf v = t) vs ts)
    (hholds : List.Forall₂ (I.Holds a ρ) vs ys)
    (hsame : ∀ v : Nat, v < a'.values.size → ρ' v = ρ v) :
    List.Forall₂ (I.Holds a ρ') vs ys := by
  induction hholds generalizing ts with
  | nil => exact .nil
  | cons hy _ ih =>
    cases hvs with
    | cons hv hvs => exact .cons (hy.of_same hsame hv.1) (ih hvs)

/-- The conversions of the entries of a structure. -/
theorem convertedFields_emits (I : Interpretation V E M)
    (hfields : ∀ name ∈ fields, (t.field? name).isSome) {sources : List Ty}
    (hstandard : s.arena.Standard known constants)
    (hvs : List.Forall₂ (fun (v : Nat) t => v < s.arena.values.size ∧ s.arena.typeOf v = t) vs
      sources) :
    ∃ ws s' new, Emission (convertedFields t fields vs) s ws s' new ∧ s'.vars = s.vars ∧
      ∀ a, s'.arena.Grows a → ∀ ρ ys, List.Forall₂ (I.Holds a ρ) vs ys →
        I.Carries a s.arena.values.size new ρ (I.convertFields t fields (sources.zip ys))
          (fun zs ρ' => List.Forall₂ (I.Holds a ρ') ws zs) := by
  induction fields generalizing vs sources s with
  | nil =>
    refine ⟨[], s, [], ?_, rfl, fun a _ ρ ys _ => .pure .nil⟩
    exact Emission.pure [] s
  | cons name fields ih =>
    cases hvs with
    | nil =>
      refine ⟨[], s, [], ?_, rfl, fun a _ ρ ys hys => ?_⟩
      · exact Emission.pure [] s
      · cases hys
        exact .pure .nil
    | @cons v source vs sources hv hvs =>
      obtain ⟨target, htarget⟩ := Option.isSome_iff_exists.mp (hfields name (by simp))
      obtain ⟨w, s₁, new₁, hem₁, hvars₁, hw, -, hcarries₁⟩ :=
        converted_emits I hstandard hv.1 target none
      obtain ⟨ws, s₂, new₂, hem₂, hvars₂, hcarries₂⟩ :=
        ih (fun n hn => hfields n (by simp [hn])) (hstandard.grows hem₁.grows)
          (forall₂_of_grows hem₁.grows hvs)
      refine ⟨w :: ws, s₂, new₁ ++ new₂, ?_, hvars₂.trans hvars₁, fun a ha ρ ys hys => ?_⟩
      · rw [convertedFields, fieldType_eq htarget, pure_bind]
        exact hem₁.bind (hem₂.map (w :: ·))
      · cases hys with
        | @cons _ y _ ys hy hys =>
          rw [List.zip_cons_cons, convertFields, htarget]
          have hfirst := hcarries₁ a (hem₂.grows.trans ha) ρ y hy
          rw [hv.2] at hfirst
          refine hfirst.bind hem₁.grows.size_le fun z ρ' hsame hz => ?_
          refine (hcarries₂ a ha ρ' ys (forall₂_of_same hvs hys hsame)).map _
            fun zs ρ'' hsame' hzs => ?_
          exact .cons (hz.of_same hsame' hw) hzs

/-! ### Expressions -/

variable {src : BuildSource}

section Expressible

variable (I f types known declared)

/-- An expression is built wherever its variables have values. -/
def Expressible (src : BuildSource) (e : Expr) : Prop :=
  (∀ n ∈ e.names, n ∈ f.locals → declared n) →
    ∀ s : BuildState, s.arena.Standard known src.constants → Ready f types declared s.arena s.vars →
      EmitsValue I f declared (expr src e) s (slot e) (fun σ => I.evalExpr known σ e)

end Expressible

theorem exprs_emits (hes : ∀ e ∈ es, Expressible I f types known declared src e)
    (hnames : ∀ n ∈ Expr.namesAll es, n ∈ f.locals → declared n)
    (hstandard : s.arena.Standard known src.constants)
    (hready : Ready f types declared s.arena s.vars) :
    EmitsValues I f declared (exprs src es) s (es.map slot) (fun σ => I.evalExprs known σ es) := by
  induction es generalizing s with
  | nil => exact ⟨[], s, [], Emission.pure [] s, rfl, .nil, fun a _ σ ρ _ => .pure .nil⟩
  | cons e es ih =>
    have hnames' : ∀ n ∈ e.names ++ Expr.namesAll es, n ∈ f.locals → declared n := hnames
    obtain ⟨v, s₁, new₁, hem₁, hvars₁, hv, htype, hcarries₁⟩ :=
      hes e (by simp) (fun n hn => hnames' n (by simp [hn])) s hstandard hready
    obtain ⟨vs, s₂, new₂, hem₂, hvars₂, hvs, hcarries₂⟩ :=
      ih (fun e' he' => hes e' (by simp [he'])) (fun n hn => hnames' n (by simp [hn]))
        (hstandard.grows hem₁.grows) (hvars₁ ▸ hready.grows hem₁.grows)
    refine ⟨v :: vs, s₂, new₁ ++ new₂, hem₁.bind (hem₂.map (v :: ·)), hvars₂.trans hvars₁,
      .cons ⟨hv.trans_le hem₂.grows.size_le, (hem₂.grows.typeOf hv).trans htype⟩ hvs,
      fun a ha σ ρ hagrees => ?_⟩
    refine (hcarries₁ a (hem₂.grows.trans ha) σ ρ hagrees).bind hem₁.grows.size_le
      fun y ρ' hsame hy => ?_
    have hagrees' : Agrees I f declared a s₁.vars σ ρ' := hvars₁ ▸ hagrees.of_same hready hsame
    exact (hcarries₂ a ha σ ρ' hagrees').map _ fun ys ρ'' hsame' hys =>
      .cons (hy.of_same hsame' hv) hys

theorem newConst_emits (c : Const) (s : BuildState) :
    EmitsValue I f declared (newConst c) s c.type (fun _ => pure (I.constant c)) := by
  have hvalue := Arena.value_addValue_self s.arena (.const c)
  refine ⟨_, _, _, Emission.newValue (.const c) s, rfl, by simp, ?_, fun a ha σ ρ _ => ?_⟩
  · rw [Arena.typeOf, hvalue]
    rfl
  · exact .pure (holds_const (ha.const hvalue) ρ)

theorem const_emits {v : Nat} {c : Const} (hvalue : s.arena.value v = .const c) :
    EmitsValue I f declared (pure v) s c.type (fun _ => pure (I.constant c)) := by
  refine ⟨v, s, [], Emission.pure v s, rfl, Arena.lt_size_of_value hvalue (by simp), ?_,
    fun a ha σ ρ _ => .pure (holds_const (ha.const hvalue) ρ)⟩
  rw [Arena.typeOf, hvalue]
  rfl

theorem named_emits (hstandard : s.arena.Standard known src.constants)
    (htype : ∀ c, constantNamed? n = some c ∨
      constantNamed? n = none ∧ known n = some c → t = c.type) :
    EmitsValue I f declared (named src n t) s t (fun _ => I.evalName known n t) := by
  unfold named evalName
  cases hconstant : constantNamed? n with
  | some c =>
    rw [htype c (.inl hconstant)]
    cases c with
    | bool b => exact const_emits (hstandard.bool b)
    | _ => exact newConst_emits _ s
  | none =>
    cases hget : src.constants.get? n with
    | some v =>
      obtain ⟨c, hknown, hvalue⟩ := hstandard.constant n v hget
      rw [hknown, htype c (.inr ⟨hconstant, hknown⟩)]
      exact const_emits hvalue
    | none =>
      rw [hstandard.unknown n hget]
      dsimp only
      split
      · exact newConst_emits (.enum n t) s
      · obtain ⟨v, s', new, hem, hvars, hv, htype, hcarries⟩ :=
          push_emits I ⟨.globalRead, n, #[], t, none, none⟩ s
        exact ⟨v, s', new, hem, hvars, hv, htype, fun a ha σ ρ _ => hcarries a ha ρ [] .nil⟩

theorem exprAt_eq {i : Nat} (hentry : values[i]? = some e) :
    exprAt src i values = expr src e := by
  induction values generalizing i with
  | nil => cases hentry
  | cons e' values ih =>
    cases i with
    | zero =>
      cases hentry
      rw [exprAt]
    | succ i =>
      exact ih hentry

theorem evalAt_eq {i : Nat} (hentry : values[i]? = some e) (σ : Store V) :
    I.evalAt known σ i values = I.evalExpr known σ e := by
  induction values generalizing i with
  | nil => cases hentry
  | cons e' values ih =>
    cases i with
    | zero =>
      cases hentry
      rw [evalAt]
    | succ i =>
      exact ih hentry

theorem mem_namesAll (he : e ∈ es) (hn : n ∈ e.names) : n ∈ Expr.namesAll es := by
  induction es with
  | nil => cases he
  | cons e' es ih =>
    rw [Expr.namesAll, List.mem_append]
    rcases List.mem_cons.mp he with rfl | he
    · exact .inl hn
    · exact .inr (ih he)

theorem get_run (s : BuildState) : (get : BuildM BuildState) s = .ok s s := rfl

theorem modify_run (g : BuildState → BuildState) (s : BuildState) :
    (modify g : BuildM Unit) s = .ok () (g s) := rfl

theorem local_emits (hready : Ready f types declared s.arena s.vars) (hn : declared n)
    (t : Option Ty) : EmitsValue I f declared (expr src (.var n t)) s (types n)
      (fun σ => I.evalExpr known σ (.var n t)) := by
  obtain ⟨v, hget, hv, htype⟩ := hready.value n hn
  have hrun : expr src (.var n t) s = .ok v s := by
    rw [expr, bind_ok (get_run s), hget]
    rfl
  refine ⟨v, s, [], (Emission.pure v s).congr hrun, rfl, hv, htype, fun a _ σ ρ hagrees => ?_⟩
  obtain ⟨v', y, hget', hstore, hholds⟩ := hagrees.value n hn
  cases hget.symm.trans hget'
  simp only [evalExpr, hstore]
  exact .pure hholds

/-- A name that is no variable carries what the name stands for. -/
theorem global_emits (hstandard : s.arena.Standard known src.constants)
    (hready : Ready f types declared s.arena s.vars) {t : Option Ty} (hlocal : n ∉ f.locals)
    (htype : ∀ c, constantNamed? n = some c ∨
      constantNamed? n = none ∧ known n = some c → t.getD .unknown = c.type) :
    EmitsValue I f declared (expr src (.var n t)) s (t.getD .unknown)
      (fun σ => I.evalExpr known σ (.var n t)) := by
  have hrun : expr src (.var n t) s = named src n (t.getD .unknown) s := by
    rw [expr, bind_ok (get_run s), hready.get?_eq_none hlocal]
  have hnamed : EmitsValue I f declared (named src n (t.getD .unknown)) s (t.getD .unknown)
      (fun _ => I.evalName known n (t.getD .unknown)) := named_emits hstandard htype
  obtain ⟨v, s', new, hem, hvars, hv, htype', hcarries⟩ := hnamed
  refine ⟨v, s', new, hem.congr hrun, hvars, hv, htype', fun a ha σ ρ hagrees => ?_⟩
  simp only [evalExpr, hagrees.outside n hlocal]
  exact hcarries a ha σ ρ hagrees

theorem EmitsValues.struct {m : String} {entries : List Ty} {tuple : Bool}
    (hvalues : EmitsValues I f declared (exprs src values) s (values.map slot)
      (fun σ => I.evalExprs known σ values)) (hstandard : s.arena.Standard known constants)
    (hfields : ∀ name ∈ fields, ((Ty.struct m fields entries tuple).field? name).isSome) :
    EmitsValue I f declared
      (expr src (.struct n fields values (some (.struct m fields entries tuple)))) s
      (.struct m fields entries tuple)
      (fun σ => I.evalExpr known σ
        (.struct n fields values (some (.struct m fields entries tuple)))) := by
  have hcheck : check (fields == fields) = pure () := by rw [beq_self_eq_true]; rfl
  obtain ⟨vs, s₁, new₁, hem₁, hvars₁, hvs, hcarries₁⟩ := hvalues
  obtain ⟨ws, s₂, new₂, hem₂, hvars₂, hcarries₂⟩ :=
    convertedFields_emits I hfields (hstandard.grows hem₁.grows) hvs
  obtain ⟨v, s₃, new₃, hem₃, hvars₃, hv, htype, hcarries₃⟩ :=
    addOp_emits I .structConstruction n ws (.struct m fields entries tuple) none none s₂
      (hem₂.grows.const (hem₁.grows.const hstandard.unit))
  simp only [expr, hcheck]
  refine ⟨v, s₃, _, hem₁.bind (hem₂.bind hem₃), hvars₃.trans (hvars₂.trans hvars₁), hv, htype,
    fun a ha σ ρ hagrees => ?_⟩
  have ha₂ := hem₃.grows.trans ha
  refine (hcarries₁ a (hem₂.grows.trans ha₂) σ ρ hagrees).bind hem₁.grows.size_le fun ys ρ' _ hys =>
    ?_
  refine (hcarries₂ a ha₂ ρ' ys hys).bind hem₂.grows.size_le fun zs ρ'' _ hzs => ?_
  exact hcarries₃ a ha ρ'' zs hzs

/-- The operations emitted for an expression carry its evaluation. -/
theorem expr_emits (he : TypedExpr f.locals types known e) :
    Expressible I f types known declared src e := by
  induction he with
    intro hnames s hstandard hready
  | @«local» n hlocal =>
    exact local_emits hready (hnames n (by simp [Expr.names]) hlocal) _
  | @constant n c hlocal hconstant =>
    refine global_emits hstandard hready hlocal fun c' hc' => ?_
    rw [hconstant] at hc'
    simp at hc'
    rw [hc']
    rfl
  | @known n c hlocal hconstant hknown =>
    refine global_emits hstandard hready hlocal fun c' hc' => ?_
    rw [hconstant, hknown] at hc'
    simp at hc'
    rw [hc']
    rfl
  | @global n t hlocal hconstant hknown =>
    refine global_emits hstandard hready hlocal fun c' hc' => ?_
    rw [hconstant, hknown] at hc'
    simp at hc'
  | @struct n m fields values entries tuple hlength hfields hvalues ih =>
    exact (exprs_emits ih hnames hstandard hready).struct hstandard hfields
  | @entry n name fields values t t' i e hindex hentry htyped hslot ih =>
    have hmem := List.mem_of_getElem? hentry
    have hemits := ih (fun x hx => hnames x (mem_namesAll hmem hx)) s hstandard hready
    have hbuild : expr src (.field (.struct n fields values t') name t) = expr src e := by
      rw [expr, hindex]
      exact exprAt_eq hentry
    have heval (σ : Store V) :
        I.evalExpr known σ (.field (.struct n fields values t') name t) =
          I.evalExpr known σ e := by
      rw [evalExpr, hindex]
      exact evalAt_eq hentry σ
    simp only [hbuild, heval]
    rwa [hslot] at hemits
  | @field o name t hobject hno ih =>
    have hbuild : expr src (.field o name t) = (do
        push (.op ⟨.fieldAccess, name, #[← expr src o], t.getD .unknown, none, none⟩)) := by
      rw [expr]
      exact hno
    have heval (σ : Store V) : I.evalExpr known σ (.field o name t) = (do
        I.apply .fieldAccess name (t.getD .unknown) [← I.evalExpr known σ o]) := by
      rw [evalExpr]
      exact hno
    simp only [hbuild, heval]
    exact (ih hnames s hstandard hready).push .fieldAccess name (t.getD .unknown) none none
  | @cast e v t he ih =>
    exact (ih hnames s hstandard hready).addOp hstandard .unionCast v (t.getD .unknown) none none
  | @refOf e t he ih =>
    exact (ih hnames s hstandard hready).addOp hstandard .refOf "$ref-of"
      (t.getD .unknown) none none
  | @number n hfits =>
    have hconst : GraphM.newMachineInt n = GraphM.newConst (.machineInt n) := by
      rw [GraphM.newMachineInt, hfits]
      rfl
    simp only [expr, hconst]
    exact newConst_emits (.machineInt n) s
  | @bits digits w =>
    exact newConst_emits _ s
  | @string literal text hliteral =>
    simp only [expr, evalExpr, hliteral]
    exact newConst_emits _ s
  | unit =>
    exact const_emits hstandard.unit

/-- The operations emitted for a condition carry its evaluation. -/
theorem condition_emits {c : Condition} (hc : TypedCondition f.locals types known c)
    (hnames : ∀ n ∈ c.names, n ∈ f.locals → declared n)
    (hstandard : s.arena.Standard known src.constants)
    (hready : Ready f types declared s.arena s.vars) (pos : Option String) :
    ∃ t, EmitsValue I f declared (condition src pos c) s t
      (fun σ => I.evalCondition known σ c) := by
  cases c with
  | comparison op as =>
    exact ⟨.bool, (exprs_emits (fun e he => expr_emits (hc e he)) hnames hstandard hready).addOp
      hstandard .call op .bool pos none⟩
  | expr e => exact ⟨_, expr_emits hc hnames s hstandard hready⟩
  | isVariant e v =>
    exact ⟨.bool, (expr_emits hc hnames s hstandard hready).addOp hstandard .unionVariantCheck v
      .bool pos none⟩

end Jib
