import Jib.Proofs.Construction.Expressions

/-!
# Building statements

The operations emitted for a statement carry its execution: afterwards the table of variables again
agrees with the store, with the variables that the statement declares in addition.
-/

namespace Jib

open Jib.BuildM Jib.Interpretation

variable {V E M : Type} {I : Interpretation V E M} {f : FunctionBody} {types : String → Ty}
variable {known : String → Option Const} {constants : Table String ValueId} {src : BuildSource}
variable {declared declared' : String → Prop} {a a' : Arena} {vars : VarTable} {s : BuildState}
variable {n name : String} {v : Nat} {x : BuildM ValueId} {t : Ty} {prog : Store V → EStateM E M V}
variable {path : List String} {u : Ty} {fields : List String} {args : List Expr}

/-! ### Variables -/

theorem Ready.insert (h : Ready f types declared a vars) (hn : n ∈ f.locals)
    (hv : v < a.values.size) (htype : a.typeOf v = types n) :
    Ready f types (fun x => declared x ∨ x = n) a (vars.insert n (some v)) where
  valid := h.valid.insert _ _
  isLocal x w hget := by
    by_cases hx : n = x
    · exact hx ▸ hn
    · rw [Table.get?_insert_of_ne _ _ hx] at hget
      exact h.isLocal x w hget
  value x hx := by
    by_cases hn : n = x
    · subst hn
      exact ⟨v, Table.get?_insert_self _ _ _, hv, htype⟩
    · rw [Table.get?_insert_of_ne _ _ hn]
      exact h.value x (hx.resolve_right fun h => hn h.symm)

theorem Agrees.update {σ : Store V} {ρ : Valuation V} (h : Agrees I f declared a vars σ ρ) {y : V}
    (hn : n ∈ f.locals) (hy : I.Holds a ρ v y) :
    Agrees I f (fun x => declared x ∨ x = n) a (vars.insert n (some v))
      (Function.update σ n (some y)) ρ where
  value x hx := by
    by_cases hn : n = x
    · subst hn
      exact ⟨v, y, Table.get?_insert_self _ _ _, Function.update_self _ _ _, hy⟩
    · rw [Table.get?_insert_of_ne _ _ hn, Function.update_of_ne (Ne.symm hn)]
      exact h.value x (hx.resolve_right fun h => hn h.symm)
  outside x hx := by
    have hne : x ≠ n := fun heq => hx (heq ▸ hn)
    rw [Function.update_of_ne hne]
    exact h.outside x hx

section Emits

variable (I f types declared declared')

/-- The builder emits operations that carry a computation that changes the store. -/
def EmitsStore (x : BuildM Unit) (s : BuildState) (prog : Store V → EStateM E M (Store V)) : Prop :=
  ∃ s' new, Emission x s () s' new ∧ Ready f types declared' s'.arena s'.vars ∧
    ∀ a, s'.arena.Grows a → ∀ σ ρ, Agrees I f declared a s.vars σ ρ →
      I.Carries a s.arena.values.size new ρ (prog σ)
        (fun σ' ρ' => Agrees I f declared' a s'.vars σ' ρ')

/-- The same for a computation that uses what a value holds. -/
def WritesValue (x : BuildM Unit) (s : BuildState) (v : ValueId)
    (prog : Store V → V → EStateM E M (Store V)) : Prop :=
  ∃ s' new, Emission x s () s' new ∧ Ready f types declared' s'.arena s'.vars ∧
    ∀ a, s'.arena.Grows a → ∀ σ ρ y, Agrees I f declared a s.vars σ ρ → I.Holds a ρ v y →
      I.Carries a s.arena.values.size new ρ (prog σ y)
        (fun σ' ρ' => Agrees I f declared' a s'.vars σ' ρ')

end Emits

theorem EmitsStore.mono {declared'' : String → Prop} {x : BuildM Unit}
    {prog : Store V → EStateM E M (Store V)} (h : EmitsStore I f types declared declared' x s prog)
    (himp : ∀ x, declared'' x → declared' x) :
    EmitsStore I f types declared declared'' x s prog := by
  obtain ⟨s', new, hem, hready, hcarries⟩ := h
  exact ⟨s', new, hem, hready.mono himp, fun a ha σ ρ hagrees =>
    (hcarries a ha σ ρ hagrees).mono fun _ _ _ hagrees' => hagrees'.mono himp⟩

theorem Emission.setVar (n : String) (v : Option ValueId) (s : BuildState) :
    Emission (setVar n v) s () { s with vars := s.vars.insert n v } [] :=
  ⟨rfl, rfl, by simp, .refl _, rfl, by simp⟩

/-- An emitted value is used by a computation that changes the store. -/
theorem EmitsValue.write {g : ValueId → BuildM Unit} {k : Store V → V → EStateM E M (Store V)}
    (hx : EmitsValue I f declared x s t prog) (hready : Ready f types declared s.arena s.vars)
    (hg : ∀ (v : Nat) s', s.arena.Grows s'.arena → Ready f types declared s'.arena s'.vars →
      v < s'.arena.values.size → s'.arena.typeOf v = t →
      WritesValue I f types declared declared' (g v) s' v k) :
    EmitsStore I f types declared declared' (do g (← x)) s (fun σ => do k σ (← prog σ)) := by
  obtain ⟨v, s₁, new₁, hem₁, hvars₁, hv, htype, hcarries₁⟩ := hx
  obtain ⟨s₂, new₂, hem₂, hready₂, hcarries₂⟩ :=
    hg v s₁ hem₁.grows (hvars₁ ▸ hready.grows hem₁.grows) hv htype
  refine ⟨s₂, new₁ ++ new₂, hem₁.bind hem₂, hready₂, fun a ha σ ρ hagrees => ?_⟩
  refine (hcarries₁ a (hem₂.grows.trans ha) σ ρ hagrees).bind hem₁.grows.size_le
    fun y ρ' hsame hy => ?_
  exact hcarries₂ a ha σ ρ' y (hvars₁ ▸ hagrees.of_same hready hsame) hy

/-- A declaration gives a variable its first value. -/
theorem EmitsValue.setVar (hx : EmitsValue I f declared x s t prog)
    (hready : Ready f types declared s.arena s.vars) (hn : n ∈ f.locals) (htype : types n = t) :
    EmitsStore I f types declared (fun x => declared x ∨ x = n) (do setVar n (some (← x))) s
      (fun σ => do return Function.update σ n (some (← prog σ))) :=
  hx.write hready fun v s' _ hready' hv htype' =>
    ⟨_, [], Emission.setVar n (some v) s', hready'.insert hn hv (htype'.trans htype.symm),
      fun _ _ _ _ _ hagrees hy => .pure (hagrees.update hn hy)⟩

/-- Storing a value carries the assignment of what it holds. -/
theorem store_emits (hstandard : s.arena.Standard known constants)
    (hready : Ready f types declared s.arena s.vars) (hexception : "current_exception" ∉ f.locals)
    (hv : v < s.arena.values.size) (htype : s.arena.typeOf v = t)
    (hdeclared : name ∈ f.locals → declared name) (hname : name ∈ f.locals → types name = t) :
    WritesValue I f types declared declared (store name v) s v
      (fun σ y => I.assign σ name t y) := by
  by_cases hlocal : name ∈ f.locals
  · have hd := hdeclared hlocal
    have hor (x : String) (hx : declared x) : declared x ∨ x = name := .inl hx
    obtain ⟨w, hget, -⟩ := hready.value name hd
    have hne : name ≠ "current_exception" := fun h => hexception (h ▸ hlocal)
    have hrun : store name v s = setVar name (some v) s := by
      rw [store, bind_ok (get_run s), Table.contains_eq, hget]
      simp [hne]
    refine ⟨_, [], (Emission.setVar name (some v) s).congr hrun,
      (hready.insert hlocal hv (htype.trans (hname hlocal).symm)).mono hor,
      fun a _ σ ρ y hagrees hy => ?_⟩
    obtain ⟨_, z, -, hstore, -⟩ := hagrees.value name hd
    dsimp only
    rw [assign, if_pos (by simp [hstore, hne])]
    exact .pure ((hagrees.update hlocal hy).mono hor)
  · have hreturn : name ≠ "return" := fun h => hlocal (by simp [h, FunctionBody.locals])
    have hrun : store name v s = (do let _ ← addOp .globalWrite name [v] t none none) s := by
      rw [store, bind_ok (get_run s), Table.contains_eq, hready.get?_eq_none hlocal,
        if_pos (by simp [hreturn]), bind_ok (show typeOf v s = .ok t s from htype ▸ rfl)]
    obtain ⟨w, s', new, hem, hvars, -, -, hcarries⟩ :=
      addOp_emits I .globalWrite name [v] t none none s hstandard.unit
    refine ⟨s', new, (hem.map fun _ => ()).congr hrun, hvars ▸ hready.grows hem.grows,
      fun a ha σ ρ y hagrees hy => ?_⟩
    dsimp only
    rw [assign, if_neg (by simp [hagrees.outside name hlocal])]
    refine (hcarries a ha ρ [y] (.cons hy .nil)).map _ fun _ ρ' hsame _ => ?_
    exact hvars ▸ hagrees.of_same hready hsame

theorem EmitsValue.store (hx : EmitsValue I f declared x s t prog)
    (hstandard : s.arena.Standard known constants) (hready : Ready f types declared s.arena s.vars)
    (hexception : "current_exception" ∉ f.locals) (hdeclared : name ∈ f.locals → declared name)
    (hname : name ∈ f.locals → types name = t) :
    EmitsStore I f types declared declared (do store name (← x)) s
      (fun σ => do I.assign σ name t (← prog σ)) :=
  hx.write hready fun _ _ hgrows hready' hv htype =>
    store_emits (hstandard.grows hgrows) hready' hexception hv htype hdeclared hname

/-! ### Operations and assignments -/

/-- The operation that a statement names, applied to emitted values. -/
theorem EmitsValues.applied {x : BuildM (List ValueId)} {ts : List Ty}
    {prog : Store V → EStateM E M (List V)} (hx : EmitsValues I f declared x s ts prog)
    (hstandard : s.arena.Standard known constants) (result name : String) (t : Ty)
    (pos : Option String) (hargs : name = "$zinternal_vector_init" → ts ≠ []) :
    EmitsValue I f declared (do applied result name (← x) t pos) s t
      (fun σ => do I.applyNamed name t (← prog σ)) := by
  unfold applyNamed BuildM.applied
  by_cases hinit : name = "$zinternal_vector_init"
  · subst hinit
    simp only [beq_self_eq_true]
    refine hx.bind fun vs s' hgrows hlen => ?_
    cases vs with
    | nil => exact absurd (List.length_eq_zero_iff.mp hlen.symm) (hargs rfl)
    | cons v vs =>
      obtain ⟨w, s₂, new, hem, hvars, hw, htype, hcarries⟩ :=
        addOp_emits I .vectorInit "$zinternal_vector_init" [v] t pos none s'
          (hgrows.const hstandard.unit)
      refine ⟨w, s₂, new, hem, hvars, hw, htype, fun a ha ρ ys hys => ?_⟩
      cases hys with
      | cons hy _ => exact hcarries a ha ρ _ (.cons hy .nil)
  · by_cases hupdate : name = "$zinternal_vector_update"
    · subst hupdate
      simpa using hx.addOp hstandard .vectorUpdate "$zinternal_vector_update" t pos none
    · simpa [hinit, hupdate] using hx.addOp hstandard .call name t pos (some result)

theorem EmitsValue.assigned {source : Ty} (hx : EmitsValue I f declared x s source prog)
    (result : String) (t : Ty) (pos : Option String) :
    EmitsValue I f declared (do assigned result source t pos (← x)) s t
      (fun σ => do I.convert source t (← prog σ)) := by
  unfold convert BuildM.assigned
  by_cases htype : t = source
  · subst htype
    simpa using hx
  · have hne : source ≠ t := Ne.symm htype
    simpa [htype, hne] using hx.push .cast "$cast" t pos (some result)

/-! ### Fields -/

/-- Going down a chain of fields carries following the chain. -/
theorem descend_emits (I : Interpretation V E M) (hpath : t.path? path = some u) {s : BuildState}
    (hstandard : s.arena.Standard known constants) (hv : v < s.arena.values.size) :
    ∃ w s' new, Emission (descend v t path) s (w, u) s' new ∧ s'.vars = s.vars ∧
      w < s'.arena.values.size ∧
      ∀ a, s'.arena.Grows a → ∀ ρ y, I.Holds a ρ v y →
        I.Carries a s.arena.values.size new ρ (I.evalPath t y path)
          (fun z ρ' => z.1 = u ∧ I.Holds a ρ' w z.2) := by
  induction path generalizing t v s with
  | nil =>
    cases hpath
    exact ⟨v, s, [], Emission.pure _ s, rfl, hv, fun a _ ρ y hy => .pure ⟨rfl, hy⟩⟩
  | cons name path ih =>
    rw [Ty.path?, Option.bind_eq_some_iff] at hpath
    obtain ⟨target, htarget, hpath⟩ := hpath
    obtain ⟨w₁, s₁, new₁, hem₁, hvars₁, hw₁, -, hcarries₁⟩ :=
      addOp_emits I .fieldAccess name [v] target none none s hstandard.unit
    obtain ⟨w, s₂, new₂, hem₂, hvars₂, hw, hcarries₂⟩ := ih hpath (hstandard.grows hem₁.grows) hw₁
    refine ⟨w, s₂, new₁ ++ new₂, ?_, hvars₂.trans hvars₁, hw, fun a ha ρ y hy => ?_⟩
    · rw [descend, fieldType_eq htarget, pure_bind]
      exact hem₁.bind hem₂
    · rw [evalPath, htarget]
      refine (hcarries₁ a (hem₂.grows.trans ha) ρ [y] (.cons hy .nil)).bind hem₁.grows.size_le
        fun z ρ' _ hz => ?_
      exact hcarries₂ a ha ρ' z hz

/-- The last step of a chain of fields. -/
theorem path?_eq_some (hne : path ≠ []) (hpath : t.path? path = some u) :
    ∃ last t', path.getLast? = some last ∧ t.path? path.dropLast = some t' ∧
      t'.field? last = some u := by
  induction path generalizing t with
  | nil => exact absurd rfl hne
  | cons name path ih =>
    rw [Ty.path?, Option.bind_eq_some_iff] at hpath
    obtain ⟨target, htarget, hpath⟩ := hpath
    cases path with
    | nil =>
      cases hpath
      exact ⟨name, t, rfl, rfl, htarget⟩
    | cons name' path =>
      obtain ⟨last, t', hlast, ht', hfield⟩ := ih (by simp) hpath
      refine ⟨last, t', by rw [List.getLast?_cons_cons, hlast], ?_, hfield⟩
      rw [List.dropLast_cons_cons, Ty.path?, htarget]
      exact ht'

theorem lastField_eq {last : String} (hlast : path.getLast? = some last) :
    lastField path = pure (path.dropLast, last) := by
  rw [lastField, hlast]

section

variable (hstandard : s.arena.Standard known src.constants)
  (hready : Ready f types declared s.arena s.vars)
include hstandard hready

theorem writeField_emits {o : Expr} {g : BuildM Ty → BuildM ValueId}
    {k : Store V → V → Ty → EStateM E M V} (ho : Expressible I f types known declared src o)
    (hnames : ∀ n ∈ o.names, n ∈ f.locals → declared n) (hne : fields ≠ [])
    (hpath : (slot o).path? fields = some t) (pos : Option String) (hv : v < s.arena.values.size)
    (hvalue : ∀ s', s.arena.Grows s'.arena → Ready f types declared s'.arena s'.vars →
      ∃ w s'' new, Emission (g (pure t)) s' w s'' new ∧ s''.vars = s'.vars ∧
        ∀ a, s''.arena.Grows a → ∀ σ ρ y, Agrees I f declared a s'.vars σ ρ → I.Holds a ρ v y →
          I.Carries a s'.arena.values.size new ρ (k σ y t) (fun z ρ' => I.Holds a ρ' w z)) :
    WritesValue I f types declared declared (writeField src o fields pos g) s v
      (fun σ y => I.writeField known σ o fields (k σ y)) := by
  obtain ⟨last, u, hlast, hfirsts, htarget⟩ := path?_eq_some hne hpath
  -- the object, the place in it, the new g and the write
  obtain ⟨v₁, s₁, new₁, hem₁, hvars₁, hv₁, htype₁, hcarries₁⟩ := ho hnames s hstandard hready
  rw [← htype₁] at hfirsts
  obtain ⟨v₂, s₂, new₂, hem₂, hvars₂, hv₂, hcarries₂⟩ :=
    descend_emits I hfirsts (hstandard.grows hem₁.grows) hv₁
  have hgrows₂ := hem₁.grows.trans hem₂.grows
  have hvars₂' := hvars₂.trans hvars₁
  have hready₂ : Ready f types declared s₂.arena s₂.vars := hvars₂' ▸ hready.grows hgrows₂
  obtain ⟨v₃, s₃, new₃, hem₃, hvars₃, hcarries₃⟩ := hvalue s₂ hgrows₂ hready₂
  obtain ⟨v₄, s₄, new₄, hem₄, hvars₄, -, -, hcarries₄⟩ :=
    addOp_emits I .fieldWrite last [v₂, v₃] .unit
    pos none s₃ ((hgrows₂.trans hem₃.grows).const hstandard.unit)
  have hvars : s₄.vars = s₂.vars := hvars₄.trans hvars₃
  refine ⟨s₄, new₁ ++ (new₂ ++ (new₃ ++ new₄)), ?_,
    hvars ▸ hready₂.grows (hem₃.grows.trans hem₄.grows), fun a ha σ ρ y hagrees hy => ?_⟩
  · rw [BuildM.writeField, lastField_eq hlast]
    refine hem₁.bind ((Emission.typeOf v₁ s₁).bind (hem₂.bind ?_))
    dsimp only
    rw [fieldType_eq htarget]
    exact hem₃.bind (hem₄.map fun _ => ())
  · have ha₃ := hem₄.grows.trans ha
    have ha₂ := hem₃.grows.trans ha₃
    simp only [Interpretation.writeField, hlast]
    refine (hcarries₁ a (hem₂.grows.trans ha₂) σ ρ hagrees).bind hem₁.grows.size_le
      fun y₁ ρ₁ hsame₁ hy₁ => ?_
    rw [← htype₁]
    refine (hcarries₂ a ha₂ ρ₁ y₁ hy₁).bind hem₂.grows.size_le fun y₂ ρ₂ hsame₂ hy₂ => ?_
    obtain ⟨t₂, y₂⟩ := y₂
    obtain ⟨rfl, hy₂⟩ := hy₂
    simp only [htarget]
    have hsame (v : Nat) (hv : v < s.arena.values.size) : ρ₂ v = ρ v :=
      (hsame₂ v (hv.trans_le hem₁.grows.size_le)).trans (hsame₁ v hv)
    have hagrees₂ := hagrees.of_same hready hsame
    rw [← hvars₂'] at hagrees₂
    refine (hcarries₃ a ha₃ σ ρ₂ y hagrees₂ (hy.of_same hsame hv)).bind hem₃.grows.size_le
      fun y₃ ρ₃ hsame₃ hy₃ => ?_
    refine (hcarries₄ a ha ρ₃ [y₂, y₃] (.cons (hy₂.of_same hsame₃ hv₂) (.cons hy₃ .nil))).map
      (fun _ => σ) fun _ ρ₄ hsame₄ _ => ?_
    rw [hvars]
    refine hagrees₂.of_same hready₂ fun v hv => ?_
    rw [hsame₄ v (hv.trans_le hem₃.grows.size_le), hsame₃ v hv]

theorem setField_emits {o e : Expr} (ho : Expressible I f types known declared src o)
    (he : Expressible I f types known declared src e)
    (hnames : ∀ n ∈ o.names ++ e.names, n ∈ f.locals → declared n) (hne : fields ≠ [])
    (hpath : ((slot o).path? fields).isSome) (t : Option Ty) (pos : Option String) :
    EmitsStore I f types declared declared (statement src (.setField o fields e t pos)) s
      (fun σ => I.exec known σ (.setField o fields e t pos)) := by
  obtain ⟨target, hpath⟩ := Option.isSome_iff_exists.mp hpath
  -- nothing is used that was there before, so the unit constant is as good as any value
  obtain ⟨s', new, hem, hready', hcarries⟩ := writeField_emits hstandard hready ho
    (fun n hn => hnames n (by simp [hn])) hne hpath pos
    (Arena.lt_size_of_value hstandard.unit (by simp))
    (g := fun type => do
      let v ← expr src e
      converted v (← type) pos)
    (k := fun σ _ t => do I.convert (slot e) t (← I.evalExpr known σ e))
    fun s₁ hgrows hready₁ => by
    have hstandard₁ := hstandard.grows hgrows
    obtain ⟨v₂, s₂, new₂, hem₂, hvars₂, hv₂, htype₂, hcarries₂⟩ :=
      he (fun n hn => hnames n (by simp [hn])) s₁ hstandard₁ hready₁
    obtain ⟨v₃, s₃, new₃, hem₃, hvars₃, -, -, hcarries₃⟩ :=
      converted_emits I (hstandard₁.grows hem₂.grows) hv₂ target pos
    refine ⟨v₃, s₃, new₂ ++ new₃, hem₂.bind hem₃, hvars₃.trans hvars₂,
      fun a ha σ ρ _ hagrees _ => ?_⟩
    refine (hcarries₂ a (hem₃.grows.trans ha) σ ρ hagrees).bind hem₂.grows.size_le fun y ρ' _ hy =>
      ?_
    exact htype₂ ▸ hcarries₃ a ha ρ' y hy
  exact ⟨s', new, hem, hready', fun a ha σ ρ hagrees => hcarries a ha σ ρ _ hagrees
    (holds_const ((hem.grows.trans ha).const hstandard.unit) ρ)⟩

/-- An operation whose result is written through a reference. -/
theorem setRefTarget_emits {r : Expr} {t : Option Ty}
    (hr : Expressible I f types known declared src r)
    (hargs : ∀ e ∈ args, Expressible I f types known declared src e)
    (hnames : ∀ n ∈ Expr.namesAll args ++ r.names, n ∈ f.locals → declared n) (mark : Option Mark)
    (pos : Option String) :
    EmitsStore I f types declared declared (statement src (.setTarget (.ref r mark) n args t pos)) s
      (fun σ => I.exec known σ (.setTarget (.ref r mark) n args t pos)) := by
  have hrhs :=
    (exprs_emits hargs (fun x hx => hnames x (by simp [hx])) hstandard hready).push .call n
    (t.getD .unknown) pos none
  have hwrite := hrhs.write hready
    (k := fun σ z => do
      let x ← I.evalExpr known σ r
      let _ ← I.apply .refAssignment "$ref-assign" .unit [x, z]
      return σ) fun v₁ s₁ hgrows hready₁ hv₁ _ => by
    obtain ⟨v₂, s₂, new₂, hem₂, hvars₂, hv₂, -, hcarries₂⟩ :=
      hr (fun x hx => hnames x (by simp [hx])) s₁ (hstandard.grows hgrows) hready₁
    obtain ⟨v₃, s₃, new₃, hem₃, hvars₃, -, -, hcarries₃⟩ :=
      addOp_emits I .refAssignment "$ref-assign"
      [v₂, v₁] .unit pos none s₂ ((hgrows.trans hem₂.grows).const hstandard.unit)
    have hvars : s₃.vars = s₁.vars := hvars₃.trans hvars₂
    refine ⟨s₃, new₂ ++ new₃, hem₂.bind (hem₃.map fun _ => ()),
      hvars ▸ hready₁.grows (hem₂.grows.trans hem₃.grows), fun a ha σ ρ z hagrees hz => ?_⟩
    refine (hcarries₂ a (hem₃.grows.trans ha) σ ρ hagrees).bind hem₂.grows.size_le
      fun x ρ₂ hsame₂ hx => ?_
    refine (hcarries₃ a ha ρ₂ [x, z] (.cons hx (.cons (hz.of_same hsame₂ hv₁) .nil))).map
      (fun _ => σ) fun _ ρ₃ hsame₃ _ => ?_
    rw [hvars]
    refine hagrees.of_same hready₁ fun v hv => ?_
    rw [hsame₃ v (hv.trans_le hem₂.grows.size_le), hsame₂ v hv]
  simpa only [statement, exec, bind_assoc] using hwrite

/-- An operation whose result is written to a field. -/
theorem setFieldTarget_emits {o : Expr} {t : Option Ty}
    (ho : Expressible I f types known declared src o)
    (hargs : ∀ e ∈ args, Expressible I f types known declared src e)
    (hnames : ∀ n ∈ Expr.namesAll args ++ o.names, n ∈ f.locals → declared n) (hne : fields ≠ [])
    (hpath : (slot o).path? fields = some (t.getD .unknown)) (t' : Option Ty)
    (pos : Option String) :
    EmitsStore I f types declared declared
      (statement src (.setTarget (.field o fields t') n args t pos)) s
      (fun σ => I.exec known σ (.setTarget (.field o fields t') n args t pos)) := by
  have hrhs :=
    (exprs_emits hargs (fun x hx => hnames x (by simp [hx])) hstandard hready).push .call n
    (t.getD .unknown) pos none
  have hwrite := hrhs.write hready fun v₁ s₁ hgrows hready₁ hv₁ _ =>
    writeField_emits (hstandard.grows hgrows) hready₁ ho (fun x hx => hnames x (by simp [hx])) hne
      hpath pos hv₁ (k := fun _ z _ => pure z) (g := fun type => do
        if !(t.getD .unknown == (← type)) then throw .unfinished
        return v₁) fun s₂ _ _ =>
      ⟨v₁, s₂, [], by simpa using Emission.pure v₁ s₂, rfl, fun _ _ _ _ _ _ hz => .pure hz⟩
  simpa only [statement, exec, bind_assoc] using hwrite

/-! ### Statements -/

/-- The operations emitted for a plain statement carry its execution. -/
theorem statement_emits {st : Statement} (hplain : st.isPlain = true)
    (htyped : TypedStatement f.locals types known st)
    (hnames : ∀ n ∈ st.names, n ∈ f.locals → declared n)
    (hlocals : ∀ n ∈ st.declared, n ∈ f.locals) (hexception : "current_exception" ∉ f.locals) :
    EmitsStore I f types declared (fun x => declared x ∨ x ∈ st.declared)
      (statement src st) s (fun σ => I.exec known σ st) := by
  have hall {es : List Expr} (hes : ∀ e ∈ es, TypedExpr f.locals types known e) (e : Expr)
      (he : e ∈ es) : Expressible I f types known declared src e := expr_emits (hes e he)
  have hnone (h : st.declared = []) (x : String) (hx : declared x ∨ x ∈ st.declared) :
      declared x := hx.resolve_right (by simp [h])
  cases st with
  | declare n written value t pos =>
    have hn : n ∈ f.locals := hlocals n (by simp [Statement.declared])
    have hdeclared (x : String) (hx : declared x ∨ x ∈ [n]) : declared x ∨ x = n := by
      simpa using hx
    refine EmitsStore.mono ?_ hdeclared
    cases value with
    | none =>
      simp only [statement, htyped.2, exec]
      have hconst : EmitsValue I f declared (newConst (.default (t.getD .unknown))) s
          (t.getD .unknown) (fun _ => pure (I.constant (.default (t.getD .unknown)))) :=
        newConst_emits _ s
      simpa using hconst.setVar hready hn htyped.1
    | some value =>
      cases value with
      | call g args rt cpos =>
        have hemits := ((exprs_emits (hall htyped.1) hnames hstandard hready).addOp hstandard
          .call g rt cpos (some n)).setVar hready hn htyped.2
        simpa only [statement, exec, bind_assoc] using hemits
      | _ => exact htyped.elim
  | operation r n args t pos =>
    refine EmitsStore.mono ?_ (hnone rfl)
    have hargs := exprs_emits (hall htyped.1) (fun x hx => hnames x (List.mem_cons_of_mem _ hx))
      hstandard hready
    have hemits :=
      (hargs.applied hstandard r n (t.getD .unknown) pos (by simpa using htyped.2.1)).store
      hstandard hready hexception (hnames r List.mem_cons_self) htyped.2.2
    simpa only [statement, exec, bind_assoc] using hemits
  | assign r e t pos =>
    refine EmitsStore.mono ?_ (hnone rfl)
    have hexpr : Expressible I f types known declared src e := expr_emits htyped.1
    have hvalue := hexpr (fun x hx => hnames x (List.mem_cons_of_mem _ hx)) s hstandard hready
    have hemits := (hvalue.assigned r (t.getD .unknown) pos).store hstandard hready hexception
      (hnames r List.mem_cons_self) htyped.2
    simpa only [statement, exec, bind_assoc] using hemits
  | setField o fields e t pos =>
    refine EmitsStore.mono ?_ (hnone rfl)
    exact setField_emits hstandard hready (expr_emits htyped.1) (expr_emits htyped.2.1) hnames
      htyped.2.2.1 htyped.2.2.2 t pos
  | setTarget g n args t pos =>
    refine EmitsStore.mono ?_ (hnone rfl)
    cases g with
    | ref r mark =>
      exact setRefTarget_emits hstandard hready (expr_emits htyped.2) (hall htyped.1)
        hnames mark pos
    | field o fields t' =>
      exact setFieldTarget_emits hstandard hready (expr_emits htyped.2.1) (hall htyped.1) hnames
        htyped.2.2.1 htyped.2.2.2 t' pos
  | setRef => exact htyped.elim
  | _ => cases hplain

end

end Jib
