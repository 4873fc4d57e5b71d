import Jib.Proofs.Construction.Correctness

/-!
# Names that share a structure

An assignment gives a variable or a register the object that another one holds, and writing a field
changes that object.  So from the assignment on two names share their fields as long as both hold
what they were given, and the graph of a body returns through the one what was written through the
other.
-/

namespace Jib

variable {V E M : Type}

namespace Interpretation

/-! ### What statements do to the store -/

section Store

variable {I : Interpretation V E M} {known : String → Option Const} {σ σ' : Store V} {m m' : M}

theorem assign_store {r : String} {t : Ty} {y : V} (h : I.assign σ r t y m = .ok σ' m') :
    σ' = σ ∨ σ' = Function.update σ r (some y) := by
  unfold assign at h
  split at h
  · cases h
    exact .inr rfl
  · obtain ⟨_, _, -, hresult⟩ := exists_run_of_bind h
    cases hresult
    exact .inl rfl

theorem writeField_store {o : Expr} {fields : List String} {new : Ty → EStateM E M V}
    (h : I.writeField known σ o fields new m = .ok σ' m') : σ' = σ := by
  cases hlast : fields.getLast? with
    simp only [writeField, hlast] at h
  | none => cases h
  | some last =>
    obtain ⟨y, m₁, -, h₁⟩ := exists_run_of_bind h
    obtain ⟨x, m₂, -, h₂⟩ := exists_run_of_bind h₁
    cases hfield : x.1.field? last with
      simp only [hfield] at h₂
    | none => cases h₂
    | some target =>
      obtain ⟨z, m₃, -, h₃⟩ := exists_run_of_bind h₂
      obtain ⟨u, m₄, -, h₄⟩ := exists_run_of_bind h₃
      cases h₄
      rfl

/-- A statement leaves the store as it is, or gives one variable a value. -/
theorem exec_store {s : Statement} (h : I.exec known σ s m = .ok σ' m') :
    σ' = σ ∨ ∃ r y, σ' = Function.update σ r (some y) := by
  cases s with
  | declare n written value t pos =>
    right
    cases value with
    | none =>
      cases h
      exact ⟨n, _, rfl⟩
    | some e =>
      cases e with
      | call g args rt p =>
        obtain ⟨ys, m₁, -, h₁⟩ := exists_run_of_bind h
        obtain ⟨y, m₂, -, h₂⟩ := exists_run_of_bind h₁
        cases h₂
        exact ⟨n, _, rfl⟩
      | _ => cases h
  | assign r e t pos =>
    obtain ⟨y, m₁, -, h₁⟩ := exists_run_of_bind h
    obtain ⟨z, m₂, -, h₂⟩ := exists_run_of_bind h₁
    exact (assign_store h₂).imp_right fun hupdate => ⟨r, z, hupdate⟩
  | operation r g args t pos =>
    obtain ⟨ys, m₁, -, h₁⟩ := exists_run_of_bind h
    obtain ⟨z, m₂, -, h₂⟩ := exists_run_of_bind h₁
    exact (assign_store h₂).imp_right fun hupdate => ⟨r, z, hupdate⟩
  | setField o fields e t pos => exact .inl (writeField_store h)
  | setTarget g c args t pos =>
    obtain ⟨ys, m₁, -, h₁⟩ := exists_run_of_bind h
    obtain ⟨z, m₂, -, h₂⟩ := exists_run_of_bind h₁
    cases g with
    | ref r p =>
      obtain ⟨x, m₃, -, h₃⟩ := exists_run_of_bind h₂
      obtain ⟨u, m₄, -, h₄⟩ := exists_run_of_bind h₃
      cases h₄
      exact .inl rfl
    | field o fields p => exact .inl (writeField_store h₂)
  | _ => cases h

theorem bodyStep_store {f : FunctionBody} {x y : Store V × Nat}
    (h : f.step I known x m = .ok (.inr y) m') :
    y.1 = x.1 ∨ ∃ r z, y.1 = Function.update x.1 r (some z) := by
  obtain ⟨σ, i⟩ := x
  cases hs : f.statements[i]? with
  | none =>
    simp only [bodyStep, hs] at h
    cases h
  | some s =>
    by_cases hplain : s.isPlain = true
    · rw [bodyStep_plain hs hplain] at h
      obtain ⟨σ₁, m₁, hexec, hnext⟩ := exists_run_of_bind h
      cases hnext
      exact exec_store hexec
    · simp only [bodyStep, hs] at h
      cases s with
      | goto t =>
        cases h
        exact .inl rfl
      | jump c t p =>
        obtain ⟨y, m₁, -, hnext⟩ := exists_run_of_bind h
        cases hnext
        exact .inl rfl
      | finish => cases hreturn : σ "return" <;> simp only [hreturn] at h <;> cases h
      | exit kind p => cases h
      | arbitrary => cases h
      | _ => exact absurd rfl hplain

/-- A variable that has a value always has one. -/
theorem isSome_of_follows {f : FunctionBody} {x y : Store V × Nat} {n : String}
    (hfollows : Follows (f.step I known) x m y m')
    (hn : (x.1 n).isSome) : (y.1 n).isSome := by
  refine hfollows.preserves (P := fun x => (x.1 n).isSome) (fun x m y m' hx hstep => ?_) hn
  rcases bodyStep_store hstep with hsame | ⟨r, z, hupdate⟩
  · rwa [hsame]
  · rw [hupdate]
    by_cases hr : n = r
    · rw [hr, Function.update_self]
      rfl
    · rwa [Function.update_of_ne hr]

end Store

/-! ### Fields and registers -/

/-- What accesses to fields and registers do, where both can be read off the memory. -/
structure HasStructures (I : Interpretation V E M) (field : M → V → String → Option V)
    (register : M → String → Option V) : Prop where
  access : ∀ {m o x y}, field m o x = some y → ∀ t, t ≠ .unit →
    I.apply .fieldAccess x t [o] m = .ok y m
  write : ∀ {m o x y}, field m o x = some y → ∀ z, ∃ m',
    I.apply .fieldWrite x .unit [o, z] m = .ok (I.constant .unit) m' ∧ field m' o x = some z ∧
      register m' = register m
  read : ∀ {m n y}, register m n = some y → ∀ t, t ≠ .unit →
    I.apply .globalRead n t [] m = .ok y m
  store : ∀ n t y m, ∃ u m', I.apply .globalWrite n t [y] m = .ok u m' ∧
    register m' = Function.update (register m) n (some y)

/-- What a name holds: a variable its value, and any other name what stands in the register. -/
def holds (register : M → String → Option V) (σ : Store V) (m : M) (n : String) : Option V :=
  (σ n).or (register m n)

/-- A name that stands for nothing but a variable or a register. -/
structure Plain (known : String → Option Const) (n : String) : Prop where
  constant : BuildM.constantNamed? n = none
  known : known n = none
  exception : n ≠ "current_exception"

theorem isElement_of_field? {T U : Ty} {x : String} (hT : T.field? x = some U) (n : String) :
    BuildM.isElement n T = false := by
  cases T <;> first | rfl | cases hT

theorem ne_unit_of_field? {T U : Ty} {x : String} (hT : T.field? x = some U) : T ≠ .unit := by
  rintro rfl
  cases hT

variable {I : Interpretation V E M} {field : M → V → String → Option V}
variable {register : M → String → Option V} (hI : I.HasStructures field register)
variable {known : String → Option Const} {σ : Store V} {m m' : M} {n r x : String} {T U : Ty}
variable {o old y z : V} {e : Expr} {f : FunctionBody} {i : Nat} {pos : Option String}
include hI

theorem evalExpr_var (hn : Plain known n) (hT : T.field? x = some U)
    (ho : holds register σ m n = some o) :
    I.evalExpr known σ (.var n (some T)) m = .ok o m := by
  cases hσ : σ n with
  | some y =>
    obtain rfl : y = o := by simpa [holds, hσ] using ho
    simp only [evalExpr, hσ]
    rfl
  | none =>
    have hregister : register m n = some o := by simpa [holds, hσ] using ho
    simp only [evalExpr, hσ, evalName, hn.constant, hn.known, Option.getD_some,
      isElement_of_field? hT]
    exact hI.read hregister T (ne_unit_of_field? hT)

/-- An assignment without a conversion gives a name what an expression is, and leaves the others
alone. -/
theorem bodyStep_assign (hstatement : f.statements[i]? = some (.assign r e (some T) pos))
    (hslot : BuildM.slot e = T) (hread : I.evalExpr known σ e m = .ok y m)
    (hr : r ≠ "current_exception") :
    ∃ σ' m', f.step I known (σ, i) m = .ok (.inr (σ', i + 1)) m' ∧
      ∀ n, holds register σ' m' n = if n = r then some y else holds register σ m n := by
  have hexec (σ' : Store V) (m' : M) (hassign : I.assign σ r T y m = .ok σ' m') :
      f.step I known (σ, i) m = .ok (.inr (σ', i + 1)) m' := by
    have hrun : I.exec known σ (.assign r e (some T) pos) m = .ok σ' m' := by
      change (I.evalExpr known σ e >>= fun y => I.convert (BuildM.slot e) T y >>= fun y =>
        I.assign σ r T y) m = _
      rw [bind_ok hread, convert, if_pos hslot, pure_bind, hassign]
    rw [bodyStep_plain hstatement rfl, bind_ok hrun]
    rfl
  cases hσ : σ r with
  | some old =>
    have hassign : I.assign σ r T y m = .ok (Function.update σ r (some y)) m := by
      rw [assign.eq_def, hσ, if_pos (by simpa using hr)]
      rfl
    refine ⟨_, _, hexec _ _ hassign, fun n => ?_⟩
    by_cases hn : n = r <;> simp [holds, hn]
  | none =>
    obtain ⟨u, m', hstore, hregister⟩ := hI.store r T y m
    have hassign : I.assign σ r T y m = .ok σ m' := by
      rw [assign.eq_def, hσ, if_neg (by simp), bind_ok hstore]
      rfl
    refine ⟨_, _, hexec _ _ hassign, fun n => ?_⟩
    by_cases hn : n = r <;> simp [holds, hregister, hn, hσ]

/-- A field that is written through a name. -/
theorem bodyStep_setField {t : Option Ty}
    (hstatement : f.statements[i]? = some (.setField (.var n (some T)) [x] e t pos))
    (hn : Plain known n) (hT : T.field? x = some U) (ho : holds register σ m n = some o)
    (hold : field m o x = some old)
    (hnew : (do let z ← I.evalExpr known σ e; I.convert (BuildM.slot e) U z) m = .ok z m) :
    ∃ m', f.step I known (σ, i) m = .ok (.inr (σ, i + 1)) m' ∧
      field m' o x = some z ∧ ∀ n, holds register σ m' n = holds register σ m n := by
  obtain ⟨m', hwrite, hfield, hregister⟩ := hI.write hold z
  refine ⟨m', ?_, hfield, fun n => by rw [holds, holds, hregister]⟩
  have hexec : I.exec known σ (.setField (.var n (some T)) [x] e t pos) m = .ok σ m' := by
    change I.writeField known σ (.var n (some T)) [x] _ m = _
    unfold writeField
    dsimp only [List.getLast?_singleton]
    have hpath : I.evalPath (BuildM.slot (.var n (some T))) o [x].dropLast m = .ok (T, o) m := rfl
    rw [bind_ok (evalExpr_var hI hn hT ho), bind_ok hpath]
    simp only [hT]
    rw [bind_ok hnew, bind_ok hwrite]
    rfl
  rw [bodyStep_plain hstatement rfl, bind_ok hexec]
  rfl

theorem evalExpr_field (hn : Plain known n) (hT : T.field? x = some U)
    (ho : holds register σ m n = some o) (hU : U ≠ .unit) (hfield : field m o x = some z) :
    I.evalExpr known σ (.field (.var n (some T)) x (some U)) m = .ok z m := by
  have hvar := evalExpr_var hI hn hT ho
  change (I.evalExpr known σ (.var n (some T)) >>= fun y => I.apply .fieldAccess x U [y]) m = _
  rw [bind_ok hvar]
  exact hI.access hfield U hU

end Interpretation

/-! ### Sharing -/

/-- A body that at one place gives a name the object of another one, and at a later place writes a
field through one of the two and returns that field through one of them. -/
structure FunctionBody.Shares (f : FunctionBody) (known : String → Option Const) (i k : Nat)
    (source target via seen x : String) (T U : Ty) (e : Expr) : Prop where
  assigned : ∃ pos, f.statements[i]? = some (.assign target (.var source (some T)) (some T) pos)
  written : ∃ t pos, f.statements[k]? = some (.setField (.var via (some T)) [x] e t pos)
  returned : ∃ pos, f.statements[k + 1]? =
    some (.assign "return" (.field (.var seen (some T)) x (some U)) (some U) pos)
  finished : f.statements[k + 2]? = some .finish
  type : T.field? x = some U
  not_unit : U ≠ .unit
  plain : Interpretation.Plain known source ∧ Interpretation.Plain known target
  through : via = source ∨ via = target
  seen_through : seen = source ∨ seen = target

open Interpretation

section Sharing

variable {I : Interpretation V E M} {known : String → Option Const} {f : FunctionBody}
variable {i k : Nat} {source target via seen x : String} {T U : Ty} {e : Expr}
variable {σ : Store V} {ys : List V} {m m' : M} {o old z : V}
variable {field : M → V → String → Option V} {register : M → String → Option V}

/-- A run that comes to the assignment of an object, and later to a place where both names hold
what they held after the assignment. -/
def PassesTo (I : Interpretation V E M) (known : String → Option Const)
    (register : M → String → Option V) (f : FunctionBody) (ys : List V) (i k : Nat)
    (source target : String) (m : M) (σ : Store V) (m' : M) : Prop :=
  ∃ σ₁ m₁ y m₂, Follows (I.bodyStep known f.statements f.result)
      (I.startStore (f.argNames.zip ys) f.result, 0) m (σ₁, i) m₁ ∧
    (holds register σ₁ m₁ source).isSome ∧
    I.bodyStep known f.statements f.result (σ₁, i) m₁ = .ok (.inr y) m₂ ∧
    Follows (I.bodyStep known f.statements f.result) y m₂ (σ, k) m' ∧
    ∀ n, n = source ∨ n = target → holds register σ m' n = holds register y.1 m₂ n

theorem PassesTo.follows (h : PassesTo I known register f ys i k source target m σ m') :
    Follows (f.step I known) (I.startStore (f.argNames.zip ys) f.result, 0) m (σ, k) m' := by
  obtain ⟨σ₁, m₁, y, m₂, hbefore, -, hstep, hafter, -⟩ := h
  exact hbefore.trans (.next hstep hafter)

section

variable (hI : I.HasStructures field register)
  (hshares : f.Shares known i k source target via seen x T U e)
  (hpasses : PassesTo I known register f ys i k source target m σ m')
include hI hshares hpasses

/-- Both names hold one object from the assignment on. -/
theorem FunctionBody.Shares.exists_object :
    ∃ o, ∀ n, n = source ∨ n = target → holds register σ m' n = some o := by
  obtain ⟨σ₁, m₁, y, m₂, -, hobject, hstep, -, hkeeps⟩ := hpasses
  obtain ⟨pos, hassigned⟩ := hshares.assigned
  obtain ⟨o, ho⟩ := Option.isSome_iff_exists.mp hobject
  obtain ⟨σ₂, m₃, hassign, hholds⟩ := bodyStep_assign hI hassigned rfl
    (evalExpr_var hI hshares.plain.1 hshares.type ho) hshares.plain.2.exception
  cases hassign.symm.trans hstep
  refine ⟨o, fun n hn => ?_⟩
  rw [hkeeps n hn, hholds]
  rcases hn with rfl | rfl
  · rw [ho, ite_self]
  · exact if_pos rfl

/-- What was written through the one name is returned through the other. -/
theorem FunctionBody.Shares.halts (hold : (holds register σ m' seen).bind (field m' · x) = some old)
    (hnew : (do let z ← I.evalExpr known σ e; I.convert (BuildM.slot e) U z) m' = .ok z m') :
    ∃ m'', Halts (f.step I known)
      (I.startStore (f.argNames.zip ys) f.result, 0) m (.ok (.returned z) m'') := by
  obtain ⟨o, hobject⟩ := hshares.exists_object hI hpasses
  have hplain {n : String} (hn : n = source ∨ n = target) : Plain known n := by
    rcases hn with rfl | rfl
    · exact hshares.plain.1
    · exact hshares.plain.2
  obtain ⟨t, pos, hwritten⟩ := hshares.written
  obtain ⟨pos', hreturned⟩ := hshares.returned
  have hseen := hobject seen hshares.seen_through
  rw [hseen] at hold
  obtain ⟨m₁, hwrite, hfield, hkeeps⟩ := bodyStep_setField hI hwritten (hplain hshares.through)
    hshares.type (hobject via hshares.through) hold hnew
  obtain ⟨σ₁, m₂, hreturn, hholds⟩ := bodyStep_assign hI hreturned rfl
    (evalExpr_field hI (hplain hshares.seen_through) hshares.type ((hkeeps seen).trans hseen)
      hshares.not_unit hfield) (by decide)
  have hresult : (σ₁ "return").isSome := by
    refine isSome_of_follows (hpasses.follows.trans (.next hwrite (.next hreturn (.refl _ _)))) ?_
    rfl
  have hz : σ₁ "return" = some z := by
    obtain ⟨z', hz'⟩ := Option.isSome_iff_exists.mp hresult
    have := hholds "return"
    rwa [holds, hz', Option.some_or, ← hz'] at this
  have hend : f.step I known (σ₁, k + 1 + 1) m₂ = .ok (.inl (.returned z)) m₂ := by
    simp only [bodyStep, hshares.finished, hz]
    rfl
  exact ⟨m₂, hpasses.follows.halts (.next hwrite (.next hreturn (.stop hend)))⟩

end

end Sharing

/-- Where two names share an object, the graph returns through the one what was written through the
other.  So it returns the field as it was only if what was written is what was there. -/
theorem build_returns_unchanged_iff {f : FunctionBody} {types : String → Ty}
    {known : String → Option Const} (hwell : f.WellFormed types known) {i k : Nat}
    {source target via seen x : String} {T U : Ty} {e : Expr}
    (hshares : f.Shares known i k source target via seen x T U e) (name : String)
    (constants : Table String ValueId) (a : Arena) (hstandard : a.Standard known constants) :
    ∃ blocks g a', StepBlocks.ofBody f.steps = .ok blocks ∧
      GraphM.build name f.argNames f.type constants blocks 0 a = .ok g a' ∧
      ∀ (V E M : Type) (I : Interpretation V E M) (field : M → V → String → Option V)
        (register : M → String → Option V), I.HasStructures field register →
        ∀ ys : List V, ys.length = f.args.length →
        (∀ p y, (p, y) ∈ f.args.zip ys → p.2 = .unit → y = I.constant .unit) →
        ∀ m σ m' old z, PassesTo I known register f ys i k source target m σ m' →
        (holds register σ m' seen).bind (field m' · x) = some old →
        (do let z ← I.evalExpr known σ e; I.convert (BuildM.slot e) U z) m' = .ok z m' →
        (∃ m'', Halts (I.graphStep a') (startValuation (g.args.toList.zip ys), g.start) m
          (.ok (.returned z) m'')) ∧
        ((∃ m'', Halts (I.graphStep a') (startValuation (g.args.toList.zip ys), g.start) m
          (.ok (.returned old) m'')) ↔ z = old) := by
  obtain ⟨blocks, g, a', hblocks, hbuild, hhalts⟩ :=
    build_halts_iff f types known hwell name constants a hstandard
  refine ⟨blocks, g, a', hblocks, hbuild, ?_⟩
  intro V E M I field register hI ys hlength hunit m σ m' old z hpasses hold hnew
  obtain ⟨n, hreturned⟩ := hshares.halts hI hpasses hold hnew
  have hgraph := (hhalts V E M I ys hlength hunit m _).mp hreturned
  refine ⟨⟨n, hgraph⟩, fun ⟨n', hunchanged⟩ => ?_, fun hsame => ⟨n, hsame ▸ hgraph⟩⟩
  cases hgraph.unique hunchanged
  rfl

/-! ### Two arguments -/

/-- Objects with numbers in their fields, and registers. -/
structure Objects where
  fields : Int → String → Int
  registers : String → Int

namespace Objects

def setField (m : Objects) (o : Int) (x : String) (z : Int) : Objects :=
  { m with fields := Function.update m.fields o (Function.update (m.fields o) x z) }

/-- Reads and writes fields and registers. -/
def access (kind : OpKind) (name : String) (ys : List Int) : EStateM Unit Objects Int :=
  match kind, ys with
  | .fieldAccess, [o] => return (← get).fields o name
  | .fieldWrite, [o, z] => do
    modify (·.setField o name z)
    return 0
  | .globalRead, [] => return (← get).registers name
  | .globalWrite, [y] => do
    modify fun m => { m with registers := Function.update m.registers name y }
    return 0
  | _, _ => throw ()

/-- A machine whose values are numbers, those of objects among them. -/
def machine : Interpretation Int Unit Objects where
  constant _ := 0
  apply kind name type ys := do
    let y ← access kind name ys
    return if type = .unit then 0 else y
  isTrue y := y == 1
  unbound := ()
  constant_unit _ _ := rfl
  apply_unit kind name args m y m' happly := by
    obtain ⟨y', m₁, -, hy⟩ := exists_run_of_bind happly
    cases hy
    rfl

theorem hasStructures_machine : machine.HasStructures (fun m o x => some (m.fields o x))
    (fun m n => some (m.registers n)) where
  access {m o x y} hy t ht := by
    change EStateM.Result.ok (if t = .unit then 0 else m.fields o x) m = _
    rw [if_neg ht, Option.some.inj hy]
  write {m o x y} hy z := ⟨m.setField o x z, rfl, by simp [setField], rfl⟩
  read {m n y} hy t ht := by
    change EStateM.Result.ok (if t = .unit then 0 else m.registers n) m = _
    rw [if_neg ht, Option.some.inj hy]
  store n t y m := by
    refine ⟨_, { m with registers := Function.update m.registers n y }, rfl, funext fun n' => ?_⟩
    by_cases hn : n' = n <;> simp [hn]

end Objects

/-- The type of a structure with one field. -/
def point : Ty := .struct "zS" ["zx"] [.int] false

/-- Gives one argument the object of another one, writes its field and returns that of the other. -/
def sharing : FunctionBody where
  args := [("za", point), ("zb", point), ("zn", .int)]
  result := .int
  statements := [.assign "zb" (.var "za" (some point)) (some point) none,
    .setField (.var "zb" (some point)) ["zx"] (.var "zn" (some .int)) (some .int) none,
    .assign "return" (.field (.var "za" (some point)) "zx" (some .int)) (some .int) none, .finish]

theorem shares_sharing : sharing.Shares (fun _ => none) 0 1 "za" "zb" "zb" "za" "zx" point .int
    (.var "zn" (some .int)) where
  assigned := ⟨_, rfl⟩
  written := ⟨_, _, rfl⟩
  returned := ⟨_, rfl⟩
  finished := rfl
  type := rfl
  not_unit := nofun
  plain := ⟨⟨rfl, rfl, by decide⟩, ⟨rfl, rfl, by decide⟩⟩
  through := .inr rfl
  seen_through := .inl rfl

/-- Where nothing is declared, the variables are the arguments. -/
theorem reaches_sharing {j : Nat} {declared : List String} (h : sharing.Reaches j declared) :
    declared = ["return", "za", "zb", "zn"] := by
  induction h with
  | start => rfl
  | step _ hs _ ih =>
    rw [ih]
    have hmem := List.mem_of_getElem? hs
    simp only [sharing, List.mem_cons, List.not_mem_nil, or_false] at hmem
    rcases hmem with rfl | rfl | rfl | rfl <;> rfl

theorem target_sharing : ∀ s ∈ sharing.statements, s.target? = none := by decide

theorem edge_sharing {i j : Nat} (h : sharing.Edge i j) : j = i + 1 := by
  obtain ⟨s, hs, hleads⟩ := h
  have hmem := List.mem_of_getElem? hs
  simp only [sharing, List.mem_cons, List.not_mem_nil, or_false] at hmem
  rcases hmem with rfl | rfl | rfl | rfl <;> first | exact hleads | exact hleads.elim

def sharingTypes (n : String) : Ty := if n = "za" ∨ n = "zb" then point else .int

theorem wellFormed_sharing : sharing.WellFormed sharingTypes (fun _ => none) where
  nodup := by decide
  return_not_arg := by decide
  exception_not_local := by decide
  arg_types := by decide
  result_type := rfl
  typed := by
    have hlocal {n : String} (hn : n ∈ sharing.locals) :
        TypedExpr sharing.locals sharingTypes (fun _ => none) (.var n (some (sharingTypes n))) :=
      .local hn
    intro s hs
    simp only [sharing, List.mem_cons, List.not_mem_nil, or_false] at hs
    rcases hs with rfl | rfl | rfl | rfl
    · exact ⟨hlocal (by decide), fun _ => rfl⟩
    · exact ⟨hlocal (by decide), hlocal (by decide), nofun, rfl⟩
    · exact ⟨.field (hlocal (by decide)) nofun, fun _ => rfl⟩
    · trivial
  ends := ⟨.finish, rfl, rfl⟩
  no_jump := ⟨.finish, by simp [sharing], rfl⟩
  target s hs t ht := by rw [target_sharing s hs] at ht; cases ht
  behind_end i s hs hends hlt := by
    have hlt' : i + 1 < 4 := hlt
    rcases i with _ | _ | _ | i
    · cases hs; cases hends
    · cases hs; cases hends
    · cases hs; cases hends
    · omega
  declared i s hs n hn hlocal declared hreaches := by
    rw [reaches_sharing hreaches]
    exact hlocal
  entered s hs j hj := by rw [target_sharing s hs] at hj; cases hj
  loop_entered_once i i' j _ _ _ he he' := by
    have := edge_sharing he
    have := edge_sharing he'
    omega
  idle_jump i c p hs := by
    cases (target_sharing _ (List.mem_of_getElem? hs)).symm.trans rfl

/-- An arena with the values that stand in every one. -/
def standardArena : Arena where
  values := #[.const (.bool false), .const (.bool true), .const .unit, .missing]
  blocks := #[]

theorem standard_standardArena : standardArena.Standard (fun _ => none) {} where
  unit := rfl
  bool b := by cases b <;> rfl
  constant n v h := by simp at h
  unknown _ _ := rfl

theorem not_unit_sharing {ys : List Int} (p : String × Ty) (y : Int)
    (hp : (p, y) ∈ sharing.args.zip ys) (hunit : p.2 = .unit) :
    y = Objects.machine.constant .unit := by
  have hargs : ∀ p ∈ sharing.args, p.2 ≠ .unit := by decide
  exact absurd hunit (hargs p (List.of_mem_zip hp).1)

/-- The first statement is a run to the second one. -/
theorem passesTo_sharing (m : Objects) (n : Int) :
    PassesTo Objects.machine (fun _ => none) (fun m n => some (m.registers n)) sharing [10, 20, n]
      0 1 "za" "zb" m (Function.update (Objects.machine.startStore
        (sharing.argNames.zip [10, 20, n]) .int) "zb" (some 10)) m :=
  ⟨_, _, _, _, .refl _ _, rfl, rfl, .refl _ _, fun _ _ => rfl⟩

/-- The field that held three is returned as three just in case three was written. -/
theorem sharing_returns_unchanged : ∃ blocks g a', StepBlocks.ofBody sharing.steps = .ok blocks ∧
    GraphM.build "zshare" sharing.argNames sharing.type {} blocks 0 standardArena = .ok g a' ∧
    ∀ n : Int, (∃ m, Halts (Objects.machine.graphStep a')
      (startValuation (g.args.toList.zip [10, 20, n]), g.start) ⟨fun _ _ => 3, fun _ => 0⟩
        (.ok (.returned 3) m)) ↔ n = 3 := by
  obtain ⟨blocks, g, a', hblocks, hbuild, hreturns⟩ := build_returns_unchanged_iff
    wellFormed_sharing shares_sharing "zshare" {} standardArena standard_standardArena
  refine ⟨blocks, g, a', hblocks, hbuild, fun n => ?_⟩
  exact (hreturns Int Unit Objects _ _ _ Objects.hasStructures_machine [10, 20, n] rfl
    not_unit_sharing _ _ _ 3 n (passesTo_sharing _ n) rfl rfl).2

/-- The field held three, seven is written through the other argument, and seven is returned. -/
theorem sharing_returns_written : ∃ blocks g a', StepBlocks.ofBody sharing.steps = .ok blocks ∧
    GraphM.build "zshare" sharing.argNames sharing.type {} blocks 0 standardArena = .ok g a' ∧
    ∃ m, Halts (Objects.machine.graphStep a')
      (startValuation (g.args.toList.zip [10, 20, 7]), g.start) ⟨fun _ _ => 3, fun _ => 0⟩
        (.ok (.returned 7) m) := by
  obtain ⟨blocks, g, a', hblocks, hbuild, hhalts⟩ := build_halts_iff sharing sharingTypes _
    wellFormed_sharing "zshare" {} standardArena standard_standardArena
  obtain ⟨m, hreturned⟩ := shares_sharing.halts Objects.hasStructures_machine
    (passesTo_sharing ⟨fun _ _ => 3, fun _ => 0⟩ 7) rfl rfl
  exact ⟨blocks, g, a', hblocks, hbuild, m,
    (hhalts Int Unit Objects _ [10, 20, 7] rfl not_unit_sharing _ _).mp hreturned⟩

end Jib
