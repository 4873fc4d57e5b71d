import Mathlib.Data.List.Forall2
import Mathlib.Tactic.Common

/-!
# Runs of computations and of machines

A computation runs one part after the other until a part fails.  A machine takes steps that may
fail; a step either stops with a result or leads to the next state.  Two machines halt in the same
way if each step of the one is one or more steps of the other.
-/

namespace Jib

variable {E M R S T α β : Type} {x : EStateM E M α} {f : α → EStateM E M β} {xs : List α}
    {ys : List β}

theorem bind_run (x : EStateM E M α) (f : α → EStateM E M β) (m : M) :
    (x >>= f) m = match x m with
      | .ok a m' => f a m'
      | .error e m' => .error e m' := by
  change EStateM.bind x f m = _
  unfold EStateM.bind
  cases x m <;> rfl

theorem bind_ok {m m' : M} {a : α} (hx : x m = .ok a m') : (x >>= f) m = f a m' := by
  rw [bind_run, hx]

theorem bind_error {m m' : M} {e : E} (hx : x m = .error e m') : (x >>= f) m = .error e m' := by
  rw [bind_run, hx]

/-- A computation that has a result had one in its first part. -/
theorem exists_run_of_bind {m m'' : M} {y : β} (hbind : (x >>= f) m = .ok y m'') :
    ∃ z m', x m = .ok z m' ∧ f z m' = .ok y m'' := by
  rw [bind_run] at hbind
  cases hx : x m with
  | ok z m' => exact ⟨z, m', rfl, by rwa [hx] at hbind⟩
  | error e m' =>
    rw [hx] at hbind
    cases hbind

/-- A computation without memory that has a result had one in its first part. -/
theorem bind_eq_ok_iff {x : Except E α} {f : α → Except E β} {y : β} :
    x >>= f = .ok y ↔ ∃ z, x = .ok z ∧ f z = .ok y := by
  cases x with
  | error e => exact iff_of_false nofun nofun
  | ok z => exact ⟨fun h => ⟨z, rfl, h⟩, fun ⟨_, hz, h⟩ => Except.ok.inj hz ▸ h⟩

theorem exists_ok_of_bind {x : Except E α} {f : α → Except E β} {y : β} (hbind : x >>= f = .ok y) :
    ∃ z, x = .ok z ∧ f z = .ok y := bind_eq_ok_iff.mp hbind

theorem pure_eq_ok_iff {x y : α} : (pure x : Except E α) = .ok y ↔ x = y :=
  Except.ok.injEq x y ▸ Iff.rfl

theorem throw_eq_error (e : E) : (throw e : Except E α) = .error e := rfl

theorem forall₂_of_mapM_some {f : α → Option β} (hmap : xs.mapM f = some ys) :
    List.Forall₂ (fun x y => f x = some y) xs ys := by
  induction xs generalizing ys with
  | nil => cases hmap; exact .nil
  | cons x xs ih =>
    simp only [List.mapM_cons, Option.bind_eq_bind, Option.bind_eq_some_iff] at hmap
    obtain ⟨y, hy, zs, hzs, hresult⟩ := hmap
    cases hresult
    exact .cons hy (ih hzs)

theorem exists_some_of_mapM {f : α → Option β} {x : α} (hmap : xs.mapM f = some ys) (hx : x ∈ xs) :
    ∃ y, f x = some y := by
  have hall := (forall₂_of_mapM_some hmap).imp fun _ y hy => And.intro (Exists.intro y hy) hy
  exact ((List.forall₂_and_left _ _).mp hall).1 x hx

/-- A machine with states `S`, results `R` and memory `M`. -/
abbrev Machine (E M R S : Type) := S → EStateM E M (R ⊕ S)

/-- How a run ends that starts in a given state. -/
inductive Halts (step : Machine E M R S) : S → M → EStateM.Result E M R → Prop
  | stop {x : S} {m m' : M} {r : R} (hstep : step x m = .ok (.inl r) m') :
      Halts step x m (.ok r m')
  | fail {x : S} {m m' : M} {e : E} (hstep : step x m = .error e m') :
      Halts step x m (.error e m')
  | next {x y : S} {m m' : M} {result : EStateM.Result E M R}
      (hstep : step x m = .ok (.inr y) m') (hrest : Halts step y m' result) :
      Halts step x m result

/-- No step, one step or more. -/
inductive Follows (step : Machine E M R S) : S → M → S → M → Prop
  | refl (x : S) (m : M) : Follows step x m x m
  | next {x y z : S} {m m' m'' : M} (hstep : step x m = .ok (.inr y) m')
      (hrest : Follows step y m' z m'') : Follows step x m z m''

/-- One step or more from one state to another. -/
def Advances (step : Machine E M R S) (x : S) (m : M) (z : S) (m'' : M) : Prop :=
  ∃ y m', step x m = .ok (.inr y) m' ∧ Follows step y m' z m''

variable {step : Machine E M R S} {step' : Machine E M R T} {x y z : S} {m m' m'' : M}
variable {result result' : EStateM.Result E M R}

theorem Advances.follows (hadvances : Advances step x m y m') : Follows step x m y m' := by
  obtain ⟨_, _, hstep, hrest⟩ := hadvances
  exact .next hstep hrest

/-- What every step keeps, a run keeps. -/
theorem Follows.preserves {P : S → Prop} (hfollows : Follows step x m y m')
    (hkeep : ∀ x m y m', P x → step x m = .ok (.inr y) m' → P y) (hx : P x) : P y := by
  induction hfollows with
  | refl => exact hx
  | next hstep _ ih => exact ih (hkeep _ _ _ _ hx hstep)

theorem Follows.exists_last (hfollows : Follows step x m z m'') :
    (x = z ∧ m = m'') ∨ ∃ y m', Follows step x m y m' ∧ step y m' = .ok (.inr z) m'' := by
  induction hfollows with
  | refl => exact .inl ⟨rfl, rfl⟩
  | next hstep _ ih =>
    rcases ih with ⟨rfl, rfl⟩ | ⟨w, n, hfollows, hlast⟩
    · exact .inr ⟨_, _, .refl _ _, hstep⟩
    · exact .inr ⟨w, n, .next hstep hfollows, hlast⟩

theorem Follows.trans (hfollows : Follows step x m y m') (hrest : Follows step y m' z m'') :
    Follows step x m z m'' := by
  induction hfollows with
  | refl => exact hrest
  | next hstep _ ih => exact .next hstep (ih hrest)

theorem Follows.halts (hfollows : Follows step x m y m') (hrest : Halts step y m' result) :
    Halts step x m result := by
  induction hfollows with
  | refl => exact hrest
  | next hstep _ ih => exact .next hstep (ih hrest)

/-- A machine halts in one way only. -/
theorem Halts.unique (hfirst : Halts step x m result) (hsecond : Halts step x m result') :
    result = result' := by
  induction hfirst generalizing result' with
  | stop hstep =>
    cases hsecond with
    | stop hstep' => cases hstep.symm.trans hstep'; rfl
    | fail hstep' | next hstep' _ => cases hstep.symm.trans hstep'
  | fail hstep =>
    cases hsecond with
    | stop hstep' | next hstep' _ => cases hstep.symm.trans hstep'
    | fail hstep' => cases hstep.symm.trans hstep'; rfl
  | next hstep _ ih =>
    cases hsecond with
    | stop hstep' | fail hstep' => cases hstep.symm.trans hstep'
    | next hstep' hrest' => cases hstep.symm.trans hstep'; exact ih hrest'

/-- A relation between the states of two machines under which every step of the second is matched by
the first. -/
def Simulates (step : Machine E M R S) (step' : Machine E M R T) (related : S → T → Prop) : Prop :=
  ∀ x y, related x y → ∀ m, match step' y m with
    | .ok (.inl r) m' => Halts step x m (.ok r m')
    | .error e m' => Halts step x m (.error e m')
    | .ok (.inr y') m' => ∃ x', Advances step x m x' m' ∧ related x' y'

section

variable {related : S → T → Prop} (hsimulates : Simulates step step' related) {y : T}
include hsimulates

theorem Simulates.halts_of_advances (hx : Halts step x m result)
    (hlater : ∀ {z m' y}, Advances step x m z m' → related z y → Halts step' y m' result)
    (hfollows : Follows step x m z m') (hrelated : related z y) : Halts step' y m' result := by
  cases hfollows with
  | next hstep hrest => exact hlater ⟨_, _, hstep, hrest⟩ hrelated
  | refl =>
    have hmatch := hsimulates x y hrelated m
    cases hstep : step' y m with
      rw [hstep] at hmatch
    | error e m' =>
      rw [hx.unique hmatch]
      exact .fail hstep
    | ok outcome m' =>
      cases outcome with
      | inl r =>
        rw [hx.unique hmatch]
        exact .stop hstep
      | inr y' =>
        obtain ⟨x', hadvances, hrelated'⟩ := hmatch
        exact .next hstep (hlater hadvances hrelated')

/-- The second machine halts as the first does from every state that the first goes through. -/
theorem Simulates.halts (hhalts : Halts step x m result) (hfollows : Follows step x m z m')
    (hrelated : related z y) : Halts step' y m' result := by
  induction hhalts generalizing z m' y with
  | stop hstop =>
    refine hsimulates.halts_of_advances (.stop hstop) ?_ hfollows hrelated
    rintro _ _ _ ⟨_, _, hnext, -⟩
    cases hstop.symm.trans hnext
  | fail hfail =>
    refine hsimulates.halts_of_advances (.fail hfail) ?_ hfollows hrelated
    rintro _ _ _ ⟨_, _, hnext, -⟩
    cases hfail.symm.trans hnext
  | next hfirst hrest ih =>
    refine hsimulates.halts_of_advances (.next hfirst hrest) ?_ hfollows hrelated
    rintro _ _ _ ⟨_, _, hnext, hfollows⟩ hrelated
    cases hfirst.symm.trans hnext
    exact ih hfollows hrelated

/-- Machines that simulate each other's steps halt in the same way. -/
theorem Simulates.halts_iff (hrelated : related x y) (m : M) (result : EStateM.Result E M R) :
    Halts step x m result ↔ Halts step' y m result := by
  refine ⟨fun hhalts => hsimulates.halts hhalts (.refl x m) hrelated, fun hhalts => ?_⟩
  induction hhalts generalizing x with
  | @stop y m _ _ hstep | @fail y m _ _ hstep =>
    have hmatch := hsimulates x y hrelated m
    rwa [hstep] at hmatch
  | @next y _ m _ _ hstep _ ih =>
    have hmatch := hsimulates x y hrelated m
    rw [hstep] at hmatch
    obtain ⟨x', hadvances, hrelated'⟩ := hmatch
    exact hadvances.follows.halts (ih hrelated')

end

end Jib
