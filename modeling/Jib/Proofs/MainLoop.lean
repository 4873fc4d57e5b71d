import Jib.Platform.Riscv.Clock
import Mathlib.Tactic.Ring
import Mathlib.Tactic.SplitIfs

/-!
# Ticks and the end of the main loop

Each tick stands for the same number of retired instructions.  The loop ends at its limit and when
the machine is done, also if a tick is due, and it ends nowhere else.
-/

namespace Jib.Riscv

/-- What the loop has a machine do. -/
inductive Event where
  | step (retires : Bool)
  | tick
  deriving DecidableEq

/-- A machine whose instructions do not fail. -/
structure Model (σ : Type) where
  isDone : σ → Bool
  step : Nat → σ → Bool × σ
  tick : σ → Result σ

variable {σ : Type}

/-- The machine with a record of what it did, the latest first. -/
def Model.clocked (M : Model σ) (perTick : Int) : Clocked (EStateM Fault (σ × List Event)) where
  isDone w := .ok (M.isDone w.1) w
  step n w := let (retires, m) := M.step n w.1
    .ok retires (m, .step retires :: w.2)
  tick w := match M.tick w.1 with
    | .ok m => .ok () (m, .tick :: w.2)
    | .error e => .error e w
  perTick w := .ok perTick w

/-- What a turn does if the loop does not end: the tick that is due, or an instruction. -/
def Model.act (M : Model σ) (perTick : Int) (o : LoopOptions) (s : LoopState) (w : σ × List Event) :
    EStateM.Result Fault (σ × List Event) (Option LoopState) :=
  if s.due then
    match M.tick w.1 with
    | .ok m => .ok (some { s with pending := 0, due := false }) (m, .tick :: w.2)
    | .error e => .error e w
  else
    let (retires, m) := M.step s.retired w.1
    .ok (some (s.advance o retires perTick)) (m, .step retires :: w.2)

/-- The points at which the loop looks whether it ends. -/
inductive Reached (M : Model σ) (perTick : Int) (o : LoopOptions) (m : σ) :
    LoopState → σ × List Event → Prop
  | start : Reached M perTick o m {} (m, [])
  | turn {s t w v} : Reached M perTick o m s w → turn (M.clocked perTick) o s w = .ok (some t) v →
      Reached M perTick o m t v

/-- The counts of the loop agree with what the machine did. -/
structure OnTime (perTick limit : Int) (s : LoopState) (done : List Event) : Prop where
  retired : done.count (.step true) = s.retired
  pending : 0 < perTick →
    perTick * done.count .tick + s.pending = s.retired ∧ 0 ≤ s.pending ∧ s.pending ≤ perTick
  due : s.due = true ↔ perTick ≠ 0 ∧ s.pending = perTick
  ticks : perTick = 0 → .tick ∉ done
  limit : 0 < limit → (s.retired : Int) ≤ limit

variable {M : Model σ} {perTick : Int} {o : LoopOptions} {m : σ} {s t : LoopState}
    {w v : σ × List Event}

theorem turn_of_end (h : (M.isDone w.1 || !o.allows s.retired) = true) :
    turn (M.clocked perTick) o s w = .ok none w := by
  simp only [turn, Model.clocked, bind, EStateM.bind, h]
  rfl

theorem turn_eq_act (h : ¬(M.isDone w.1 || !o.allows s.retired) = true)
    (hdue : s.due = true → s.pending = perTick) :
    turn (M.clocked perTick) o s w = M.act perTick o s w := by
  simp only [turn, Model.act, Model.clocked, bind, EStateM.bind, h]
  cases hs : s.due with
  | false => rfl
  | true =>
    simp only [hdue hs, Bool.false_eq_true, if_false, EStateM.bind, beq_self_eq_true, if_true]
    cases M.tick w.1 <;> rfl

theorem turn_ne_none (h : ¬(M.isDone w.1 || !o.allows s.retired) = true)
    (hdue : s.due = true → s.pending = perTick) :
    turn (M.clocked perTick) o s w ≠ .ok none v := by
  rw [turn_eq_act h hdue, Model.act]
  intro hact
  split_ifs at hact
  · split at hact <;> cases hact
  · cases hact

theorem OnTime.tick {done : List Event} (h : OnTime perTick o.limit s done) (hs : s.due = true) :
    OnTime perTick o.limit { s with pending := 0, due := false } (.tick :: done) := by
  obtain ⟨hne, hpending⟩ := h.due.mp hs
  refine ⟨by simpa using h.retired, fun hpos => ⟨?_, le_rfl, hpos.le⟩,
    by simp [hne.symm], by simp [hne], h.limit⟩
  rw [← (h.pending hpos).1, hpending, List.count_cons_self, Nat.cast_succ]
  ring

theorem OnTime.advance {done : List Event} (h : OnTime perTick o.limit s done) (hs : s.due = false)
    (htimes : o.showTimes = false) (hallows : o.allows s.retired = true) (retires : Bool) :
    OnTime perTick o.limit (s.advance o retires perTick) (.step retires :: done) := by
  have hdue : ¬(perTick ≠ 0 ∧ s.pending = perTick) := by simp [← h.due, hs]
  constructor
  · cases retires <;> simp [LoopState.advance, h.retired]
  · intro hpos
    have := h.pending hpos
    cases retires <;> simp [LoopState.advance] <;> omega
  · simp [LoopState.advance, htimes]
  · simpa using h.ticks
  · intro hpos
    cases retires <;> simp [LoopState.advance, LoopOptions.allows] at * <;> omega

theorem OnTime.turn (h : OnTime perTick o.limit s w.2) (htimes : o.showTimes = false)
    (hturn : turn (M.clocked perTick) o s w = .ok (some t) v) : OnTime perTick o.limit t v.2 := by
  by_cases hend : (M.isDone w.1 || !o.allows s.retired) = true
  · cases (turn_of_end hend).symm.trans hturn
  rw [turn_eq_act hend fun hs => (h.due.mp hs).2] at hturn
  have hallows : o.allows s.retired = true := by simp_all
  unfold Model.act at hturn
  split_ifs at hturn with hs
  · split at hturn
    · cases hturn
      exact h.tick hs
    · cases hturn
  · cases hturn
    exact h.advance (by simpa using hs) htimes hallows _

theorem Reached.onTime (h : Reached M perTick o m s w) (htimes : o.showTimes = false) :
    OnTime perTick o.limit s w.2 := by
  induction h with
  | start => exact ⟨rfl, fun hpos => ⟨by simp, le_rfl, hpos.le⟩, by simp [eq_comm], by simp,
    le_of_lt⟩
  | turn _ hturn ih => exact ih.turn htimes hturn

/-- The loop runs from one point to the next as long as it does not end. -/
theorem turns_of_turn (hturn : turn (M.clocked perTick) o s w = .ok (some t) v) (n : Nat) :
    turns (M.clocked perTick) o (n + 1) s w = turns (M.clocked perTick) o n t v := by
  simp only [turns, bind, EStateM.bind, hturn]

theorem turns_of_end (h : (M.isDone w.1 || !o.allows s.retired) = true) (n : Nat) :
    turns (M.clocked perTick) o (n + 1) s w = .ok s w := by
  simp only [turns, bind, EStateM.bind, turn_of_end h]
  rfl

theorem Reached.exists_turns (h : Reached M perTick o m s w) :
    ∃ k, ∀ n, turns (M.clocked perTick) o (n + k) {} (m, []) =
    turns (M.clocked perTick) o n s w := by
  induction h with
  | start => exact ⟨0, fun n => rfl⟩
  | turn _ hturn ih =>
    obtain ⟨k, hk⟩ := ih
    exact ⟨k + 1, fun n => by rw [← turns_of_turn hturn, ← hk, Nat.add_right_comm, Nat.add_assoc]⟩

/-- Where the loop ends, it has come by its turns, and it has a reason to end. -/
theorem Reached.of_turns {n : Nat} (h : Reached M perTick o m s w) (htimes : o.showTimes = false)
    (hturns : turns (M.clocked perTick) o n s w = .ok t v) :
    Reached M perTick o m t v ∧ (M.isDone v.1 || !o.allows t.retired) = true := by
  induction n generalizing s w with
  | zero => cases hturns
  | succ n ih =>
    by_cases hend : (M.isDone w.1 || !o.allows s.retired) = true
    · rw [turns_of_end hend] at hturns
      cases hturns
      exact ⟨h, hend⟩
    · cases hturn : Riscv.turn (M.clocked perTick) o s w with
      | ok r u =>
        cases r with
        | some r =>
          rw [turns_of_turn hturn] at hturns
          exact ih (h.turn hturn) hturns
        | none => exact absurd hturn (turn_ne_none hend fun hs => ((h.onTime htimes).due.mp hs).2)
      | error e u =>
        simp only [turns, bind, EStateM.bind, hturn] at hturns
        cases hturns

/-- The loop ends exactly at the points at which the machine is done or the limit is reached.  At
every point the counts agree with what the machine did; once it is done, it does nothing more, and
until then, each turn below the limit is for the tick that is due or an instruction. -/
theorem ticks_and_ends (M : Model σ) (perTick : Int) (o : LoopOptions) (m : σ)
    (htimes : o.showTimes = false) (s : LoopState) (w : σ × List Event) :
    ((∃ n, turns (M.clocked perTick) o n {} (m, []) = .ok s w) ↔
      Reached M perTick o m s w ∧ (M.isDone w.1 = true ∨ o.allows s.retired = false)) ∧
    (Reached M perTick o m s w → OnTime perTick o.limit s w.2 ∧
      (M.isDone w.1 = true → ∀ n, turns (M.clocked perTick) o (n + 1) s w = .ok s w) ∧
      (M.isDone w.1 = false → o.allows s.retired = true →
        turn (M.clocked perTick) o s w = M.act perTick o s w)) := by
  refine ⟨⟨fun ⟨n, hturns⟩ => ?_, fun ⟨h, hend⟩ => ?_⟩,
    fun h => ⟨h.onTime htimes, fun hdone => ?_, ?_⟩⟩
  · simpa using Reached.start.of_turns htimes hturns
  · obtain ⟨k, hk⟩ := h.exists_turns
    exact ⟨1 + k, (hk 1).trans (turns_of_end (by simpa using hend) 0)⟩
  · exact turns_of_end (by simp [hdone])
  · intro hdone hallows
    exact turn_eq_act (by simp [hdone, hallows]) fun hs => ((h.onTime htimes).due.mp hs).2

/-- Two instructions make a tick, which takes a turn of its own; the loop ends at its limit. -/
theorem ticks_and_ends_two :
    Reached ⟨(· == 0), fun _ n => (true, n - 1), .ok⟩ 2 ⟨3, false⟩ 9 { retired := 3, pending := 1 }
      (6, [.step true, .tick, .step true, .step true]) ∧
    OnTime 2 3 { retired := 3, pending := 1 } [.step true, .tick, .step true, .step true] := by
  have h := ticks_and_ends ⟨(· == 0), fun _ n => (true, n - 1), .ok⟩ 2 ⟨3, false⟩ 9 rfl
    { retired := 3, pending := 1 } (6, [.step true, .tick, .step true, .step true])
  have hreached := (h.1.mp ⟨5, rfl⟩).1
  exact ⟨hreached, (h.2 hreached).1⟩

end Jib.Riscv
