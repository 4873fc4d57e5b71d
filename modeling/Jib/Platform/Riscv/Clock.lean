import Jib.Fault
import Jib.Power

/-!
# The main loop

Instructions are run one after the other until the machine is done or a limit is reached.  After a
number of instructions a tick is due, and it takes a turn of its own.
-/

namespace Jib.Riscv

open scoped Jib.Power

/-- What the main loop asks of a machine. -/
structure Clocked (m : Type → Type) where
  isDone : m Bool
  /-- Runs an instruction and tells whether it retires. -/
  step : Nat → m Bool
  tick : m Unit
  /-- How many instructions make a tick; there are no ticks if it is zero. -/
  perTick : m Int

structure LoopOptions where
  /-- How many instructions may retire; any number if it is zero. -/
  limit : Int
  showTimes : Bool
  deriving Repr, Inhabited

structure LoopState where
  retired : Nat := 0
  /-- Instructions since the last tick. -/
  pending : Int := 0
  /-- Whether the next turn is for a tick. -/
  due : Bool := false
  deriving Repr, BEq, DecidableEq, Inhabited

namespace LoopOptions

def allows (o : LoopOptions) (retired : Nat) : Bool := o.limit == 0 || (retired : Int) < o.limit

end LoopOptions

namespace LoopState

/-- The state after an instruction. -/
def advance (s : LoopState) (o : LoopOptions) (retires : Bool) (perTick : Int) : LoopState :=
  let retired := if retires then s.retired + 1 else s.retired
  let pending := if retires && perTick != 0 then s.pending + 1 else s.pending
  { retired := retired
    pending := pending
    due := (o.showTimes && retired % 2 ^ (32 : Nat) == 0) || (perTick != 0 && pending == perTick) }

end LoopState

variable {m : Type → Type} [Monad m] [MonadExceptOf Fault m]

/-- One turn of the loop; none if it ends. -/
def turn (c : Clocked m) (o : LoopOptions) (s : LoopState) : m (Option LoopState) := do
  if (← c.isDone) || !o.allows s.retired then return none
  if s.due then
    if s.pending == (← c.perTick) then
      c.tick
      return some { s with pending := 0, due := false }
    if o.showTimes && s.retired % 2 ^ (20 : Nat) == 0 then return some { s with due := false }
    throw .assertion
  let retires ← c.step s.retired
  return some (s.advance o retires (← c.perTick))

/-- Takes turns until the loop ends. -/
def turns (c : Clocked m) (o : LoopOptions) : Nat → LoopState → m LoopState
  | 0, _ => throw .internal
  | n + 1, s => do
    match ← turn c o s with
    | some s => turns c o n s
    | none => return s

end Jib.Riscv
