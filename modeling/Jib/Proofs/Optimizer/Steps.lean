import Jib.Graph.Optimizer.Sums
import Jib.Proofs.Arena
import Jib.Proofs.Simulation
import Jib.Proofs.TypeEquality

/-!
# Single steps of the block optimizer

What the elementary steps of an optimizer do to its state.  A rule is a sequence of such steps, so
its run is computed by rewriting with these equations; the only step that can fail here is one that
emits a value while no block is being rebuilt.
-/

namespace Jib.Graph.OptM

variable {α : Type}

@[simp]
theorem pure_run (a : α) (s : OptState) : (pure a : OptM α) s = .ok a s := rfl

@[simp]
theorem value_run (v : ValueId) (s : OptState) : value v s = .ok (s.arena.value v) s := rfl

@[simp]
theorem typeOf_run (v : ValueId) (s : OptState) : typeOf v s = .ok (s.arena.typeOf v) s := rfl

@[simp]
theorem builtinName_run (name : String) (s : OptState) :
    builtinName name s = .ok (s.builtins name) s := rfl

@[simp]
theorem get_run (s : OptState) : (get : OptM OptState) s = .ok s s := rfl

@[simp]
theorem throw_run (e : Fault) (s : OptState) : (throw e : OptM α) s = .error e s := rfl

theorem ensure_run_true {c : Bool} (hc : c = true) (s : OptState) : ensure c s = .ok () s := by
  rw [hc]
  rfl

end Jib.Graph.OptM

namespace Jib.Graph.OptState

/-- The state with one more value that stands in no block. -/
def addValue (s : OptState) (x : Value) : OptState :=
  { s with arena := (s.arena.addValue x).2 }

/-- The state with one more value at the end of the block that is being rebuilt. -/
def emitted (s : OptState) (x : Value) : OptState :=
  { s.addValue x with newOps := s.newOps.map (·.push s.arena.values.size) }

/-- What stands for an operand. -/
def look (s : OptState) (v : ValueId) : ValueId :=
  if s.ranges.isSome then v else OptM.chase s.replaced (s.replaced.size + 1) v

end Jib.Graph.OptState

namespace Jib.Graph

/-- A state with given values in which a block is being rebuilt. -/
def rebuildingState (values : Array Value) : OptState where
  arena := { values := values, blocks := #[] }
  graph := default
  builtins := id
  doubleCasts := false
  anticipated := ∅
  entry := default
  followers := ∅
  ranges := none
  current := default
  newOps := some #[]

theorem look_rebuildingState (values : Array Value) (v : ValueId) :
    (rebuildingState values).look v = v := by
  simp [rebuildingState, OptState.look, OptM.chase]

end Jib.Graph

namespace Jib.Graph.OptM

@[simp]
theorem current_run (v : ValueId) (s : OptState) : current v s = .ok (s.look v) s := by
  rw [current, bind_ok (get_run s), OptState.look]
  split <;> rfl

@[simp]
theorem newConst_run (c : Const) (s : OptState) :
    newConst c s = .ok s.arena.values.size (s.addValue (.const c)) := rfl

theorem newMachineInt_run {n : Int} (hfits : GraphM.fitsWord n = true) (s : OptState) :
    newMachineInt n s = .ok s.arena.values.size (s.addValue (.const (.machineInt n))) := by
  unfold newMachineInt GraphM.newMachineInt
  rw [hfits]
  rfl

/-- Emitting a value while a block is being rebuilt puts it at the end of that block. -/
theorem emit_run (x : Value) (s : OptState) (hopen : s.newOps.isSome) :
    emit x s = .ok s.arena.values.size (s.emitted x) := by
  obtain ⟨ops, hops⟩ := Option.isSome_iff_exists.mp hopen
  have hnew : onArena (GraphM.newValue x) s = .ok s.arena.values.size (s.addValue x) := rfl
  have hnone : (s.addValue x).newOps.isNone = false := by
    simp [OptState.addValue, hops]
  rw [emit, bind_ok hnew, bind_ok (get_run _), hnone]
  rfl

theorem emit_closed (x : Value) (s : OptState) (hclosed : s.newOps = none) :
    emit x s = .error .internal (s.addValue x) := by
  have hnew : onArena (GraphM.newValue x) s = .ok s.arena.values.size (s.addValue x) := rfl
  have hnone : (s.addValue x).newOps.isNone = true := by
    simp [OptState.addValue, hclosed]
  rw [emit, bind_ok hnew, bind_ok (get_run _), hnone]
  rfl

theorem newOp_run (name : String) (args : List ValueId) (type : Ty) (s : OptState)
    (hopen : s.newOps.isSome) :
    newOp name args type none none s =
      .ok s.arena.values.size (s.emitted (.op ⟨.call, name, args.toArray, type, none, none⟩)) :=
  emit_run _ s hopen

@[simp]
theorem op?_run (v : ValueId) (s : OptState) : op? v s = .ok (s.arena.op? v) s := rfl

theorem operands_run (o : Operation) (s : OptState) :
    operands o s = .ok (o.args.toList.map s.look) s := by
  unfold operands
  induction o.args.toList with
  | nil => rfl
  | cons v vs ih =>
    rw [List.mapM_cons, bind_ok (current_run v s), bind_ok ih]
    rfl

theorem arg2_run {o : Operation} {x y : ValueId} (s : OptState) (hargs : o.args.toList = [x, y]) :
    arg2 o s = .ok (s.look x, s.look y) s := by
  rw [arg2, bind_ok (operands_run o s), hargs]
  rfl

end Jib.Graph.OptM
