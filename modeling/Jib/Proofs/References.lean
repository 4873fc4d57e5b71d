import Jib.Proofs.Calls.ByValue

/-!
# Assignments through references

An assignment through a reference to a structure is written as a copy of the structure into the
value that is assigned.  So the value gets the fields of the structure, which stays as it was: the
assignment does what it says just if the two have the same fields to begin with.
-/

namespace Jib

open RunM

variable {s : Scope} {w : World} {p q : Nat}

/-- The line that is written for an assignment through a reference. -/
def assignLine (target value : Code.Expr) : Code.Line :=
  .evaluate (.method target "copy_into" [value]) none

/-- The structure that a reference refers to is copied into the value that is assigned, so it gets
the fields of the value, and nothing else changes, just if it has had them before. -/
theorem assigned_through_reference_iff {v x y : ValueId} {o : Operation} {env : Locals}
    {target value : Code.Expr} {depth : Nat} {w₀ w₁ : World} {cls : String}
    {ps : Array (String × Datum)} {fields : List (String × Packing)}
    (hkind : o.kind = .refAssignment) (hargs : o.args.toList = [x, y])
    (htarget : Exec.eval s (s.answer (depth + 1)) env target w₀ = .ok (.object p) w₁)
    (hvalue : Exec.eval s (s.answer (depth + 1)) env value w₁ = .ok (.object q) w)
    (hp : w.heap[p]? = some (.object cls ps)) (hq : w.IsObject q)
    (hclass : Exec.firstShape? s cls Exec.structFields? = some fields)
    (hset : ∀ n ∈ Scope.partsOf fields, (w.fieldOf p n).isSome) :
    (Compile.operation v o = do
      let target ← Compile.operand x
      let value ← Compile.operand y
      liftM (Compile.emit (assignLine target value))) ∧
    ∃ w', Exec.exec s (s.answer (depth + 1)) (.node (assignLine target value) []) env w₀
        = .ok (env, .next) w' ∧
      w.Copies w' p q (Scope.partsOf fields) ∧
      (((∀ n ∈ Scope.partsOf fields, w'.fieldOf p n = w.fieldOf q n) ∧
          ∀ r, r ≠ p → w'.fieldOf r = w.fieldOf r) ↔
        ∀ n ∈ Scope.partsOf fields, w.fieldOf p n = w.fieldOf q n) := by
  refine ⟨by simp only [Compile.operation, hkind, hargs, assignLine], ?_⟩
  obtain ⟨w', hrun, hcopies⟩ := copyFields_run (s := s) hq hset
  refine ⟨w', ?_, hcopies, ?_⟩
  · have hcopy : Exec.copyObject s cls (.object p) (some (.object q)) w = .ok (.object q) w' := by
      rw [Exec.copyObject, hclass]
      exact bind_ok hrun
    have hask : s.answer (depth + 1) (.builtin "copy_into" [.object p, .object q]) w
        = .ok (.object q) w' := by
      change Exec.objectMethod s (s.answer depth) "copy_into" [.object p, .object q] w = _
      rw [Exec.objectMethod, bind_ok (object_run hp)]
      exact hcopy
    have hvalues : Exec.evalList s (s.answer (depth + 1)) env [value] w₁ = .ok [.object q] w := by
      rw [Exec.evalList, bind_ok hvalue, Exec.evalList]
      rfl
    have hmethod : Exec.eval s (s.answer (depth + 1)) env (.method target "copy_into" [value]) w₀
        = .ok (.object q) w' := by
      rw [Exec.eval, bind_ok htarget, bind_ok hvalues]
      exact hask
    rw [assignLine, Exec.exec, bind_ok hmethod]
    rfl
  · rw [hcopies.source]
    refine ⟨And.left, fun hsame => ⟨hsame, fun r hr => ?_⟩⟩
    by_cases hrq : r = q
    · funext n
      rw [hrq, hcopies.field, ite_eq_right_iff]
      exact hsame n
    · exact World.fieldOf_congr (hcopies.frame r hrq)

/-- A box with seven is assigned to a box with three. -/
theorem assigned_through_reference_box :
    let w := Marking.world #[Marking.threeBox, .object "zbox" #[("zx", .int 7)]]
    let env := ((∅ : Locals).insert "zr" (.object 0)).insert "zv" (.object 1)
    let s := Marking.program []
    ∃ w', Exec.exec s (s.answer 1) (.node (assignLine (.local "zr") (.local "zv")) []) env w
        = .ok (env, .next) w' ∧ w'.fieldOf 0 "zx" = some (.int 3) ∧
        w'.fieldOf 1 "zx" = some (.int 3) := by
  intro w env s
  have hlocal {n : String} {d : Datum} (hn : env[n]? = some d) :
      Exec.eval s (s.answer 1) env (.local n) w = .ok d w := by
    simp only [Exec.eval, hn]
    rfl
  have hfield : w.fieldOf 0 "zx" = some (.int 3) := by
    simp [World.fieldOf, w, Marking.world, Marking.threeBox, lookField]
  obtain ⟨-, w', hrun, hcopies, -⟩ := assigned_through_reference_iff (v := 2) (x := 0) (y := 1)
    (o := ⟨.refAssignment, "$ref-assign", #[0, 1], .unit, none, none⟩) rfl rfl
    (hlocal (n := "zr") (d := .object 0) (by simp [env, Std.HashMap.getElem_insert]))
    (hlocal (n := "zv") (d := .object 1) (by simp [env])) rfl ⟨_, _, rfl⟩
    (Marking.firstShape?_program [])
    (by
      rintro n hn
      obtain rfl : n = "zx" := List.mem_singleton.mp hn
      rw [hfield]
      rfl)
  exact ⟨w', hrun, by rw [hcopies.source, hfield], (hcopies.field "zx").trans hfield⟩

end Jib
