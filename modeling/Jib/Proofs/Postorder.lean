import Jib.Digraph
import Jib.Proofs.Order

/-!
# The order in which a depth-first search leaves blocks

The search leaves every block that can be reached once.  The block from which another one was
entered is still being searched when that one is left, so every block but the first has a
predecessor that comes after it.
-/

namespace Jib.Graph

open Jib.Digraph

variable {g : Graph} {a : Arena} {b v : BlockId} {vs xs ys u : List BlockId} {R S : BlockId → Prop}
variable {s s' s'' : Trace}

theorem Led.append (hxs : Led a S xs) (hys : Led a R ys)
    (hS : ∀ b, S b → R b ∨ ∃ p ∈ ys, a.Edge p b) : Led a R (xs ++ ys) := by
  induction xs with
  | nil => exact hys
  | cons b xs ih =>
    refine ⟨?_, ih hxs.2⟩
    rcases hxs.1 with hb | ⟨p, hp, hedge⟩
    · exact (hS b hb).imp_right fun ⟨p, hp, hedge⟩ => ⟨p, List.mem_append_right xs hp, hedge⟩
    · exact .inr ⟨p, List.mem_append_left ys hp, hedge⟩

theorem Led.of_append (h : Led a R (xs ++ ys)) : Led a R ys := by
  induction xs with
  | nil => exact h
  | cons x xs ih => exact ih h.2

/-- What a search from some blocks adds to what was seen and left before. -/
structure Searched (a : Arena) (R : BlockId → Prop) (vs : List BlockId) (s s' : Trace)
    (new : List BlockId) : Prop where
  left : leftNodes s'.2 = leftNodes s.2 ++ new
  seen : ∀ b, b ∈ s'.1 ↔ b ∈ s.1 ∨ b ∈ new
  nodup : new.Nodup
  fresh : ∀ b ∈ new, b ∉ s.1
  found : ∀ v ∈ vs, v ∈ s'.1
  closed : ∀ b ∈ new, ∀ c, a.Edge b c → c ∈ s'.1
  led : Led a R new

theorem Searched.cons (h : Searched a R [v] s s' xs) (hrest : Searched a R vs s' s'' ys) :
    Searched a R (v :: vs) s s'' (xs ++ ys) where
  left := by rw [hrest.left, h.left, List.append_assoc]
  seen b := by rw [hrest.seen, h.seen, List.mem_append, or_assoc]
  nodup := h.nodup.append hrest.nodup fun b hx hy => hrest.fresh b hy ((h.seen b).mpr (.inr hx))
  fresh := List.forall_mem_append.mpr
    ⟨h.fresh, fun b hb hs => hrest.fresh b hb ((h.seen b).mpr (.inl hs))⟩
  found := List.forall_mem_cons.mpr
    ⟨(hrest.seen v).mpr (.inl (h.found v List.mem_cons_self)), hrest.found⟩
  closed := List.forall_mem_append.mpr
    ⟨fun b hb c hc => (hrest.seen c).mpr (.inl (h.closed b hb c hc)), hrest.closed⟩
  led := h.led.append hrest.led fun _ => .inl

theorem leftNodes_push (steps : Array Step) (p v : Nat) (label : Label) :
    leftNodes (steps.push ⟨p, v, label⟩) =
      leftNodes steps ++ if label = .reverse then [v] else [] := by
  unfold leftNodes
  rw [Array.toList_push, List.filter_append, List.map_append]
  cases label <;> rfl

theorem exists_searched_foldlM {f : Trace → BlockId → Option Trace}
    (hf : ∀ s v, (∀ b ∈ g.blocks a, b ∉ s.1 → b ∈ u) → v ∈ vs →
      ∃ s' new, f s v = some s' ∧ Searched a R [v] s s' new)
    (hu : ∀ b ∈ g.blocks a, b ∉ s.1 → b ∈ u) :
    ∃ s' new, vs.foldlM f s = some s' ∧ Searched a R vs s s' new := by
  induction vs generalizing s with
  | nil => exact ⟨s, [], rfl, by simp, by simp, by simp, by simp, by simp, by simp, trivial⟩
  | cons v vs ih =>
    obtain ⟨s₁, xs, hfirst, hxs⟩ := hf s v hu List.mem_cons_self
    obtain ⟨s₂, ys, hrest, hys⟩ := ih (fun s w hs hw => hf s w hs (List.mem_cons_of_mem v hw))
      fun b hb hs => hu b hb fun hmem => hs ((hxs.seen b).mpr (.inl hmem))
    exact ⟨s₂, xs ++ ys, by simpa [hfirst] using hrest, hxs.cons hys⟩

/-- A block that is left when its successors have been searched. -/
theorem Searched.leave {steps : Array Step} {seen : Std.HashSet BlockId} {parent : BlockId}
    (h : Searched a (a.Edge v) (a.targets v) (seen.insert v, steps.push ⟨parent, v, .forward⟩)
      s' xs)
    (hv : v ∉ seen) (hR : R v) :
    Searched a R [v] (seen, steps) (s'.1, s'.2.push ⟨parent, v, .reverse⟩) (xs ++ [v]) := by
  have hfresh (b : BlockId) (hb : b ∈ xs) : v ≠ b ∧ b ∉ seen := by simpa using h.fresh b hb
  have hseen (b : BlockId) : b ∈ s'.1 ↔ (v = b ∨ b ∈ seen) ∨ b ∈ xs := by
    rw [h.seen, Std.HashSet.mem_insert, beq_iff_eq]
  refine ⟨by simp [leftNodes_push, h.left], fun b => ?_, ?_, ?_, ?_, ?_, ?_⟩
  · rw [hseen, List.mem_append, List.mem_singleton]
    tauto
  · exact List.nodup_append_comm.mpr
      (List.nodup_cons.mpr ⟨fun hmem => (hfresh v hmem).1 rfl, h.nodup⟩)
  · exact List.forall_mem_append.mpr ⟨fun b hb => (hfresh b hb).2, by simpa using hv⟩
  · exact List.forall_mem_singleton.mpr ((hseen v).mpr (.inl (.inl rfl)))
  · exact List.forall_mem_append.mpr ⟨h.closed, List.forall_mem_singleton.mpr h.found⟩
  · exact h.led.append ⟨.inl hR, trivial⟩ fun b hb => .inr ⟨v, List.mem_cons_self, hb⟩

/-- A search that may go as deep as there are blocks that it has not seen comes to its end. -/
theorem exists_searched {fuel parent : Nat} (hv : v ∈ g.blocks a) (hR : R v)
    (hu : ∀ b ∈ g.blocks a, b ∉ s.1 → b ∈ u) (hfuel : u.length < fuel) :
    ∃ s' new, search a.targets fuel parent s v = some s' ∧ Searched a R [v] s s' new := by
  induction fuel generalizing s u parent v R with
  | zero => exact absurd hfuel (Nat.not_lt_zero _)
  | succ fuel ih =>
    rw [search]
    split_ifs with hseen
    · exact ⟨_, [],
        rfl, by simp [leftNodes_push], by simp, by simp, by simp, by simpa using hseen, by simp,
        trivial⟩
    · have hmem := hu v hv hseen
      have hlength := List.length_erase_add_one hmem
      obtain ⟨s', new, hfold, h⟩ := exists_searched_foldlM (u := u.erase v)
        (s := (s.1.insert v, s.2.push ⟨parent, v, .forward⟩))
        (fun s w hs hw => ih (mem_blocks_of_edge hv hw) hw hs (by omega)) fun b hb hs => by
          rw [Std.HashSet.mem_insert, not_or] at hs
          exact (List.mem_erase_of_ne fun hbv => hs.1 (by simp [hbv])).mpr (hu b hb hs.2)
      exact ⟨_, new ++ [v], by rw [hfold]; rfl, h.leave hseen hR⟩

/-- An order in which a search leaves the blocks. -/
structure Postorder (g : Graph) (a : Arena) (order : List BlockId) : Prop where
  nodup : order.Nodup
  mem : ∀ b, b ∈ order ↔ b ∈ g.blocks a
  led : Led a (· = g.start) order

theorem exists_postorder (g : Graph) (a : Arena) : ∃ order,
    postorder a.targets (searchBound a.targets (g.blocks a).toList) g.start = some order ∧
      Postorder g a order := by
  obtain ⟨s, order, hsearch, h⟩ : ∃ s order, search a.targets
      (searchBound a.targets (g.blocks a).toList) g.start (∅, #[]) g.start = some s ∧
      Searched a (· = g.start) [g.start] (∅, #[]) s order :=
    exists_searched (start_mem_blocks g a) rfl (fun b hb _ => Array.mem_toList_iff.mpr hb) (by
      rw [searchBound]
      omega)
  have hseen (b : BlockId) : b ∈ s.1 ↔ b ∈ order := (h.seen b).trans (by simp)
  have hleft : leftNodes s.2 = order := by simpa [leftNodes] using h.left
  refine ⟨order, by simp [postorder, searchAll, hsearch, hleft], h.nodup,
    fun b => ⟨fun hb => ?_, fun hb => ?_⟩, h.led⟩
  · obtain ⟨path, hway, -⟩ := h.led.exists_way hb
    exact hway.mem_blocks
  · induction mem_blocks_iff.mp hb with
    | refl => exact (hseen _).mp (h.found _ List.mem_cons_self)
    | tail hreach hedge ih =>
      exact (hseen _).mp (h.closed _ (ih (mem_blocks_iff.mpr hreach)) _ hedge)

end Jib.Graph
