import Jib.Proofs.Order
import Mathlib.Data.List.Perm.Subperm
import Mathlib.Data.Fintype.EquivFin
import Mathlib.Order.WellFounded

/-!
# Topological orders

A block is listed as soon as it waits for no predecessor any more.  The table keeps, for every block
that is not ready, exactly those of its predecessors that are not listed yet; so nothing is ready
only if each of the blocks that are left waits for another one of them, which takes a loop.  The
order that copes with loops then goes on with the first block that is left in depth-first order,
whose dominators have all been listed: the depth-first walk, too, comes to them first.
-/

namespace Jib.Graph

variable {g : Graph} {a : Arena} {b c d : BlockId} {done ready ts : List BlockId} {m : Waiting}
variable {E F : BlockId → BlockId → Prop} {acc : Array BlockId} {loops : Bool}

/-! ### Who waits for whom -/

/-- A table that holds exactly the pairs of a relation. -/
structure Records (m : Waiting) (E : BlockId → BlockId → Prop) : Prop where
  mem : ∀ p c, p ∈ m.getD c [] ↔ E p c
  occupied : ∀ c, m.contains c = true → m.getD c [] ≠ []

theorem Records.contains_iff (h : Records m E) : m.contains c = true ↔ ∃ p, E p c := by
  constructor
  · intro hc
    obtain ⟨p, hp⟩ := List.exists_mem_of_ne_nil _ (h.occupied c hc)
    exact ⟨p, (h.mem p c).mp hp⟩
  · rintro ⟨p, hp⟩
    by_contra hnot
    have hmem := (h.mem p c).mpr hp
    rw [Std.HashMap.getD_eq_fallback_of_contains_eq_false (Bool.eq_false_of_not_eq_true hnot)]
      at hmem
    cases hmem

theorem Records.congr (h : Records m E) (hEF : ∀ p c, E p c ↔ F p c) : Records m F :=
  ⟨fun p c => (h.mem p c).trans (hEF p c), h.occupied⟩

theorem Records.set (h : Records m E) (c : BlockId) (ps : List BlockId) :
    Records (setWaiting m c ps) fun p d => if d = c then p ∈ ps else E p d := by
  have hget (d : BlockId) : (setWaiting m c ps).getD d [] = if d = c then ps else m.getD d [] := by
    unfold setWaiting
    cases ps <;> simp [Std.HashMap.getD_erase, Std.HashMap.getD_insert, eq_comm (a := c)]
  refine ⟨fun p d => ?_, fun d hd => ?_⟩ <;> rw [hget]
  · split_ifs
    · rfl
    · exact h.mem p d
  · have hold := h.occupied d
    unfold setWaiting at hd
    cases ps <;> grind

/-- At the start every block waits for its predecessors. -/
theorem records_waiting (a : Arena) (order : Array BlockId) :
    Records (waiting a order) fun p c => p ∈ order ∧ a.Edge p c := by
  have hall (es : List (BlockId × BlockId)) {m : Waiting} {E : BlockId → BlockId → Prop}
      (h : Records m E) :
      Records (es.foldl (fun m e => setWaiting m e.2 (e.1 :: m.getD e.2 [])) m)
        fun p c => E p c ∨ (p, c) ∈ es := by
    induction es generalizing m E with
    | nil => exact h.congr fun p c => by simp
    | cons e es ih =>
      refine (ih (h.set e.2 (e.1 :: m.getD e.2 []))).congr fun p c => ?_
      by_cases hc : c = e.2 <;> simp [hc, h.mem, Prod.ext_iff]
      tauto
  rw [waiting, ← Array.foldl_toList]
  refine (hall _ (E := fun _ _ => False) ⟨by simp, by simp⟩).congr fun p c => ?_
  simp [outEdges, Arena.Edge]

/-! ### One block is listed -/

theorem Records.foldl_release (h : Records m E) (b : BlockId) (ts : List BlockId) :
    Records (ts.foldl (release b) m) fun p d => E p d ∧ ¬ (p = b ∧ d ∈ ts) := by
  induction ts generalizing m E with
  | nil => exact h.congr fun p d => by simp
  | cons t ts ih =>
    refine (ih (h.set t ((m.getD t []).filter (· != b)))).congr fun p d => ?_
    by_cases hdt : d = t <;> simp [hdt, h.mem]
    tauto

theorem Records.mem_freed (h : Records m E) : c ∈ freed b m ts ↔ c ∈ ts ∧ ∀ p, E p c → p = b := by
  simp [freed, h.mem]

/-- Exactly the blocks that are neither listed nor ready wait, for their predecessors that are not
listed, and each of them has such a predecessor. -/
structure Sorting (g : Graph) (a : Arena) (done ready : List BlockId) (m : Waiting) : Prop where
  nodup : (done ++ ready).Nodup
  listed : ∀ c ∈ done ++ ready, c ∈ g.blocks a
  waits : Records m fun p c => c ∉ done ++ ready ∧ p ∈ g.blocks a ∧ a.Edge p c ∧ p ∉ done
  left : ∀ c ∈ g.blocks a, c ∉ done ++ ready → ∃ p ∈ g.blocks a, a.Edge p c ∧ p ∉ done

theorem Sorting.contains_iff (h : Sorting g a done ready m) :
    m.contains c = true ↔ c ∉ done ++ ready ∧ ∃ p ∈ g.blocks a, a.Edge p c ∧ p ∉ done := by
  rw [h.waits.contains_iff]
  exact ⟨fun ⟨p, hc, hp⟩ => ⟨hc, p, hp⟩, fun ⟨hc, p, hp⟩ => ⟨p, hc, hp⟩⟩

theorem mem_distinctTargets : c ∈ distinctTargets a b ↔ a.Edge b c := by
  simp [distinctTargets, Arena.Edge]

theorem nodup_distinctTargets (a : Arena) (b : BlockId) : (distinctTargets a b).Nodup :=
  Arena.nodup_eraseDups _

/-- Listing the next block, and releasing those of its successors that wait for it. -/
theorem Sorting.step (h : Sorting g a done (b :: ready) m) (hts : ts.Nodup)
    (hmem : ∀ c, c ∈ ts ↔ a.Edge b c ∧ c ∉ done ++ b :: ready) :
    Sorting g a (done ++ [b]) ((freed b m ts).reverse ++ ready) (ts.foldl (release b) m) ∧
      ∀ c ∈ freed b m ts, ∀ p ∈ g.blocks a, a.Edge p c → p ∈ done ++ [b] := by
  have hb : b ∈ g.blocks a := h.listed b (by simp)
  have hfreed (c : BlockId) : c ∈ freed b m ts ↔ _ := h.waits.mem_freed
  have hnodup : (freed b m ts).Nodup := hts.filter _
  have hold := h.nodup
  refine ⟨⟨by grind, fun c hc => ?_, (h.waits.foldl_release b ts).congr fun p c => ?_,
    fun c hc hnot => ?_⟩, fun c hc p hp hedge => ?_⟩
  · have hc' : c ∈ ts ∨ c ∈ done ++ b :: ready := by grind
    exact hc'.elim (fun hc => mem_blocks_of_edge hb ((hmem c).mp hc).1) (h.listed c)
  · have hc := hfreed c
    grind
  · obtain ⟨p, hp, hedge, hpdone⟩ := h.left c hc (by grind)
    by_contra hno
    push Not at hno
    have honly (q : BlockId) (hq : q ∈ g.blocks a) (hqc : a.Edge q c) (hqdone : q ∉ done) :
        q = b := by
      simpa [hqdone] using hno q hq hqc
    grind
  · obtain ⟨hmemc, honly⟩ := (hfreed c).mp hc
    by_contra hnot
    rw [List.mem_append, List.mem_singleton, not_or] at hnot
    exact hnot.2 (honly p ⟨((hmem c).mp hmemc).2, hp, hedge, hnot.1⟩)

/-- Going on with a block that still waits. -/
theorem Sorting.pick (h : Sorting g a done [] m) (hc : m.contains c = true) (hin : c ∈ g.blocks a) :
    Sorting g a done [c] (m.erase c) := by
  have hnot : c ∉ done := by simpa using (h.contains_iff.mp hc).1
  refine ⟨?_, ?_, (h.waits.set c []).congr ?_, ?_⟩
  · have hold := h.nodup
    grind
  · simpa [hin, or_imp, forall_and] using h.listed
  · simp
    tauto
  · intro x hx hleft
    exact h.left x hx (by simp_all)

/-! ### What comes before what -/

theorem exists_edge_of_ne_start (hb : b ∈ g.blocks a) (hne : b ≠ g.start) :
    ∃ p ∈ g.blocks a, a.Edge p b := by
  rcases Relation.ReflTransGen.cases_tail (mem_blocks_iff.mp hb) with heq | ⟨p, hp, hedge⟩
  · exact absurd heq hne
  · exact ⟨p, mem_blocks_iff.mpr hp, hedge⟩

/-- A block comes after its dominators, and without loops after its predecessors. -/
def Before (g : Graph) (a : Arena) (d c : BlockId) : Prop :=
  g.StrictlyDominates a d c ∨ g.LoopFree a ∧ d ∈ g.blocks a ∧ a.Edge d c

theorem Before.back (hd : g.Before a d c) (hc : c ∈ g.blocks a) :
    ∃ p ∈ g.blocks a, a.Edge p c ∧ (d = p ∨ g.Before a d p) := by
  rcases hd with hd | ⟨-, hblock, hedge⟩
  · obtain ⟨p, hp, hedge⟩ :=
      exists_edge_of_ne_start hc fun h => hd.2 (h ▸ eq_start_of_dominates (h ▸ hd.1))
    exact ⟨p, hp, hedge, (hd.of_edge hedge).imp_right .inl⟩
  · exact ⟨d, hblock, hedge, .inl rfl⟩

/-! ### All blocks are listed -/

/-- Without loops nothing is left when nothing is ready. -/
theorem Sorting.complete (h : Sorting g a done [] m) (hloop : g.LoopFree a) (hb : b ∈ g.blocks a) :
    b ∈ done := by
  let before (x y : { b // b ∈ (g.blocks a).toList }) : Prop := Relation.TransGen a.Edge x.1 y.1
  have hirrefl : Std.Irrefl before := ⟨fun x => hloop x.1 (Array.mem_toList_iff.mp x.2)⟩
  have hwf : WellFounded before := Finite.wellFounded_of_trans_of_irrefl before
  suffices hall : ∀ x : { b // b ∈ (g.blocks a).toList }, x.1 ∈ done from
    hall ⟨b, Array.mem_toList_iff.mpr hb⟩
  intro x
  induction x using hwf.induction with
  | h x ih =>
    -- a block that is left waits for another one
    by_contra hnot
    obtain ⟨p, hp, hedge, hpnot⟩ := h.left x.1 (Array.mem_toList_iff.mp x.2) (by simpa using hnot)
    exact hpnot (ih ⟨p, Array.mem_toList_iff.mpr hp⟩ (.single hedge))

/-- What comes before the first block that is left is listed: the depth-first walk, too, comes to
its dominators first. -/
theorem Sorting.before_picked (h : Sorting g a done [] m)
    (hfind : (g.blocks a).find? m.contains = some c) (hd : g.Before a d c) : d ∈ done := by
  rw [← Array.find?_toList] at hfind
  obtain ⟨hwaits, xs, ys, hsplit, hbefore⟩ := List.find?_eq_some_iff_append.mp hfind
  have hin {x : BlockId} (hx : x ∈ xs ++ c :: ys) : x ∈ g.blocks a :=
    Array.mem_toList_iff.mp (hsplit ▸ hx)
  rcases hd with hd | ⟨hloop, -⟩
  · have hturn := (walked_blocks g a).inTurn
    rw [hsplit] at hturn
    have hmem : d ∈ xs := hturn.mem_of_append hd
    by_contra hnot
    have hwaits : m.contains d = true := h.contains_iff.mpr
      ⟨by simpa using hnot, h.left d (hin (List.mem_append_left _ hmem)) (by simpa using hnot)⟩
    simpa [hwaits] using hbefore d hmem
  · exact absurd (h.complete hloop (hin (x := c) (by simp)))
      (by simpa using (h.contains_iff.mp hwaits).1)

/-- The successors that are released are those that are neither listed nor ready; without loops all
are, since one that is listed or ready would come after the block. -/
theorem Sorting.mem_released (h : Sorting g a done (b :: ready) m)
    (hrespects : Respects (g.Before a) done (b :: ready)) (hloops : loops = false → g.LoopFree a) :
    c ∈ (distinctTargets a b).filter (fun c => !loops || m.contains c) ↔
      a.Edge b c ∧ c ∉ done ++ b :: ready := by
  have hb : b ∈ g.blocks a := h.listed b (by simp)
  have hnew : b ∉ done := fun hb => List.disjoint_of_nodup_append h.nodup hb List.mem_cons_self
  rw [List.mem_filter, mem_distinctTargets, Bool.or_eq_true, h.contains_iff, Bool.not_eq_true']
  refine and_congr_right fun hedge => ⟨?_, fun hc => .inr ⟨hc, b, hb, hedge, hnew⟩⟩
  rintro (hfalse | hc)
  · have hbefore : g.Before a b c := .inr ⟨hloops hfalse, hb, hedge⟩
    exact fun hlisted => hnew ((List.mem_append.mp hlisted).elim
      (hrespects.turn.closed · hbefore) (hrespects.ready c · b hbefore))
  · exact hc.1

theorem sameBlocks_iff {xs ys : List BlockId} :
    sameBlocks xs ys = true ↔ ∀ b, b ∈ xs ↔ b ∈ ys := by
  simp only [sameBlocks, Bool.and_eq_true, List.all_eq_true, Std.HashSet.contains_ofList,
    List.contains_iff_mem]
  exact ⟨fun h b => ⟨h.1 b, h.2 b⟩, fun h => ⟨fun b => (h b).mp, fun b => (h b).mpr⟩⟩

/-- No assertion fails when a block is listed. -/
theorem Sorting.topoLoop_cons (h : Sorting g a acc.toList (b :: ready) m) (fuel : Nat) :
    let ts := (distinctTargets a b).filter fun c => !loops || m.contains c
    topoLoop a (g.blocks a) loops (fuel + 1) (b :: ready) m acc =
      topoLoop a (g.blocks a) loops fuel ((freed b m ts).reverse ++ ready) (ts.foldl (release b) m)
        (acc.push b) := by
  have hsame : sameBlocks (m.keys ++ (acc.toList ++ b :: ready)) (g.blocks a).toList = true := by
    refine sameBlocks_iff.mpr fun c => Iff.trans ?_ Array.mem_toList_iff.symm
    rw [List.mem_append, Std.HashMap.mem_keys, ← Std.HashMap.contains_iff_mem, h.contains_iff]
    constructor
    · rintro (⟨-, p, hp, hedge, -⟩ | hc)
      · exact mem_blocks_of_edge hp hedge
      · exact h.listed c hc
    · intro hc
      by_cases hlisted : c ∈ acc.toList ++ b :: ready
      · exact .inr hlisted
      · exact .inl ⟨hlisted, h.left c hc hlisted⟩
  have hwaits : m.contains b = false := by
    by_contra hb
    exact (h.contains_iff.mp (Bool.eq_true_of_not_eq_false hb)).1 (by simp)
  have hnew : acc.contains b = false := by
    by_contra hb
    exact List.disjoint_of_nodup_append h.nodup (by simpa using hb) List.mem_cons_self
  rw [topoLoop, hsame, hwaits, hnew, Bool.not_true, Bool.or_false, Bool.or_false, Bool.and_false]
  rfl

/-- The loop lists every block once, after what comes before it. -/
theorem Sorting.exists_topoLoop {fuel : Nat} (h : Sorting g a acc.toList ready m)
    (hrespects : Respects (g.Before a) acc.toList ready) (hloops : loops = false → g.LoopFree a)
    (hfuel : 2 * (g.blocks a).size < fuel + 2 * acc.size + min 1 ready.length) :
    ∃ order, topoLoop a (g.blocks a) loops fuel ready m acc = .ok order ∧ order.toList.Nodup ∧
      (∀ b, b ∈ order ↔ b ∈ g.blocks a) ∧ InTurn (g.Before a) [] order.toList := by
  induction fuel generalizing ready m acc with
  | zero =>
    have hsubset : acc.toList ++ ready ⊆ (g.blocks a).toList := fun c hc =>
      Array.mem_toList_iff.mpr (h.listed c hc)
    have hle := (h.nodup.subperm hsubset).length_le
    simp only [List.length_append, Array.length_toList] at hle
    omega
  | succ fuel ih =>
    cases ready with
    | nil =>
      rw [topoLoop]
      cases hfind : (g.blocks a).find? fun b => loops && m.contains b with
      | none =>
        have hall : ∀ b ∈ g.blocks a, b ∈ acc.toList := by
          cases loops with
          | false => exact fun b => h.complete (hloops rfl)
          | true =>
            intro b hb
            by_contra hnot
            refine Array.find?_eq_none.mp hfind b hb (h.contains_iff.mpr ?_)
            exact ⟨by simpa using hnot, h.left b hb (by simpa using hnot)⟩
        refine ⟨acc, rfl, by simpa using h.nodup, fun b => ?_, hrespects.turn⟩
        exact ⟨fun hb => h.listed b (by simpa using hb), fun hb => by simpa using hall b hb⟩
      | some c =>
        have hc := Array.find?_some hfind
        obtain rfl : loops = true := (Bool.and_eq_true_iff.mp hc).1
        refine ih (h.pick hc (Array.mem_of_find?_eq_some hfind))
          ⟨hrespects.turn, fun c' hc' d hd => ?_⟩ (by simp at hfuel ⊢; omega)
        exact h.before_picked hfind (List.mem_singleton.mp hc' ▸ hd)
    | cons b ready =>
      have hts := (nodup_distinctTargets a b).filter fun c => !loops || m.contains c
      obtain ⟨hstep, hfree⟩ := h.step hts fun c => h.mem_released hrespects hloops
      have hdone := hrespects.addDone
      -- what comes before a released block is done, since its predecessors are
      have hnext : Respects (g.Before a) (acc.toList ++ [b]) _ := ⟨hdone.turn, fun c hc d hd => by
        rcases List.mem_append.mp hc with hnew | hready
        · have hpreds := hfree c (List.mem_reverse.mp hnew)
          obtain ⟨p, hp, hedge, rfl | hdp⟩ := hd.back (hstep.listed c (List.mem_append_right _ hc))
          · exact hpreds d hp hedge
          · exact hdone.turn.closed (hpreds p hp hedge) hdp
        · exact hdone.ready c hready d hd⟩
      rw [← Array.toList_push] at hstep hnext
      rw [h.topoLoop_cons]
      exact ih hstep hnext (by simp at ⊢; omega)

/-- Only the first block has no predecessor. -/
theorem sorting_start (hstart : ∀ p ∈ g.blocks a, ¬ a.Edge p g.start) :
    Sorting g a [] [g.start] (waiting a (g.blocks a)) where
  nodup := by simp
  listed c hc := by
    rw [List.mem_singleton.mp hc]
    exact start_mem_blocks g a
  waits := (records_waiting a (g.blocks a)).congr fun p c => by
    constructor
    · rintro ⟨hp, hedge⟩
      exact ⟨fun hc => hstart p hp (List.mem_singleton.mp hc ▸ hedge), hp, hedge, List.not_mem_nil⟩
    · exact fun h => ⟨h.2.1, h.2.2.1⟩
  left c hc hnot := by
    obtain ⟨p, hp, hedge⟩ := exists_edge_of_ne_start hc (by simpa using hnot)
    exact ⟨p, hp, hedge, List.not_mem_nil⟩

theorem exists_listBlocks (loops : Bool) (hstart : ∀ p ∈ g.blocks a, ¬ a.Edge p g.start)
    (hloops : loops = false → g.LoopFree a) :
    ∃ order, g.listBlocks a loops = .ok order ∧ order.toList.Nodup ∧
      (∀ b, b ∈ order ↔ b ∈ g.blocks a) ∧ InTurn (g.Before a) [] order.toList := by
  have hrespects : Respects (g.Before a) [] [g.start] := by
    refine ⟨trivial, fun c hc d hd => ?_⟩
    obtain rfl := List.mem_singleton.mp hc
    obtain ⟨p, hp, hedge, -⟩ := hd.back (start_mem_blocks g a)
    exact absurd hedge (hstart p hp)
  have hsorting : Sorting g a (#[] : Array BlockId).toList [g.start] _ := sorting_start hstart
  have hfuel : 2 * (g.blocks a).size < 2 * (g.blocks a).size + 2 + 2 * 0 + 1 := by omega
  obtain ⟨order, horder, hnodup, hmem, hturn⟩ := hsorting.exists_topoLoop hrespects hloops hfuel
  refine ⟨order, ?_, hnodup, hmem, hturn⟩
  rw [listBlocks, horder]
  change (if _ then _ else _) = _
  rw [sameBlocks_iff.mpr (by simpa using hmem), Arena.noDuplicates_iff.mpr hnodup]
  rfl

theorem LoopFree.start (hloop : g.LoopFree a) : ∀ p ∈ g.blocks a, ¬ a.Edge p g.start :=
  fun p hp hedge => hloop p hp (Relation.TransGen.head' hedge (mem_blocks_iff.mp hp))

variable {order : Array BlockId}

theorem exists_topoOrder (hloop : g.LoopFree a) :
    ∃ order, g.topoOrder a = .ok order ∧ ∀ b ∈ order, b ∈ g.blocks a := by
  obtain ⟨order, horder, -, hmem, -⟩ := exists_listBlocks false hloop.start fun _ => hloop
  exact ⟨order, horder, fun b => (hmem b).mp⟩

/-- In a graph without loops the topological order lists every block once, after its
predecessors. -/
theorem topoOrder_spec (hloop : g.LoopFree a) (horder : g.topoOrder a = .ok order) :
    order.toList.Nodup ∧ (∀ b ∈ g.blocks a, b ∈ order) ∧ ReadyOrder g a [] order.toList := by
  obtain ⟨order', horder', hnodup, hmem, hturn⟩ :=
    exists_listBlocks false hloop.start fun _ => hloop
  obtain rfl := Except.ok.inj (horder.symm.trans horder')
  exact ⟨hnodup, fun b => (hmem b).mpr, hturn.imp fun p b h => .inr ⟨hloop, h⟩⟩

/-- A graph that says if it has a loop, and whose first block has no predecessor, has an order: it
lists every block that can be reached once, after all blocks that dominate it.  Without loops both
orders list the source of every edge before its target. -/
theorem orders_respect_dominance (g : Graph) (a : Arena) :
    ((∀ p, Relation.ReflTransGen a.Edge g.start p → ¬ a.Edge p g.start) →
      (g.hasLoop = false → g.LoopFree a) →
      ∃ order, g.bestTopoOrder a = .ok order ∧ order.toList.Nodup ∧
        (∀ b, b ∈ order ↔ Relation.ReflTransGen a.Edge g.start b) ∧
        ∀ xs b ys, order.toList = xs ++ b :: ys → ∀ d, g.Dominates a d b → d ≠ b → d ∈ xs) ∧
    (g.LoopFree a → ∀ f ∈ [topoOrder, bestTopoOrder],
      ∃ order, f g a = .ok order ∧ order.toList.Nodup ∧
        (∀ b, b ∈ order ↔ Relation.ReflTransGen a.Edge g.start b) ∧
        ∀ xs c ys, order.toList = xs ++ c :: ys → ∀ p ∈ order, a.Edge p c → p ∈ xs) := by
  simp only [← mem_blocks_iff]
  constructor
  · intro hstart hflag
    obtain ⟨order, horder, hnodup, hmem, hturn⟩ := exists_listBlocks _ hstart hflag
    refine ⟨order, horder, hnodup, hmem, fun xs b ys hsplit d hd hne => ?_⟩
    rw [hsplit] at hturn
    exact hturn.mem_of_append (.inl ⟨hd, hne⟩)
  · intro hloop f hf
    obtain ⟨loops, hloops⟩ : ∃ loops, f g a = g.listBlocks a loops := by
      simp at hf
      rcases hf with rfl | rfl <;> exact ⟨_, rfl⟩
    obtain ⟨order, horder, hnodup, hmem, hturn⟩ :=
      exists_listBlocks loops hloop.start fun _ => hloop
    refine ⟨order, hloops.trans horder, hnodup, hmem, fun xs c ys hsplit p hp hedge => ?_⟩
    rw [hsplit] at hturn
    exact hturn.mem_of_append (.inr ⟨hloop, (hmem p).mp hp, hedge⟩)

/-- Two blocks that lead to each other, both of which can be entered from the first block. -/
def irreducible : Graph := ⟨"zirreducible", #[0], 0, true⟩

def irreducibleArena : Arena where
  values := #[.argument "zb" .bool]
  blocks := #[⟨#[], .branch 0 1 2 none⟩, ⟨#[], .branch 0 2 3 none⟩, ⟨#[], .goto 1 none⟩,
    ⟨#[], .ret none none⟩]

theorem not_edge_irreducible (p : BlockId) : ¬ irreducibleArena.Edge p 0 :=
  Arena.not_edge_of_forall (by decide) p

/-- The order of a loop that is entered at both blocks. -/
theorem irreducible_ordered :
    ∃ order, irreducible.bestTopoOrder irreducibleArena = .ok order ∧ order.toList.Nodup ∧
      (∀ b, b ∈ order ↔ Relation.ReflTransGen irreducibleArena.Edge 0 b) ∧
      ∀ xs b ys, order.toList = xs ++ b :: ys →
        ∀ d, irreducible.Dominates irreducibleArena d b → d ≠ b → d ∈ xs :=
  (orders_respect_dominance irreducible irreducibleArena).1
    (fun p _ => not_edge_irreducible p) nofun

end Jib.Graph
