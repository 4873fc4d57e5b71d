import Jib.Graph.Order
import Mathlib.Data.Finset.Card
import Mathlib.Logic.Relation

/-!
# What the orders of blocks list

The walk from the start block finds every block that can be reached, after the blocks that dominate
it.
-/

namespace Jib

variable {acc : Array BlockId} {todo : List BlockId} {d p : BlockId}

/-! ### Blocks that can be reached -/

namespace Arena

def Edge (a : Arena) (b c : BlockId) : Prop := c ∈ a.targets b

variable {a : Arena} {b : BlockId}

/-- No block leads to one that is a successor of no block of the arena. -/
theorem not_edge_of_forall {c : BlockId} (hall : ∀ x ∈ a.blocks.toList, c ∉ x.next.targets)
    (b : BlockId) : ¬ a.Edge b c := by
  rcases Nat.lt_or_ge b a.blocks.size with hb | hb
  · have hblock : a.block b ∈ a.blocks.toList := by simp [block, hb]
    exact hall _ hblock
  · simp [Edge, targets_of_size_le hb]

theorem nodup_eraseDups (xs : List Nat) : xs.eraseDups.Nodup := by
  induction hn : xs.length using Nat.strong_induction_on generalizing xs with
  | h n ih =>
    cases xs with
    | nil => simp
    | cons x xs =>
      rw [List.eraseDups_cons]
      have hlength := List.length_filter_le (fun y => !y == x) xs
      refine List.nodup_cons.mpr ⟨by simp, ih _ ?_ _ rfl⟩
      rw [← hn, List.length_cons]
      omega

theorem noDuplicates_iff {xs : Array Nat} : noDuplicates xs = true ↔ xs.toList.Nodup := by
  have hnodup := nodup_eraseDups xs.toList
  refine beq_iff_eq.trans ⟨fun hsize => ?_, fun hxs => ?_⟩
  · have hsub := hnodup.subperm fun _ => List.mem_eraseDups.mp
    exact (hsub.perm_of_length_le hsize.ge).nodup_iff.mp hnodup
  · exact ((List.perm_ext_iff_of_nodup hnodup hxs).mpr fun _ => List.mem_eraseDups).length_eq

end Arena

namespace Graph

variable {g : Graph} {a : Arena} {b c : BlockId}

/-! ### Dominance -/

/-- The blocks on a way through the graph, the last one first. -/
inductive Way (g : Graph) (a : Arena) : BlockId → List BlockId → Prop
  | start : Way g a g.start [g.start]
  | next {b c : BlockId} {path : List BlockId} (hway : Way g a b path) (hedge : a.Edge b c) :
      Way g a c (c :: path)

/-- Every way to a block leads through its dominators. -/
def Dominates (g : Graph) (a : Arena) (d b : BlockId) : Prop := ∀ path, Way g a b path → d ∈ path

theorem Dominates.of_edge (hd : g.Dominates a d c) (hne : d ≠ c) (hedge : a.Edge b c) :
    g.Dominates a d b := fun _ hway =>
  (List.mem_cons.mp (hd _ (hway.next hedge))).resolve_left hne

theorem eq_start_of_dominates (hd : g.Dominates a d g.start) : d = g.start :=
  List.mem_singleton.mp (hd _ .start)

theorem Way.reaches {path : List BlockId} (hway : Way g a b path) :
    Relation.ReflTransGen a.Edge g.start b := by
  induction hway with
  | start => exact .refl
  | next _ hedge ih => exact ih.tail hedge

theorem Way.last_mem {path : List BlockId} (hway : Way g a b path) : b ∈ path := by
  cases hway <;> exact List.mem_cons_self

theorem dominates_self (g : Graph) (a : Arena) (b : BlockId) : g.Dominates a b b :=
  fun _ hway => hway.last_mem

theorem dominates_start (g : Graph) (a : Arena) (b : BlockId) : g.Dominates a g.start b := by
  intro path hway
  induction hway with
  | start => exact List.mem_cons_self
  | next _ _ ih => exact List.mem_cons_of_mem _ ih

/-- A dominator other than the block itself. -/
def StrictlyDominates (g : Graph) (a : Arena) (d b : BlockId) : Prop := g.Dominates a d b ∧ d ≠ b

theorem StrictlyDominates.of_edge (hd : g.StrictlyDominates a d c) (hedge : a.Edge b c) :
    d = b ∨ g.StrictlyDominates a d b :=
  or_iff_not_imp_left.mpr fun hne => ⟨hd.1.of_edge hd.2 hedge, hne⟩

/-! ### Lists of blocks that respect a relation -/

/-- Every block that is not entered from outside has a predecessor that comes after it. -/
def Led (a : Arena) (R : BlockId → Prop) : List BlockId → Prop
  | [] => True
  | b :: bs => (R b ∨ ∃ p ∈ bs, a.Edge p b) ∧ Led a R bs

theorem Led.exists_way {xs : List BlockId} (h : Led a (· = g.start) xs) (hb : b ∈ xs) :
    ∃ path, Way g a b path ∧ path ⊆ xs := by
  induction xs generalizing b with
  | nil => cases hb
  | cons x xs ih =>
    rcases List.mem_cons.mp hb with rfl | hb
    · rcases h.1 with rfl | ⟨p, hp, hedge⟩
      · exact ⟨_, .start, by simp⟩
      · obtain ⟨path, hway, hsub⟩ := ih h.2 hp
        exact ⟨_, hway.next hedge, List.cons_subset_cons _ hsub⟩
    · obtain ⟨path, hway, hsub⟩ := ih h.2 hb
      exact ⟨path, hway, List.subset_cons_of_subset _ hsub⟩

/-- When the turn of a block comes, all blocks that the relation puts before it are done. -/
def InTurn (R : BlockId → BlockId → Prop) : List BlockId → List BlockId → Prop
  | _, [] => True
  | done, b :: rest => (∀ d, R d b → d ∈ done) ∧ InTurn R (done ++ [b]) rest

/-- Every block comes after its predecessors. -/
def ReadyOrder (g : Graph) (a : Arena) : List BlockId → List BlockId → Prop :=
  InTurn fun p b => p ∈ g.blocks a ∧ a.Edge p b

/-- What a loop that lists blocks knows: those that are done came in turn, and so do those that come
next. -/
structure Respects (R : BlockId → BlockId → Prop) (done next : List BlockId) : Prop where
  turn : InTurn R [] done
  ready : ∀ c ∈ next, ∀ d, R d c → d ∈ done

variable {R S : BlockId → BlockId → Prop} {done next rest : List BlockId}

theorem InTurn.concat (h : InTurn R done rest) (hb : ∀ d, R d b → d ∈ done ++ rest) :
    InTurn R done (rest ++ [b]) := by
  induction rest generalizing done with
  | nil => exact ⟨by simpa using hb, trivial⟩
  | cons x rest ih => exact ⟨h.1, ih h.2 (by simpa using hb)⟩

theorem Respects.addDone (h : Respects R done (b :: next)) : Respects R (done ++ [b]) next where
  turn := h.turn.concat (h.ready b List.mem_cons_self)
  ready c hc d hd := List.mem_append_left _ (h.ready c (List.mem_cons_of_mem _ hc) d hd)

theorem InTurn.imp (h : InTurn R done rest) (himp : ∀ d b, S d b → R d b) :
    InTurn S done rest := by
  induction rest generalizing done with
  | nil => trivial
  | cons b rest ih => exact ⟨fun d hd => h.1 d (himp d b hd), ih h.2⟩

theorem InTurn.mem_of_append {xs ys : List BlockId} (h : InTurn R done (xs ++ b :: ys))
    (hd : R d b) : d ∈ done ++ xs := by
  induction xs generalizing done with
  | nil => exact List.mem_append_left _ (h.1 d hd)
  | cons x xs ih => simpa using ih h.2

theorem InTurn.closed (h : InTurn R [] done) (hc : c ∈ done) (hd : R d c) : d ∈ done := by
  obtain ⟨xs, ys, rfl⟩ := List.append_of_mem hc
  exact List.mem_append_left _ (h.mem_of_append hd)

/-- The dominators of a block are on every way to it. -/
theorem Led.inTurn {xs : List BlockId} (h : Led a (· = g.start) xs) :
    InTurn (g.StrictlyDominates a) [] xs.reverse := by
  induction xs with
  | nil => trivial
  | cons b xs ih =>
    rw [List.reverse_cons]
    refine (ih h.2).concat fun d hd => ?_
    obtain ⟨path, hway, hsub⟩ := h.exists_way List.mem_cons_self
    simpa [hd.2] using hsub (hd.1 path hway)

/-! ### The depth-first walk -/

/-- What a walk knows: it comes to a block along an edge from one that it has come to, and keeps the
ends of all edges that it has come to. -/
structure Walked (g : Graph) (a : Arena) (acc : Array BlockId) (todo : List BlockId) : Prop where
  start : g.start ∈ acc ∨ g.start ∈ todo
  closed : ∀ b ∈ acc, ∀ c, a.Edge b c → c ∈ acc ∨ c ∈ todo
  led : Led a (· = g.start) acc.toList.reverse
  found : ∀ b ∈ todo, b = g.start ∨ ∃ p ∈ acc, a.Edge p b

theorem Walked.skip (h : Walked g a acc (b :: todo)) (hb : b ∈ acc) : Walked g a acc todo := by
  have hkeep (c : BlockId) (hc : c ∈ acc ∨ c ∈ b :: todo) : c ∈ acc ∨ c ∈ todo := by
    grind
  exact ⟨hkeep _ h.start, fun c hc d hcd => hkeep d (h.closed c hc d hcd), h.led,
    fun c hc => h.found c (List.mem_cons_of_mem b hc)⟩

theorem Walked.visit {ts : List BlockId} (h : Walked g a acc (b :: todo))
    (hts : ∀ c ∈ ts, a.Edge b c) (hedges : ∀ c, a.Edge b c → c ∈ acc.push b ∨ c ∈ ts ++ todo) :
    Walked g a (acc.push b) (ts ++ todo) := by
  have hkeep (c : BlockId) (hc : c ∈ acc ∨ c ∈ b :: todo) : c ∈ acc.push b ∨ c ∈ ts ++ todo := by
    grind
  obtain ⟨hb, htodo⟩ := List.forall_mem_cons.mp h.found
  refine ⟨hkeep _ h.start, fun c hc d hcd => ?_, ?_, List.forall_mem_append.mpr ⟨?_, ?_⟩⟩
  · rcases Array.mem_push.mp hc with hc | rfl
    · exact hkeep d (h.closed c hc d hcd)
    · exact hedges d hcd
  · rw [Array.toList_push, List.reverse_append]
    exact ⟨hb.imp_right (by simp), h.led⟩
  · exact fun c hc => .inr ⟨b, Array.mem_push_self, hts c hc⟩
  · exact fun c hc => (htodo c hc).imp_right fun ⟨p, hp, hedge⟩ =>
      ⟨p, Array.mem_push_of_mem b hp, hedge⟩

/-- What a walk knows holds when it comes to its end. -/
theorem Walked.exhaust {seen : Std.HashSet BlockId} (h : Walked g a acc todo) (again : Bool)
    (hseen : ∀ b, seen.contains b = true ↔ b ∈ acc) :
    Walked g a (a.reachFrom again todo seen acc) [] := by
  fun_induction Arena.reachFrom a again todo seen acc with
  | case1 => exact h
  | case2 b todo seen acc hfound ih =>
    have hb := (hseen b).mp hfound
    cases again with
    | false => exact ih (h.skip hb) hseen
    | true =>
      -- All successors were found before.
      refine ih (h.visit (List.forall_mem_nil _) fun c hc => ?_) fun c => ?_
      · have := h.closed b hb c hc
        grind
      · rw [hseen, dif_pos rfl, Array.mem_push]
        exact ⟨.inl, fun hc => hc.elim id fun hc => hc ▸ hb⟩
  | case3 b todo seen acc hfound ih =>
    have hinsert (c : BlockId) : (seen.insert b).contains c = true ↔ c ∈ acc.push b := by
      rw [Std.HashSet.contains_insert, Bool.or_eq_true, hseen, Array.mem_push, beq_iff_eq, or_comm,
        eq_comm]
    refine ih (h.visit (fun c hc => ?_) fun c hc => ?_) hinsert
    · exact (List.mem_filter.mp (List.mem_reverse.mp hc)).1
    · cases hc' : (seen.insert b).contains c <;> simp_all [Arena.Edge]

theorem walked_reachFrom (g : Graph) (a : Arena) (again : Bool) :
    Walked g a (a.reachFrom again [g.start] ∅ #[]) [] := by
  have hstart : Walked g a #[] [g.start] := ⟨by simp, by simp, trivial, by simp⟩
  exact hstart.exhaust again (by simp)

theorem walked_blocks (g : Graph) (a : Arena) : Walked g a (g.blocks a) [] :=
  walked_reachFrom g a false

theorem Walked.inTurn (h : Walked g a acc todo) : InTurn (g.StrictlyDominates a) [] acc.toList := by
  simpa using h.led.inTurn

/-- A finished walk has come to the blocks that can be reached. -/
theorem Walked.mem_iff (h : Walked g a acc []) :
    b ∈ acc ↔ Relation.ReflTransGen a.Edge g.start b := by
  refine ⟨fun hb => ?_, fun hreach => ?_⟩
  · obtain ⟨path, hway, -⟩ := h.led.exists_way (List.mem_reverse.mpr (Array.mem_toList_iff.mpr hb))
    exact hway.reaches
  · induction hreach with
    | refl => exact h.start.resolve_right List.not_mem_nil
    | tail _ hedge ih => exact (h.closed _ ih _ hedge).resolve_right List.not_mem_nil

theorem mem_blocks_iff : b ∈ g.blocks a ↔ Relation.ReflTransGen a.Edge g.start b :=
  (walked_blocks g a).mem_iff

theorem start_mem_blocks (g : Graph) (a : Arena) : g.start ∈ g.blocks a := mem_blocks_iff.mpr .refl

theorem Way.mem_blocks {path : List BlockId} (hway : Way g a b path) : b ∈ g.blocks a :=
  mem_blocks_iff.mpr hway.reaches

theorem mem_blocks_of_edge (hb : b ∈ g.blocks a) (hbc : a.Edge b c) : c ∈ g.blocks a :=
  mem_blocks_iff.mpr ((mem_blocks_iff.mp hb).tail hbc)

/-! ### The map of predecessors -/

variable {m : EntryMap} {E : BlockId → BlockId → Prop} {ps : Array BlockId} {ts xs : List BlockId}

theorem get_set (m : EntryMap) (b c : BlockId) (ps : Array BlockId) :
    (m.set b ps).get c = if b = c then ps else m.get c := by
  unfold EntryMap.set
  split_ifs <;> simp_all [EntryMap.get, Std.HashMap.getD_insert]

theorem order_set : (m.set b ps).order = if m.contains b then m.order else m.order.push b := by
  unfold EntryMap.set EntryMap.contains
  split_ifs <;> rfl

/-- A map that holds some edges and lists their targets in turn. -/
structure Lists (m : EntryMap) (E R : BlockId → BlockId → Prop) : Prop where
  get : ∀ p c, p ∈ m.get c ↔ E p c
  contains : ∀ c, m.contains c = true ↔ c ∈ m.order
  mem : ∀ c, c ∈ m.order ↔ ∃ p, E p c
  turn : InTurn R [] m.order.toList

theorem Lists.mem_set (h : Lists m E R) : c ∈ (m.set b ps).order ↔ b = c ∨ c ∈ m.order := by
  rw [order_set]
  split_ifs with hb
  · have hmem := (h.contains b).mp hb
    exact ⟨.inr, fun hc => hc.elim (fun hbc => hbc ▸ hmem) id⟩
  · rw [Array.mem_push, or_comm, eq_comm]

theorem Lists.turn_set (h : Lists m E R) (hb : ∀ d, R d b → d ∈ m.order) :
    InTurn R [] (m.set b ps).order.toList := by
  rw [order_set]
  split_ifs
  · exact h.turn
  · rw [Array.toList_push]
    exact h.turn.concat (by simpa using hb)

theorem Lists.contains_set (h : Lists m E R) :
    (m.set b ps).contains c = true ↔ c ∈ (m.set b ps).order := by
  have hinsert : (m.set b ps).contains c = true ↔ b = c ∨ m.contains c = true := by
    unfold EntryMap.set EntryMap.contains
    split_ifs <;> simp
  rw [hinsert, h.contains, h.mem_set]

theorem Lists.foldl (h : Lists m E R) (hts : ∀ c ∈ ts, ∀ d, R d c → d ∈ m.order) (p : BlockId) :
    Lists (ts.foldl (fun m c => m.add c p) m) (fun q x => E q x ∨ q = p ∧ x ∈ ts) R := by
  induction ts generalizing m E with
  | nil => simpa using h
  | cons c ts ih =>
    obtain ⟨hc, hts⟩ := List.forall_mem_cons.mp hts
    have hadd : Lists (m.add c p) (fun q x => E q x ∨ q = p ∧ x = c) R := by
      refine ⟨fun q x => ?_, fun x => h.contains_set, fun x => ?_, h.turn_set hc⟩
      · rw [EntryMap.add, get_set, ← h.get]
        split_ifs with hcx
        · simp [hcx]
        · simp [Ne.symm hcx]
      · rw [EntryMap.add, h.mem_set, h.mem, exists_or, or_comm]
        simp [eq_comm]
    have hrest := ih hadd fun x hx d hd => h.mem_set.mpr (.inr (hts x hx d hd))
    simpa only [List.foldl_cons, List.mem_cons, and_or_left, or_assoc] using hrest

theorem Led.exists_edge {S : BlockId → Prop} (h : Led a S (b :: xs)) (hd : d ∈ b :: xs) :
    S d ∨ ∃ p ∈ xs, a.Edge p d := by
  induction xs generalizing b with
  | nil => exact List.mem_singleton.mp hd ▸ h.1
  | cons c xs ih =>
    rcases List.mem_cons.mp hd with rfl | hd
    · exact h.1
    · exact (ih h.2 hd).imp_right fun ⟨p, hp, hedge⟩ => ⟨p, List.mem_cons_of_mem c hp, hedge⟩

/-- The dominators that stand in the map before a block: the first block may come later. -/
def DominatesInside (g : Graph) (a : Arena) (d b : BlockId) : Prop :=
  g.StrictlyDominates a d b ∧ d ≠ g.start

/-- What dominates a successor was come to before, so an edge to it has been met. -/
theorem Led.lists (h : Led a (· = g.start) xs) :
    Lists ((outEdges a xs.reverse.toArray).foldl (fun m e => m.add e.2 e.1) .empty)
      (fun p c => p ∈ xs ∧ a.Edge p c) (g.DominatesInside a) := by
  induction xs with
  | nil => exact ⟨by simp [outEdges, EntryMap.empty, EntryMap.get],
      by simp [outEdges, EntryMap.empty, EntryMap.contains], by simp [outEdges, EntryMap.empty],
      trivial⟩
  | cons b xs ih =>
    have hlists := (ih h.2).foldl (fun c (hc : c ∈ a.targets b) d hd => ?_) b
    · have hsame (p c : BlockId) : (p ∈ xs ∧ a.Edge p c) ∨ p = b ∧ c ∈ a.targets b ↔
          p ∈ b :: xs ∧ a.Edge p c := by
        rw [List.mem_cons, or_and_right, or_comm]
        exact or_congr_left (and_congr_right fun hp => hp ▸ Iff.rfl)
      simpa only [hsame, outEdges, List.reverse_cons, List.flatMap_toArray, List.flatMap_append,
        List.flatMap_singleton, List.foldl_toArray', List.foldl_append, List.foldl_map] using hlists
    · obtain ⟨path, hway, hsub⟩ := h.exists_way List.mem_cons_self
      have hmem : d ∈ b :: xs := by
        rcases hd.1.of_edge hc with rfl | hd
        · exact List.mem_cons_self
        · exact hsub (hd.1 path hway)
      exact ((ih h.2).mem d).mpr ((h.exists_edge hmem).resolve_left hd.2)

theorem exists_lists_entryMap (g : Graph) (a : Arena) : ∃ m, g.entryMap a = m.set g.start #[] ∧
    Lists m (fun p c => p ∈ g.blocks a ∧ a.Edge p c) (g.DominatesInside a) := by
  have hwalk := walked_reachFrom g a true
  have hlists := hwalk.led.lists
  simp only [List.mem_reverse, Array.mem_toList_iff, hwalk.mem_iff, ← mem_blocks_iff,
    List.reverse_reverse] at hlists
  exact ⟨_, rfl, hlists⟩

/-- The map of predecessors holds the edges between the blocks, but none to the first one. -/
theorem mem_get_entryMap :
    p ∈ (g.entryMap a).get b ↔ b ≠ g.start ∧ p ∈ g.blocks a ∧ a.Edge p b := by
  obtain ⟨m, hm, h⟩ := exists_lists_entryMap g a
  rw [hm, get_set]
  split_ifs with hb
  · simp [hb]
  · simp [h.get, Ne.symm hb]

theorem mem_order_entryMap : b ∈ (g.entryMap a).order ↔ b ∈ g.blocks a := by
  obtain ⟨m, hm, h⟩ := exists_lists_entryMap g a
  rw [hm, h.mem_set, h.mem]
  constructor
  · rintro (rfl | ⟨p, hp, hedge⟩)
    · exact start_mem_blocks g a
    · exact mem_blocks_of_edge hp hedge
  · intro hb
    rcases (mem_blocks_iff.mp hb).cases_tail with hstart | ⟨p, hp, hedge⟩
    · exact .inl hstart.symm
    · exact .inr ⟨p, mem_blocks_iff.mpr hp, hedge⟩

theorem contains_entryMap : (g.entryMap a).contains b = true ↔ b ∈ g.blocks a := by
  rw [← mem_order_entryMap]
  obtain ⟨m, hm, h⟩ := exists_lists_entryMap g a
  rw [hm, h.contains_set]

theorem inTurn_entryMap (g : Graph) (a : Arena) :
    InTurn (g.DominatesInside a) [] (g.entryMap a).order.toList := by
  obtain ⟨m, hm, h⟩ := exists_lists_entryMap g a
  rw [hm]
  exact h.turn_set fun d hd => absurd (eq_start_of_dominates hd.1.1) hd.2

/-- No way along the edges leads from a block of the graph back to it. -/
def LoopFree (g : Graph) (a : Arena) : Prop :=
  ∀ b ∈ g.blocks a, ¬ Relation.TransGen a.Edge b b

/-- Edges that only lead to larger numbers make no loop. -/
theorem loopFree_of_lt (hless : ∀ b ∈ g.blocks a, ∀ c, a.Edge b c → b < c) : g.LoopFree a := by
  have hreach {b c : BlockId} (hb : b ∈ g.blocks a) (hbc : Relation.TransGen a.Edge b c) :
      b < c ∧ c ∈ g.blocks a := by
    induction hbc with
    | single hedge => exact ⟨hless b hb _ hedge, mem_blocks_of_edge hb hedge⟩
    | tail _ hedge ih =>
      exact ⟨ih.1.trans (hless _ ih.2 _ hedge), mem_blocks_of_edge ih.2 hedge⟩
  exact fun b hb hbb => Nat.lt_irrefl b (hreach hb hbb).1

end Graph

end Jib
