import Jib.Graph.Dominance
import Jib.Proofs.Postorder
import Mathlib.Data.List.Perm.Subperm

/-!
# Dominance among the blocks of a graph

Dominators are found by sweeping over the blocks until nothing changes.  Before the sweeps are done
a table may still name blocks that dominate nothing, but each sweep makes it right for ways that are
longer by one block, and no way needs to be longer than the graph has blocks.
-/

namespace Jib.Graph

open Jib.Digraph

variable {g : Graph} {a : Arena} {b c d e p u v : BlockId} {path xs ys order done : List BlockId}
variable {rank : BlockId → Nat} {k : Nat}

/-! ### Ways -/

theorem Way.part (hway : Way g a b path) (hd : d ∈ path) :
    ∃ part, Way g a d part ∧ part <:+ path := by
  induction hway with
  | start =>
    obtain rfl := List.mem_singleton.mp hd
    exact ⟨_, .start, List.suffix_rfl⟩
  | next hway hedge ih =>
    rcases List.mem_cons.mp hd with rfl | hd
    · exact ⟨_, hway.next hedge, List.suffix_rfl⟩
    · obtain ⟨part, hpart, hsuffix⟩ := ih hd
      exact ⟨part, hpart, hsuffix.trans (List.suffix_cons _ _)⟩

theorem Dominates.mem_blocks (hd : g.Dominates a d b) (hb : b ∈ g.blocks a) : d ∈ g.blocks a := by
  obtain ⟨order, -, horder⟩ := exists_postorder g a
  obtain ⟨path, hway, hsub⟩ := horder.led.exists_way ((horder.mem b).mpr hb)
  exact (horder.mem d).mp (hsub (hd path hway))

/-- A way can be shortened until it comes through no block twice. -/
theorem Way.exists_nodup (hway : Way g a b path) :
    ∃ short, Way g a b short ∧ short.Nodup ∧ short ⊆ path := by
  induction hway with
  | start => exact ⟨_, .start, List.nodup_singleton _, List.Subset.refl _⟩
  | @next b c path hway hedge ih =>
    obtain ⟨short, hshort, hnodup, hsub⟩ := ih
    have hsub := List.subset_cons_of_subset c hsub
    by_cases hc : c ∈ short
    · obtain ⟨part, hpart, hsuffix⟩ := hshort.part hc
      exact ⟨part, hpart, hnodup.sublist hsuffix.sublist, List.Subset.trans hsuffix.subset hsub⟩
    · exact ⟨c :: short, hshort.next hedge, List.nodup_cons.mpr ⟨hc, hnodup⟩,
        List.cons_subset.mpr ⟨List.mem_cons_self, hsub⟩⟩

/-- Every way of at most so many blocks leads through a block. -/
def DominatesWithin (g : Graph) (a : Arena) (k : Nat) (d b : BlockId) : Prop :=
  ∀ path, Way g a b path → path.length ≤ k → d ∈ path

theorem dominatesWithin_self (g : Graph) (a : Arena) (k : Nat) (b : BlockId) :
    g.DominatesWithin a k b b :=
  fun _ hway _ => hway.last_mem

theorem DominatesWithin.mono (h : g.DominatesWithin a (k + 1) d b) : g.DominatesWithin a k d b :=
  fun path hway hlength => h path hway (hlength.trans k.le_succ)

theorem DominatesWithin.trans (hcd : g.DominatesWithin a k c d) (hdb : g.DominatesWithin a k d b) :
    g.DominatesWithin a k c b := by
  intro path hway hlength
  obtain ⟨part, hpart, hsuffix⟩ := hway.part (hdb path hway hlength)
  exact hsuffix.subset (hcd part hpart (hsuffix.length_le.trans hlength))

theorem Dominates.trans (hcd : g.Dominates a c d) (hdb : g.Dominates a d b) : g.Dominates a c b :=
  fun path hway => DominatesWithin.trans (fun p hp _ => hcd p hp) (fun p hp _ => hdb p hp) path
    hway le_rfl

/-- What dominates all predecessors within some length dominates a block within one more. -/
theorem DominatesWithin.of_edges (hb : b ≠ g.start)
    (h : ∀ p ∈ g.blocks a, k ≠ 0 → a.Edge p b → g.DominatesWithin a k d p) :
    g.DominatesWithin a (k + 1) d b := by
  intro path hway hlength
  cases hway with
  | start => exact absurd rfl hb
  | @next p _ path hway hedge =>
    have hk : path.length ≤ k := by simpa using hlength
    have hpos := List.length_pos_of_mem hway.last_mem
    exact List.mem_cons_of_mem b (h p hway.mem_blocks (by omega) hedge path hway hk)

/-- No way needs to be longer than the graph has blocks. -/
theorem DominatesWithin.dominates (h : g.DominatesWithin a k d b) (hxs : ∀ b ∈ g.blocks a, b ∈ xs)
    (hk : xs.length ≤ k) : g.Dominates a d b := by
  intro path hway
  obtain ⟨short, hshort, hnodup, hsub⟩ := hway.exists_nodup
  have hblocks : short ⊆ xs := fun c hc => by
    obtain ⟨part, hpart, -⟩ := hshort.part hc
    exact hxs c hpart.mem_blocks
  exact hsub (h short hshort ((hnodup.subperm hblocks).length_le.trans hk))

/-! ### Passes over a table -/

section Passes

variable {β : Type} {nodes rest : List BlockId} {P : Nat → BlockId → β → Prop}
    {refs : β → List BlockId}
variable {t t' : Std.HashMap BlockId β} {x : β}

/-- What a table holds that is right for ways of at most so many blocks, and where a pass is done
for ways that are longer by one. -/
structure Swept (nodes : List BlockId) (P : Nat → BlockId → β → Prop)
    (refs : β → List BlockId) (k : Nat)
    (done : List BlockId) (t : Std.HashMap BlockId β) : Prop where
  entry : ∀ b x, t[b]? = some x →
    b ∈ nodes ∧ P k b x ∧ (b ∈ done → P (k + 1) b x) ∧ ∀ c ∈ refs x, c ∈ t
  full : ∀ b ∈ nodes, k ≠ 0 ∨ b ∈ done → b ∈ t

variable (hmono : ∀ k b x, P (k + 1) b x → P k b x)
include hmono

theorem Swept.next (h : Swept nodes P refs k done t) (hb : b ∈ nodes) (hx : P (k + 1) b x)
    (hrefs : ∀ c ∈ refs x, c = b ∨ c ∈ t)
    (ht' : ∀ c : BlockId, t'[c]? = if c = b then some x else t[c]?) :
    Swept nodes P refs k (done ++ [b]) t' := by
  have hmem (c : BlockId) : c ∈ t' ↔ c = b ∨ c ∈ t := by
    rw [Std.HashMap.mem_iff_isSome_getElem?, ht']
    split_ifs with hc <;> simp [hc]
  refine ⟨fun c y hy => ?_, fun c hc hfull => (hmem c).mpr ?_⟩
  · rw [ht'] at hy
    split_ifs at hy with hcb
    · cases hy
      subst hcb
      exact ⟨hb, hmono k c x hx, fun _ => hx, fun d hd => (hmem d).mpr (hrefs d hd)⟩
    · obtain ⟨hc, hold, hnew, hy⟩ := h.entry c y hy
      exact ⟨hc, hold, fun hdone => hnew (by simpa [hcb] using hdone),
        fun d hd => (hmem d).mpr (.inr (hy d hd))⟩
  · exact or_iff_not_imp_left.mpr fun hcb => h.full c hc (by simpa [hcb] using hfull)

variable [BEq β] [LawfulBEq β] {f : Std.HashMap BlockId β → BlockId → Option β}
variable (hf : ∀ k done b rest t, nodes = done ++ b :: rest → Swept nodes P refs k done t →
  ∃ x, f t b = some x ∧ P (k + 1) b x ∧ ∀ c ∈ refs x, c = b ∨ c ∈ t)
variable (hunique : ∀ k b x y, nodes.length ≤ k → b ∈ nodes → P k b x → P k b y → x = y)
include hf hunique

theorem Swept.exists_pass (h : Swept nodes P refs k done t) (hnodes : nodes = done ++ rest)
    (changed : Bool) : ∃ t' changed', rest.foldlM (setEntry f) (t, changed) = some (t', changed') ∧
      Swept nodes P refs (k + 1) [] t' ∧ (changed' = false → t' = t ∧ changed = false) ∧
      (nodes.length ≤ k → changed' = changed) := by
  induction rest generalizing done t changed with
  | nil =>
    obtain rfl : nodes = done := by simpa using hnodes
    refine ⟨t, changed, rfl, ⟨fun b x hx => ?_, fun b hb _ => h.full b hb (.inr hb)⟩,
      fun hc => ⟨rfl, hc⟩, fun _ => rfl⟩
    obtain ⟨hb, -, hnew, hrefs⟩ := h.entry b x hx
    exact ⟨hb, hnew hb, by simp, hrefs⟩
  | cons b rest ih =>
    obtain ⟨x, hx, hP, hrefs⟩ := hf k done b rest t hnodes h
    have hb : b ∈ nodes := by simp [hnodes]
    rw [List.append_cons] at hnodes
    rw [List.foldlM_cons, setEntry, hx]
    by_cases hsame : t[b]? = some x
    · obtain ⟨t', changed', hfold, hrest⟩ := ih (t := t)
        (h.next hmono hb hP hrefs fun c => by grind) hnodes changed
      exact ⟨t', changed', by simpa [hsame] using hfold, hrest⟩
    · obtain ⟨t', changed', hfold, ht', hchanged, -⟩ := ih (t := t.insert b x)
        (h.next hmono hb hP hrefs fun c => by grind) hnodes true
      refine ⟨t', changed', by simpa [hsame] using hfold, ht',
        fun hc => absurd (hchanged hc).2 (by decide), fun hk => absurd ?_ hsame⟩
      have hpos := List.length_pos_of_mem hb
      have hy := Std.HashMap.getElem?_eq_some_getElem (h.full b hb (.inl (by omega)))
      rw [hy, hunique k b _ x hk hb (h.entry b _ hy).2.1 (hmono k b x hP)]

/-- Passes end when they change nothing.  Every pass makes a table better, until it is right for
ways of as many blocks as there are; then there is only one right table, and the next pass does not
change it. -/
theorem Swept.exists_untilStable {fuel : Nat} (h : Swept nodes P refs k [] t)
    (hk : k ≤ nodes.length) (hfuel : nodes.length < k + fuel) :
    ∃ t' k', untilStable f nodes fuel t = some t' ∧ Swept nodes P refs k' [] t' ∧
    nodes.length ≤ k' := by
  induction fuel generalizing k t with
  | zero => omega
  | succ fuel ih =>
    obtain ⟨t', changed, hpass, ht', hchanged, hsame⟩ := h.exists_pass hmono hf hunique rfl false
    cases changed with
    | true =>
      have hless : k < nodes.length := Nat.lt_of_not_le fun hle => Bool.noConfusion (hsame hle)
      obtain ⟨t'', k', hstable, hrest⟩ := ih ht' hless (by omega)
      exact ⟨t'', k', by simpa [untilStable, hpass] using hstable, hrest⟩
    | false =>
      obtain ⟨rfl, -⟩ := hchanged rfl
      have hall (j : Nat) : Swept nodes P refs (k + j) [] t' := by
        induction j with
        | zero => exact h
        | succ j ihj =>
          obtain ⟨t₁, changed₁, hpass₁, ht₁, -⟩ := ihj.exists_pass hmono hf hunique rfl false
          cases hpass.symm.trans hpass₁
          exact ht₁
      exact ⟨t', _, by simp [untilStable, hpass], hall nodes.length, Nat.le_add_left _ k⟩

end Passes

/-! ### Meeting -/

section Meeting

variable {T : Std.HashMap BlockId BlockId} {us vs : List BlockId} {fuel : Nat}

/-- A numbering of the blocks in the order in which a search leaves them. -/
structure Ranked (g : Graph) (a : Arena) (order : List BlockId) (rank : BlockId → Nat) : Prop
    extends Postorder g a order where
  ranks : order.map rank = List.range order.length

theorem Postorder.ranked (h : Postorder g a order) :
    Ranked g a order ((Std.HashMap.ofList order.zipIdx).getD · 0) := by
  have hkeys : (order.zipIdx.map Prod.fst).Pairwise (· ≠ ·) := by
    rw [List.zipIdx_map_fst]
    exact h.nodup
  have hget (x : BlockId × Nat) (hx : x ∈ order.zipIdx) :
      (Std.HashMap.ofList order.zipIdx).getD x.1 0 = x.2 := by
    rw [Std.HashMap.getD_eq_getD_getElem?, Std.HashMap.getElem?_ofList_of_mem (beq_self_eq_true x.1)
      ((List.pairwise_map.mp hkeys).imp fun hne => beq_false_of_ne hne) hx, Option.getD_some]
  refine ⟨h, ?_⟩
  calc order.map ((Std.HashMap.ofList order.zipIdx).getD · 0)
    _ = (order.zipIdx.map Prod.fst).map ((Std.HashMap.ofList order.zipIdx).getD · 0) := by
      rw [List.zipIdx_map_fst]
    _ = order.zipIdx.map Prod.snd := List.map_map.trans (List.map_congr_left hget)
    _ = List.range order.length := by rw [List.zipIdx_map_snd, List.range_eq_range']

theorem Ranked.lt (h : Ranked g a order rank) (hb : b ∈ order) : rank b < order.length :=
  List.mem_range.mp (h.ranks ▸ List.mem_map_of_mem hb)

theorem Ranked.inj (h : Ranked g a order rank) (hb : b ∈ order) (hc : c ∈ order)
    (heq : rank b = rank c) : b = c :=
  List.inj_on_of_nodup_map (h.ranks ▸ List.nodup_range) hb hc heq

theorem Ranked.lt_of_mem (h : Ranked g a (xs ++ b :: ys) rank) (hc : c ∈ ys) : rank b < rank c := by
  have hsorted : (xs ++ b :: ys).Pairwise (rank · < rank ·) :=
    List.pairwise_map.mp (h.ranks ▸ List.pairwise_lt_range)
  exact (List.pairwise_cons.mp (List.pairwise_append.mp hsorted).2.1).1 c hc

/-- The dominators of a block are left after it. -/
theorem Ranked.le (h : Ranked g a order rank) (hb : b ∈ order) (hd : g.Dominates a d b) :
    rank b ≤ rank d := by
  obtain ⟨xs, ys, rfl⟩ := List.append_of_mem hb
  obtain ⟨path, hway, hsub⟩ := h.led.of_append.exists_way List.mem_cons_self
  rcases List.mem_cons.mp (hsub (hd path hway)) with rfl | hd
  · exact le_rfl
  · exact (h.lt_of_mem hd).le

/-- A block that may be the closest dominator of another one, as far as ways of at most so many
blocks show. -/
structure Candidate (g : Graph) (a : Arena) (rank : BlockId → Nat) (k : Nat) (b d : BlockId) :
    Prop where
  up : b ≠ g.start → rank b < rank d
  above : ∀ e, g.StrictlyDominates a e b → g.Dominates a e d
  within : g.DominatesWithin a k d b

/-- A block is the closest of the strict dominators of another one. -/
def ClosestDominator (g : Graph) (a : Arena) (b d : BlockId) : Prop :=
  g.StrictlyDominates a d b ∧ ∀ e, g.StrictlyDominates a e b → g.Dominates a e d

theorem Ranked.closest_unique (h : Ranked g a order rank) (hb : b ∈ g.blocks a)
    (hc : g.ClosestDominator a b c) (hd : g.ClosestDominator a b d) : c = d := by
  have hmem {e : BlockId} (he : g.ClosestDominator a b e) : e ∈ order :=
    (h.mem e).mpr (he.1.1.mem_blocks hb)
  exact h.inj (hmem hc) (hmem hd)
    ((h.le (hmem hc) (hc.2 d hd.1)).antisymm (h.le (hmem hd) (hd.2 c hc.1)))

theorem Candidate.closest (hd : Candidate g a rank k b d) (h : Ranked g a order rank)
    (hk : order.length ≤ k) (hne : b ≠ g.start) : g.ClosestDominator a b d :=
  ⟨⟨hd.within.dominates (fun b => (h.mem b).mpr) hk, fun heq =>
    (hd.up hne).ne (congrArg rank heq.symm)⟩, hd.above⟩

theorem Candidate.unique (hc : Candidate g a rank k b c) (hd : Candidate g a rank k b d)
    (h : Ranked g a order rank) (hk : order.length ≤ k) (hb : b ∈ order) : c = d := by
  by_cases hne : b = g.start
  · subst hne
    have hstart {e : BlockId} (he : Candidate g a rank k g.start e) : e = g.start :=
      eq_start_of_dominates (he.within.dominates (fun b => (h.mem b).mpr) hk)
    rw [hstart hc, hstart hd]
  · exact h.closest_unique ((h.mem b).mp hb) (hc.closest h hk hne) (hd.closest h hk hne)

structure Meets (g : Graph) (a : Arena) (rank : BlockId → Nat) (k : Nat) (vs : List BlockId)
    (d : BlockId) : Prop where
  below : ∀ v ∈ vs, rank v ≤ rank d ∧ g.DominatesWithin a k d v
  above : ∀ e, (∀ v ∈ vs, g.Dominates a e v) → g.Dominates a e d

theorem Meets.trans (h : Meets g a rank k us d) (hd : Meets g a rank k (d :: vs) e) :
    Meets g a rank k (us ++ vs) e := by
  obtain ⟨hde, hvs⟩ := List.forall_mem_cons.mp hd.below
  refine ⟨List.forall_mem_append.mpr ⟨fun u hu => ?_, hvs⟩, fun x hx => ?_⟩
  · obtain ⟨hle, hwithin⟩ := h.below u hu
    exact ⟨hle.trans hde.1, hde.2.trans hwithin⟩
  · obtain ⟨hus, hvs⟩ := List.forall_mem_append.mp hx
    exact hd.above x (List.forall_mem_cons.mpr ⟨h.above x hus, hvs⟩)

variable (hT : Swept order.reverse (Candidate g a rank) ([·]) k done T) (h : Ranked g a order rank)
include hT h

omit h in
theorem mem_order (hu : u ∈ T) : u ∈ order :=
  List.mem_reverse.mp (hT.entry u _ (Std.HashMap.getElem?_eq_some_getElem hu)).1

/-- Of two blocks the one that was left first has not met the other one yet. -/
theorem exists_climb (hu : u ∈ T) (hv : v ∈ T) (hlt : rank u < rank v) : ∃ c ∈ T, T[u]? = some c ∧
    rank u < rank c ∧ ∀ d, Meets g a rank k [c, v] d → Meets g a rank k [u, v] d := by
  have hbelow (e : BlockId) (he : g.Dominates a e v) : e ≠ u := by
    have := h.le (mem_order hT hv) he
    rintro rfl
    omega
  have hc := Std.HashMap.getElem?_eq_some_getElem hu
  obtain ⟨-, hcandidate, -, hrefs⟩ := hT.entry u _ hc
  have hup := hcandidate.up fun hstart => hbelow g.start (dominates_start g a v) hstart.symm
  refine ⟨_, hrefs _ List.mem_cons_self, hc, hup, fun d hd => ?_⟩
  obtain ⟨hcd, hvd⟩ := List.forall_mem_cons.mp hd.below
  refine ⟨List.forall_mem_cons.mpr ⟨⟨hup.le.trans hcd.1, hcd.2.trans hcandidate.within⟩, hvd⟩,
    fun e he => ?_⟩
  obtain ⟨hu, hv⟩ := List.forall_mem_cons.mp he
  have hne := hbelow e (hv v List.mem_cons_self)
  exact hd.above e (List.forall_mem_cons.mpr ⟨hcandidate.above e ⟨hu, hne⟩, hv⟩)

theorem exists_meet (hu : u ∈ T) (hv : v ∈ T) (hfuel : 2 * order.length < fuel + rank u + rank v) :
    ∃ d ∈ T, meet rank (T[·]?) fuel u v = some d ∧ Meets g a rank k [u, v] d := by
  induction fuel generalizing u v with
  | zero =>
    have := h.lt (mem_order hT hu)
    have := h.lt (mem_order hT hv)
    omega
  | succ fuel ih =>
    rcases Nat.lt_trichotomy (rank u) (rank v) with hlt | heq | hlt
    · obtain ⟨c, hc, hidom, hup, hclimb⟩ := exists_climb hT h hu hv hlt
      obtain ⟨d, hd, hmeet, hmeets⟩ := ih hc hv (by omega)
      have hne : u ≠ v := fun huv => hlt.ne (huv ▸ rfl)
      exact ⟨d, hd, by simpa [meet, hne, hlt, hidom] using hmeet, hclimb d hmeets⟩
    · obtain rfl := h.inj (mem_order hT hu) (mem_order hT hv) heq
      exact ⟨u, hu, by simp [meet], by simp [dominatesWithin_self], by simp⟩
    · obtain ⟨c, hc, hidom, hup, hclimb⟩ := exists_climb hT h hv hu hlt
      obtain ⟨d, hd, hmeet, hmeets⟩ := ih hu hc (by omega)
      have hne : u ≠ v := fun huv => hlt.ne (huv ▸ rfl)
      have hswap {x y : BlockId} (hxy : Meets g a rank k [x, y] d) : Meets g a rank k [y, x] d := by
        have hmem (z : BlockId) : z ∈ [x, y] ↔ z ∈ [y, x] := by simp [or_comm]
        exact ⟨fun z hz => hxy.below z ((hmem z).mpr hz), fun e he => hxy.above e fun z hz =>
          he z ((hmem z).mp hz)⟩
      exact ⟨d, hd, by simpa [meet, hne, hlt.not_gt, hidom] using hmeet,
        hswap (hclimb d (hswap hmeets))⟩

theorem exists_meetAll (hv : v ∈ T) (hvs : ∀ v ∈ vs, v ∈ T) : ∃ d ∈ T,
    vs.foldlM (meet rank (T[·]?) (2 * order.length + 1)) v = some d ∧
      Meets g a rank k (v :: vs) d := by
  induction vs generalizing v with
  | nil => exact ⟨v, hv, rfl, by simp [dominatesWithin_self], by simp⟩
  | cons w vs ih =>
    obtain ⟨hw, hvs⟩ := List.forall_mem_cons.mp hvs
    obtain ⟨c, hc, hmeet, hmeets⟩ := exists_meet hT h hv hw
      (show 2 * order.length < 2 * order.length + 1 + _ + _ by omega)
    obtain ⟨d, hd, hfold, hall⟩ := ih hc hvs
    exact ⟨d, hd, by simpa [hmeet] using hfold, hmeets.trans hall⟩

/-- The predecessors that are known meet in a block that is right for ways that are longer by
one. -/
theorem exists_candidate {rest : List BlockId} (hnodes : order.reverse = done ++ u :: rest) : ∃ d,
    meetAll rank (fun b => ((g.entryMap a).get b).toList) (2 * order.length + 1) g.start T u =
    some d ∧ Candidate g a rank (k + 1) u d ∧ ∀ c ∈ [d], c = u ∨ c ∈ T := by
  by_cases hu : u = g.start
  · subst hu
    exact ⟨g.start, by simp [meetAll],
      ⟨absurd rfl, fun e he => he.1, dominatesWithin_self g a _ _⟩, by simp⟩
  have hsplit : order = rest.reverse ++ u :: done.reverse := by
    rw [← List.reverse_reverse order, hnodes]
    simp
  -- The blocks that are left after this one have had their turn.
  obtain ⟨p, hp, hedge⟩ := (hsplit ▸ h.led).of_append.1.resolve_left hu
  have hpT : p ∈ T := hT.full p (by simp_all) (.inr (List.mem_reverse.mp hp))
  have hmem (q : BlockId) : q ∈ ((g.entryMap a).get u).toList.filter T.contains ↔
      a.Edge q u ∧ q ∈ T := by
    rw [List.mem_filter, Array.mem_toList_iff, mem_get_entryMap]
    have hblock (hq : q ∈ T) := (h.mem q).mp (mem_order hT hq)
    tauto
  have hpmem := (hmem p).mpr ⟨hedge, hpT⟩
  obtain ⟨v, vs, hvs⟩ := List.exists_cons_of_ne_nil (List.ne_nil_of_mem hpmem)
  rw [hvs] at hmem hpmem
  obtain ⟨d, hd, hmeet, hmeets⟩ := exists_meetAll hT h ((hmem v).mp List.mem_cons_self).2
    fun w hw => ((hmem w).mp (List.mem_cons_of_mem v hw)).2
  refine ⟨d, by simpa [meetAll, hu, hvs] using hmeet,
    ⟨fun _ => ?_, fun e he => ?_, ?_⟩, by simp [hd]⟩
  · exact (Ranked.lt_of_mem (hsplit ▸ h) hp).trans_le (hmeets.below p hpmem).1
  · exact hmeets.above e fun w hw => he.1.of_edge he.2 ((hmem w).mp hw).1
  · refine .of_edges hu fun q hq hk hqu => (hmeets.below q ((hmem q).mpr ⟨hqu, ?_⟩)).2
    exact hT.full q (List.mem_reverse.mpr ((h.mem q).mpr hq)) (.inl hk)

end Meeting

/-! ### Closest dominators and all dominators -/

theorem Ranked.exists_closest (h : Ranked g a order rank) : ∃ m,
    untilStable (meetAll rank (fun b => ((g.entryMap a).get b).toList)
      (2 * order.length + 1) g.start) order.reverse (order.length + 1) ∅ = some m ∧
    ∀ b ∈ g.blocks a, b ≠ g.start → ∃ d, m[b]? = some d ∧ g.ClosestDominator a b d := by
  have hstart : Swept order.reverse (Candidate g a rank) ([·]) 0 [] ∅ := ⟨by simp, by simp⟩
  obtain ⟨m, k, hm, hT, hk⟩ := hstart.exists_untilStable
    (fun k b d hd => ⟨hd.up, hd.above, hd.within.mono⟩)
    (fun k done u rest T hnodes hT => exists_candidate hT h hnodes)
    (fun k b c d hk hb hc hd => hc.unique hd h (by simpa using hk) (List.mem_reverse.mp hb))
    (Nat.zero_le _) (show order.reverse.length < 0 + (order.length + 1) by simp)
  rw [List.length_reverse] at hk
  refine ⟨m, hm, fun b hb hne => ?_⟩
  have hmem := (h.mem b).mpr hb
  have hpos := List.length_pos_of_mem hmem
  have hd := Std.HashMap.getElem?_eq_some_getElem
    (hT.full b (List.mem_reverse.mpr hmem) (.inl (by omega)))
  exact ⟨_, hd, (hT.entry b _ hd).2.1.closest h hk hne⟩

theorem exists_immediateDominators (g : Graph) (a : Arena) : ∃ m, g.immediateDominators a = .ok m ∧
    ∀ b ∈ g.blocks a, b ≠ g.start → ∃ d, m[b]? = some d ∧ g.ClosestDominator a b d := by
  obtain ⟨order, hsearch, horder⟩ := exists_postorder g a
  obtain ⟨m, hm, hclosest⟩ := horder.ranked.exists_closest
  have hidom : Digraph.immediateDominators a.targets (fun b => ((g.entryMap a).get b).toList)
      (searchBound a.targets (g.blocks a).toList) g.start = some m := by
    rw [Digraph.immediateDominators, hsearch]
    exact hm
  exact ⟨m, by simp only [immediateDominators, hidom, Option.elim], hclosest⟩

/-- Blocks in walk order, among them all dominators of a block and none that ways of at most so many
blocks avoid. -/
structure Bounds (g : Graph) (a : Arena) (k : Nat) (b : BlockId) (ds : Array BlockId) : Prop where
  all : ∀ d, g.Dominates a d b → d ∈ ds
  within : ∀ d ∈ ds, g.DominatesWithin a k d b
  chosen : ∃ p, ds = (g.blocks a).filter p

theorem Bounds.mem_iff {ds : Array BlockId} (h : Bounds g a k b ds) (hk : (g.blocks a).size ≤ k) :
    d ∈ ds ↔ g.Dominates a d b :=
  ⟨fun hd => (h.within d hd).dominates (fun _ => Array.mem_toList_iff.mpr) hk, h.all d⟩

theorem Bounds.unique {ds es : Array BlockId} (hds : Bounds g a k b ds) (hes : Bounds g a k b es)
    (hk : (g.blocks a).size ≤ k) : ds = es := by
  have hsame (d : BlockId) : d ∈ ds ↔ d ∈ es := (hds.mem_iff hk).trans (hes.mem_iff hk).symm
  obtain ⟨p, rfl⟩ := hds.chosen
  obtain ⟨q, rfl⟩ := hes.chosen
  rw [← Array.toList_inj, Array.toList_filter, Array.toList_filter]
  refine List.filter_congr fun d hd => ?_
  rw [Array.mem_toList_iff] at hd
  simpa [hd] using hsame d

theorem bounds_commonDominators {t : DomTable}
    (ht : Swept (g.blocks a).toList (Bounds g a) (fun _ => []) k done t) (hb : b ∈ g.blocks a) :
    Bounds g a (k + 1) b (g.commonDominators (g.blocks a) (g.entryMap a) t b) := by
  have hmem (d : BlockId) : d ∈ g.commonDominators (g.blocks a) (g.entryMap a) t b ↔
    d ∈ g.blocks a ∧
      (d = b ∨ b ≠ g.start ∧ ∀ p ∈ g.blocks a, a.Edge p b → d ∈ t.getD p (g.blocks a)) := by
    rw [commonDominators, Array.mem_filter, Bool.or_eq_true, beq_iff_eq, Bool.and_eq_true,
      bne_iff_ne, Array.all_eq_true_iff_forall_mem]
    simp only [mem_get_entryMap, Array.contains_iff_mem, and_imp]
    tauto
  refine ⟨fun d hd => (hmem d).mpr ⟨hd.mem_blocks hb, or_iff_not_imp_left.mpr fun hdb => ⟨?_, ?_⟩⟩,
    fun d hd => ?_, _, rfl⟩
  · rintro rfl
    exact hdb (eq_start_of_dominates hd)
  · intro p hp hedge
    have hdp := hd.of_edge hdb hedge
    rw [Std.HashMap.getD_eq_getD_getElem?]
    cases hds : t[p]? with
    | none => exact hdp.mem_blocks hp
    | some ds => exact (ht.entry p ds hds).2.1.all d hdp
  · rcases ((hmem d).mp hd).2 with rfl | ⟨hne, hall⟩
    · exact dominatesWithin_self g a (k + 1) d
    · refine .of_edges hne fun p hp hk hedge => ?_
      have hpt := ht.full p (Array.mem_toList_iff.mpr hp) (.inl hk)
      have hds := hall p hp hedge
      rw [Std.HashMap.getD_eq_getD_getElem?, Std.HashMap.getElem?_eq_some_getElem hpt] at hds
      exact (ht.entry p _ (Std.HashMap.getElem?_eq_some_getElem hpt)).2.1.within d hds

/-- The table lists for every block exactly its dominators. -/
theorem exists_dominators (g : Graph) (a : Arena) : ∃ t, g.dominators a = .ok (g.entryMap a, t) ∧
    ∀ b ∈ g.blocks a, ∀ d, d ∈ t.getD b #[] ↔ g.Dominates a d b := by
  have hstart : Swept (g.blocks a).toList (Bounds g a) (fun _ => []) 0 [] ∅ := ⟨by simp, by simp⟩
  obtain ⟨t, k, ht, hT, hk⟩ := hstart.exists_untilStable
    (fun k b ds hds => ⟨hds.all, fun d hd => (hds.within d hd).mono, hds.chosen⟩)
    (fun k done b rest t hnodes hT =>
      ⟨_, rfl, bounds_commonDominators hT (Array.mem_toList_iff.mp (by simp [hnodes])), by simp⟩)
    (fun k b ds es hk _ hds hes => hds.unique hes hk) (Nat.zero_le _)
    (show (g.blocks a).toList.length < 0 + ((g.blocks a).size + 1) by simp)
  refine ⟨t, by simp only [dominators, ht, Option.elim], fun b hb d => ?_⟩
  have hmem := Array.mem_toList_iff.mpr hb
  have hpos := List.length_pos_of_mem hmem
  have hds := Std.HashMap.getElem?_eq_some_getElem (hT.full b hmem (.inl (by omega)))
  rw [Std.HashMap.getD_eq_getD_getElem?, hds]
  exact (hT.entry b _ hds).2.1.mem_iff hk

/-- Closest dominators lead from a block to all its dominators, since ranks grow on the way. -/
theorem Ranked.chain (h : Ranked g a order rank) {R : BlockId → BlockId → Prop}
    (hR : ∀ b ∈ g.blocks a, b ≠ g.start → ∃ c, R b c ∧ g.ClosestDominator a b c)
    (hb : b ∈ g.blocks a)
    (hd : g.Dominates a d b) : Relation.ReflTransGen R b d := by
  induction hn : order.length - rank b using Nat.strong_induction_on generalizing b with
  | h n ih =>
    by_cases hdb : d = b
    · exact hdb ▸ .refl
    · obtain ⟨c, hbc, hclosest⟩ := hR b hb fun hstart => hdb (by
        subst hstart
        exact eq_start_of_dominates hd)
      have hc := hclosest.1.1.mem_blocks hb
      have hlt : rank b < rank c := (h.le ((h.mem b).mpr hb) hclosest.1.1).lt_of_ne fun heq =>
        hclosest.1.2 (h.inj ((h.mem b).mpr hb) ((h.mem c).mpr hc) heq).symm
      have := h.lt ((h.mem c).mpr hc)
      exact .head hbc (ih (order.length - rank c) (by omega) hc (hclosest.2 d ⟨hd, hdb⟩) rfl)

/-- Both computations come to an end and are right for every graph, with loops of any shape: every
block but the first one has its closest strict dominator in the tree, the table lists exactly the
blocks on all ways to a block, and these are the blocks that lead up from it in the tree. -/
theorem dominators_exact (g : Graph) (a : Arena) : ∃ m t, g.immediateDominators a = .ok m ∧
    g.dominators a = .ok (g.entryMap a, t) ∧
    (∀ b ∈ g.blocks a, b ≠ g.start → ∃ d, m[b]? = some d ∧ g.ClosestDominator a b d ∧
      ∀ c, g.ClosestDominator a b c → c = d) ∧
    ∀ b ∈ g.blocks a, ∀ d, (d ∈ t.getD b #[] ↔ g.Dominates a d b) ∧
      (g.Dominates a d b ↔
        Relation.ReflTransGen (fun x y => x ≠ g.start ∧ m[x]? = some y) b d) := by
  obtain ⟨order, -, horder⟩ := exists_postorder g a
  obtain ⟨m, hm, hclosest⟩ := exists_immediateDominators g a
  obtain ⟨t, ht, hmem⟩ := exists_dominators g a
  refine ⟨m, t, hm, ht, fun b hb hne => ?_, fun b hb d => ⟨hmem b hb d, ?_, ?_⟩⟩
  · obtain ⟨d, hd, hdb⟩ := hclosest b hb hne
    exact ⟨d, hd, hdb, fun c hc => horder.ranked.closest_unique hb hc hdb⟩
  · exact horder.ranked.chain (fun b hb hne => (hclosest b hb hne).imp fun c hc =>
      ⟨⟨hne, hc.1⟩, hc.2⟩) hb
  · intro hchain
    induction hchain with
    | refl => exact dominates_self g a b
    | @tail c d _ hstep ih =>
      obtain ⟨e, he, hclosest⟩ := hclosest c (ih.mem_blocks hb) hstep.1
      cases hstep.2.symm.trans he
      exact hclosest.1.1.trans ih

end Jib.Graph
