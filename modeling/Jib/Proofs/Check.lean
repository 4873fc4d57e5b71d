import Jib.Graph.Check
import Jib.Proofs.Dominance
import Jib.Proofs.Execution

/-!
# What the check of a graph decides

The check collects for every block what is defined in it and in its closest dominators.  It succeeds
exactly if every value that is used is a constant, an argument, or defined in a block that dominates
the use; the use of an entry of a phi is at the end of the predecessor that it belongs to.
-/

namespace Jib.Graph

variable {g : Graph} {a : Arena} {b c d : BlockId} {v x : ValueId} {defs : Definitions}
variable {m : Std.HashMap BlockId BlockId} {done rest : List BlockId}

/-! ### Definitions above a block -/

/-- What is defined above a block or in it. -/
def DefinedAbove (g : Graph) (a : Arena) (b : BlockId) (v : ValueId) : Prop :=
  v ∈ g.args ∨ ∃ d, g.Dominates a d b ∧ v ∈ a.ops d

theorem mem_ownDefinitions :
    v ∈ g.ownDefinitions a b ↔ (b = g.start ∧ v ∈ g.args) ∨ v ∈ a.ops b := by
  by_cases hb : b = g.start <;> simp [ownDefinitions]

theorem definedAbove_start : g.DefinedAbove a g.start v ↔ v ∈ g.ownDefinitions a g.start := by
  rw [mem_ownDefinitions]
  refine or_congr (by simp) ⟨?_, fun hv => ⟨_, dominates_self g a _, hv⟩⟩
  rintro ⟨d, hd, hv⟩
  rwa [← eq_start_of_dominates hd]

/-- Above a block is what it defines itself and what is above its closest dominator. -/
theorem definedAbove_iff (hd : g.ClosestDominator a b d) :
    g.DefinedAbove a b v ↔ v ∈ a.ops b ∨ g.DefinedAbove a d v := by
  constructor
  · rintro (hv | ⟨e, he, hv⟩)
    · exact .inr (.inl hv)
    · by_cases heb : e = b
      · exact .inl (heb ▸ hv)
      · exact .inr (.inr ⟨e, hd.2 e ⟨he, heb⟩, hv⟩)
  · rintro (hv | hv | ⟨e, he, hv⟩)
    · exact .inr ⟨b, dominates_self g a b, hv⟩
    · exact .inl hv
    · exact .inr ⟨e, he.trans hd.1.1, hv⟩

/-- What holds while definitions are inherited: blocks that are done have all that is defined above
them. -/
structure Inheriting (g : Graph) (a : Arena) (done : List BlockId) (defs : Definitions) : Prop where
  own : ∀ b ∈ g.blocks a, ∀ v ∈ g.ownDefinitions a b, v ∈ defs.getD b ∅
  sound : ∀ b ∈ g.blocks a, ∀ v ∈ defs.getD b ∅, g.DefinedAbove a b v
  complete : ∀ b ∈ g.blocks a, b = g.start ∨ b ∈ done →
    ∀ v, g.DefinedAbove a b v → v ∈ defs.getD b ∅

theorem Inheriting.next (h : Inheriting g a done defs) (hb : b ∈ g.blocks a)
    (hd : g.ClosestDominator a b d) (hdone : d = g.start ∨ d ∈ done) :
    Inheriting g a (done ++ [b]) (defs.insert b (defs.getD b ∅ ∪ defs.getD d ∅)) := by
  have hdblock : d ∈ g.blocks a := hd.1.1.mem_blocks hb
  have hget (c : BlockId) (v : ValueId) :
      v ∈ (defs.insert b (defs.getD b ∅ ∪ defs.getD d ∅)).getD c ∅ ↔
        v ∈ defs.getD c ∅ ∨ c = b ∧ v ∈ defs.getD d ∅ := by
    rw [Std.HashMap.getD_insert]
    by_cases hbc : b = c
    · simpa [hbc] using Std.HashSet.mem_union_iff
    · simp [hbc, Ne.symm]
  constructor <;> simp only [hget]
  · exact fun c hc v hv => .inl (h.own c hc v hv)
  · rintro c hc v (hv | ⟨rfl, hv⟩)
    · exact h.sound c hc v hv
    · exact (definedAbove_iff hd).mpr (.inr (h.sound d hdblock v hv))
  · intro c hc hcdone v hv
    by_cases hcb : c = b
    · subst hcb
      rcases (definedAbove_iff hd).mp hv with hv | hv
      · exact .inl (h.own c hc v (mem_ownDefinitions.mpr (.inr hv)))
      · exact .inr ⟨rfl, h.complete d hdblock hdone v hv⟩
    · exact .inl (h.complete c hc (by simpa [hcb] using hcdone) v hv)

theorem Inheriting.exists_foldlM (h : Inheriting g a done defs)
    (hm : ∀ b ∈ g.blocks a, b ≠ g.start → ∃ d, m[b]? = some d ∧ g.ClosestDominator a b d)
    (hrest : ∀ b ∈ rest, b ∈ g.blocks a) (hturn : InTurn (g.DominatesInside a) done rest) :
    ∃ defs', rest.foldlM (g.inherit m) defs = .ok defs' ∧ Inheriting g a (done ++ rest) defs' := by
  induction rest generalizing done defs with
  | nil => exact ⟨defs, rfl, by simpa using h⟩
  | cons b rest ih =>
    obtain ⟨hb, hrest⟩ := List.forall_mem_cons.mp hrest
    obtain ⟨defs₁, hinherit, hnext⟩ : ∃ defs', g.inherit m defs b = .ok defs' ∧
        Inheriting g a (done ++ [b]) defs' := by
      by_cases hstart : b = g.start
      · refine ⟨defs, by simp [inherit, hstart], h.own, h.sound, fun c hc hcdone =>
          h.complete c hc ?_⟩
        simpa [hstart, or_comm] using hcdone
      · obtain ⟨d, hd, hclosest⟩ := hm b hb hstart
        exact ⟨_, by simp [inherit, hstart, hd], h.next hb hclosest
          (or_iff_not_imp_left.mpr fun hne => hturn.1 d ⟨hclosest.1, hne⟩)⟩
    obtain ⟨defs', hfold, hend⟩ := ih hnext hrest hturn.2
    exact ⟨defs', by rw [List.foldlM_cons, hinherit]; exact hfold, by simpa using hend⟩

theorem getD_foldl_insert {f : BlockId → ValueSet} {bs : List BlockId} :
    (bs.foldl (fun (t : Definitions) b => t.insert b (f b)) defs).getD b ∅ =
      if b ∈ bs then f b else defs.getD b ∅ := by
  induction bs generalizing defs with
  | nil => rfl
  | cons c bs ih =>
    rw [List.foldl_cons, ih, Std.HashMap.getD_insert]
    by_cases hc : c = b <;> simp [hc, Ne.symm]

theorem inheriting_own (g : Graph) (a : Arena) : Inheriting g a []
    ((g.entryMap a).order.toList.foldl
      (fun (defs : Definitions) b => defs.insert b (g.ownDefinitions a b)) ∅) := by
  have hget {b : BlockId} (hb : b ∈ g.blocks a) : ((g.entryMap a).order.toList.foldl
      (fun (defs : Definitions) b => defs.insert b (g.ownDefinitions a b)) ∅).getD b ∅ =
        g.ownDefinitions a b := by
    rw [getD_foldl_insert, if_pos (Array.mem_toList_iff.mpr (mem_order_entryMap.mpr hb))]
  refine ⟨fun b hb v hv => (hget hb).symm ▸ hv, fun b hb v hv => ?_, fun b hb hstart v hv => ?_⟩
  · rw [hget hb, mem_ownDefinitions] at hv
    exact hv.imp And.right fun hv => ⟨b, dominates_self g a b, hv⟩
  · obtain rfl := hstart.resolve_right List.not_mem_nil
    rwa [hget hb, ← definedAbove_start]

/-! ### The check -/

/-- What is asked of a block: all uses are covered by definitions, as far as blocks go. -/
structure CoversUses (g : Graph) (a : Arena) (b : BlockId) : Prop where
  nodup : (a.ops b).toList.Nodup
  preds : ∀ v ∈ a.ops b, ∀ p, a.value v = .phi p → ∀ c ∈ p.preds, c ∈ g.blocks a ∧ a.Edge c b
  entries : ∀ v ∈ a.ops b, ∀ p, a.value v = .phi p →
    ∀ x c, (x, c) ∈ p.values.zip p.preds → g.Usable a c x
  operands : ∀ v ∈ a.ops b, ∀ o, a.value v = .op o → ∀ x ∈ o.args, g.Usable a b x
  next : ∀ x ∈ (a.next b).args, g.Usable a b x

theorem isAvailable_iff (hdefs : ∀ v, v ∈ defs.getD b ∅ ↔ g.DefinedAbove a b v) :
    isAvailable a defs b v = true ↔ g.Usable a b v := by
  have hconst : a.isConst v = true ↔ ∃ k, a.value v = .const k := by
    unfold Arena.isConst Value.isConst
    cases a.value v <;> simp
  unfold isAvailable
  rw [Bool.or_eq_true, hconst, Std.HashSet.contains_iff_mem, hdefs]
  rfl

theorem phisNamePredecessors_iff : phisNamePredecessors a (g.entryMap a) b = true ↔
    ∀ v ∈ a.ops b, ∀ p, a.value v = .phi p → ∀ c ∈ p.preds,
      b ≠ g.start ∧ c ∈ g.blocks a ∧ a.Edge c b := by
  unfold phisNamePredecessors
  rw [Array.all_eq_true_iff_forall_mem]
  refine forall₂_congr fun v _ => ?_
  unfold Arena.phi?
  cases a.value v with
  | phi p =>
    simp only [Array.all_eq_true_iff_forall_mem, Bool.and_eq_true, Array.contains_iff_mem,
      contains_entryMap, mem_get_entryMap, Value.phi.injEq, forall_eq']
    exact forall₂_congr fun c _ => ⟨And.right, fun h => ⟨h.2.1, h⟩⟩
  | missing | const | argument | op => simp

theorem usesAreDefined_iff
    (hdefs : ∀ c ∈ g.blocks a, ∀ v, v ∈ defs.getD c ∅ ↔ g.DefinedAbove a c v)
    (hb : b ∈ g.blocks a) (hpreds : ∀ v ∈ a.ops b, ∀ p, a.value v = .phi p →
      ∀ c ∈ p.preds, c ∈ g.blocks a ∧ a.Edge c b) :
    usesAreDefined a defs b = true ↔ g.CoversUses a b := by
  have hvalue (v : ValueId) (hv : v ∈ a.ops b) : operandsAvailable a defs b v = true ↔
      (∀ p, a.value v = .phi p → ∀ x c, (x, c) ∈ p.values.zip p.preds → g.Usable a c x) ∧
        ∀ o, a.value v = .op o → ∀ x ∈ o.args, g.Usable a b x := by
    have hentries := hpreds v hv
    unfold operandsAvailable
    cases hvalue : a.value v with
    | phi p =>
      have hmem {x : ValueId} {c : BlockId} (h : (x, c) ∈ p.values.zip p.preds) :
          c ∈ g.blocks a := by
        rw [← Array.mem_toList_iff, Array.toList_zip] at h
        exact (hentries p hvalue c (Array.mem_toList_iff.mp (List.of_mem_zip h).2)).1
      simp only [reduceCtorEq, false_imp_iff, implies_true, and_true, Value.phi.injEq, forall_eq',
        Array.all_eq_true_iff_forall_mem, Prod.forall]
      exact forall₃_congr fun x c h => isAvailable_iff (hdefs c (hmem h))
    | op o =>
      simp only [reduceCtorEq, false_imp_iff, implies_true, true_and, Value.op.injEq, forall_eq',
        Array.all_eq_true_iff_forall_mem, isAvailable_iff (hdefs b hb)]
    | missing | const | argument => simp
  unfold usesAreDefined
  rw [Bool.and_eq_true, Bool.and_eq_true, Arena.noDuplicates_iff, Array.all_eq_true_iff_forall_mem,
    List.all_eq_true]
  simp only [isAvailable_iff (hdefs b hb)]
  rw [forall₂_congr hvalue]
  exact ⟨fun h => ⟨h.1.1, hpreds, fun v hv => (h.1.2 v hv).1, fun v hv => (h.1.2 v hv).2, h.2⟩,
    fun h => ⟨⟨h.nodup, fun v hv => ⟨h.entries v hv, h.operands v hv⟩⟩, h.next⟩⟩

theorem check_eq_ok_iff : g.check a = .ok () ↔ ∀ b ∈ g.blocks a, g.CoversUses a b ∧
    ∀ v ∈ a.ops b, ∀ p, a.value v = .phi p → ∀ c ∈ p.preds, b ≠ g.start := by
  obtain ⟨m, hm, hclosest⟩ := exists_immediateDominators g a
  obtain ⟨defs, hinherit, hdefs⟩ := (inheriting_own g a).exists_foldlM hclosest
    (fun b hb => mem_order_entryMap.mp (Array.mem_toList_iff.mp hb)) (inTurn_entryMap g a)
  have hcomplete (c : BlockId) (hc : c ∈ g.blocks a) (v : ValueId) :=
    hdefs.complete c hc (.inr (by simpa [mem_order_entryMap] using hc)) v
  have huses (b : BlockId) (hb : b ∈ g.blocks a) := usesAreDefined_iff
    (fun c hc v => ⟨hdefs.sound c hc v, hcomplete c hc v⟩) hb
  have hcheck : g.check a = .ok () ↔
      (g.entryMap a).order.all (phisNamePredecessors a (g.entryMap a)) = true ∧
        (g.entryMap a).order.all (usesAreDefined a defs) = true := by
    unfold check
    simp only [hm, hinherit, bind, Except.bind]
    cases (g.entryMap a).order.all (phisNamePredecessors a (g.entryMap a)) <;>
      cases (g.entryMap a).order.all (usesAreDefined a defs) <;>
      simp [pure, Except.pure]
  rw [hcheck, Array.all_eq_true_iff_forall_mem, Array.all_eq_true_iff_forall_mem]
  simp only [mem_order_entryMap, phisNamePredecessors_iff]
  constructor
  · rintro ⟨hphis, hall⟩ b hb
    have hpreds := hphis b hb
    exact ⟨(huses b hb fun v hv p hp c hc => (hpreds v hv p hp c hc).2).mp (hall b hb),
      fun v hv p hp c hc => (hpreds v hv p hp c hc).1⟩
  · intro h
    exact ⟨fun b hb v hv p hp c hc => ⟨(h b hb).2 v hv p hp c hc, (h b hb).1.preds v hv p hp c hc⟩,
      fun b hb => (huses b hb (h b hb).1.preds).mpr (h b hb).1⟩

/-- The check is exact, but for the start block, in which it takes no entries of phis. -/
theorem check_exact (g : Graph) (a : Arena) : g.check a = .ok () ↔
    (∀ b ∈ g.blocks a, g.CoversUses a b) ∧
      ∀ v ∈ a.ops g.start, ∀ p, a.value v = .phi p → p.preds = #[] := by
  rw [check_eq_ok_iff]
  constructor
  · intro h
    refine ⟨fun b hb => (h b hb).1, fun v hv p hp => ?_⟩
    refine Array.eq_empty_iff_forall_not_mem.mpr fun c hc => ?_
    exact (h _ (start_mem_blocks g a)).2 v hv p hp c hc rfl
  · rintro ⟨hall, hstart⟩ b hb
    refine ⟨hall b hb, fun v hv p hp c hc heq => ?_⟩
    rw [hstart v (heq ▸ hv) p hp] at hc
    exact Array.not_mem_empty c hc

/-- A loop that leads back to the start block. -/
def looping : Graph := ⟨"zloop", #[], 0, false⟩

def loopingArena : Arena where
  values := #[.const .unit, .phi ⟨#[1], #[0], .unit⟩]
  blocks := #[⟨#[1], .goto 1 none⟩, ⟨#[], .goto 0 none⟩]

/-- A phi in the start block names a predecessor, and the check refuses it. -/
theorem looping_refused :
    ¬ ∀ (g : Graph) (a : Arena), g.check a = .ok () ↔ ∀ b ∈ g.blocks a, g.CoversUses a b := by
  intro h
  have hblocks : looping.blocks loopingArena = #[0, 1] := by
    simp [blocks, looping, loopingArena, Arena.reachFrom, Arena.targets, Arena.next, Arena.block,
      Next.targets]
  have hops : loopingArena.ops 0 = #[1] ∧ loopingArena.ops 1 = #[] := ⟨rfl, rfl⟩
  have hphi : loopingArena.value 1 = .phi ⟨#[1], #[0], .unit⟩ := rfl
  have hnext : (loopingArena.next 0).args = [] ∧ (loopingArena.next 1).args = [] := ⟨rfl, rfl⟩
  have hcovers : ∀ b ∈ looping.blocks loopingArena, looping.CoversUses loopingArena b := by
    simp only [hblocks, List.mem_toArray, List.forall_mem_cons, List.not_mem_nil, false_imp_iff,
      implies_true, and_true]
    refine ⟨⟨?_, ?_, ?_, ?_, ?_⟩, ⟨?_, ?_, ?_, ?_, ?_⟩⟩ <;> simp [hops, hphi, hnext, hblocks]
    · exact List.mem_singleton_self 0
    · exact .inl ⟨_, rfl⟩
  have hcheck := check_eq_ok_iff.mp ((h looping loopingArena).mpr hcovers) 0 (by simp [hblocks])
  exact hcheck.2 1 (by simp [hops]) _ hphi 1 (by simp) rfl

end Jib.Graph
