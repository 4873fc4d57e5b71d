import Jib.Proofs.Construction.Arguments
import Jib.Proofs.Construction.Steps

/-!
# Building blocks

The blocks of a body are built in the order of their labels.
-/

namespace Jib

variable {f : FunctionBody} {types : String → Ty} {known : String → Option Const}
variable {src : BuildSource} {s s' : BuildState} {pc : Nat}

/-! ### Entering a block -/

/-- The ways from block to block that have not been taken into account yet; behind the start of a
loop they do not matter any more. -/
structure Ways (f : FunctionBody) (n : Nat) (s : BuildState) : Prop where
  loop : ∀ h, h < n → f.IsLoop h → s.hasLoop = true
  left : s.hasLoop = false → ∀ q j : Nat, n ≤ j → f.IsLabel q → f.Leads q j →
    ((q : Int), (j : Int)) ∈ s.exits

theorem not_lt_any_iff {entry : List Int} :
    entry.any (fun p => !(p < (pc : Int))) = true ↔ ∃ q ∈ entry, (pc : Int) ≤ q := by
  simp

/-- The start of a loop is entered from one earlier block, and from later ones. -/
theorem loop_entry (hwell : f.WellFormed types known) (hsrc : src.Describes f)
    (hloop : f.IsLoop pc) {first : Int} {others : List Int}
    (hentry : src.entering pc = first :: others) : first < pc ∧ ∀ q ∈ others, (pc : Int) ≤ q := by
  have hsorted := entry_pairwise hsrc pc
  have hnodup := entry_nodup hsrc hwell (.inl hloop)
  have hways (q : Int) : q ∈ first :: others ↔ ∃ p : Nat, q = p ∧ f.IsLabel p ∧ f.Leads p pc := by
    rw [← hentry, mem_entry hsrc hwell]
  rw [hentry, List.pairwise_cons] at hsorted
  rw [hentry, List.nodup_cons] at hnodup
  have hpc : pc ≠ 0 := by
    rintro rfl
    obtain ⟨p, -, -, hleads⟩ := (hways first).mp List.mem_cons_self
    exact FunctionBody.not_leads_zero hwell p hleads
  obtain ⟨q, hq, hlabel, hleads⟩ := FunctionBody.exists_leads_lt hwell (hloop.isLabel hwell) hpc
  have hfirst : first < pc := by
    rcases List.mem_cons.mp ((hways q).mpr ⟨q, rfl, hlabel, hleads⟩) with heq | hmem
    · omega
    · have := hsorted.1 q hmem
      omega
  refine ⟨hfirst, fun q' hq' => ?_⟩
  by_contra hlt
  obtain ⟨p, rfl, hp, hp'⟩ := (hways first).mp List.mem_cons_self
  obtain ⟨p', rfl, hlabel', hleads'⟩ := (hways q').mp (List.mem_cons_of_mem _ hq')
  have heq := FunctionBody.Leads.eq_of_isLoop hwell hp hlabel' hloop hp' hleads' (by omega)
    (by omega)
  exact hnodup.1 (heq ▸ hq')

/-- The variables at the start of a block. -/
theorem entryVars_run (hwell : f.WellFormed types known) (hsrc : src.Describes f)
    (henter : Enterable f types known src pc s) (hlabel : f.IsLabel pc) (isLoop : Bool)
    (hloop : isLoop = true ↔ f.IsLoop pc) :
    ∃ s' phis, BuildM.entryVars src pc isLoop (src.entering pc) s = .ok () s' ∧
      Entered f types src pc s s' phis ∧ (pc = 0 → Starts f s'.arena s'.args.toList s'.vars) ∧
      (pc ≠ 0 → s'.args = s.args) ∧ s'.hasLoop = s.hasLoop ∧ s'.exits = s.exits := by
  have hzero : pc ≠ 0 → ∃ q ∈ src.entering pc, q < pc := fun hpc => by
    obtain ⟨q, hlt, hq, hleads⟩ := FunctionBody.exists_leads_lt hwell hlabel hpc
    exact ⟨q, (mem_entry hsrc hwell).mpr ⟨q, rfl, hq, hleads⟩, by omega⟩
  have hnonzero (q : Int) (hq : q ∈ src.entering pc) : pc ≠ 0 := by
    rintro rfl
    obtain ⟨p, -, -, hleads⟩ := (mem_entry hsrc hwell).mp hq
    exact FunctionBody.not_leads_zero hwell p hleads
  cases hentry : src.entering pc with
  | nil =>
    obtain rfl : pc = 0 := by
      by_contra hpc
      obtain ⟨q, hq, -⟩ := hzero hpc
      rw [hentry] at hq
      cases hq
    obtain ⟨s', hrun, hentered, hstarts, hrest⟩ := enter_start hwell hsrc s
    exact ⟨s', [], hrun, hentered, fun _ => hstarts, fun h => absurd rfl h, hrest⟩
  | cons first others =>
    have hpc := hnonzero first (by rw [hentry]; exact List.mem_cons_self)
    suffices h : Enters f types src pc (BuildM.entryVars src pc isLoop (first :: others)) s by
      obtain ⟨s', phis, hrun, hentered, hargs, hrest⟩ := h
      exact ⟨s', phis, hrun, hentered, fun h => absurd h hpc, fun _ => hargs, hrest⟩
    cases others with
    | nil =>
      obtain ⟨q, hq, hlt⟩ := hzero hpc
      obtain ⟨p, rfl, -⟩ := (mem_entry hsrc hwell).mp hq
      obtain rfl : (p : Int) = first := List.mem_singleton.mp (hentry ▸ hq)
      exact enters_single hwell hsrc henter hentry (by omega)
    | cons second others =>
      cases isLoop with
      | true =>
        obtain ⟨hfirst, hothers⟩ := loop_entry hwell hsrc (hloop.mp rfl) hentry
        exact enters_loop hwell hsrc henter hentry hfirst hothers
      | false =>
        refine enters_meet hwell hsrc henter hentry fun q hq => ?_
        by_contra hge
        obtain ⟨p, rfl, hp, hleads⟩ := (mem_entry hsrc hwell).mp (hentry ▸ hq)
        have hloop' := (FunctionBody.isLoop_iff_leads hwell hlabel).mpr ⟨p, by omega, hp, hleads⟩
        exact Bool.false_ne_true (hloop.mpr hloop')

/-- What the start of a block does, whatever it does to the ways that are left. -/
theorem Entered.congr {s₀ s₁ s₂ : BuildState} {phis : List ValueId}
    (h : Entered f types src pc s₀ s₁ phis)
    (hbefore : s₀ = { s with hasLoop := s₀.hasLoop })
    (hafter : s₂ = { s₁ with exits := s₂.exits }) :
    Entered f types src pc s s₂ phis := by
  rw [hbefore] at h
  rw [hafter]
  exact { h with }

theorem enter_run (hwell : f.WellFormed types known) (hsrc : src.Describes f)
    (henter : Enterable f types known src pc s) (hlabel : f.IsLabel pc) (hways : Ways f pc s) :
    ∃ s' phis, BuildM.enter src pc (src.entering pc) s = .ok () s' ∧
      Entered f types src pc s s' phis ∧ (pc = 0 → Starts f s'.arena s'.args.toList s'.vars) ∧
      (pc ≠ 0 → s'.args = s.args) ∧ Ways f (pc + 1) s' := by
  let isLoop := (src.entering pc).any (fun p => !(p < (pc : Int)))
  have hloop : isLoop = true ↔ f.IsLoop pc := by
    rw [not_lt_any_iff, FunctionBody.isLoop_iff_leads hwell hlabel]
    constructor
    · rintro ⟨q, hq, hle⟩
      obtain ⟨p, rfl, hp, hleads⟩ := (mem_entry hsrc hwell).mp hq
      exact ⟨p, by omega, hp, hleads⟩
    · rintro ⟨p, hle, hp, hleads⟩
      exact ⟨p, (mem_entry hsrc hwell).mpr ⟨p, rfl, hp, hleads⟩, by omega⟩
  let s₀ : BuildState := { s with hasLoop := s.hasLoop || isLoop }
  have henter₀ : Enterable f types known src pc s₀ := { henter with }
  obtain ⟨s₁, phis, hrun, hentered, hstarts, hargs, hhasLoop, hexits⟩ :=
    entryVars_run hwell hsrc henter₀ hlabel isLoop hloop
  have hflag (h : Nat) (hlt : h < pc + 1) (hloop' : f.IsLoop h) : s₀.hasLoop = true := by
    rcases Nat.lt_succ_iff_lt_or_eq.mp hlt with hlt | rfl
    · simp [s₀, hways.loop h hlt hloop']
    · simp [s₀, hloop.mpr hloop']
  have hstep : BuildM.enter src pc (src.entering pc) s =
      (if !s₁.hasLoop then (src.entering pc).forM (BuildM.leaveWay pc) else pure ()) s₁ := by
    rw [BuildM.enter, bind_ok (modify_run _ s), bind_ok hrun, bind_ok (get_run s₁)]
  cases hcase : s₁.hasLoop with
  | true =>
    refine ⟨s₁, phis, ?_, hentered.congr rfl rfl, hstarts, hargs, fun _ _ _ => hcase, ?_⟩
    · rw [hstep, hcase]
      rfl
    · intro h
      rw [hcase] at h
      cases h
  | false =>
    have hcase₀ : s₀.hasLoop = false := hhasLoop.symm.trans hcase
    have hleft := hways.left (Bool.or_eq_false_iff.mp hcase₀).1
    have hnone (h : Nat) (hlt : h < pc + 1) : ¬ f.IsLoop h := fun hloop' => by
      rw [hflag h hlt hloop'] at hcase₀
      cases hcase₀
    have hnodup : (src.entering pc).Nodup :=
      entry_nodup hsrc hwell (.inr fun h hlt => hnone h (by omega))
    have hmem (q : Int) (hq : q ∈ src.entering pc) : (q, (pc : Int)) ∈ s₁.exits := by
      obtain ⟨p, rfl, hp, hleads⟩ := (mem_entry hsrc hwell).mp hq
      rw [hexits]
      exact hleft p pc le_rfl hp hleads
    obtain ⟨s₂, hrun₂, hframe₂, hexits₂⟩ := leaveWays_run hnodup hmem
    refine ⟨s₂, phis, ?_, hentered.congr rfl hframe₂, ?_, ?_,
      fun h hlt hloop' => absurd hloop' (hnone h hlt), fun _ q j hj hq hleads => ?_⟩
    · rw [hstep, hcase]
      exact hrun₂
    · rw [hframe₂]
      exact hstarts
    · rw [hframe₂]
      exact hargs
    · refine hexits₂ q j (by omega) ?_
      rw [hexits]
      exact hleft q j (by omega) hq hleads

/-! ### Building a block -/

/-- An interpretation in which everything is the same value. -/
def Interpretation.trivial : Interpretation Unit Unit Unit where
  constant _ := ()
  apply _ _ _ _ := pure ()
  isTrue _ := true
  unbound := ()
  constant_unit _ _ := rfl
  apply_unit _ _ _ _ _ _ _ := rfl

/-- The steps of a block are built in the same way for all interpretations. -/
theorem FunctionBody.Run.builds_all (hwell : f.WellFormed types known) (hsrc : src.Describes f)
    {block : List Step} (hrun : f.Run pc block) (s : BuildState) {b : BlockId}
    (hb : b < s.arena.blocks.size) (hstandard : s.arena.Standard known src.constants)
    (hready : Ready f types (f.Declared pc) s.arena s.vars) :
    ∃ s' new, BlockEmission b (BuildM.steps src b block) s s' new ∧
      (∀ j : Nat, (j : Int) ∈ StepBlocks.targets block →
        Ready f types (f.Declared j) s'.arena s'.vars) ∧
      ∀ (V E M : Type) (I : Interpretation V E M),
        RunsLike I f known src (Advances (f.step I known)) b pc block s.vars s' new := by
  have hbuilds (V E M : Type) (I : Interpretation V E M) :=
    hrun.builds (I := I) hwell hsrc.blockId hsrc.type s hb hstandard hready
  obtain ⟨s', new, hem, hready', -⟩ := hbuilds Unit Unit Unit Interpretation.trivial
  refine ⟨s', new, hem, hready', fun V E M I => ?_⟩
  obtain ⟨s'', new', hem', -, hmatches⟩ := hbuilds V E M I
  -- the builder does not depend on the interpretation
  obtain rfl : s' = s'' := by
    have heq := hem.run.symm.trans hem'.run
    injection heq
  obtain rfl : new = new' := List.append_cancel_left (hem.ops.symm.trans hem'.ops)
  exact hmatches

/-- What the rest of a block does to the state of the builder, from the start of the block on. -/
structure Completes (pc : Int) (b : BlockId) (s s' : BuildState) (new : List ValueId) : Prop where
  frame : s' = { s with
    arena := s'.arena
    vars := s'.vars
    ops := s'.ops
    atEnd := s.atEnd.insert pc s'.vars }
  grows : s.arena.Grows s'.arena
  size : s'.arena.blocks.size = s.arena.blocks.size
  others : ∀ c, c ≠ b → s'.arena.block c = s.arena.block c
  ops : (s'.arena.ops b).toList = s.ops.toList ++ new
  fresh : ∀ v ∈ new, s.arena.values.size ≤ v
  kept : ∀ v φ k, s.arena.value v = .phi φ → (∀ e ∈ s.openEntries pc, e.phi = v → e.index ≠ k) →
    ∃ φ', s'.arena.value v = .phi φ' ∧ φ'.values[k]? = φ.values[k]?
  filled : ∀ v φ k x w, s.arena.value v = .phi φ → k < φ.values.size →
    (∃ e ∈ s.openEntries pc, e.phi = v ∧ e.index = k) →
    (∀ e ∈ s.openEntries pc, e.phi = v → e.var = x) → s'.vars.get? x = some (some w) →
    ∃ φ', s'.arena.value v = .phi φ' ∧ φ'.values[k]? = some w

theorem block_run {b : BlockId} {block : List Step} {s₁ s₂ : BuildState} {new : List ValueId}
    {q : Int} (hb : src.blockIds.get? q = some b) (hsize : b < s₁.arena.blocks.size)
    (hblock : src.blocks.get? q = some block)
    (henter : BuildM.enter src q (StepBlocks.entering src.blocks.ways q) { s with ops := #[] } =
      .ok () s₁)
    (hem : BlockEmission b (BuildM.steps src b block) s₁ s₂ new) :
    ∃ s', BuildM.block src src.blocks.ways q s = .ok () s' ∧ Completes q b s₁ s' new ∧
      s'.vars = s₂.vars ∧ s'.arena.next b = s₂.arena.next b ∧ s₂.arena.Grows s'.arena := by
  have hopen : s₂.openEntries q = s₁.openEntries q := by rw [hem.frame]; rfl
  let filled := (s₂.openEntries q).foldl (BuildM.fillEntry s₂.vars) s₂.arena
  obtain ⟨hgrows, hblocks⟩ := grows_foldl_fillEntry s₂.vars (s₂.openEntries q) s₂.arena
  have hsize' : b < filled.blocks.size := by rw [hblocks, hem.size]; exact hsize
  refine ⟨{ s₂ with
      arena := filled.setOps b s₂.ops
      atEnd := s₂.atEnd.insert q s₂.vars }, ?_, ?_, rfl, ?_, hgrows.of_values_eq rfl⟩
  · rw [BuildM.block, bind_ok (blockId_run hb), bind_ok (modify_run _ s), bind_ok henter,
      Table.getD_eq, hblock, Option.getD_some, bind_ok hem.run]
    rfl
  · refine ⟨by rw [hem.frame], hem.grows.trans (hgrows.of_values_eq rfl), ?_, fun c hc => ?_, ?_,
      hem.fresh, fun v φ k hvalue hother => ?_, fun v φ k x w hvalue hk hentry hvar hw => ?_⟩
    · rw [Arena.setOps, Arena.size_modifyBlock, hblocks, hem.size]
    · rw [Arena.setOps, Arena.block_modifyBlock_of_ne hc, Arena.block, hblocks, ← Arena.block,
        hem.others c hc]
    · rw [Arena.ops, Arena.setOps, Arena.block_modifyBlock_self hsize']
      exact hem.ops
    · have hfilled : ∃ φ', filled.value v = .phi φ' ∧ φ'.values[k]? = φ.values[k]? :=
        fillEntries_other _ (hem.adds.phi hvalue) (hopen ▸ hother)
      exact hfilled
    · exact fillEntries_entry _ (hem.adds.phi hvalue) hk (hopen ▸ hentry) (hopen ▸ hvar) hw
  · rw [Arena.next, Arena.setOps, Arena.block_modifyBlock_self hsize', Arena.next,
      Arena.block, hblocks, Arena.block]

/-! ### What stays of the values of variables -/

section Values

variable {b source : BlockId} {phis phis' new : List ValueId} {x : String} {u : Nat} {q : Int}
  (h : Completes pc b s s' new)
include h

theorem Completes.openEntries_eq : s'.openEntries q = s.openEntries q := by
  rw [h.frame]
  rfl

theorem Completes.atEnd_of_ne (hq : q ≠ pc) : s'.atEnd.get? q = s.atEnd.get? q := by
  rw [h.frame]
  exact Table.get?_insert_of_ne _ _ (Ne.symm hq)

theorem Completes.atEnd_self : s'.atEnd.get? pc = some s'.vars := by
  rw [h.frame]
  exact Table.get?_insert_self _ _ _

/-- Where a block is completed, the entries of phis that wait for it are filled in, and those for
other blocks stay. -/
theorem Completes.joined
    (hopen : ∀ e ∈ s.openEntries pc, ∃ φ, s.arena.value e.phi = .phi φ ∧ φ.preds[e.index]? = some b)
    (hahead : s.atEnd.get? (pc : Int) = none) (hjoined : Joined types s phis q source x u)
    (hsource : q ≠ pc → source ≠ b) (hmem : u ∈ phis' ↔ u ∈ phis) :
    Joined types s' phis' q source x u := by
  rcases hjoined with hunit | ⟨hnot, vars, hvars, hu⟩ | ⟨hin, φ, k, hvalue, hk, hdone, hwaits⟩
  · exact .inl hunit
  · refine .inr (.inl ⟨mt hmem.mp hnot, vars, ?_, hu⟩)
    rw [h.atEnd_of_ne, hvars]
    rintro rfl
    cases hahead.symm.trans hvars
  · obtain ⟨values, hvalue', hsize⟩ := h.grows.phi u φ hvalue
    refine .inr (.inr ⟨hmem.mpr hin, _, k, hvalue', hk, fun vars w hvars hw => ?_, fun hnone => ?_⟩)
    · by_cases hq : q = pc
      · subst hq
        obtain ⟨hlt, hentry, hvar⟩ := hwaits hahead
        cases hvars.symm.trans h.atEnd_self
        obtain ⟨φ', hφ', hentry'⟩ := h.filled u φ k x w hvalue hlt hentry hvar hw
        cases hvalue'.symm.trans hφ'
        exact hentry'
      · obtain ⟨φ', hφ', hentry'⟩ := h.kept u φ k hvalue fun e he hphi hindex => by
          obtain ⟨ψ, hψ, hpred⟩ := hopen e he
          cases (hphi ▸ hvalue).symm.trans hψ
          obtain ⟨hlt, hget, -⟩ := List.idxOf?_eq_some_iff.mp hk
          have hpred' :
              φ.preds.toList[k]? = some b := by rw [← hindex, Array.getElem?_toList, hpred]
          rw [List.getElem?_eq_getElem hlt, hget, Option.some.injEq] at hpred'
          exact hsource hq hpred'
        cases hvalue'.symm.trans hφ'
        rw [hentry']
        exact hdone vars w (h.atEnd_of_ne hq ▸ hvars) hw
    · have hq : q ≠ pc := by
        rintro rfl
        cases hnone.symm.trans h.atEnd_self
      rw [h.openEntries_eq, hsize]
      exact hwaits (h.atEnd_of_ne hq ▸ hnone)

end Values

end Jib
