import Jib.Proofs.Construction.Blocks

/-!
# How far the construction has come

All blocks below a label are done: each does what the body does from its label on, and its variables
stand for what they leave the blocks with that lead to it.  Building the next block keeps this, so
it holds when all blocks are done.
-/

namespace Jib

section Definitions

variable (f : FunctionBody) (types : String → Ty) (known : String → Option Const)
variable (src : BuildSource)

/-- A block is done: its tables of variables at its start and at its end, where the values at its
start come from, and what it does. -/
structure BlockDone (s : BuildState) (q : Nat) (b : BlockId) (first last : VarTable) : Prop where
  blockId : src.blockIds.get? (q : Int) = some b
  atEnd : s.atEnd.get? (q : Int) = some last
  ready : Ready f types (f.Declared q) s.arena first
  ready_last : ∀ j, f.Leads q j → Ready f types (f.Declared j) s.arena last
  joined : ∀ p c x u, f.IsLabel p → f.Leads p q → src.blockIds.get? (p : Int) = some c →
    f.Declared q x → first.get? x = some (some u) →
    Joined types s (s.arena.ops b).toList p c x u
  steps : ∀ (V E M : Type) (I : Interpretation V E M) a, s.arena.Grows a →
    a.block b = s.arena.block b → ∀ σ ρ, Agrees I f (f.Declared q) a first σ ρ → ∀ m,
      Matches I f known src (Advances (f.step I known)) a b last
        (StepBlocks.targets (src.blocks.getD (q : Int) [])) σ q m (I.graphStep a (ρ, b) m)

/-- The state of the builder when all blocks below a label are done. -/
structure Building (n : Nat) (s : BuildState) (starts : Nat → VarTable) : Prop where
  standard : s.arena.Standard known src.constants
  size : ∀ q b, src.blockIds.get? q = some b → b < s.arena.blocks.size
  ways : Ways f n s
  ahead : ∀ q : Nat, n ≤ q → s.atEnd.get? (q : Int) = none
  waiting : ∀ q e, e ∈ s.openEntries q → ∃ b φ, src.blockIds.get? q = some b ∧
    s.arena.value e.phi = .phi φ ∧ φ.preds[e.index]? = some b
  start : 0 < n → Starts f s.arena s.args.toList (starts 0)
  done : ∀ q, f.IsLabel q → q < n → ∃ b last, BlockDone f types known src s q b (starts q) last

end Definitions

variable {f : FunctionBody} {types : String → Ty} {known : String → Option Const}
variable {src : BuildSource} {s s' : BuildState} {n pc : Nat} {starts : Nat → VarTable}

theorem mem_targets_getD (hwell : f.WellFormed types known) (hsrc : src.Describes f) {q j : Nat}
    (hq : f.IsLabel q) :
    (j : Int) ∈ StepBlocks.targets (src.blocks.getD (q : Int) []) ↔ f.Leads q j := by
  obtain ⟨block, hget, hrun⟩ := hsrc.run q hq
  rw [Table.getD_eq, hget, Option.getD_some, hrun.mem_targets hwell]
  constructor
  · rintro ⟨k, hk, hleads⟩
    obtain rfl : j = k := by omega
    exact hleads
  · exact fun hleads => ⟨j, rfl, hleads⟩

/-- A label that no block has in between. -/
theorem Building.mono {n' : Nat} (hwell : f.WellFormed types known)
    (h : Building f types known src n s starts) (hle : n ≤ n')
    (hnone : ∀ q, f.IsLabel q → n ≤ q → n' ≤ q) :
    Building f types known src n' s starts where
  standard := h.standard
  size := h.size
  ways :=
    { loop := fun q hq hloop => by
        by_cases hlt : q < n
        · exact h.ways.loop q hlt hloop
        · have := hnone q (hloop.isLabel hwell) (by omega)
          omega
      left := fun hflag q j hj => h.ways.left hflag q j (by omega) }
  ahead q hq := h.ahead q (by omega)
  waiting := h.waiting
  start hn := h.start (by
    by_contra hzero
    have := hnone 0 (FunctionBody.isLabel_zero hwell) (by omega)
    omega)
  done q hq hlt := h.done q hq (by
    by_contra hge
    have := hnone q hq (by omega)
    omega)

/-- The next block can be entered. -/
theorem Building.enterable (h : Building f types known src pc s starts) :
    Enterable f types known src pc { s with ops := #[] } where
  standard := h.standard
  atEnd p hp hleads hlt := by
    obtain ⟨b, last, hdone⟩ := h.done p hp hlt
    exact ⟨last, hdone.atEnd, hdone.ready_last pc hleads⟩
  ahead := h.ahead
  older q e he := by
    obtain ⟨b, φ, -, hvalue, -⟩ := h.waiting q e he
    exact Arena.lt_size_of_value hvalue (by simp)

section Step

variable {s₁ : BuildState} {b : BlockId} {phis new : List ValueId}

/-- The open entries after a block has been entered belong to phis of their blocks. -/
theorem Building.waiting_of_entered (h : Building f types known src pc s starts)
    (hentered : Entered f types src pc { s with ops := #[] } s₁ phis) (q : Int) (e : OpenEntry)
    (he : e ∈ s₁.openEntries q) : ∃ b φ, src.blockIds.get? q = some b ∧
      s₁.arena.value e.phi = .phi φ ∧ φ.preds[e.index]? = some b := by
  rcases hentered.newer q e he with hold | ⟨-, b, φ, hb, hvalue, hpred⟩
  · obtain ⟨b, φ, hb, hvalue, hpred⟩ := h.waiting q e hold
    exact ⟨b, φ, hb, hentered.adds.phi hvalue, hpred⟩
  · exact ⟨b, φ, hb, hvalue, hpred⟩

theorem Interpretation.evalOps_phis {V E M : Type} (I : Interpretation V E M) {a : Arena}
    (hphis : ∀ v ∈ phis, ∃ φ, a.value v = .phi φ) (ρ : Valuation V) :
    I.evalOps a (phis ++ new) ρ = I.evalOps a new ρ := by
  induction phis with
  | nil => rfl
  | cons v phis ih =>
    obtain ⟨φ, hvalue⟩ := hphis v List.mem_cons_self
    rw [← ih fun v' hv' => hphis v' (List.mem_cons_of_mem _ hv'), List.cons_append]
    simp only [evalOps, hvalue]

section

variable (hsrc : src.Describes f) (hentered : Entered f types src pc { s with ops := #[] } s₁ phis)
  (hcompletes : Completes pc b s₁ s' new) (hb : src.blockIds.get? (pc : Int) = some b)
  (hopen : ∀ e ∈ s₁.openEntries pc, ∃ φ, s₁.arena.value e.phi = .phi φ ∧ φ.preds[e.index]? = some b)
  (hahead : s₁.atEnd.get? (pc : Int) = none)
include hsrc hentered hcompletes hb hopen hahead

theorem BlockDone.grows {q : Nat} {c : BlockId} {first last : VarTable}
    (h : BlockDone f types known src s q c first last) (hq : q < pc) :
    BlockDone f types known src s' q c first last := by
  have hne {p : Nat} {d : BlockId} (hp : (p : Int) ≠ pc)
    (hd : src.blockIds.get? (p : Int) = some d) :
      d ≠ b := fun heq => hp (hsrc.injective _ _ _ hd (heq ▸ hb))
  have hgrows : s.arena.Grows s'.arena := hentered.adds.grows.trans hcompletes.grows
  have hblock : s'.arena.block c = s.arena.block c := by
    rw [hcompletes.others c (hne (by omega) h.blockId), Arena.block, hentered.blocks, ← Arena.block]
  refine ⟨h.blockId, ?_, h.ready.grows hgrows, fun j hleads => (h.ready_last j hleads).grows hgrows,
    fun p d x u hp hleads hd hx hu => ?_, ?_⟩
  · rw [hcompletes.atEnd_of_ne (by omega), hentered.atEnd]
    exact h.atEnd
  · rw [Arena.ops, hblock]
    exact hcompletes.joined hopen hahead (Joined.adds (s := { s with ops := #[] })
      (h.joined p d x u hp hleads hd hx hu) hentered.toAddsPhis Iff.rfl)
      (fun hp => hne hp hd) Iff.rfl
  · intro V E M I a ha hblock' σ ρ hagrees m
    exact h.steps V E M I a (hgrows.trans ha) (hblock'.trans hblock) σ ρ hagrees m

theorem BlockDone.built (hready : ∀ j, f.Leads pc j → Ready f types (f.Declared j) s'.arena s'.vars)
    (hruns : ∀ (V E M : Type) (I : Interpretation V E M), RunsLike I f known src
      (Advances (f.step I known)) b pc (src.blocks.getD (pc : Int) []) s₁.vars s' new) :
    BlockDone f types known src s' pc b s₁.vars s'.vars := by
  have hops : (s'.arena.ops b).toList = phis ++ new := by
    rw [hcompletes.ops, hentered.ops]
    rfl
  -- a value that is there at the start is no operation of the block
  have hmem {x : String} {u : Nat} (hx : f.Declared pc x) (hu : s₁.vars.get? x = some (some u)) :
      u ∈ phis ++ new ↔ u ∈ phis := by
    obtain ⟨u', hu', hlt, -⟩ := hentered.ready.value x hx
    cases hu.symm.trans hu'
    refine ⟨fun hin => (List.mem_append.mp hin).resolve_right fun hnew => ?_,
      List.mem_append_left _⟩
    exact absurd hlt (Nat.not_lt.mpr (hcompletes.fresh u hnew))
  refine ⟨hb, hcompletes.atEnd_self, hentered.ready.grows hcompletes.grows, hready,
    fun p d x u hp hleads hd hx hu => ?_, ?_⟩
  · rw [hops]
    refine hcompletes.joined hopen hahead (hentered.joined p d x u hp hleads hd hx hu)
      (fun hp heq => hp ?_) (hmem hx hu)
    exact hsrc.injective _ _ _ hd (heq ▸ hb)
  · intro V E M I a ha hblock σ ρ hagrees m
    have hphis (v : ValueId) (hv : v ∈ phis) : ∃ φ, a.value v = .phi φ := by
      obtain ⟨-, φ, hφ⟩ := hentered.isPhi v hv
      obtain ⟨values, hvalue, -⟩ := (hcompletes.grows.trans ha).phi v φ hφ
      exact ⟨_, hvalue⟩
    have hnext : a.next b = s'.arena.next b := by rw [Arena.next, hblock, ← Arena.next]
    have hops' : (a.ops b).toList = phis ++ new := by rw [Arena.ops, hblock, ← Arena.ops, hops]
    have hstep : I.graphStep a (ρ, b) = (do I.leave a b (← I.evalOps a new ρ)) := by
      rw [Interpretation.graphStep]
      simp only [hops', I.evalOps_phis hphis]
    rw [hstep]
    exact hruns V E M I a ha hnext σ ρ hagrees m

end

theorem Building.step (hwell : f.WellFormed types known) (hsrc : src.Describes f)
    (hlabel : f.IsLabel pc) (h : Building f types known src pc s starts) :
    ∃ s' starts', BuildM.block src src.blocks.ways pc s = .ok () s' ∧
      Building f types known src (pc + 1) s' starts' := by
  obtain ⟨b, hb⟩ := hsrc.blockId pc hlabel
  obtain ⟨block, hblock, hrun⟩ := hsrc.run pc hlabel
  obtain ⟨s₁, phis, henter, hentered, hstarts, hargs, hways⟩ :=
    enter_run hwell hsrc h.enterable hlabel { h.ways with }
  have hstandard₁ := h.standard.grows hentered.adds.grows
  have hsize₁ : s₁.arena.blocks.size = s.arena.blocks.size := by rw [hentered.blocks]
  obtain ⟨s₂, new, hem, hready, hmatches⟩ :=
    hrun.builds_all hwell hsrc s₁ (hsize₁ ▸ h.size _ b hb) hstandard₁ hentered.ready
  obtain ⟨s', hrun', hcompletes, hvars, hnext, hgrows⟩ :=
    block_run hb (hsize₁ ▸ h.size _ b hb) hblock henter hem
  have hwaiting := h.waiting_of_entered hentered
  have hopen (e : OpenEntry) (he : e ∈ s₁.openEntries pc) :
      ∃ φ, s₁.arena.value e.phi = .phi φ ∧ φ.preds[e.index]? = some b := by
    obtain ⟨c, φ, hc, hvalue, hpred⟩ := hwaiting pc e he
    cases hb.symm.trans hc
    exact ⟨φ, hvalue, hpred⟩
  have hahead : s₁.atEnd.get? (pc : Int) = none := by
    rw [hentered.atEnd]
    exact h.ahead pc le_rfl
  refine ⟨s', Function.update starts pc s₁.vars, hrun',
    hstandard₁.grows hcompletes.grows, ?_, ?_, ?_, ?_, ?_, ?_⟩
  · intro q c hc
    rw [hcompletes.size, hsize₁]
    exact h.size q c hc
  · rw [hcompletes.frame]
    exact { hways with }
  · intro q hq
    rw [hcompletes.atEnd_of_ne (by omega), hentered.atEnd]
    exact h.ahead q (by omega)
  · intro q e he
    rw [hcompletes.openEntries_eq] at he
    obtain ⟨c, φ, hc, hvalue, hpred⟩ := hwaiting q e he
    obtain ⟨values, hvalue', -⟩ := hcompletes.grows.phi _ φ hvalue
    exact ⟨c, _, hc, hvalue', hpred⟩
  · intro _
    have hargs' : s'.args = s₁.args := by rw [hcompletes.frame]
    rw [hargs']
    by_cases hpc : pc = 0
    · subst hpc
      exact (hstarts rfl).grows hcompletes.grows
    · rw [Function.update_of_ne (Ne.symm hpc), hargs hpc]
      exact (h.start (by omega)).grows (hentered.adds.grows.trans hcompletes.grows)
  · intro q hq hlt
    rcases Nat.lt_succ_iff_lt_or_eq.mp hlt with hlt | rfl
    · obtain ⟨c, last, hdone⟩ := h.done q hq hlt
      rw [Function.update_of_ne (by omega)]
      exact ⟨c, last, hdone.grows hsrc hentered hcompletes hb hopen hahead hlt⟩
    · rw [Function.update_self]
      refine ⟨b, s'.vars, .built hsrc hentered hcompletes hb hopen hahead (fun j hleads => ?_) ?_⟩
      · rw [hvars]
        exact (hready j ((hrun.mem_targets hwell).mpr ⟨j, rfl, hleads⟩)).grows hgrows
      · intro V E M I a ha hnext' σ ρ hagrees m
        rw [Table.getD_eq, hblock, hvars]
        exact hmatches V E M I a (hgrows.trans ha) (hnext'.trans hnext) σ ρ hagrees m

end Step

theorem Building.run (hwell : f.WellFormed types known) (hsrc : src.Describes f) {n' : Nat}
    (labels : List Nat) (hsorted : labels.Pairwise (· < ·))
    (hlabels : ∀ q, f.IsLabel q → (q ∈ labels ↔ n ≤ q)) (hmem : ∀ q ∈ labels, f.IsLabel q ∧ q < n')
    (hle : n ≤ n') (h : Building f types known src n s starts) :
    ∃ s' starts',
      (labels.map Int.ofNat).forM (BuildM.block src src.blocks.ways) s = .ok () s' ∧
        Building f types known src n' s' starts' := by
  induction labels generalizing n s starts with
  | nil =>
    refine ⟨s, starts, rfl, h.mono hwell hle fun q hq hn => ?_⟩
    exact absurd ((hlabels q hq).mpr hn) (by simp)
  | cons pc labels ih =>
    rw [List.pairwise_cons] at hsorted
    obtain ⟨hlabel, hlt⟩ := hmem pc List.mem_cons_self
    have hpc := (hlabels pc hlabel).mp List.mem_cons_self
    have hnext := h.mono hwell hpc fun q hq hn => by
      rcases List.mem_cons.mp ((hlabels q hq).mpr hn) with rfl | hq
      · exact le_rfl
      · exact (hsorted.1 q hq).le
    obtain ⟨s₁, starts₁, hrun₁, h₁⟩ := hnext.step hwell hsrc hlabel
    have hlabels' (q : Nat) (hq : f.IsLabel q) : q ∈ labels ↔ pc + 1 ≤ q := by
      constructor
      · exact fun hin => hsorted.1 q hin
      · intro hn
        have hin := (hlabels q hq).mpr (by omega)
        exact (List.mem_cons.mp hin).resolve_left (by omega)
    obtain ⟨s', starts', hrun, h'⟩ := ih hsorted.2 hlabels'
      (fun q hq => hmem q (List.mem_cons_of_mem _ hq)) hlt h₁
    refine ⟨s', starts', ?_, h'⟩
    change (BuildM.block src src.blocks.ways pc >>= fun _ =>
      (labels.map Int.ofNat).forM (BuildM.block src src.blocks.ways)) s = _
    rw [bind_ok hrun₁, hrun]

end Jib
