import Jib.Proofs.Construction.Invariant

/-!
# The graph of a body

The graph that is built from a well-formed body does what the body does: for all arguments and in
every memory one halts if the other does, with the same result or the same failure and the same
memory.
-/

namespace Jib

open Jib.Interpretation Jib.FunctionBody

variable {f : FunctionBody} {types : String → Ty} {known : String → Option Const}
variable {src : BuildSource} {s : BuildState} {a : Arena} {starts : Nat → VarTable}
variable {source target : BlockId}

/-! ### The start of the construction -/

/-- Every number gets a block of its own. -/
theorem newBlocks_run (pcs : List Int) (ids : Table Int BlockId) (a : Arena)
    (hlt : ∀ q b, ids.get? q = some b → b < a.blocks.size)
    (hinjective : ∀ q p b, ids.get? q = some b → ids.get? p = some b → q = p) :
    ∃ ids' a', GraphM.newBlocks pcs ids a = .ok ids' a' ∧ a'.values = a.values ∧
      (∀ q b, ids'.get? q = some b → b < a'.blocks.size) ∧
      (∀ q p b, ids'.get? q = some b → ids'.get? p = some b → q = p) ∧
      ∀ q, q ∈ pcs ∨ (∃ b, ids.get? q = some b) → ∃ b, ids'.get? q = some b := by
  induction pcs generalizing ids a with
  | nil => exact ⟨ids, a, rfl, rfl, hlt, hinjective, fun q hq => hq.resolve_left (by simp)⟩
  | cons pc pcs ih =>
    let a₁ := (a.addBlock ⟨#[], .unset⟩).2
    have hsize : a₁.blocks.size = a.blocks.size + 1 := by simp [a₁, Arena.addBlock]
    have hget (q : Int) : (ids.insert pc a.blocks.size).get? q =
        if q = pc then some a.blocks.size else ids.get? q := by
      split_ifs with hq
      · rw [hq, Table.get?_insert_self]
      · exact Table.get?_insert_of_ne _ _ (Ne.symm hq)
    obtain ⟨ids', a', hrun, hvalues, hlt', hinjective', hall⟩ := ih (ids.insert pc a.blocks.size) a₁
      (fun q b hq => by grind) (fun q p b hq hp => by grind)
    refine ⟨ids', a', hrun, hvalues, hlt', hinjective', fun q hq => hall q ?_⟩
    rw [hget]
    split_ifs with hpc
    · exact .inr ⟨_, rfl⟩
    · exact hq.imp_left fun hmem => (List.mem_cons.mp hmem).resolve_left hpc

section

variable (hwell : f.WellFormed types known) (hsrc : src.Describes f)
  (hstandard : a.Standard known src.constants)
  (hsize : ∀ q b, src.blockIds.get? q = some b → b < a.blocks.size)
include hwell hsrc hstandard hsize

/-- Before the first block is built. -/
theorem building_start :
    Building f types known src 0 { arena := a, exits := src.blocks.ways } (fun _ => {}) where
  standard := hstandard
  size := hsize
  ways :=
    { loop := fun _ hlt => absurd hlt (Nat.not_lt_zero _)
      left := fun _ q j _ hq hleads => by
        obtain ⟨block, hget, hrun⟩ := hsrc.run q hq
        exact (StepBlocks.mem_ways hsrc.valid).mpr
          ⟨block, hget, (hrun.mem_targets hwell).mpr ⟨j, rfl, hleads⟩⟩ }
  ahead q _ := Table.get?_empty _
  waiting q e he := nomatch he
  start hlt := absurd hlt (Nat.not_lt_zero _)
  done _ _ hlt := absurd hlt (Nat.not_lt_zero _)

theorem blocks_run :
    ∃ s starts, BuildM.blocks src { arena := a, exits := src.blocks.ways } = .ok () s ∧
      Building f types known src f.statements.length s starts := by
  have hsorted : f.labelList.Pairwise (· < ·) := List.Pairwise.filter _ List.pairwise_lt_range
  have hsort : src.blocks.keys.toList.mergeSort (fun q p => decide (q ≤ p)) =
      f.labelList.map Int.ofNat := by
    rw [hsrc.keys]
    refine List.mergeSort_of_pairwise (List.pairwise_map.mpr (hsorted.imp fun h => ?_))
    exact decide_eq_true (Int.ofNat_le.mpr h.le)
  rw [BuildM.blocks, hsort]
  exact (building_start hwell hsrc hstandard hsize).run hwell hsrc f.labelList hsorted
    (fun q hq => by simp [mem_labelList, hq])
    (fun q hq => ⟨mem_labelList.mp hq, (mem_labelList.mp hq).2⟩)
    (Nat.zero_le _)

end

/-! ### What the graph does -/

section Graph

variable {V E M : Type} {I : Interpretation V E M}

theorem Interpretation.look_enter_of_not_mem {u : ValueId} (hnot : u ∉ (a.ops target).toList)
    (ρ : Valuation V) : I.look a (I.enter a source target ρ) u = I.look a ρ u := by
  unfold look enter
  cases hvalue : a.value u with
  | phi p => simp only [if_neg fun hmem => hnot (Array.mem_toList_iff.mpr hmem)]
  | _ => rfl

theorem Interpretation.look_enter_phi {u w : ValueId} {φ : Phi} (hvalue : a.value u = .phi φ)
    (hmem : u ∈ (a.ops target).toList) (hentry : φ.entry? source = some w) (ρ : Valuation V) :
    I.look a (I.enter a source target ρ) u = I.look a ρ w := by
  have hlook : I.look a (I.enter a source target ρ) u = I.enter a source target ρ u := by
    simp only [look, hvalue]
  rw [hlook]
  simp only [enter, hvalue, if_pos (Array.mem_toList_iff.mp hmem), hentry, Option.bind_some]

/-- On an edge the variables keep their values. -/
theorem Agrees.enter {declared : String → Prop} {last first : VarTable} {q : Int} {σ : Store V}
    {ρ : Valuation V} (h : Agrees I f declared s.arena last σ ρ)
    (hunit : s.arena.value Arena.unitId = .const .unit) (hend : s.atEnd.get? q = some last)
    (hlast : Ready f types declared s.arena last) (hfirst : Ready f types declared s.arena first)
    (hjoined : ∀ x u, declared x → first.get? x = some (some u) →
      Joined types s (s.arena.ops target).toList q source x u) :
    Agrees I f declared s.arena first σ (I.enter s.arena source target ρ) where
  value x hx := by
    obtain ⟨w, y, hw, hy, hlook, hunit'⟩ := h.value x hx
    obtain ⟨w', hw', -, htype⟩ := hlast.value x hx
    cases hw.symm.trans hw'
    obtain ⟨u, hu, -, htype'⟩ := hfirst.value x hx
    refine ⟨u, y, hu, hy, ?_⟩
    rcases hjoined x u hx hu with ⟨rfl, hx'⟩ | ⟨hnot, vars, hvars, hget⟩ |
      ⟨hmem, φ, k, hvalue, hk, hdone, -⟩
    · rw [hunit' (htype.trans hx')]
      exact holds_const hunit _
    · cases hend.symm.trans hvars
      cases hw.symm.trans hget
      exact ⟨(look_enter_of_not_mem hnot ρ).trans hlook, hunit'⟩
    · have hentry : φ.entry? source = some w := by
        rw [Phi.entry?, hk, Option.bind_some, hdone last w hend hw]
      exact ⟨(look_enter_phi hvalue hmem hentry ρ).trans hlook,
        fun h => hunit' (htype.trans (htype'.symm.trans h))⟩
  outside := h.outside

/-- A label of the body and the block of the graph that stands for it. -/
def Corresponds (I : Interpretation V E M) (f : FunctionBody) (src : BuildSource) (a : Arena)
    (starts : Nat → VarTable) (x : Store V × Nat) (y : Valuation V × BlockId) : Prop :=
  f.IsLabel x.2 ∧ src.blockIds.get? (x.2 : Int) = some y.2 ∧
    Agrees I f (f.Declared x.2) a (starts x.2) x.1 y.1

/-- Each block of the graph does what the body does from its label on. -/
theorem Building.simulates (hwell : f.WellFormed types known) (hsrc : src.Describes f)
    (h : Building f types known src f.statements.length s starts) (I : Interpretation V E M) :
    Simulates (f.step I known) (I.graphStep s.arena) (Corresponds I f src s.arena starts) := by
  rintro ⟨σ, q⟩ ⟨ρ, b⟩ ⟨hq, hb, hagrees⟩ m
  obtain ⟨b', last, hdone⟩ := h.done q hq hq.2
  cases hb.symm.trans hdone.blockId
  have hmatches := hdone.steps V E M I s.arena (.refl _) rfl σ ρ hagrees m
  cases houtcome : I.graphStep s.arena (ρ, b) m with
    rw [houtcome] at hmatches
  | error e m' => exact hmatches
  | ok r m' =>
    cases r with
    | inl r => exact hmatches
    | inr y =>
      obtain ⟨σ', j, ρ', hadvances, htarget, hid, hy, hagrees'⟩ := hmatches
      have hleads := (mem_targets_getD hwell hsrc hq).mp htarget
      obtain ⟨c, last', hdone'⟩ := h.done j hleads.1 hleads.1.2
      cases hid.symm.trans hdone'.blockId
      refine ⟨(σ', j), hadvances, hleads.1, hid, ?_⟩
      rw [show y.1 = _ from hy]
      exact hagrees'.enter h.standard.unit hdone.atEnd (hdone.ready_last j hleads) hdone'.ready
        fun x u hx hu => hdone'.joined q b x u hq hleads hb hx hu

end Graph

/-- The graph of a well-formed body is built, and it does what the body does.  Arguments of unit
type are the unit value. -/
theorem build_halts_iff (f : FunctionBody) (types : String → Ty) (known : String → Option Const)
    (hwell : f.WellFormed types known) (name : String) (constants : Table String ValueId)
    (a : Arena) (hstandard : a.Standard known constants) :
    ∃ blocks g a', StepBlocks.ofBody f.steps = .ok blocks ∧
      GraphM.build name f.argNames f.type constants blocks 0 a = .ok g a' ∧
      ∀ (V E M : Type) (I : Interpretation V E M) (ys : List V), ys.length = f.args.length →
        (∀ p y, (p, y) ∈ f.args.zip ys → p.2 = .unit → y = I.constant .unit) →
        ∀ m result,
          Halts (f.step I known) (I.startStore (f.argNames.zip ys) f.result, 0) m result ↔
          Halts (I.graphStep a') (startValuation (g.args.toList.zip ys), g.start) m result := by
  obtain ⟨blocks, hblocks, hvalid, hkeys, hruns⟩ := ofBody_run hwell
  obtain ⟨ids, a₁, hids, hvalues, hlt, hinjective, hall⟩ :=
    newBlocks_run blocks.keys.toList {} a (by simp) (by simp)
  let src : BuildSource := ⟨name, f.argNames, f.type, constants, 0, blocks, ids⟩
  have hsrc : src.Describes f := by
    refine ⟨rfl, rfl, rfl, hvalid, hkeys, hruns, fun j hj => hall j (.inl ?_), hinjective⟩
    rw [hkeys]
    exact List.mem_map_of_mem (mem_labelList.mpr hj)
  have hstandard₁ : a₁.Standard known src.constants :=
    hstandard.grows ((Arena.Grows.refl a).of_values_eq hvalues)
  obtain ⟨s, starts, hrun, hbuilt⟩ := blocks_run hwell hsrc hstandard₁ hlt
  have hzero := isLabel_zero hwell
  obtain ⟨b, last, hdone⟩ := hbuilt.done 0 hzero hzero.2
  refine ⟨blocks, ⟨name, s.args, b, s.hasLoop⟩, s.arena, hblocks, ?_,
    fun V E M I ys hlength hunit m result => ?_⟩
  · have hbuild : GraphM.buildBlocks src a₁ = .ok (s.args, s.hasLoop) s.arena := by
      rw [GraphM.buildBlocks, hrun]
    rw [GraphM.build, bind_ok hids, bind_ok hbuild]
    simp only [show ids.get? 0 = some b from hdone.blockId]
    rfl
  · refine (hbuilt.simulates hwell hsrc I).halts_iff ⟨hzero, hdone.blockId, ?_⟩ m result
    exact (hbuilt.start hzero.2).agrees I hwell hlength hunit

end Jib
