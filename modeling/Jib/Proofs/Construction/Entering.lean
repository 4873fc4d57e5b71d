import Jib.Proofs.Construction.Edges
import Jib.Proofs.Construction.Phis

/-!
# Entering blocks

At the start of a block every declared variable has a value, and on every way into the block that
value is the one that the variable leaves the way with: it is the same value, the unit value, or a
phi with an entry for the way.  For ways that come later the entry is still open.
-/

namespace Jib

open Jib.BuildM

variable {f : FunctionBody} {types : String → Ty} {known : String → Option Const}
variable {src : BuildSource} {s s' : BuildState} {pc : Nat}
variable {first q : Int} {entry others : List Int} {preds : List BlockId} {x : String}

/-- What is built is a given function, cut into its blocks. -/
structure BuildSource.Describes (src : BuildSource) (f : FunctionBody) : Prop where
  args : src.args = f.argNames
  type : src.type = f.type
  start : src.start = 0
  valid : src.blocks.Valid
  keys : src.blocks.keys.toList = f.labelList.map Int.ofNat
  run : ∀ j, f.IsLabel j → ∃ block, src.blocks.get? (j : Int) = some block ∧ f.Run j block
  blockId : ∀ j, f.IsLabel j → ∃ b, src.blockIds.get? (j : Int) = some b
  injective : ∀ j k b, src.blockIds.get? j = some b → src.blockIds.get? k = some b → j = k

/-! ### The ways into a block -/

/-- The blocks that lead to a block. -/
abbrev BuildSource.entering (src : BuildSource) (pc : Nat) : List Int :=
  StepBlocks.entering src.blocks.ways pc

section Entries

variable (hsrc : src.Describes f)

include hsrc

theorem exists_run {block : List Step} (hget : src.blocks.get? q = some block) :
    ∃ p : Nat, q = p ∧ f.IsLabel p ∧ f.Run p block := by
  have hmem : q ∈ src.blocks.keys.toList := (hsrc.valid.mem_keys q).mpr (by simp [hget])
  rw [hsrc.keys, List.mem_map] at hmem
  obtain ⟨p, hp, rfl⟩ := hmem
  rw [FunctionBody.mem_labelList] at hp
  obtain ⟨block', hget', hrun⟩ := hsrc.run p hp
  cases hget'.symm.trans hget
  exact ⟨p, rfl, hp, hrun⟩

theorem mem_entry (hwell : f.WellFormed types known) :
    q ∈ src.entering pc ↔ ∃ p : Nat, q = p ∧ f.IsLabel p ∧ f.Leads p pc := by
  rw [StepBlocks.mem_entering hsrc.valid]
  constructor
  · rintro ⟨block, hget, htarget⟩
    obtain ⟨p, rfl, hp, hrun⟩ := exists_run hsrc hget
    obtain ⟨k, hk, hleads⟩ := (hrun.mem_targets hwell).mp htarget
    obtain rfl : pc = k := by omega
    exact ⟨p, rfl, hp, hleads⟩
  · rintro ⟨p, rfl, hp, hleads⟩
    obtain ⟨block, hget, hrun⟩ := hsrc.run p hp
    exact ⟨block, hget, (hrun.mem_targets hwell).mpr ⟨pc, rfl, hleads⟩⟩

theorem entry_pairwise (pc : Nat) : (src.entering pc).Pairwise (· ≤ ·) := by
  refine StepBlocks.entering_pairwise hsrc.valid ?_ _
  rw [hsrc.keys, List.pairwise_map]
  refine List.Pairwise.imp (fun h => Int.ofNat_lt.mpr h) ?_
  exact List.Pairwise.filter _ List.pairwise_lt_range

/-- Only behind the start of a loop a block is entered twice from the same block. -/
theorem entry_nodup (hwell : f.WellFormed types known)
    (honce : f.IsLoop pc ∨ ∀ h, h < pc → ¬ f.IsLoop h) : (src.entering pc).Nodup := by
  refine StepBlocks.entering_nodup hsrc.valid fun q block hget => ?_
  obtain ⟨p, rfl, hp, hrun⟩ := exists_run hsrc hget
  by_contra hcount
  obtain ⟨-, ⟨h, hlt, hloop⟩, hno⟩ := hrun.count_targets hwell (Nat.not_le.mp hcount)
  exact honce.elim hno fun hnone => hnone h hlt hloop

end Entries

/-! ### Computations that leave the state as it is -/

theorem mapM_run {α β : Type} {g : α → BuildM β} (related : α → β → Prop) (l : List α)
    (hg : ∀ x ∈ l, ∃ y, g x s = .ok y s ∧ related x y) :
    ∃ ys, l.mapM g s = .ok ys s ∧ List.Forall₂ related l ys := by
  induction l with
  | nil => exact ⟨[], rfl, .nil⟩
  | cons x l ih =>
    obtain ⟨y, hy, hrelated⟩ := hg x List.mem_cons_self
    obtain ⟨ys, hys, hrelated'⟩ := ih fun x' hx' => hg x' (List.mem_cons_of_mem _ hx')
    refine ⟨y :: ys, ?_, .cons hrelated hrelated'⟩
    rw [List.mapM_cons, bind_ok hy, bind_ok hys]
    rfl

theorem blockId_run {b : BlockId} (hb : src.blockIds.get? q = some b) :
    blockId src q s = .ok b s := by
  rw [blockId, hb]
  rfl

theorem blockIds_run (hsrc : src.Describes f) {l : List Int}
    (hl : ∀ q ∈ l, ∃ p : Nat, q = p ∧ f.IsLabel p ∧ f.Leads p pc) :
    ∃ preds, l.mapM (blockId src) s = .ok preds s ∧
      List.Forall₂ (fun q b => src.blockIds.get? q = some b) l preds := by
  refine mapM_run _ l fun q hq => ?_
  obtain ⟨p, rfl, hp, -⟩ := hl q hq
  obtain ⟨b, hb⟩ := hsrc.blockId p hp
  exact ⟨b, blockId_run hb, hb⟩

theorem varsAtEnd_run {vars : VarTable} (hvars : s.atEnd.get? q = some vars) :
    varsAtEnd q s = .ok vars s := by
  rw [varsAtEnd, bind_ok (get_run s), hvars]
  rfl

/-! ### Leaving ways -/

/-- Without loops every way is taken into account once. -/
theorem leaveWays_run (hnodup : entry.Nodup) {target : Int} {s : BuildState}
    (hmem : ∀ p ∈ entry, (p, target) ∈ s.exits) :
    ∃ s', entry.forM (leaveWay target) s = .ok () s' ∧ s' = { s with exits := s'.exits } ∧
      ∀ q j, j ≠ target → (q, j) ∈ s.exits → (q, j) ∈ s'.exits := by
  induction entry generalizing s with
  | nil => exact ⟨s, rfl, rfl, fun _ _ _ h => h⟩
  | cons p entry ih =>
    rw [List.nodup_cons] at hnodup
    let s₁ : BuildState := { s with exits := s.exits.filter (· != (p, target)) }
    have hrun : leaveWay target p s = .ok () s₁ := by
      rw [leaveWay, bind_ok (get_run s), if_neg (by simpa using hmem p List.mem_cons_self)]
      rfl
    obtain ⟨s₂, hrun₂, hframe₂, hexits₂⟩ := ih (s := s₁) hnodup.2 fun p' hp' => by
      have hne : p' ≠ p := fun h => hnodup.1 (h ▸ hp')
      exact List.mem_filter.mpr ⟨hmem p' (List.mem_cons_of_mem _ hp'), by simp [hne]⟩
    refine ⟨s₂, ?_, ?_, fun q j hj hmem => hexits₂ q j hj ?_⟩
    · change (leaveWay target p >>= fun _ => entry.forM (leaveWay target)) s = _
      rw [bind_ok hrun, hrun₂]
    · rw [hframe₂]
    · exact List.mem_filter.mpr ⟨hmem, by simp [hj]⟩

/-! ### The variables at the start of a block -/

structure Entered (f : FunctionBody) (types : String → Ty) (src : BuildSource) (pc : Nat)
    (s s' : BuildState) (phis : List ValueId) : Prop extends AddsPhis src s s' phis where
  ready : Ready f types (f.Declared pc) s'.arena s'.vars
  joined : ∀ p b x u, f.IsLabel p → f.Leads p pc → src.blockIds.get? (p : Int) = some b →
    f.Declared pc x → s'.vars.get? x = some (some u) → Joined types s' phis p b x u

/-- What has to hold before a block is entered: the earlier ways are done, the later ones are
not. -/
structure Enterable (f : FunctionBody) (types : String → Ty) (known : String → Option Const)
    (src : BuildSource) (pc : Nat) (s : BuildState) : Prop where
  standard : s.arena.Standard known src.constants
  atEnd : ∀ p, f.IsLabel p → f.Leads p pc → p < pc →
    ∃ vars, s.atEnd.get? (p : Int) = some vars ∧ Ready f types (f.Declared pc) s.arena vars
  ahead : ∀ q : Nat, pc ≤ q → s.atEnd.get? (q : Int) = none
  older : ∀ q e, e ∈ s.openEntries q → e.phi < s.arena.values.size

theorem forall₂_getElem? {α β : Type} {related : α → β → Prop} {l : List α} {l' : List β}
    (h : List.Forall₂ related l l') {k : Nat} {x : α} (hx : l[k]? = some x) :
    ∃ y, l'[k]? = some y ∧ related x y := by
  induction h generalizing k with
  | nil => cases hx
  | cons hhead _ ih =>
    cases k with
    | zero =>
      cases hx
      exact ⟨_, rfl, hhead⟩
    | succ k => exact ih hx

/-- The entry of a phi for a way stands where the way stands among the ways. -/
theorem idxOf?_preds (hsrc : src.Describes f)
    (hpreds : List.Forall₂ (fun q b => src.blockIds.get? q = some b) entry preds) {p : Int}
    (hp : p ∈ entry) {b : BlockId} (hb : src.blockIds.get? p = some b) :
    ∃ k, preds.idxOf? b = some k ∧ entry[k]? = some p := by
  induction hpreds with
  | nil => cases hp
  | @cons q c entry preds hc _ ih =>
    rw [List.idxOf?_cons]
    by_cases heq : c = b
    · subst heq
      rw [hsrc.injective p q c hb hc]
      exact ⟨0, by simp, rfl⟩
    · have hne : p ≠ q := fun h => heq (Option.some.inj (hc.symm.trans (h ▸ hb)))
      obtain ⟨k, hk, hget⟩ := ih ((List.mem_cons.mp hp).resolve_left hne)
      exact ⟨k + 1, by simp [heq, hk], hget⟩

theorem stands_phi (hsrc : src.Describes f) {values : List ValueId} {t : Ty} {phis : List ValueId}
    {u : Nat} (hpreds : List.Forall₂ (fun q b => src.blockIds.get? q = some b) entry preds)
    (hvalue : s.arena.value u = .phi ⟨preds.toArray, values.toArray, t⟩) (hu : u ∈ phis)
    (ht : t = types x)
    (hentry : ∀ k p, entry[k]? = some p →
      Supplied s p x u ⟨preds.toArray, values.toArray, t⟩ k) :
    Stands types src entry s phis x u := by
  refine ⟨Arena.lt_size_of_value hvalue (by simp), ?_, fun p hp b hb => ?_⟩
  · rw [Arena.typeOf, hvalue]
    exact ht
  · obtain ⟨k, hk, hget⟩ := idxOf?_preds hsrc hpreds hp hb
    exact .inr (.inr ⟨hu, _, k, hvalue, hk, hentry k p hget⟩)

section Steps

variable {s₀ : BuildState} {before : List ValueId} (hsrc : src.Describes f)
  (hbefore : AddsPhis src s₀ s before) (hunit : s₀.arena.value Arena.unitId = .const .unit)
include hsrc hbefore hunit

/-- The value of a variable where ways meet that are done. -/
theorem sets_meetVar (hpreds : List.Forall₂ (fun q b => src.blockIds.get? q = some b) entry preds)
    (x : String) (v : Nat) (vs : List ValueId) :
    Sets types src entry s before x (v < s₀.arena.values.size ∧ s₀.arena.typeOf v = types x ∧
        List.Forall₂ (fun q (w : Nat) => ∃ t : VarTable, s₀.atEnd.get? q = some t ∧
          t.get? x = some (some w)) entry (v :: vs))
      (do return some (← meetVar preds v vs)) := by
  cases hall : vs.all (· == v) with
  | true =>
    refine ⟨some v, s, [], by rw [meetVar, hall]; rfl, rfl, .refl _ _,
      fun ⟨hv, htype, hvalues⟩ => ⟨v, rfl, hv.trans_le hbefore.adds.size_le,
        (hbefore.adds.typeOf hv).trans htype, fun p hp b hb => .inr (.inl ⟨fun hmem => ?_, ?_⟩)⟩⟩
    · rw [List.append_nil] at hmem
      exact absurd hv (Nat.not_lt.mpr (hbefore.isPhi v hmem).1)
    · obtain ⟨k, hk⟩ := List.mem_iff_getElem?.mp hp
      obtain ⟨w, hw, t, ht, hget⟩ := forall₂_getElem? hvalues hk
      obtain rfl : w = v := by
        rcases List.mem_cons.mp (List.mem_of_getElem? hw) with hw | hw
        · exact hw
        · exact beq_iff_eq.mp (List.all_eq_true.mp hall w hw)
      exact ⟨t, hbefore.atEnd ▸ ht, hget⟩
  | false =>
    have hmeet : meetVar preds v vs s = (if s.arena.typeOf v == .unit then pure Arena.unitId else
        push (.phi ⟨preds.toArray, (v :: vs).toArray, s.arena.typeOf v⟩)) s := by
      rw [meetVar, hall, if_neg (by simp), bind_ok (Emission.typeOf v s).run]
    by_cases htype : s.arena.typeOf v = .unit
    · rw [htype] at hmeet
      refine ⟨some Arena.unitId, s, [], bind_ok hmeet, rfl, .refl _ _, fun ⟨hv, hx, _⟩ =>
        ⟨_, rfl, ?_⟩⟩
      refine stands_unit (hbefore.adds.grows.const hunit) ?_
      rw [← hx, ← hbefore.adds.typeOf hv, htype]
    · obtain ⟨s', hrun, hframe, hadds, hvalue, -⟩ := pushPhi_run src s
        ⟨preds.toArray, (v :: vs).toArray, s.arena.typeOf v⟩ x [] (by simp) (by simp)
      rw [if_neg (by simpa using htype)] at hmeet
      refine ⟨some s.arena.values.size, s', _, bind_ok (hmeet.trans hrun), hframe, hadds,
        fun ⟨hv, hx, hvalues⟩ => ⟨_, rfl, ?_⟩⟩
      refine stands_phi hsrc hpreds hvalue (by simp) ((hbefore.adds.typeOf hv).trans hx)
        fun k p hk => ?_
      obtain ⟨w, hw, t, ht, hget⟩ := forall₂_getElem? hvalues hk
      rw [← hbefore.atEnd, ← hadds.atEnd] at ht
      refine ⟨fun t' w' ht' hw' => ?_, fun hnone => ?_⟩
      · cases ht.symm.trans ht'
        cases hget.symm.trans hw'
        simpa using hw
      · cases ht.symm.trans hnone

/-- The value of a variable at the start of a loop, which one way enters. -/
theorem sets_loopEntry
    (hpreds : List.Forall₂ (fun q b => src.blockIds.get? q = some b) (first :: others) preds)
    (hahead : ∀ q ∈ others, s₀.atEnd.get? q = none)
    (hold : ∀ q e, e ∈ s₀.openEntries q → e.phi < s₀.arena.values.size) (x : String) (v : Nat) :
    Sets types src (first :: others) s before x (v < s₀.arena.values.size ∧
        s₀.arena.typeOf v = types x ∧
        ∃ t : VarTable, s₀.atEnd.get? first = some t ∧ t.get? x = some (some v))
      (loopEntry preds others x (some v)) := by
  by_cases htype : s.arena.typeOf v = .unit
  · refine ⟨some Arena.unitId, s, [], ?_, rfl, .refl _ _, fun ⟨hv, hx, _⟩ => ⟨_, rfl, ?_⟩⟩
    · rw [loopEntry, bind_ok (Emission.typeOf v s).run, htype]
      rfl
    · refine stands_unit (hbefore.adds.grows.const hunit) ?_
      rw [← hx, ← hbefore.adds.typeOf hv, htype]
  · obtain ⟨s', hrun, hframe, hadds, hvalue, hentries⟩ := pushPhi_run src s
      ⟨preds.toArray, (v :: others.map fun _ => Arena.missingId).toArray, s.arena.typeOf v⟩ x others
      (fun q hq => by rw [hbefore.atEnd, hahead q hq]) fun k q hk => by
        obtain ⟨b, hb, hid⟩ := forall₂_getElem? hpreds (List.getElem?_cons_succ.trans hk)
        exact ⟨b, hid, by simpa using hb⟩
    refine ⟨some s.arena.values.size, s', _, ?_, hframe, hadds, fun ⟨hv, hx, hfirst⟩ =>
      ⟨_, rfl, ?_⟩⟩
    · rw [loopEntry, bind_ok (Emission.typeOf v s).run, if_neg (by simpa using htype)]
      refine .trans ?_ (bind_ok (f := fun phi => pure (some phi)) hrun)
      simp only [bind_assoc, pure_bind]
    · refine stands_phi hsrc hpreds hvalue (by simp) ((hbefore.adds.typeOf hv).trans hx)
        fun k p hk => ?_
      cases k with
      | zero =>
        cases hk
        obtain ⟨t, ht, hget⟩ := hfirst
        rw [← hbefore.atEnd, ← hadds.atEnd] at ht
        refine ⟨fun t' w' ht' hw' => ?_, fun hnone => ?_⟩
        · cases ht.symm.trans ht'
          cases hget.symm.trans hw'
          rfl
        · cases ht.symm.trans hnone
      | succ k =>
        have hnone := hahead p (List.mem_of_getElem? hk)
        rw [← hbefore.atEnd, ← hadds.atEnd] at hnone
        refine ⟨fun t w ht => ?_, fun _ => ⟨?_, ⟨_, (hentries p _).mpr (.inr ⟨k, hk, rfl⟩), rfl,
          rfl⟩, fun e he hphi => ?_⟩⟩
        · cases hnone.symm.trans ht
        · simpa using (List.getElem?_eq_some_iff.mp hk).1
        · rcases (hentries p e).mp he with he | ⟨_, -, rfl⟩
          · exact absurd (hbefore.phi_lt hold he) (hphi ▸ lt_irrefl _)
          · rfl

end Steps

/-- A computation of the builder enters a block. -/
def Enters (f : FunctionBody) (types : String → Ty) (src : BuildSource) (pc : Nat) (y : BuildM Unit)
    (s : BuildState) : Prop :=
  ∃ s' phis, y s = .ok () s' ∧ Entered f types src pc s s' phis ∧
    s'.args = s.args ∧ s'.hasLoop = s.hasLoop ∧ s'.exits = s.exits

section

variable (hwell : f.WellFormed types known) (hsrc : src.Describes f)
include hwell hsrc

/-- A block starts with the variables of its first way, each with a value for all ways. -/
theorem enters_startWith {vars : VarTable} (hready : Ready f types (f.Declared pc) s.arena vars)
    {value : String → Option ValueId → BuildM (Option ValueId)}
    (hnone : ∀ x, value x none = pure none)
    (hvalue : ∀ s₁ before, AddsPhis src s s₁ before → ∀ x (v : Nat),
      Sets types src (src.entering pc) s₁ before x (f.Declared pc x ∧
        vars.get? x = some (some v) ∧ v < s.arena.values.size ∧ s.arena.typeOf v = types x)
        (value x (some v))) :
    Enters f types src pc (startWith value vars) s := by
  have hsets (s₁ : BuildState) (before : List ValueId) (hbefore : AddsPhis src s s₁ before)
      (x : String) (w : Option ValueId) : Sets types src (src.entering pc) s₁ before x
        (f.Declared pc x ∧ vars.get? x = some w) (value x w) := by
    cases w with
    | none =>
      refine ⟨none, s₁, [], by rw [hnone]; rfl, rfl, .refl _ _, fun ⟨hx, hget⟩ => ?_⟩
      obtain ⟨v, hget', -⟩ := hready.value x hx
      cases hget.symm.trans hget'
    | some v =>
      refine (hvalue s₁ before hbefore x v).mono fun ⟨hx, hget⟩ => ?_
      obtain ⟨v', hget', hv⟩ := hready.value x hx
      cases hget.symm.trans hget'
      exact ⟨hx, hget, hv⟩
  obtain ⟨vars', s', phis, hrun, hframe, hadds, hvalid, hkept, hstands⟩ :=
    allVars_run hsets vars.toList (by rw [hready.valid.map_fst_toList]; exact hready.valid.nodup) {}
      (.refl src s)
  have hvalue (x : String) (hx : f.Declared pc x) : ∃ u, vars'.get? x = some (some u) ∧
      Stands types src (src.entering pc) s' phis x u := by
    obtain ⟨v, hget, -⟩ := hready.value x hx
    exact hstands x _ (hready.valid.mem_toList.mpr hget) ⟨hx, hget⟩
  refine ⟨{ s' with vars := vars' }, phis, by rw [startWith, bind_ok hrun]; rfl, ⟨{ hadds with },
    ⟨hvalid Table.valid_empty, fun x w hw => ?_, fun x hx => ?_⟩,
    fun p b x u hp hleads hb hx hu => ?_⟩,
    by rw [hframe], by rw [hframe], by rw [hframe]⟩
  · cases hget : vars.get? x with
    | none =>
      rw [hkept x (by simp [hready.valid.map_fst_toList, hready.valid.mem_keys, hget]),
        Table.get?_empty] at hw
      cases hw
    | some v => exact hready.isLocal x v hget
  · obtain ⟨u, hu, hlt, htype, -⟩ := hvalue x hx
    exact ⟨u, hu, hlt, htype⟩
  · obtain ⟨u', hu', -, -, hjoined⟩ := hvalue x hx
    cases hu.symm.trans hu'
    exact hjoined p ((mem_entry hsrc hwell).mpr ⟨p, rfl, hp, hleads⟩) b hb

variable (henter : Enterable f types known src pc s)
include henter

/-- A block with one way into it starts with the variables of that way. -/
theorem enters_single {p : Nat} (hentry : src.entering pc = [(p : Int)]) (hlt : p < pc) :
    Enters f types src pc (do
      let vars ← varsAtEnd p
      modify fun s => { s with vars := vars }) s := by
  obtain ⟨p', hp', hlabel, hleads⟩ := (mem_entry hsrc hwell).mp
    (show (p : Int) ∈ src.entering pc by rw [hentry]; simp)
  obtain rfl : p = p' := by omega
  obtain ⟨vars, hvars, hready⟩ := henter.atEnd p hlabel hleads hlt
  refine ⟨{ s with vars := vars }, [], by rw [bind_ok (varsAtEnd_run hvars)]; rfl,
    ⟨{ AddsPhis.refl src s with }, hready, fun p' b x u hp' hleads' _ _ hu => ?_⟩, rfl, rfl, rfl⟩
  have hmem := (mem_entry hsrc hwell).mpr ⟨p', rfl, hp', hleads'⟩
  rw [hentry, List.mem_singleton] at hmem
  exact .inr (.inl ⟨by simp, vars, hmem ▸ hvars, hu⟩)

/-- The values that a variable has at the ends of the ways into a block. -/
theorem exists_values {tables : List VarTable} (hentry : ∀ q ∈ entry, q ∈ src.entering pc ∧ q < pc)
    (htables : List.Forall₂ (fun q t => s.atEnd.get? q = some t) entry tables)
    (hx : f.Declared pc x) :
    ∃ vs, tables.mapM (fun t => (t.get? x).join) = some vs ∧
      List.Forall₂ (fun q (w : Nat) => ∃ t : VarTable, s.atEnd.get? q = some t ∧
        t.get? x = some (some w)) entry vs := by
  induction htables with
  | nil => exact ⟨[], rfl, .nil⟩
  | @cons q t entry tables ht _ ih =>
    obtain ⟨hmem, hlt⟩ := hentry q List.mem_cons_self
    obtain ⟨p, rfl, hp, hleads⟩ := (mem_entry hsrc hwell).mp hmem
    obtain ⟨t', ht', hready⟩ := henter.atEnd p hp hleads (by omega)
    cases ht.symm.trans ht'
    obtain ⟨w, hw, -⟩ := hready.value x hx
    obtain ⟨vs, hvs, hrelated⟩ := ih fun q' hq' => hentry q' (List.mem_cons_of_mem _ hq')
    refine ⟨w :: vs, ?_, .cons ⟨t, ht, hw⟩ hrelated⟩
    rw [List.mapM_cons, hw, hvs]
    rfl

variable (hentry : src.entering pc = first :: others)
include hentry

/-- The variables where ways meet that all come from earlier blocks. -/
theorem enters_meet (hlt : ∀ q ∈ first :: others, q < pc) :
    Enters f types src pc (meetVars src first others) s := by
  have hways (q : Int) (hq : q ∈ first :: others) :
      ∃ p : Nat, q = p ∧ f.IsLabel p ∧ f.Leads p pc := (mem_entry hsrc hwell).mp (hentry ▸ hq)
  obtain ⟨preds, hrunPreds, hpreds⟩ := blockIds_run hsrc hways
  have hend (q : Int) (hq : q ∈ first :: others) : ∃ vars, varsAtEnd q s = .ok vars s ∧
      s.atEnd.get? q = some vars ∧ Ready f types (f.Declared pc) s.arena vars := by
    obtain ⟨p, rfl, hp, hleads⟩ := hways q hq
    obtain ⟨vars, hvars, hready⟩ := henter.atEnd p hp hleads (Int.ofNat_lt.mp (hlt _ hq))
    exact ⟨vars, varsAtEnd_run hvars, hvars, hready⟩
  obtain ⟨vars, hrunFirst, hfirst, hready⟩ := hend first List.mem_cons_self
  obtain ⟨tables, hrunTables, htables⟩ := mapM_run (fun q t => s.atEnd.get? q = some t) others
    fun q hq => (hend q (List.mem_cons_of_mem _ hq)).imp fun _ h => ⟨h.1, h.2.1⟩
  have hvalues (x : String) (hx : f.Declared pc x) := exists_values hwell hsrc henter (fun q hq =>
    ⟨hentry ▸ List.mem_cons_of_mem _ hq, hlt q (List.mem_cons_of_mem _ hq)⟩) htables hx
  rw [Enters, meetVars, bind_ok hrunPreds, bind_ok hrunFirst, bind_ok hrunTables]
  refine enters_startWith hwell hsrc hready (fun _ => rfl) fun s₁ before hbefore x v => ?_
  unfold meetEntry
  cases hvs : tables.mapM (fun t => (t.get? x).join) with
  | none =>
    refine ⟨none, s₁, [], rfl, rfl, .refl _ _, fun ⟨hx, _⟩ => ?_⟩
    obtain ⟨vs, hvs', -⟩ := hvalues x hx
    cases hvs.symm.trans hvs'
  | some vs =>
    rw [hentry]
    refine (sets_meetVar hsrc hbefore henter.standard.unit hpreds x v vs).mono
      fun ⟨hx, hget, hv, htype⟩ => ⟨hv, htype, .cons ⟨vars, hfirst, hget⟩ ?_⟩
    obtain ⟨vs', hvs', hrelated⟩ := hvalues x hx
    cases hvs.symm.trans hvs'
    exact hrelated

/-- The variables at the start of a loop. -/
theorem enters_loop (hfirst : first < pc) (hothers : ∀ q ∈ others, (pc : Int) ≤ q) :
    Enters f types src pc (loopVars src pc (first :: others)) s := by
  have hways (q : Int) (hq : q ∈ first :: others) :
      ∃ p : Nat, q = p ∧ f.IsLabel p ∧ f.Leads p pc := (mem_entry hsrc hwell).mp (hentry ▸ hq)
  have hcheck : check (others.all (first ≤ ·) && first < pc) s = .ok () s := by
    have hall : (others.all (fun q => decide (first ≤ q)) && decide (first < (pc : Int))) =
        true := by
      simp only [Bool.and_eq_true, List.all_eq_true, decide_eq_true_eq]
      exact ⟨fun q hq => hfirst.le.trans (hothers q hq), hfirst⟩
    rw [hall]
    rfl
  obtain ⟨preds, hrunPreds, hpreds⟩ := blockIds_run (s := s) hsrc hways
  obtain ⟨p₀, rfl, hp₀, hleads₀⟩ := hways first List.mem_cons_self
  obtain ⟨vars, hvars, hready⟩ := henter.atEnd p₀ hp₀ hleads₀ (by omega)
  have hahead (q : Int) (hq : q ∈ others) : s.atEnd.get? q = none := by
    obtain ⟨p, rfl, -⟩ := hways q (List.mem_cons_of_mem _ hq)
    exact henter.ahead p (by have := hothers _ hq; omega)
  rw [Enters, loopVars, bind_ok hcheck, bind_ok hrunPreds, bind_ok (varsAtEnd_run hvars)]
  refine enters_startWith hwell hsrc hready (fun _ => rfl) fun s₁ before hbefore x v => ?_
  rw [hentry]
  exact (sets_loopEntry hsrc hbefore henter.standard.unit hpreds hahead henter.older x v).mono
    fun ⟨_, hget, hv, htype⟩ => ⟨hv, htype, vars, hvars, hget⟩

end

end Jib
