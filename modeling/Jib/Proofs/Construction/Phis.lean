import Jib.Proofs.Construction.Expressions

/-!
# Phis where ways meet

Where ways meet, a variable either keeps its value or gets a phi with one entry for each way.  At
the start of a loop the entries for the ways that come later stay open: they wait for the block that
they come from, and are filled in when that block is done.
-/

namespace Jib

open Jib.BuildM

/-! ### Open entries -/

variable {s s' : BuildState} {q : Int} {e : OpenEntry} {others : List Int} {u v : Nat} {x : String}

theorem mem_openEntries : e ∈ s.openEntries q ↔ (q, e) ∈ s.waiting := by
  simp [BuildState.openEntries]

/-- The entries of a phi are left open, one for each way. -/
theorem awaitAll_run (phi : ValueId) (var : String) (hopen : ∀ q ∈ others, s.atEnd.get? q = none) :
    ∃ s', awaitAll phi var others s = .ok () s' ∧ s' = { s with waiting := s'.waiting } ∧
      ∀ p e, e ∈ s'.openEntries p ↔
        e ∈ s.openEntries p ∨ ∃ k, others[k]? = some p ∧ e = ⟨phi, k + 1, var⟩ := by
  have hnone : ¬ others.any s.atEnd.contains = true := by
    simpa [Table.contains_eq] using hopen
  refine ⟨_, by rw [awaitAll, bind_ok (get_run s), if_neg hnone]; rfl, rfl, fun p e => ?_⟩
  rw [mem_openEntries, mem_openEntries, List.mem_append, or_comm, List.mem_map]
  refine or_congr Iff.rfl ⟨?_, ?_⟩
  · rintro ⟨⟨pc, k⟩, hk, heq⟩
    cases heq
    exact ⟨k, List.mem_zipIdx_iff_getElem?.mp hk, rfl⟩
  · rintro ⟨k, hk, rfl⟩
    exact ⟨(p, k), List.mem_zipIdx_iff_getElem?.mpr hk, rfl⟩

/-! ### Values that stand for those of the ways -/

variable {types : String → Ty} {src : BuildSource} {s₀ s'' : BuildState} {a a' : Arena} {φ : Phi}
variable {new new' before phis phis' : List ValueId} {entry : List Int} {p : Int} {source : BlockId}

/-- The entry of a phi for a way: what the variable leaves the way with, or an open entry as long as
the block is not done that the way comes from. -/
def Supplied (s : BuildState) (p : Int) (x : String) (u : ValueId) (φ : Phi) (k : Nat) : Prop :=
  (∀ vars w, s.atEnd.get? p = some vars → vars.get? x = some (some w) → φ.values[k]? = some w) ∧
    (s.atEnd.get? p = none → k < φ.values.size ∧ (∃ e ∈ s.openEntries p, e.phi = u ∧ e.index = k) ∧
      ∀ e ∈ s.openEntries p, e.phi = u → e.var = x)

/-- The value of a variable at the start of a block stands for the one that it leaves a way with: it
is the unit value, that value, or a phi with an entry for the way. -/
def Joined (types : String → Ty) (s : BuildState) (phis : List ValueId) (p : Int) (source : BlockId)
    (x : String) (u : ValueId) : Prop :=
  (u = Arena.unitId ∧ types x = .unit) ∨
    (u ∉ phis ∧ ∃ vars, s.atEnd.get? p = some vars ∧ vars.get? x = some (some u)) ∨
    (u ∈ phis ∧ ∃ φ k, s.arena.value u = .phi φ ∧ φ.preds.toList.idxOf? source = some k ∧
      Supplied s p x u φ k)

/-- What the start of a block does to the state of the builder: it emits phis, and leaves some of
their entries open. -/
structure AddsPhis (src : BuildSource) (s s' : BuildState) (new : List ValueId) : Prop where
  atEnd : s'.atEnd = s.atEnd
  ops : s'.ops.toList = s.ops.toList ++ new
  adds : s.arena.Adds s'.arena
  blocks : s'.arena.blocks = s.arena.blocks
  isPhi : ∀ v ∈ new, s.arena.values.size ≤ v ∧ ∃ φ, s'.arena.value v = .phi φ
  older : ∀ q e, e ∈ s.openEntries q → e ∈ s'.openEntries q
  newer : ∀ q e, e ∈ s'.openEntries q → e ∈ s.openEntries q ∨
    e.phi ∈ new ∧ ∃ b φ, src.blockIds.get? q = some b ∧ s'.arena.value e.phi = .phi φ ∧
      φ.preds[e.index]? = some b

theorem Arena.Adds.phi (h : a.Adds a') (hv : a.value v = .phi φ) : a'.value v = .phi φ := by
  rw [h.value_eq v (lt_size_of_value hv (by simp)), hv]

theorem AddsPhis.refl (src : BuildSource) (s : BuildState) : AddsPhis src s s [] :=
  ⟨rfl, by simp, .refl _, rfl, by simp, fun _ _ h => h, fun _ _ h => .inl h⟩

theorem AddsPhis.trans (h : AddsPhis src s s' new) (h' : AddsPhis src s' s'' new') :
    AddsPhis src s s'' (new ++ new') where
  atEnd := h'.atEnd.trans h.atEnd
  ops := by rw [h'.ops, h.ops, List.append_assoc]
  adds := h.adds.trans h'.adds
  blocks := h'.blocks.trans h.blocks
  isPhi v hv := by
    rcases List.mem_append.mp hv with hv | hv
    · obtain ⟨hle, φ, hvalue⟩ := h.isPhi v hv
      exact ⟨hle, φ, h'.adds.phi hvalue⟩
    · obtain ⟨hle, hvalue⟩ := h'.isPhi v hv
      exact ⟨h.adds.size_le.trans hle, hvalue⟩
  older q e he := h'.older q e (h.older q e he)
  newer q e he := by
    rcases h'.newer q e he with he | ⟨he, hphi⟩
    · rcases h.newer q e he with he | ⟨he, b, φ, hb, hvalue, hpred⟩
      · exact .inl he
      · exact .inr ⟨List.mem_append_left _ he, b, φ, hb, h'.adds.phi hvalue, hpred⟩
    · exact .inr ⟨List.mem_append_right _ he, hphi⟩

theorem AddsPhis.phi_lt (h : AddsPhis src s s' new)
    (hold : ∀ q e, e ∈ s.openEntries q → e.phi < s.arena.values.size) (he : e ∈ s'.openEntries q) :
    e.phi < s'.arena.values.size := by
  rcases h.newer q e he with he | ⟨-, b, φ, -, hvalue, -⟩
  · exact (hold q e he).trans_le h.adds.size_le
  · exact Arena.lt_size_of_value hvalue (by simp)

theorem Joined.adds (h : Joined types s phis p source x u) (hadds : AddsPhis src s s' new)
    (hmem : u ∈ phis' ↔ u ∈ phis) : Joined types s' phis' p source x u := by
  rcases h with hunit | ⟨hnot, hvalue⟩ | ⟨hin, φ, k, hvalue, hk, hdone, hopen⟩
  · exact .inl hunit
  · exact .inr (.inl ⟨mt hmem.mp hnot, hadds.atEnd ▸ hvalue⟩)
  · refine .inr (.inr ⟨hmem.mpr hin, φ, k, hadds.adds.phi hvalue, hk, hadds.atEnd ▸ hdone,
      fun hnone => ?_⟩)
    obtain ⟨hlt, ⟨e, he, hphi⟩, hvar⟩ := hopen (hadds.atEnd ▸ hnone)
    refine ⟨hlt, ⟨e, hadds.older p e he, hphi⟩, fun e' he' hphi' => ?_⟩
    rcases hadds.newer p e' he' with hold | ⟨hnew, -⟩
    · exact hvar e' hold hphi'
    · -- an entry that is new belongs to a phi that is new
      have hfresh := (hadds.isPhi _ hnew).1
      rw [hphi'] at hfresh
      exact absurd (Arena.lt_size_of_value hvalue (by simp)) (Nat.not_lt.mpr hfresh)

/-- The value of a variable at the start of a block, for all ways into it. -/
def Stands (types : String → Ty) (src : BuildSource) (entry : List Int) (s : BuildState)
    (phis : List ValueId) (x : String) (u : Nat) : Prop :=
  u < s.arena.values.size ∧ s.arena.typeOf u = types x ∧
    ∀ p ∈ entry, ∀ source, src.blockIds.get? p = some source → Joined types s phis p source x u

theorem Stands.adds (h : Stands types src entry s phis x u) (hadds : AddsPhis src s s' new) :
    Stands types src entry s' (phis ++ new) x u := by
  obtain ⟨hu, htype, hjoined⟩ := h
  refine ⟨hu.trans_le hadds.adds.size_le, (hadds.adds.typeOf hu).trans htype,
    fun p hp source hsource => (hjoined p hp source hsource).adds hadds ?_⟩
  refine ⟨fun hmem => (List.mem_append.mp hmem).resolve_right fun hnew => ?_,
    List.mem_append_left _⟩
  exact absurd hu (Nat.not_lt.mpr (hadds.isPhi u hnew).1)

theorem stands_unit (hunit : s.arena.value Arena.unitId = .const .unit) (hx : types x = .unit) :
    Stands types src entry s phis x Arena.unitId := by
  refine ⟨Arena.lt_size_of_value hunit (by simp), ?_, fun _ _ _ _ => .inl ⟨rfl, hx⟩⟩
  rw [hx, Arena.typeOf, hunit]
  rfl

/-- A new phi, the last entries of which are left open. -/
theorem pushPhi_run (src : BuildSource) (s : BuildState) (φ : Phi) (x : String) (others : List Int)
    (hopen : ∀ q ∈ others, s.atEnd.get? q = none)
    (hids : ∀ k q, others[k]? = some q →
      ∃ b, src.blockIds.get? q = some b ∧ φ.preds[k + 1]? = some b) :
    ∃ s', (do
        let phi ← push (.phi φ)
        awaitAll phi x others
        return phi) s = .ok s.arena.values.size s' ∧
      s' = { s with arena := s'.arena, ops := s'.ops, waiting := s'.waiting } ∧
      AddsPhis src s s' [s.arena.values.size] ∧ s'.arena.value s.arena.values.size = .phi φ ∧
      ∀ p e, e ∈ s'.openEntries p ↔ e ∈ s.openEntries p ∨
        ∃ k, others[k]? = some p ∧ e = ⟨s.arena.values.size, k + 1, x⟩ := by
  let s₁ : BuildState :=
    { s with arena := (s.arena.addValue (.phi φ)).2, ops := s.ops.push s.arena.values.size }
  obtain ⟨s₂, hrun, hframe, hentries⟩ := awaitAll_run (s := s₁) s.arena.values.size x hopen
  have harena : s₂.arena = (s.arena.addValue (.phi φ)).2 := by rw [hframe]
  have hvalue : s₂.arena.value s.arena.values.size = .phi φ := by
    rw [harena, Arena.value_addValue_self]
  refine ⟨s₂, ?_, by rw [hframe], ⟨by rw [hframe], by rw [hframe]; simp [s₁],
    harena ▸ Arena.adds_addValue _ _, by rw [harena]; rfl, ?_,
    fun q e he => (hentries q e).mpr (.inl he), fun q e he => ?_⟩, hvalue, hentries⟩
  · rw [bind_ok (Emission.push (.phi φ) s).run, bind_ok hrun]
    rfl
  · intro v hv
    rw [List.mem_singleton.mp hv]
    exact ⟨le_rfl, φ, hvalue⟩
  · refine ((hentries q e).mp he).imp_right ?_
    rintro ⟨k, hk, rfl⟩
    obtain ⟨b, hb, hpred⟩ := hids k q hk
    exact ⟨List.mem_singleton.mpr rfl, b, φ, hb, hvalue, hpred⟩

/-- A computation of the builder gives a variable a value that stands for those of all ways, if the
variable is one that has a value. -/
def Sets (types : String → Ty) (src : BuildSource) (entry : List Int) (s : BuildState)
    (before : List ValueId) (x : String) (given : Prop) (y : BuildM (Option ValueId)) : Prop :=
  ∃ w s' new, y s = .ok w s' ∧
    s' = { s with arena := s'.arena, ops := s'.ops, waiting := s'.waiting } ∧
    AddsPhis src s s' new ∧
    (given → ∃ u, w = some u ∧ Stands types src entry s' (before ++ new) x u)

theorem Sets.mono {given given' : Prop} {y : BuildM (Option ValueId)}
    (h : Sets types src entry s before x given y) (himp : given' → given) :
    Sets types src entry s before x given' y := by
  obtain ⟨w, s', new, hrun, hframe, hadds, hstands⟩ := h
  exact ⟨w, s', new, hrun, hframe, hadds, fun h => hstands (himp h)⟩

/-- The variables at the start of a block get their values one after the other. -/
theorem allVars_run {value : String → Option ValueId → BuildM (Option ValueId)}
    {given : String → Option ValueId → Prop}
    (hstep : ∀ s before, AddsPhis src s₀ s before → ∀ x w,
      Sets types src entry s before x (given x w) (value x w))
    (l : List (String × Option ValueId)) (hnodup : (l.map Prod.fst).Nodup) (vars : VarTable)
    (hbefore : AddsPhis src s₀ s before) :
    ∃ vars' s' new, allVars value l vars s = .ok vars' s' ∧
      s' = { s with arena := s'.arena, ops := s'.ops, waiting := s'.waiting } ∧
      AddsPhis src s s' new ∧ (vars.Valid → vars'.Valid) ∧
      (∀ x, x ∉ l.map Prod.fst → vars'.get? x = vars.get? x) ∧
      ∀ x w, (x, w) ∈ l → given x w →
        ∃ u, vars'.get? x = some (some u) ∧ Stands types src entry s' (before ++ new) x u := by
  induction l generalizing vars s before with
  | nil => exact ⟨vars, s, [], rfl, rfl, .refl _ _, id, fun _ _ => rfl, by simp⟩
  | cons xw l ih =>
    obtain ⟨x, w⟩ := xw
    rw [List.map_cons, List.nodup_cons] at hnodup
    obtain ⟨w', s₁, new₁, hrun₁, hframe₁, hadds₁, hx⟩ := hstep s before hbefore x w
    obtain ⟨vars', s₂, new₂, hrun₂, hframe₂, hadds₂, hvalid, hothers, hl⟩ :=
      ih hnodup.2 (vars.insert x w') (hbefore.trans hadds₁)
    refine ⟨vars', s₂, new₁ ++ new₂, ?_, ?_, hadds₁.trans hadds₂, fun h => hvalid (h.insert _ _),
      fun y hy => ?_, fun y v hy hgiven => ?_⟩
    · rw [allVars, bind_ok hrun₁, hrun₂]
    · rw [hframe₂, hframe₁]
    · rw [List.map_cons, List.mem_cons, not_or] at hy
      rw [hothers y hy.2, Table.get?_insert_of_ne _ _ (Ne.symm hy.1)]
    · rw [← List.append_assoc]
      rcases List.mem_cons.mp hy with heq | hy
      · cases heq
        obtain ⟨u, rfl, hstands⟩ := hx hgiven
        exact ⟨u, by rw [hothers x hnodup.1, Table.get?_insert_self], hstands.adds hadds₂⟩
      · exact hl y v hy hgiven

/-! ### Filling in open entries -/

variable {vars : VarTable} {v : Nat}

theorem fillEntry_of_ne (hne : v ≠ e.phi) : (fillEntry vars a e).value v = a.value v :=
  Arena.value_modifyValue_of_ne hne _

theorem fillEntry_phi (vars : VarTable) (hvalue : a.value e.phi = .phi φ) :
    ∃ x, (fillEntry vars a e).value e.phi =
        .phi { φ with values := φ.values.setIfInBounds e.index x } ∧
      ∀ w, vars.get? e.var = some (some w) → x = w := by
  have hlt := Arena.lt_size_of_value hvalue (by simp)
  unfold fillEntry
  rw [Arena.value_modifyValue_self hlt, hvalue]
  refine ⟨_, rfl, fun w hw => ?_⟩
  rw [hw]
  rfl

theorem grows_fillEntry (vars : VarTable) (a : Arena) (e : OpenEntry) :
    a.Grows (fillEntry vars a e) where
  size_le := by simp [fillEntry]
  value_eq v hv hphi := by
    by_cases hne : v = e.phi
    · subst hne
      unfold fillEntry
      rw [Arena.value_modifyValue_self hv]
      cases hvalue : a.value e.phi with
      | phi p =>
        rw [hvalue] at hphi
        cases hphi
      | _ => rfl
    · exact fillEntry_of_ne hne
  phi v p hp := by
    by_cases hne : v = e.phi
    · subst hne
      obtain ⟨x, hvalue, -⟩ := fillEntry_phi vars hp
      exact ⟨_, hvalue, by simp⟩
    · exact ⟨p.values, (fillEntry_of_ne hne).trans hp, rfl⟩

theorem fillEntries_other (l : List OpenEntry) (hvalue : a.value v = .phi φ) {k : Nat}
    (hother : ∀ e ∈ l, e.phi = v → e.index ≠ k) :
    ∃ φ', (l.foldl (fillEntry vars) a).value v = .phi φ' ∧ φ'.values[k]? = φ.values[k]? := by
  induction l generalizing a φ with
  | nil => exact ⟨φ, hvalue, rfl⟩
  | cons e l ih =>
    have hrest (e' : OpenEntry) (he' : e' ∈ l) := hother e' (List.mem_cons_of_mem _ he')
    rw [List.foldl_cons]
    by_cases hne : v = e.phi
    · subst hne
      obtain ⟨x, hfilled, -⟩ := fillEntry_phi vars hvalue
      obtain ⟨φ', hvalue', hentry⟩ := ih hfilled hrest
      refine ⟨φ', hvalue', hentry.trans ?_⟩
      exact Array.getElem?_setIfInBounds_ne (hother e List.mem_cons_self rfl)
    · exact ih ((fillEntry_of_ne hne).trans hvalue) hrest

theorem fillEntries_entry (l : List OpenEntry) (hvalue : a.value v = .phi φ) {k : Nat}
    (hk : k < φ.values.size) (hentry : ∃ e ∈ l, e.phi = v ∧ e.index = k) {w : Nat}
    (hvar : ∀ e ∈ l, e.phi = v → e.var = x) (hw : vars.get? x = some (some w)) :
    ∃ φ', (l.foldl (fillEntry vars) a).value v = .phi φ' ∧ φ'.values[k]? = some w := by
  induction l generalizing a φ with
  | nil =>
    obtain ⟨_, he, -⟩ := hentry
    cases he
  | cons e l ih =>
    have hrest (e' : OpenEntry) (he' : e' ∈ l) := hvar e' (List.mem_cons_of_mem _ he')
    rw [List.foldl_cons]
    by_cases hlater : ∃ e' ∈ l, e'.phi = v ∧ e'.index = k
    · by_cases hne : v = e.phi
      · subst hne
        obtain ⟨x', hfilled, -⟩ := fillEntry_phi vars hvalue
        have hfill := ih hfilled (by simpa using hk) hlater hrest
        exact hfill
      · exact ih ((fillEntry_of_ne hne).trans hvalue) hk hlater hrest
    · -- this is the last entry that is filled in there
      obtain ⟨e', he', rfl, rfl⟩ := hentry
      rcases List.mem_cons.mp he' with rfl | he'
      · obtain ⟨x', hfilled, hx'⟩ := fillEntry_phi vars hvalue
        obtain ⟨φ', hvalue', hentry⟩ :=
          fillEntries_other l hfilled fun e he hphi hindex => hlater ⟨e, he, hphi, hindex⟩
        refine ⟨φ', hvalue', hentry.trans ?_⟩
        rw [hx' w (by rw [hvar e' List.mem_cons_self rfl, hw])]
        exact Array.getElem?_setIfInBounds_self_of_lt hk
      · exact absurd ⟨e', he', rfl, rfl⟩ hlater

theorem grows_foldl_fillEntry (vars : VarTable) (l : List OpenEntry) (a : Arena) :
    a.Grows (l.foldl (fillEntry vars) a) ∧ (l.foldl (fillEntry vars) a).blocks = a.blocks := by
  induction l generalizing a with
  | nil => exact ⟨.refl _, rfl⟩
  | cons e l ih =>
    obtain ⟨hgrows, hblocks⟩ := ih (fillEntry vars a e)
    exact ⟨(grows_fillEntry vars a e).trans hgrows, hblocks⟩

end Jib
