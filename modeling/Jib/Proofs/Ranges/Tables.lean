import Jib.Proofs.Ranges.Values

/-!
# Joining what several ways know

What is known at the ends of several blocks is joined into what is known at the start of the block
that they lead to, and the intervals of the entries of a phi into its own.  Joining makes intervals
wider, so it keeps what they cover.
-/

namespace Jib.Graph

variable {V E M : Type} {I : Interpretation V E M} {number : V → Option Int} {bn : Builtins}
variable {a : Arena} {here here' : RangeMap} {t t' : RangeTable} {ρ : Valuation V} {b : BlockId}
variable {v : ValueId} {y : V} {r : Interval} {p : Phi} {w : ValueId}

/-! ### Folds -/

section Folds

variable {α β γ : Type} {f : β → α → Result β} {l : List α} {x x' : β}

/-- Steps that keep what was known and add what they are given. -/
theorem of_foldlM_ok {P : β → γ → Prop} {Q : α → γ → Prop} {q : γ}
    (hstep : ∀ {x e x'}, f x e = .ok x' → P x q ∨ Q e q → P x' q) (hfold : l.foldlM f x = .ok x')
    (hq : P x q ∨ ∃ e ∈ l, Q e q) : P x' q := by
  induction l generalizing x with
  | nil =>
    cases hfold
    exact hq.resolve_right (by simp)
  | cons e l ih =>
    obtain ⟨x₁, hfirst, hrest⟩ := exists_ok_of_bind hfold
    refine ih hrest ?_
    rw [List.exists_mem_cons_iff, ← or_assoc] at hq
    exact hq.imp_left (hstep hfirst)

theorem exists_foldlM_ok {P : β → Prop} (hstep : ∀ e ∈ l, ∀ x, P x → ∃ x', f x e = .ok x' ∧ P x')
    (hx : P x) : ∃ x', l.foldlM f x = .ok x' ∧ P x' := by
  induction l generalizing x with
  | nil => exact ⟨x, rfl, hx⟩
  | cons e l ih =>
    obtain ⟨hfirst, hrest⟩ := List.forall_mem_cons.mp hstep
    obtain ⟨x₁, hx₁, hP⟩ := hfirst x hx
    rw [List.foldlM_cons, hx₁]
    exact ih hrest hP

end Folds

/-! ### Tables -/

def TakenIn (r : Interval) (known : Option Interval) : Prop := ∃ s, known = some s ∧ ∀ n ∈ r, n ∈ s

theorem takenIn_of_eq {known : Option Interval} (hr : known = some r) : TakenIn r known :=
  ⟨r, hr, fun _ => id⟩

/-- A table that knows as much as another, or less. -/
def Wider (here here' : RangeMap) : Prop :=
  ∀ (v : ValueId) (r : Interval), here[v]? = some r → TakenIn r here'[v]?

theorem Wider.refl (here : RangeMap) : Wider here here := fun _ _ => takenIn_of_eq

theorem TakenIn.wider (hr : TakenIn r here[v]?) (hwider : Wider here here') :
    TakenIn r here'[v]? := by
  obtain ⟨s, hs, hrs⟩ := hr
  obtain ⟨u, hu, hsu⟩ := hwider v s hs
  exact ⟨u, hu, fun n hn => hsu n (hrs n hn)⟩

theorem Covers.wider {pending : List ValueId} (hcovers : Covers a number here pending ρ)
    (hwider : Wider here here') : Covers a number here' pending ρ := by
  intro v y hv htype hy
  obtain ⟨r, hr, n, hn, hnumber⟩ := hcovers v y hv htype hy
  obtain ⟨s, hs, hrs⟩ := hwider v r hr
  exact ⟨s, hs, n, hrs n hn, hnumber⟩

theorem wider_insert (hv : ∀ s, here[v]? = some s → ∀ n ∈ s, n ∈ r) :
    Wider here (here.insert v r) := by
  intro x s hs
  rw [Std.HashMap.getElem?_insert]
  by_cases hvx : v = x
  · subst hvx
    exact ⟨r, by simp, hv s hs⟩
  · exact ⟨s, by rw [if_neg (by simpa using hvx), hs], fun _ => id⟩

theorem joinRange_ok {acc acc' : RangeMap} (hjoin : joinRange acc (v, r) = .ok acc') :
    Wider acc acc' ∧ TakenIn r acc'[v]? := by
  unfold joinRange at hjoin
  dsimp only at hjoin
  split at hjoin
  · rename_i s hs
    obtain ⟨u, hu, hresult⟩ := exists_ok_of_bind hjoin
    cases hresult
    refine ⟨wider_insert fun s' hs' n hn => ?_, u, by simp, fun n hn =>
      Interval.mem_union hu (.inl hn)⟩
    cases hs.symm.trans hs'
    exact Interval.mem_union hu (.inr hn)
  · rename_i hnone
    cases hjoin
    refine ⟨wider_insert fun s' hs' => ?_, takenIn_of_eq (by simp)⟩
    cases hnone.symm.trans hs'

theorem takenIn_of_foldlM {entries : List (ValueId × Interval)} {acc joined : RangeMap}
    (hjoin : entries.foldlM joinRange acc = .ok joined)
    (hr : TakenIn r acc[v]? ∨ (v, r) ∈ entries) :
    TakenIn r joined[v]? := by
  refine of_foldlM_ok (P := fun acc q => TakenIn q.2 acc[q.1]?) (Q := Eq) (q := (v, r))
    (fun hstep hq => ?_) hjoin (by simpa using hr)
  obtain ⟨hwider, htaken⟩ := joinRange_ok hstep
  rcases hq with hq | rfl
  · exact hq.wider hwider
  · exact htaken

/-- A block of which at most a given table is known. -/
def Enters (t : RangeTable) (b : BlockId) (here : RangeMap) : Prop :=
  ∃ here', t[b]? = some here' ∧ Wider here here'

theorem enters_of_eq (hb : t[b]? = some here) : Enters t b here := ⟨here, hb, Wider.refl here⟩

theorem Enters.insert {c : BlockId} (hc : Enters t c here)
    (hb : ∀ old, t[b]? = some old → Wider old here') : Enters (t.insert b here') c here := by
  obtain ⟨old, hold, hwider⟩ := hc
  rw [Enters, Std.HashMap.getElem?_insert]
  by_cases hbc : b = c
  · subst hbc
    exact ⟨here', by simp, fun v r hr => (hwider v r hr).wider (hb old hold)⟩
  · exact ⟨old, by rw [if_neg (by simpa using hbc), hold], hwider⟩

/-- What was known of the blocks still is, and what is merged is added. -/
theorem enters_of_mergeRanges {way : BlockId × RangeMap} (hmerge : mergeRanges t way = .ok t')
    (hb : Enters t b here ∨ way = (b, here)) : Enters t' b here := by
  unfold mergeRanges at hmerge
  dsimp only at hmerge
  split at hmerge
  · rename_i hnone
    cases hmerge
    rcases hb with hb | rfl
    · exact hb.insert fun old hold => by cases hnone.symm.trans hold
    · exact enters_of_eq (by simp)
  · rename_i old hold
    obtain ⟨joined, hjoined, hresult⟩ := exists_ok_of_bind hmerge
    cases hresult
    rcases hb with hb | rfl
    · refine hb.insert fun old' hold' v r hr => takenIn_of_foldlM hjoined (.inl ?_)
      exact takenIn_of_eq (Option.some.inj (hold'.symm.trans hold) ▸ hr)
    · exact ⟨joined, by simp, fun v r hr =>
        takenIn_of_foldlM hjoined (.inr (Std.HashMap.mem_toList_iff_getElem?_eq_some.mpr hr))⟩

theorem enters_of_foldlM {ways : List (BlockId × RangeMap)}
    (hmerge : ways.foldlM mergeRanges t = .ok t')
    (hb : Enters t b here ∨ (b, here) ∈ ways) : Enters t' b here :=
  of_foldlM_ok (P := fun t way => Enters t way.1 way.2) (q := (b, here)) enters_of_mergeRanges
    hmerge (by simpa using hb)

/-- Every interval of the table holds a number. -/
def Occupied (here : RangeMap) : Prop :=
  ∀ (v : ValueId) (r : Interval), here[v]? = some r → ∃ n, n ∈ r

theorem occupied_empty : Occupied ∅ := by
  intro v r hr
  simp at hr

theorem Occupied.insert (hhere : Occupied here) (v : ValueId) {n : Int} (hn : n ∈ r) :
    Occupied (here.insert v r) := by
  intro x s hs
  rw [Std.HashMap.getElem?_insert] at hs
  split at hs
  · cases hs
    exact ⟨n, hn⟩
  · exact hhere x s hs

theorem Occupied.joinRange {acc : RangeMap} (hacc : Occupied acc) (v : ValueId) {n : Int}
    (hn : n ∈ r) : ∃ joined, joinRange acc (v, r) = .ok joined ∧ Occupied joined := by
  cases hv : acc[v]? with
  | none => exact ⟨_, by simp [Graph.joinRange, hv], hacc.insert v hn⟩
  | some s =>
    obtain ⟨u, hu, hmem⟩ := Interval.exists_union (s := s) (.inl hn)
    exact ⟨_, by simp [Graph.joinRange, hv, hu], hacc.insert v hmem⟩

/-- Every interval of every block holds a number. -/
def AllOccupied (t : RangeTable) : Prop :=
  ∀ (b : BlockId) (here : RangeMap), t[b]? = some here → Occupied here

theorem AllOccupied.insert (ht : AllOccupied t) (b : BlockId) (hhere : Occupied here) :
    AllOccupied (t.insert b here) := by
  intro c old hold
  rw [Std.HashMap.getElem?_insert] at hold
  split at hold
  · cases hold
    exact hhere
  · exact ht c old hold

/-- Joining fails on an empty interval only. -/
theorem AllOccupied.mergeRanges (ht : AllOccupied t) (hhere : Occupied here) (b : BlockId) :
    ∃ t', mergeRanges t (b, here) = .ok t' ∧ AllOccupied t' := by
  unfold Graph.mergeRanges
  dsimp only
  split
  · exact ⟨_, rfl, ht.insert b hhere⟩
  · rename_i old hsome
    obtain ⟨joined, hjoined, hoccupied⟩ := exists_foldlM_ok (l := here.toList)
      (fun entry hentry acc hacc => (hhere entry.1 entry.2
        (Std.HashMap.mem_toList_iff_getElem?_eq_some.mp hentry)).elim fun n =>
        hacc.joinRange entry.1)
      (ht b old hsome)
    exact ⟨t.insert b joined, by rw [hjoined]; rfl, ht.insert b hoccupied⟩

/-! ### Phis -/

theorem takenIn_of_joinEntry {acc joined : Option Interval} {entry : BlockId × ValueId}
    (hjoin : joinEntry a t acc entry = .ok joined)
    (hr : TakenIn r acc ∨ entryRange a t entry.1 entry.2 = some r) : TakenIn r joined := by
  unfold joinEntry at hjoin
  dsimp only at hjoin
  split at hjoin
  · cases hjoin
    exact takenIn_of_eq (hr.resolve_left nofun)
  · rename_i x y hentry
    obtain ⟨u, hu, hresult⟩ := exists_ok_of_bind hjoin
    cases hresult
    refine ⟨u, rfl, fun n hn => Interval.mem_union hu ?_⟩
    rcases hr with ⟨s, hs, hrs⟩ | hr
    · exact .inl (Option.some.inj hs ▸ hrs n hn)
    · exact .inr (Option.some.inj (hentry.symm.trans hr) ▸ hn)
  · rename_i x hentry
    cases hjoin
    exact hr.resolve_right fun hr => by cases hentry.symm.trans hr

theorem mem_zip_of_entry? (hentry : p.entry? b = some w) :
    (b, w) ∈ (p.preds.zip p.values).toList := by
  obtain ⟨k, hk, hw⟩ := Option.bind_eq_some_iff.mp hentry
  obtain ⟨hlt, hb, -⟩ := List.findIdx?_eq_some_iff_getElem.mp hk
  have hpred : p.preds.toList[k]? = some b := by
    rw [List.getElem?_eq_getElem hlt, beq_iff_eq.mp hb]
  have hvalue : p.values.toList[k]? = some w := by rw [Array.getElem?_toList, hw]
  rw [Array.toList_zip]
  exact List.mem_of_getElem? (List.getElem?_zip_eq_some.mpr ⟨hpred, hvalue⟩)

theorem takenIn_phiRange {known : Option Interval} (hphi : phiRange a t p = .ok known)
    (hentry : p.entry? b = some w) (hr : entryRange a t b w = some r) : TakenIn r known :=
  of_foldlM_ok (P := fun acc r => TakenIn r acc) (Q := fun e r => entryRange a t e.1 e.2 = some r)
    takenIn_of_joinEntry hphi (.inr ⟨(b, w), mem_zip_of_entry? hentry, hr⟩)

section

variable (hI : I.Arithmetical number bn) (hnumbers : NumberConstants a) (hb : t[b]? = some here)
  (hcovers : Covers a number here [] ρ)
include hI hnumbers hb hcovers

/-- The interval of an entry through which a run came holds its number. -/
theorem exists_entryRange (htype : isRangeType (a.typeOf w) = true)
    (hlook : I.look a ρ w = some y) : ∃ s, entryRange a t b w = some s ∧ Fits number s y := by
  unfold entryRange
  cases hconst : constRange? a w with
  | some s =>
    cases s with
    | none => simp [isRangeType_of_constRange? hconst] at htype
    | some s => exact ⟨s, rfl, fits_of_constRange? hI hconst hlook⟩
  | none =>
    obtain ⟨-, hsame⟩ := look_of_constRange? (ρ := ρ) hnumbers hconst
    have hget : t.getD b ∅ = here := by simp [Std.HashMap.getD_eq_getD_getElem?, hb]
    obtain ⟨s, hs, hfits⟩ := hcovers w y (by simp) htype (hsame ▸ hlook)
    exact ⟨s, by rw [hget]; exact hs, hfits⟩

/-- The interval of a phi holds the number of the entry through which it got its value. -/
theorem fits_of_phiRange (hentry : p.entry? b = some w) (htype : isRangeType (a.typeOf w) = true)
    (hlook : I.look a ρ w = some y) (hphi : phiRange a t p = .ok (some r)) : Fits number r y := by
  obtain ⟨s, hs, n, hn, hnumber⟩ := exists_entryRange hI hnumbers hb hcovers htype hlook
  obtain ⟨u, hu, hsu⟩ := takenIn_phiRange hphi hentry hs
  exact ⟨n, Option.some.inj hu ▸ hsu n hn, hnumber⟩

end

theorem zero_mem_typeRange (type : Ty) : 0 ∈ typeRange type := by
  unfold typeRange
  split
  · decide
  · decide
  · exact Interval.mem_unbounded 0

theorem exists_mem_of_constRange? (hconst : constRange? a v = some (some r)) : ∃ n, n ∈ r := by
  unfold constRange? at hconst
  split at hconst
  · cases hconst
    exact ⟨1, Interval.mem_yes.mpr rfl⟩
  · cases hconst
    exact ⟨0, Interval.mem_no.mpr rfl⟩
  · cases hconst
    exact ⟨_, Interval.mem_ofConst _⟩
  · cases hconst
    exact ⟨_, Interval.mem_ofConst _⟩
  · split at hconst
    · cases hconst
    · split at hconst
      · cases hconst
        exact ⟨0, zero_mem_typeRange _⟩
      · cases hconst

theorem AllOccupied.exists_mem_entryRange (ht : AllOccupied t) (hr : entryRange a t b v = some r) :
    ∃ n, n ∈ r := by
  unfold entryRange at hr
  cases hconst : constRange? a v with
    rw [hconst] at hr
  | some s => exact exists_mem_of_constRange? (hconst.trans (congrArg some hr))
  | none =>
    cases hb : t[b]? with
    | none => simp [Std.HashMap.getD_eq_getD_getElem?, hb] at hr
    | some here =>
      refine ht b here hb v r ?_
      simpa [Std.HashMap.getD_eq_getD_getElem?, hb] using hr

theorem AllOccupied.joinEntry (ht : AllOccupied t) (entry : BlockId × ValueId)
    {acc : Option Interval} (hacc : ∀ r, acc = some r → ∃ n, n ∈ r) :
    ∃ joined, joinEntry a t acc entry = .ok joined ∧ ∀ r, joined = some r → ∃ n, n ∈ r := by
  unfold Graph.joinEntry
  dsimp only
  split
  · exact ⟨_, rfl, fun r hr => ht.exists_mem_entryRange hr⟩
  · rename_i x z _
    obtain ⟨n, hn⟩ := hacc x rfl
    obtain ⟨u, hu, hmem⟩ := Interval.exists_union (.inl hn)
    rw [hu]
    exact ⟨some u, rfl, fun r hr => ⟨n, Option.some.inj hr ▸ hmem⟩⟩
  · exact ⟨_, rfl, hacc⟩

/-- The interval of a phi can be found if one of its entries has one. -/
theorem AllOccupied.exists_phiRange (ht : AllOccupied t) {s : Interval}
    (hentry : p.entry? b = some w)
    (hs : entryRange a t b w = some s) : ∃ r, phiRange a t p = .ok (some r) ∧ ∃ n, n ∈ r := by
  obtain ⟨joined, hjoined, hmem⟩ := exists_foldlM_ok
    (fun entry _ _ => ht.joinEntry entry) (by simp : ∀ r, none = some r → _)
  obtain ⟨r, rfl, -⟩ := takenIn_phiRange hjoined hentry hs
  exact ⟨r, hjoined, hmem r rfl⟩

end Jib.Graph
