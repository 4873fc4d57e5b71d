import Jib.Proofs.Execution
import Jib.Proofs.Ranges.Meaning

/-!
# Intervals of the values of a block

A table of intervals covers a valuation if every integer and every truth value that has a value lies
in its interval.  Evaluating an operation and analyzing it keep that.
-/

namespace Jib

/-- Literal numbers, and defaults. -/
def Const.isNumber : Const → Bool
  | bool _ | machineInt _ | int _ | default _ => true
  | _ => false

namespace Graph

variable {V E M : Type} {I : Interpretation V E M} {number : V → Option Int} {bn : Builtins}
variable {a : Arena} {here here' : RangeMap} {t : RangeTable} {pending after : List ValueId}
variable {ρ : Valuation V} {v x : ValueId} {y : V} {r : Interval} {n : Int}

/-- No constant has the type of a number without being one. -/
def NumberConstants (a : Arena) : Prop :=
  ∀ v c, a.value v = .const c → isRangeType c.type = true → c.isNumber = true

/-- The number of a value lies in an interval. -/
def Fits (number : V → Option Int) (r : Interval) (y : V) : Prop := ∃ n ∈ r, number y = some n

/-- Every number outside a list of values, as far as it has a value, lies in its interval. -/
def Covers (a : Arena) (number : V → Option Int) (here : RangeMap) (pending : List ValueId)
    (ρ : Valuation V) : Prop :=
  ∀ v y, v ∉ pending → isRangeType (a.typeOf v) = true → ρ v = some y →
    ∃ r, here[v]? = some r ∧ Fits number r y

theorem Covers.insert (hcovers : Covers a number here pending ρ)
    (hx : ∀ y, ρ x = some y → Fits number r y) :
    Covers a number (here.insert x r) pending ρ := by
  intro v y hv htype hy
  rw [Std.HashMap.getElem?_insert]
  by_cases hxv : x = v
  · subst hxv
    exact ⟨r, by simp, hx y hy⟩
  · rw [if_neg (by simpa using hxv)]
    exact hcovers v y hv htype hy

section

variable {ρ' : Valuation V} (hcovers : Covers a number here (v :: after) ρ)
    (hsame : ∀ x, x ≠ v → ρ' x = ρ x)
include hcovers hsame

/-- The first of the values outside is looked at: it may have got a value, and gets an interval. -/
theorem Covers.settle (hv : ∀ y, ρ' v = some y → Fits number r y) :
    Covers a number (here.insert v r) after ρ' := by
  intro x y hx htype hy
  rw [Std.HashMap.getElem?_insert]
  by_cases hxv : x = v
  · subst hxv
    exact ⟨r, by simp, hv y hy⟩
  · rw [if_neg (by simpa using Ne.symm hxv)]
    rw [hsame x hxv] at hy
    exact hcovers x y (by simp [hxv, hx]) htype hy

/-- What is no number needs no interval. -/
theorem Covers.settle_other (hv : isRangeType (a.typeOf v) = false) :
    Covers a number here after ρ' := by
  intro x y hx htype hy
  by_cases hxv : x = v
  · rw [hxv, hv] at htype
    cases htype
  · rw [hsame x hxv] at hy
    exact hcovers x y (by simp [hxv, hx]) htype hy

end

/-! ### Looking up an interval -/

theorem isRangeType_of_constRange? (hconst : constRange? a v = some none) :
    isRangeType (a.typeOf v) = false := by
  unfold constRange? at hconst
  unfold Arena.typeOf
  split at hconst <;> try cases hconst
  split_ifs at hconst with htype
  · simpa using htype
  · split at hconst <;> cases hconst

theorem fits_of_constRange? (hI : I.Arithmetical number bn)
    (hconst : constRange? a v = some (some r))
    (hlook : I.look a ρ v = some y) : Fits number r y := by
  have hvalue {c : Const} (hc : a.value v = .const c) : y = I.constant c := by
    simpa [Interpretation.look, hc] using hlook.symm
  unfold constRange? at hconst
  split at hconst
  · rename_i hc
    cases hconst
    exact ⟨1, Interval.mem_yes.mpr rfl, hvalue hc ▸ hI.bool true⟩
  · rename_i hc
    cases hconst
    exact ⟨0, Interval.mem_no.mpr rfl, hvalue hc ▸ hI.bool false⟩
  · rename_i k hc
    cases hconst
    exact ⟨k, Interval.mem_ofConst k, hvalue hc ▸ hI.machineInt k⟩
  · rename_i k hc
    cases hconst
    exact ⟨k, Interval.mem_ofConst k, hvalue hc ▸ hI.int k⟩
  · split_ifs at hconst with htype
    · cases hconst
    · split at hconst
      · rename_i t hc
        cases hconst
        obtain ⟨k, hk, hnumber⟩ := hI.default t (by simpa [hc, Value.type, Const.type] using htype)
        exact ⟨k, hk, hvalue hc ▸ hnumber⟩
      · cases hconst

theorem constRange?_ne_none {c : Const} (hc : a.value v = .const c) (hnumber : c.isNumber = true) :
    constRange? a v ≠ none := by
  unfold constRange?
  rw [hc]
  cases c with
  | bool b => cases b <;> simp
  | machineInt _ | int _ => simp
  | default t =>
    dsimp only
    split <;> simp
  | unit | smallBits _ _ | bits _ | enum _ _ | text _ => cases hnumber

theorem look_of_constRange? (hnumbers : NumberConstants a) (hconst : constRange? a v = none) :
    isRangeType (a.typeOf v) = true ∧ I.look a ρ v = ρ v := by
  have htype : isRangeType (a.typeOf v) = true := by
    unfold constRange? at hconst
    unfold Arena.typeOf
    split at hconst <;> try cases hconst
    split at hconst
    · cases hconst
    · rename_i htype
      simpa using htype
  refine ⟨htype, ?_⟩
  unfold Interpretation.look
  split
  · rename_i c hc
    have hnumber := hnumbers v c hc (by simpa [Arena.typeOf, hc, Value.type] using htype)
    exact absurd hconst (constRange?_ne_none hc hnumber)
  · rfl

/-- The interval that is looked up for a value holds its number. -/
theorem Covers.fits_of_rangeOf (hcovers : Covers a number here pending ρ)
    (hI : I.Arithmetical number bn) (hnumbers : NumberConstants a) (hx : x ∉ pending)
    (hrange : rangeOf a here x = .ok (some r)) (hlook : I.look a ρ x = some y) :
    Fits number r y := by
  unfold rangeOf at hrange
  cases hconst : constRange? a x with
    rw [hconst] at hrange
  | some s =>
    cases hrange
    exact fits_of_constRange? hI hconst hlook
  | none =>
    obtain ⟨htype, hsame⟩ := look_of_constRange? (ρ := ρ) hnumbers hconst
    obtain ⟨s, hs, hfits⟩ := hcovers x y hx htype (hsame ▸ hlook)
    simp only [hs, Except.ok.injEq, Option.some.injEq] at hrange
    exact hrange ▸ hfits

/-! ### Operations -/

theorem present_eq_ok_iff {r : Option Interval} {s : Interval} :
    present r = .ok s ↔ r = some s := by
  cases r <;> simp [present]

theorem knownWidth_eq_ok_iff {r : Option Interval} {w : Int} :
    knownWidth r = .ok w ↔ ∃ s, r = some s ∧ s.const? = some w := by
  unfold knownWidth
  simp only [bind_eq_ok_iff, present_eq_ok_iff]
  refine exists_congr fun s => and_congr_right fun _ => ?_
  cases s.const? <;> simp

/-- A computation that stops if a condition holds. -/
theorem ite_error_eq_ok_iff {α β : Type} {p : Prop} [Decidable p] {e : Fault} {f : α → Result β}
    {x : Result β} {z : β} : (if p then .error e >>= f else x) = .ok z ↔ ¬ p ∧ x = .ok z := by
  split_ifs with hp
  · exact iff_of_false nofun fun h => h.1 hp
  · exact (and_iff_right hp).symm

theorem exists_machinePart {s : Interval} (hn : n ∈ s) (hmachine : n ∈ Interval.machineInt) :
    ∃ u, machinePart s = .ok u ∧ n ∈ u := by
  have hlow := Interval.le_of_mem hmachine rfl
  have hhigh := Interval.le_high_of_mem hmachine rfl
  refine Interval.exists_make ?_ ?_
  · rintro l ⟨⟩
    split
    · rename_i l hl
      exact max_le (Interval.le_of_mem hn hl) hlow
    · exact hlow
  · rintro h ⟨⟩
    split
    · rename_i h hh
      exact le_min (Interval.le_high_of_mem hn hh) hhigh
    · exact hhigh

theorem exists_ofWidth {tr : Transfer} {w : Int} (x : BitVec w.toNat)
    (hn : tr = .unsignedBits ∧ n = x.toNat ∨ tr = .signedBits ∧ n = x.toInt) :
    ∃ u, tr.ofWidth w = .ok u ∧ n ∈ u := by
  unfold Transfer.ofWidth
  rcases hn with ⟨rfl, rfl⟩ | ⟨rfl, rfl⟩
  · have hlt : (x.toNat : Int) < 2 ^ w.toNat := by exact_mod_cast x.isLt
    refine Interval.exists_make ?_ ?_
    · simp
    · simpa using Int.le_sub_one_of_lt hlt
  · refine Interval.exists_make ?_ ?_
    · simpa using BitVec.le_toInt x
    · simpa using Int.le_sub_one_of_lt (BitVec.toInt_lt)

section Kinds

/-! When the interval of an operation is found, by the kind of operation. -/

variable {o : Operation} {f : Interval → Result Interval}
variable {h : Interval → Interval → Result Interval}

theorem applyTransfer_one_iff : applyTransfer a here o (.one f) = .ok (r, here') ↔
    ∃ x xs s, o.args.toList = x :: xs ∧ rangeOf a here x = .ok (some s) ∧ f s = .ok r ∧
      here' = here := by
  unfold applyTransfer
  rw [← Array.getElem?_toList]
  cases o.args.toList with
  | nil => exact iff_of_false nofun (by simp)
  | cons x xs =>
    simp [-bind_pure_comp, bind_eq_ok_iff, present_eq_ok_iff, pure_eq_ok_iff, eq_comm (b := here')]

theorem applyTransfer_narrowing_iff : applyTransfer a here o .narrowing = .ok (r, here') ↔
    ∃ x xs s, o.args.toList = x :: xs ∧ rangeOf a here x = .ok (some s) ∧ machinePart s = .ok r ∧
      here' = here.insert x r := by
  unfold applyTransfer
  rw [← Array.getElem?_toList]
  cases o.args.toList with
  | nil => exact iff_of_false nofun (by simp)
  | cons x xs =>
    simp [-bind_pure_comp, bind_eq_ok_iff, present_eq_ok_iff, pure_eq_ok_iff, eq_comm (b := here')]

theorem applyTransfer_two_iff : applyTransfer a here o (.two h) = .ok (r, here') ↔
    ∃ x y s t, o.args.toList = [x, y] ∧ rangeOf a here x = .ok (some s) ∧
      rangeOf a here y = .ok (some t) ∧ h s t = .ok r ∧ here' = here := by
  unfold applyTransfer
  rcases o.args.toList with _ | ⟨x, _ | ⟨y, _ | ⟨z, rest⟩⟩⟩ <;>
    simp [-bind_pure_comp, bind_eq_ok_iff, present_eq_ok_iff, pure_eq_ok_iff, eq_comm (b := here')]

theorem applyTransfer_bits_iff {tr : Transfer} (htr : tr = .unsignedBits ∨ tr = .signedBits) :
    applyTransfer a here o tr = .ok (r, here') ↔
      ∃ x y s w t, o.args.toList = [x, y] ∧ rangeOf a here x = .ok s ∧
        rangeOf a here y = .ok (some t) ∧ t.const? = some w ∧ 0 ≤ w ∧ tr.ofWidth w = .ok r ∧
        here' = here := by
  rcases htr with rfl | rfl <;> unfold applyTransfer <;>
    rcases o.args.toList with _ | ⟨x, _ | ⟨y, _ | ⟨z, rest⟩⟩⟩ <;>
    simp [-bind_pure_comp, bind_eq_ok_iff, knownWidth_eq_ok_iff, pure_eq_ok_iff, throw_eq_error,
      ite_error_eq_ok_iff, eq_comm (b := here')]

theorem applyTransfer_assertRange_iff : applyTransfer a here o .assertRange = .ok (r, here') ↔
    ∃ x y z q s t, o.args.toList = [x, y, z] ∧ rangeOf a here x = .ok q ∧
      rangeOf a here y = .ok (some s) ∧ rangeOf a here z = .ok (some t) ∧
      (s.isConst = true ∧ t.isConst = true) ∧ Interval.make s.low t.high = .ok r ∧
      here' = here.insert x r := by
  unfold applyTransfer
  rw [← Array.getElem?_toList]
  rcases o.args.toList with _ | ⟨x, _ | ⟨y, _ | ⟨z, _ | ⟨w, rest⟩⟩⟩⟩ <;>
    simp [-bind_pure_comp, bind_eq_ok_iff, present_eq_ok_iff, pure_eq_ok_iff, throw_eq_error,
      ite_error_eq_ok_iff, eq_comm (b := here')]

end Kinds

section Operations

variable (hcovers : Covers a number here pending ρ) (hI : I.Arithmetical number bn)
  (hnumbers : NumberConstants a) (hlook : ∀ x y, ρ x = some y → I.look a ρ x = some y)
  {o : Operation} {ys : List V} (hpending : ∀ x ∈ o.args.toList, x ∉ pending)
  (hargs : o.args.toList.mapM (I.look a ρ) = some ys)

include hcovers hI hnumbers hlook hpending hargs

/-- Besides the interval of its result, an operation teaches at most the same of an operand. -/
theorem Covers.applyTransfer {tr : Transfer} {k : Arithmetic} (hsound : tr.Sound k)
    (hgives : k.Gives (ys.map number) n)
    (happly : Graph.applyTransfer a here o tr = .ok (r, here')) :
    n ∈ r ∧ Covers a number here' pending ρ ∧ (here' = here ∨ ∃ x, here' = here.insert x r) := by
  have hvalues := forall₂_of_mapM_some hargs
  have hfits {x : ValueId} {s : Interval} {y : V} (hx : x ∈ o.args.toList)
      (hs : rangeOf a here x = .ok (some s)) (hy : I.look a ρ x = some y) : Fits number s y :=
    hcovers.fits_of_rangeOf hI hnumbers (hpending x hx) hs hy
  have hinsert {x : ValueId} {y : V} (hn : n ∈ r) (hy : I.look a ρ x = some y)
      (hnumber : number y = some n) : Covers a number (here.insert x r) pending ρ :=
    hcovers.insert fun z hz => ⟨n, hn, Option.some.inj ((hlook x z hz).symm.trans hy) ▸ hnumber⟩
  cases tr with
    cases k <;> try exact hsound.elim
  | nonNegative =>
    cases happly
    obtain ⟨w, rfl⟩ := hgives
    exact ⟨Interval.mem_from (Int.natCast_nonneg w), hcovers, .inl rfl⟩
  | one f =>
    obtain ⟨x, xs, s, hxs, hs, hr, rfl⟩ := applyTransfer_one_iff.mp happly
    rw [hxs] at hvalues
    obtain _ | ⟨hy, _⟩ := hvalues
    obtain ⟨k, hk, hnumber⟩ := hfits (by simp [hxs]) hs hy
    simp only [List.map_cons, hnumber] at hgives
    exact ⟨hgives ▸ Interval.mem_of_exists (hsound s k hk) hr, hcovers, .inl rfl⟩
  | two f =>
    obtain ⟨x, x', s, t, hxs, hs, ht, hr, rfl⟩ := applyTransfer_two_iff.mp happly
    rw [hxs] at hvalues
    obtain _ | ⟨hy, _ | ⟨hy', _ | _⟩⟩ := hvalues
    obtain ⟨p, hp, hnumber⟩ := hfits (by simp [hxs]) hs hy
    obtain ⟨q, hq, hnumber'⟩ := hfits (by simp [hxs]) ht hy'
    simp only [List.map_cons, hnumber, hnumber'] at hgives
    exact ⟨hgives ▸ Interval.mem_of_exists (hsound s t p q hp hq) hr, hcovers, .inl rfl⟩
  | narrowing =>
    obtain ⟨x, xs, s, hxs, hs, hr, rfl⟩ := applyTransfer_narrowing_iff.mp happly
    rw [hxs] at hvalues
    obtain _ | ⟨hy, _⟩ := hvalues
    obtain ⟨k, hk, hnumber⟩ := hfits (by simp [hxs]) hs hy
    simp only [List.map_cons, hnumber] at hgives
    obtain ⟨rfl, hmachine⟩ := hgives
    have hn := Interval.mem_of_exists (exists_machinePart hk hmachine) hr
    exact ⟨hn, hinsert hn hy hnumber, .inr ⟨x, rfl⟩⟩
  | unsignedBits | signedBits =>
    obtain ⟨x, x', _, w, t, hxs, -, ht, hw, -, hr, rfl⟩ :=
      (applyTransfer_bits_iff (by simp)).mp happly
    rw [hxs] at hvalues
    obtain _ | ⟨hy, _ | ⟨hy', _ | _⟩⟩ := hvalues
    obtain ⟨q, hq, hnumber⟩ := hfits (by simp [hxs]) ht hy'
    obtain rfl := Interval.eq_of_const? hw hq
    simp only [List.map_cons, hnumber] at hgives
    obtain ⟨x, hx⟩ := hgives
    exact ⟨Interval.mem_of_exists (exists_ofWidth x (by simpa using hx)) hr, hcovers, .inl rfl⟩
  | assertRange =>
    obtain ⟨x, x', x'', _, s, t, hxs, -, hs, ht, -, hr, rfl⟩ :=
      applyTransfer_assertRange_iff.mp happly
    rw [hxs] at hvalues
    obtain _ | ⟨hy, _ | ⟨hy', _ | ⟨hy'', _ | _⟩⟩⟩ := hvalues
    obtain ⟨p, hp, hnumber⟩ := hfits (by simp [hxs]) hs hy'
    obtain ⟨q, hq, hnumber'⟩ := hfits (by simp [hxs]) ht hy''
    simp only [List.map_cons, hnumber, hnumber'] at hgives
    obtain ⟨hnumber, hlow, hhigh⟩ := hgives
    have hn : n ∈ r := Interval.mem_of_exists (Interval.exists_make
      (fun l hl => (Interval.le_of_mem hp hl).trans hlow)
      (fun l hl => hhigh.trans (Interval.le_high_of_mem hq hl))) hr
    exact ⟨hn, hinsert hn hy hnumber, .inr ⟨x, rfl⟩⟩

/-- Evaluating an operation and finding its interval. -/
theorem Covers.analyze_op {m m' : M} (hp : pending = v :: after) (ho : a.value v = .op o)
    (happly : I.apply o.kind o.name o.type ys m = .ok y m')
    (hanalyze : analyzeValue a bn t here v = .ok here') :
    Covers a number here' after (Function.update ρ v (some y)) := by
  subst hp
  have hsame (x : ValueId) (hx : x ≠ v) : Function.update ρ v (some y) x = ρ x :=
    Function.update_of_ne hx _ _
  have htype : a.typeOf v = o.type := by rw [Arena.typeOf, ho, Value.type]
  have hself (z : V) (hz : Function.update ρ v (some y) v = some z) : z = y := by
    rw [Function.update_self] at hz
    exact (Option.some.inj hz).symm
  have htyped (hrange : isRangeType o.type = true) : Fits number (typeRange o.type) y :=
    hI.typed _ _ _ _ _ _ _ hrange happly
  unfold analyzeValue at hanalyze
  simp only [ho, Value.type] at hanalyze
  split at hanalyze
  · rename_i hrange
    cases hanalyze
    exact hcovers.settle_other hsame (by simpa [htype] using hrange)
  · rename_i hrange
    replace hrange : isRangeType o.type = true := by simpa using hrange
    split_ifs at hanalyze with hkind
    · cases hanalyze
      exact hcovers.settle hsame fun z hz => hself z hz ▸ htyped hrange
    · replace hkind : o.kind = .call := by
        revert hkind
        cases o.kind <;> decide
      split at hanalyze
      · cases hanalyze
        exact hcovers.settle hsame fun z hz => hself z hz ▸ htyped hrange
      · rename_i tr htransfer
        obtain ⟨⟨r, here₁⟩, htr, hresult⟩ := exists_ok_of_bind hanalyze
        cases hresult
        obtain ⟨k, hk, hsound⟩ := transfer?_sound htransfer
        obtain ⟨n, -, hnumber⟩ := htyped hrange
        have hgives := hI.call _ _ _ _ _ _ _ _ (hkind ▸ happly) hnumber hk
        obtain ⟨hmem, hcovers₁, -⟩ := hcovers.applyTransfer hI hnumbers hlook hpending hargs hsound
          hgives htr
        exact hcovers₁.settle hsame fun z hz => ⟨n, hmem, hself z hz ▸ hnumber⟩

end Operations

/-- A phi has its value already, and gets an interval. -/
theorem Covers.analyze_phi {p : Phi} (hcovers : Covers a number here (v :: after) ρ)
    (hp : a.value v = .phi p)
    (hphi : ∀ r y, phiRange a t p = .ok (some r) → isRangeType p.type = true → ρ v = some y →
      Fits number r y) (hanalyze : analyzeValue a bn t here v = .ok here') :
    Covers a number here' after ρ := by
  unfold analyzeValue at hanalyze
  simp only [hp, Value.type] at hanalyze
  split_ifs at hanalyze with hrange
  · cases hanalyze
    exact hcovers.settle_other (fun _ _ => rfl) (by simpa [Arena.typeOf, hp, Value.type]
      using hrange)
  · obtain ⟨s, hs, hresult⟩ := exists_ok_of_bind hanalyze
    cases s with
    | none => cases hresult
    | some r =>
      cases hresult
      exact hcovers.settle (fun _ _ => rfl) fun y hy => hphi r y hs (by simpa using hrange) hy

/-- A call of two operands whose intervals are known. -/
theorem analyzeValue_two {z : ValueId} {o : Operation}
    {f : Interval → Interval → Result Interval} {s u : Interval} (ho : a.value v = .op o)
    (htype : isRangeType o.type = true) (hkind : o.kind = .call)
    (htransfer : transfer? (bn (stripMarks o.name)) = some (.two f))
    (hargs : o.args.toList = [x, z])
    (hx : rangeOf a here x = .ok (some r)) (hz : rangeOf a here z = .ok (some s))
    (hf : f r s = .ok u) :
    analyzeValue a bn t here v = .ok (here.insert v u) := by
  have happly : applyTransfer a here o (.two f) = .ok (u, here) :=
    applyTransfer_two_iff.mpr ⟨x, z, r, s, hargs, hx, hz, hf, rfl⟩
  simp only [analyzeValue, ho, Value.type, htype, hkind]
  rw [htransfer]
  change (applyTransfer a here o (.two f) >>= fun x => pure (x.2.insert v x.1)) = _
  rw [happly]
  rfl

end Graph

end Jib
