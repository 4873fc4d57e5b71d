import Jib.Graph.Optimizer.Rules
import Jib.Proofs.Optimizer.Steps
import Jib.Proofs.Primitive.Table

/-!
# Evaluation on constants

A call of a primitive on constants, or on constants and one phi over constants, is replaced by a
constant or a phi over constants that stand for what the primitive computes in a run.  The
evaluation fails exactly where the computed datum does not have the form that the type of the call
asks for.  Reading a bit does that: the bit of a vector of more than 64 bits is a truth value and
not a word.
-/

namespace Jib.Graph

open Primitive

deriving instance ReflBEq, LawfulBEq for Bits
deriving instance ReflBEq, LawfulBEq for Const

variable {a a' : Arena} {s s' : OptState} {name : String} {v x : ValueId}
    {args : List ValueId} {t : Ty}
  {c : Const} {d : Datum} {ds : List Datum}

/-- The datum that a constant stands for in a run. -/
inductive Denotes : Const → Datum → Prop
  | bool (b : Bool) : Denotes (.bool b) (.bool b)
  | machineInt (n : Int) : Denotes (.machineInt n) (.int n)
  | int (n : Int) (z : Integer) (h : z.toInt = n) : Denotes (.int n) (.integer z)
  | smallBits (w : UInt64) (t : Ty) : Denotes (.smallBits w t) (.word w)
  | bits (b : Bits) : Denotes (.bits b) (.bits b)
  | text (s : String) : Denotes (.text s) (.text s)
  | unit (c : Const) (h : c.type = .unit) : Denotes c .unit

/-- What a primitive computes in a run, where two machine integers are compared without a call. -/
def Computes (name : String) (ds : List Datum) (d : Datum) : Prop :=
  Gives name ds d ∨
    ∃ m n r, ds = [.int m, .int n] ∧ compareInts? name m n = some r ∧ d = .bool r

/-- The values are constants that stand for the data. -/
def Stands (a : Arena) (args : List ValueId) (ds : List Datum) : Prop :=
  List.Forall₂ (fun v d => ∃ c, a.const? v = some c ∧ Denotes c d) args ds

/-- The constant of a type for a computed datum; a vector is read as a number where an integer is
asked for. -/
def ConstFor (t : Ty) (d : Datum) (c : Const) : Prop :=
  Denotes c d ∨ t = .int ∧ ∃ b, d = .bits b ∧ c = .int b.toNat

/-- A constant stands for what a primitive computes from constants. -/
def Folded (a : Arena) (name : String) (args : List ValueId) (t : Ty) (c : Const) : Prop :=
  ∃ ds d, Stands a args ds ∧ Computes name ds d ∧ ConstFor t d c

/-- A constant stands for what a primitive computes where an operand is replaced. -/
def FoldedFor (a : Arena) (name : String) (args : List ValueId) (x : ValueId) (t : Ty)
    (y r : ValueId) : Prop :=
  ∃ c, a.const? r = some c ∧ Folded a name (args.map fun z => if z == x then y else z) t c

/-- Whether a datum has the form of a type; types without constants take any. -/
def hasForm : Ty → Datum → Bool
  | .machineInt, .int n => GraphM.fitsWord n
  | .int, .integer _ | .int, .bits _ => true
  | .smallBits _, .word _ => true
  | .bool, .bool _ => true
  | .string, .text _ => true
  | .bits, .bits _ => true
  | .machineInt, _ | .int, _ | .smallBits _, _ | .bool, _ | .string, _ | .bits, _ => false
  | _, _ => true

/-! ### Operands -/

theorem denotes_of_foldOperand (h : foldOperand a v = .ok (some d)) :
    ∃ c, a.const? v = some c ∧ Denotes c d := by
  unfold foldOperand at h
  split at h
  · rename_i n hconst
    split at h <;> cases h
    rename_i hfits
    rw [GraphM.fitsWord, Bool.and_eq_true, decide_eq_true_iff, decide_eq_true_iff] at hfits
    exact ⟨_, hconst, .int _ _ (Int64.toInt_ofInt_of_le hfits.1 hfits.2)⟩
  · cases h
    exact ⟨_, ‹_›, .machineInt _⟩
  · cases h
    exact ⟨_, ‹_›, .smallBits ..⟩
  · cases h
    exact ⟨_, ‹_›, .bits _⟩
  · split at h
    · cases h
      exact ⟨_, ‹_›, .unit _ ‹_›⟩
    · split at h <;> cases h
      exact ⟨_, ‹_›, .text _⟩
    · cases h
  · cases h

theorem stands_of_foldOperands (h : foldOperands a args = .ok (some ds)) : Stands a args ds := by
  induction args generalizing ds with
  | nil =>
    cases h
    exact .nil
  | cons v vs ih =>
    obtain ⟨_ | d, hd, h⟩ := exists_ok_of_bind h
    · cases h
    · obtain ⟨_ | ds', hds, h⟩ := exists_ok_of_bind h
      · cases h
      · cases h
        exact .cons (denotes_of_foldOperand hd) (ih hds)

/-- Constants that stand for data are never refused as operands. -/
theorem exists_foldOperands (h : ∀ v ∈ args, ∃ c d, a.const? v = some c ∧ Denotes c d) :
    ∃ r, foldOperands a args = .ok r := by
  induction args with
  | nil => exact ⟨_, rfl⟩
  | cons v vs ih =>
    obtain ⟨r, hr⟩ := ih fun w hw => h w (List.mem_cons_of_mem v hw)
    obtain ⟨c, d, hc, hd⟩ := h v List.mem_cons_self
    have hv : ∃ r, foldOperand a v = .ok r := by
      rw [foldOperand, hc]
      cases hd with
      | unit c hunit => cases c <;> simp [hunit]
      | _ => exact ⟨_, rfl⟩
    obtain ⟨_ | d', hd'⟩ := hv
    · exact ⟨none, by rw [foldOperands, hd']; rfl⟩
    · cases r with
      | none => exact ⟨none, by rw [foldOperands, hd', hr]; rfl⟩
      | some ds => exact ⟨some (d' :: ds), by rw [foldOperands, hd', hr]; rfl⟩

/-! ### Results -/

/-- The primitives that a run refuses plain integers for are compared by the evaluation itself. -/
theorem refusesPlain_eq_false (h : ∀ m n, ds = [.int m, .int n] → compareInts? name m n = none) :
    refusesPlain name ds = false := by
  unfold refusesPlain
  split
  · have hnone := h _ _ rfl
    simp only [compareInts?] at hnone
    grind
  · exact Bool.and_false _

theorem computes_of_evalPure (h : evalPure name ds = .ok d) : Computes name ds d := by
  unfold evalPure at h
  -- The look-up is named and forgotten, so that no step below evaluates the table.
  extract_lets general at h
  have hgeneral (hd : general = .ok d) : ∃ f, (name, f) ∈ functions ∧ f ds = .ok d := by
    unfold general at hd
    split at hd
    · rename_i f hfound
      exact ⟨f, mem_of_getElem?_ofList hfound, hd⟩
    · cases hd
  clear_value general
  split at h
  · split at h
    · cases h
      exact .inr ⟨_, _, _, rfl, ‹_›, rfl⟩
    · obtain ⟨f, hmem, hf⟩ := hgeneral h
      refine .inl (gives_of_mem hmem (refusesPlain_eq_false fun m n hds => ?_) hf)
      cases hds
      assumption
  · rename_i hother
    obtain ⟨f, hmem, hf⟩ := hgeneral h
    exact .inl (gives_of_mem hmem (refusesPlain_eq_false fun m n hds => (hother m n hds).elim) hf)

theorem evalPure_of_mem {f : Primitive.Function} (hmem : (name, f) ∈ functions)
    (h : ∀ m n, ds = [.int m, .int n] → compareInts? name m n = none) :
    evalPure name ds = f ds := by
  unfold evalPure
  extract_lets general
  have hgeneral : general = f ds := by
    unfold general
    rw [functionTable_of_mem hmem]
  clear_value general
  subst hgeneral
  split
  · rw [h _ _ rfl]
  · rfl

/-- All constants of a state are those of another one. -/
def KeepsConsts (s s' : OptState) : Prop :=
  ∀ v c, s.arena.const? v = some c → s'.arena.const? v = some c

theorem const?_eq_some_iff : a.const? v = some c ↔ a.value v = .const c := by
  unfold Arena.const?
  cases a.value v <;> simp

theorem keepsConsts_addValue (s : OptState) (x : Value) : KeepsConsts s (s.addValue x) := by
  intro v c hc
  rw [const?_eq_some_iff] at hc ⊢
  rw [← hc]
  exact Arena.value_addValue_of_lt (Arena.lt_size_of_value hc nofun)

theorem const?_addValue (s : OptState) (c : Const) :
    (s.addValue (.const c)).arena.const? s.arena.values.size = some c :=
  const?_eq_some_iff.mpr (Arena.value_addValue_self ..)

/-- What becomes of a computed datum. -/
theorem constOfDatum_cases (hbool : ∀ b, s.arena.const? (Arena.boolId b) = some (.bool b)) (t : Ty)
    (d : Datum) :
    (hasForm t d = false ∧ ∃ e, constOfDatum t d s = .error e s) ∨
      (hasForm t d = true ∧ ∃ r s', constOfDatum t d s = .ok r s' ∧ KeepsConsts s s' ∧
        ∀ v, r = some v → ∃ c, s'.arena.const? v = some c ∧ ConstFor t d c) := by
  have hnew (c : Const) (hc : ConstFor t d c) :
      KeepsConsts s (s.addValue (.const c)) ∧ ∀ v, some s.arena.values.size = some v →
        ∃ c', (s.addValue (.const c)).arena.const? v = some c' ∧ ConstFor t d c' := by
    refine ⟨keepsConsts_addValue s _, fun v hv => ⟨c, ?_, hc⟩⟩
    cases hv
    exact const?_addValue ..
  cases t with
  | machineInt =>
    cases d with
    | int n =>
      cases hfits : GraphM.fitsWord n with
      | false =>
        refine .inl ⟨hfits, .assertion, ?_⟩
        rw [constOfDatum, hfits]
        rfl
      | true =>
        refine .inr ⟨hfits, _, _, ?_, hnew _ (.inl (.machineInt n))⟩
        rw [constOfDatum, bind_ok (OptM.ensure_run_true hfits s),
          bind_ok (OptM.newMachineInt_run hfits s)]
        rfl
    | _ => exact .inl ⟨rfl, _, rfl⟩
  | int =>
    cases d with
    | integer z => exact .inr ⟨rfl, _, _, rfl, hnew _ (.inl (.int _ z rfl))⟩
    | bits b => exact .inr ⟨rfl, _, _, rfl, hnew _ (.inr ⟨rfl, b, rfl, rfl⟩)⟩
    | _ => exact .inl ⟨rfl, _, rfl⟩
  | smallBits w =>
    cases d with
    | word x => exact .inr ⟨rfl, _, _, rfl, hnew _ (.inl (.smallBits x _))⟩
    | _ => exact .inl ⟨rfl, _, rfl⟩
  | bool =>
    cases d with
    | bool b =>
      refine .inr ⟨rfl, _, _, rfl, fun _ _ h => h, fun v hv => ⟨_, ?_, .inl (.bool b)⟩⟩
      cases hv
      exact hbool b
    | _ => exact .inl ⟨rfl, _, rfl⟩
  | string =>
    cases d with
    | text x => exact .inr ⟨rfl, _, _, rfl, hnew _ (.inl (.text x))⟩
    | _ => exact .inl ⟨rfl, _, rfl⟩
  | bits =>
    cases d with
    | bits b => exact .inr ⟨rfl, _, _, rfl, hnew _ (.inl (.bits b))⟩
    | _ => exact .inl ⟨rfl, _, rfl⟩
  | _ => exact .inr ⟨rfl, none, s, rfl, fun _ _ h => h, nofun⟩

/-! ### Calls -/

theorem Stands.of_keepsConsts (h : Stands s.arena args ds) (hkeeps : KeepsConsts s s') :
    Stands s'.arena args ds :=
  List.Forall₂.imp (fun _ _ hc => hc.imp fun _ hc => ⟨hkeeps _ _ hc.1, hc.2⟩) h

theorem Folded.of_keepsConsts (h : Folded s.arena name args t c) (hkeeps : KeepsConsts s s') :
    Folded s'.arena name args t c := by
  obtain ⟨ds, d, hds, hd⟩ := h
  exact ⟨ds, d, hds.of_keepsConsts hkeeps, hd⟩

section Calls

variable (hbool : ∀ b, s.arena.const? (Arena.boolId b) = some (.bool b))

include hbool

theorem foldCall_ok {r : Option ValueId} (h : foldCall name args t s = .ok r s') :
    KeepsConsts s s' ∧
      ∀ v, r = some v → ∃ c, s'.arena.const? v = some c ∧ Folded s'.arena name args t c := by
  have hnone : foldCall name args t s = .ok none s → KeepsConsts s s' ∧
      ∀ v, r = some v → ∃ c, s'.arena.const? v = some c ∧ Folded s'.arena name args t c := by
    intro heq
    cases heq.symm.trans h
    exact ⟨fun _ _ hc => hc, nofun⟩
  rw [foldCall, bind_ok (OptM.get_run s)] at h hnone
  rcases hds : foldOperands s.arena args with e | _ | ds <;> rw [hds] at h hnone
  · cases h
  · exact hnone rfl
  · cases hd : evalPure name ds with
    | error e => exact hnone (by simp only [hd]; rfl)
    | ok d =>
      simp only [hd] at h
      rcases constOfDatum_cases hbool t d with ⟨-, e, he⟩ | ⟨-, r', s'', hr, hkeeps, hv⟩
      · rw [he] at h
        cases h
      · rw [hr] at h
        cases h
        refine ⟨hkeeps, fun v hv' => ?_⟩
        obtain ⟨c, hc, hdenotes⟩ := hv v hv'
        exact ⟨c, hc, ds, d, (stands_of_foldOperands hds).of_keepsConsts hkeeps,
          computes_of_evalPure hd, hdenotes⟩

theorem foldCall_error_iff (hargs : ∀ v ∈ args, ∃ c d, s.arena.const? v = some c ∧ Denotes c d) :
    (∃ e s', foldCall name args t s = .error e s') ↔
      ∃ ds d, foldOperands s.arena args = .ok (some ds) ∧ evalPure name ds = .ok d ∧
        hasForm t d = false := by
  obtain ⟨r, hr⟩ := exists_foldOperands hargs
  rw [foldCall, bind_ok (OptM.get_run s), hr]
  cases r with
  | none => simp
  | some ds =>
    cases hd : evalPure name ds with
    | error e => simp [hd]
    | ok d =>
      rcases constOfDatum_cases hbool t d with ⟨hform, e, he⟩ | ⟨hform, r', s'', hr, -⟩
      · simp [hd, hform, he]
      · simp [hd, hform, hr]

/-! ### Phis -/

theorem foldEntries_ok {ys rs : List ValueId}
    (h : foldEntries name args x t ys s = .ok (some rs) s') :
    KeepsConsts s s' ∧ List.Forall₂ (FoldedFor s'.arena name args x t) ys rs := by
  induction ys generalizing s rs with
  | nil =>
    cases h
    exact ⟨fun _ _ hc => hc, .nil⟩
  | cons y ys ih =>
    obtain ⟨_ | r, s₁, hr, h⟩ := exists_run_of_bind h
    · cases h
    · obtain ⟨_ | rs', s₂, hrs, h⟩ := exists_run_of_bind h
      · cases h
      · cases h
        obtain ⟨hkeeps₁, hr⟩ := foldCall_ok hbool hr
        obtain ⟨hkeeps₂, hrs⟩ := ih (fun b => hkeeps₁ _ _ (hbool b)) hrs
        obtain ⟨c, hc, hfolded⟩ := hr r rfl
        exact ⟨fun v c hv => hkeeps₂ v c (hkeeps₁ v c hv),
          .cons ⟨c, hkeeps₂ r c hc, hfolded.of_keepsConsts hkeeps₂⟩ hrs⟩

end Calls

theorem placeBeside_ok {p : Phi} {y : ValueId} {limit : Option Nat}
    (h : placeBeside x p y limit s = .ok (some v) s') :
    v = y ∧ s'.arena.values = s.arena.values := by
  rw [placeBeside, bind_ok (OptM.get_run s)] at h
  split at h
  · obtain ⟨_, s₁, hinsert, h⟩ := exists_run_of_bind h
    cases h
    refine ⟨rfl, ?_⟩
    rw [OptM.insertNewFront, bind_ok (OptM.get_run s)] at hinsert
    split at hinsert <;> cases hinsert
    rfl
  · cases hhome : homeBlock? s.arena x p with
    | none =>
      rw [hhome] at h
      cases h
    | some home =>
      simp only [hhome] at h
      split at h <;> cases h
      exact ⟨rfl, rfl⟩

theorem foldPhi_ok (hbool : ∀ b, s.arena.const? (Arena.boolId b) = some (.bool b))
    (h : foldPhi name args t s = .ok (some v) s') :
    ∃ x p rs, constantPhi? s.arena args = some (x, p) ∧
      List.Forall₂ (FoldedFor s'.arena name args x t) p.values.toList rs ∧
      ((∀ r ∈ rs, s'.arena.const? r = s'.arena.const? v) ∨
        s'.arena.phi? v = some ⟨p.preds, rs.toArray, t⟩) := by
  rw [foldPhi, bind_ok (OptM.get_run s)] at h
  rcases hphi : constantPhi? s.arena args with _ | ⟨x, p⟩ <;> rw [hphi] at h
  · cases h
  · obtain ⟨_ | _ | ⟨r, rs⟩, s₁, hrs, h⟩ := exists_run_of_bind h
    · cases h
    · cases h
    · obtain ⟨-, hentries⟩ := foldEntries_ok hbool hrs
      refine ⟨x, p, r :: rs, rfl, ?_⟩
      simp only [bind_ok (OptM.get_run s₁)] at h
      split_ifs at h with hall
      · cases h
        refine ⟨hentries, .inl fun y hy => ?_⟩
        rcases List.mem_cons.mp hy with rfl | hy
        · rfl
        · exact beq_iff_eq.mp (List.all_eq_true.mp hall y hy)
      · have hnew : OptM.onArena (GraphM.newValue (.phi ⟨p.preds, (r :: rs).toArray, t⟩)) s₁ =
            .ok s₁.arena.values.size (s₁.addValue (.phi ⟨p.preds, (r :: rs).toArray, t⟩)) := rfl
        rw [bind_ok hnew] at h
        obtain ⟨rfl, hvalues⟩ := placeBeside_ok h
        have hvalue (y : ValueId) : s'.arena.value y =
            (s₁.addValue (.phi ⟨p.preds, (r :: rs).toArray, t⟩)).arena.value y := by
          rw [Arena.value, Arena.value, hvalues]
        have hkeeps : KeepsConsts s₁ s' := by
          intro y c hc
          rw [const?_eq_some_iff, hvalue, ← const?_eq_some_iff]
          exact keepsConsts_addValue s₁ _ y c hc
        refine ⟨hentries.imp fun y z hz => ?_, .inr ?_⟩
        · obtain ⟨c, hc, hfolded⟩ := hz
          exact ⟨c, hkeeps z c hc, hfolded.of_keepsConsts hkeeps⟩
        · rw [Arena.phi?, hvalue, OptState.addValue, Arena.value_addValue_self]

/-- A constant or a phi that a call is replaced by stands for what the primitive computes, and the
evaluation on constants fails exactly where that does not have the form of the type. -/
theorem folding_faithful (hbool : ∀ b, s.arena.const? (Arena.boolId b) = some (.bool b)) :
    (∀ v s', foldCall name args t s = .ok (some v) s' →
      KeepsConsts s s' ∧ ∃ c, s'.arena.const? v = some c ∧ Folded s'.arena name args t c) ∧
    (∀ v s', foldPhi name args t s = .ok (some v) s' →
      ∃ x p rs, constantPhi? s.arena args = some (x, p) ∧
        List.Forall₂ (FoldedFor s'.arena name args x t) p.values.toList rs ∧
        ((∀ r ∈ rs, s'.arena.const? r = s'.arena.const? v) ∨
          s'.arena.phi? v = some ⟨p.preds, rs.toArray, t⟩)) ∧
    ((∀ v ∈ args, ∃ c d, s.arena.const? v = some c ∧ Denotes c d) →
      ((∃ e s', foldCall name args t s = .error e s') ↔
        ∃ ds d, foldOperands s.arena args = .ok (some ds) ∧ evalPure name ds = .ok d ∧
          hasForm t d = false)) := by
  refine ⟨fun v s' h => ?_, fun v s' h => foldPhi_ok hbool h, foldCall_error_iff hbool⟩
  obtain ⟨hkeeps, hv⟩ := foldCall_ok hbool h
  exact ⟨hkeeps, hv v rfl⟩

/-- A state with the constants that are always there, a sparse vector, two words and their width. -/
def someConstants : OptState := rebuildingState
  #[.const (.bool false), .const (.bool true), .const .unit, .const (.bits (.sparse 70 5)),
    .const (.machineInt 0), .const (.smallBits 250 (.smallBits 8)),
    .const (.smallBits 10 (.smallBits 8)),
    .const (.machineInt 8)]

theorem const?_someConstants_boolId (b : Bool) :
    someConstants.arena.const? (Arena.boolId b) = some (.bool b) := by
  cases b <;> rfl

theorem folding_faithful_add :
    (∀ b, someConstants.arena.const? (Arena.boolId b) = some (.bool b)) ∧
      ∃ s', foldCall "add_bits_bv_bv" [5, 6, 7] (.smallBits 8) someConstants = .ok (some 8) s' ∧
        ∃ c, s'.arena.const? 8 = some c ∧
          Folded s'.arena "add_bits_bv_bv" [5, 6, 7] (.smallBits 8) c := by
  have heval : evalPure "add_bits_bv_bv" [.word 250, .word 10, .int 8] = .ok (.word 4) := by
    rw [evalPure_of_mem (mem_of_vector (f := fn3 Raw.add) (by repeat constructor)) (by simp)]
    rfl
  have hfold : foldCall "add_bits_bv_bv" [5, 6, 7] (.smallBits 8) someConstants =
      .ok (some 8) (someConstants.addValue (.const (.smallBits 4 (.smallBits 8)))) := by
    have hds : foldOperands someConstants.arena [5, 6, 7] =
        .ok (some [.word 250, .word 10, .int 8]) := rfl
    rw [foldCall, bind_ok (OptM.get_run _), hds]
    simp only [heval]
    rfl
  exact ⟨const?_someConstants_boolId, _, hfold,
    ((folding_faithful const?_someConstants_boolId).1 _ _ hfold).2⟩

/-- The lowest bit of a sparse vector cannot be evaluated as a word. -/
theorem folding_fails_sparse_bit :
    ∃ e s', foldCall "vector_access_o_i" [3, 4] (.smallBits 1) someConstants = .error e s' := by
  have hargs : ∀ v ∈ [3, 4], ∃ c d, someConstants.arena.const? v = some c ∧ Denotes c d := by
    intro v hv
    simp only [List.mem_cons, List.not_mem_nil, or_false] at hv
    rcases hv with rfl | rfl
    · exact ⟨_, _, rfl, .bits _⟩
    · exact ⟨_, _, rfl, .machineInt _⟩
  have heval : evalPure "vector_access_o_i" [.bits (.sparse 70 5), .int 0] = .ok (.bool true) := by
    have hmem : ("vector_access_o_i", fn2 readBit) ∈ functions :=
      mem_of_wordForm (show ("vector_access", _) ∈ _ by repeat constructor) rfl
    rw [evalPure_of_mem hmem (by simp)]
    rfl
  exact (foldCall_error_iff const?_someConstants_boolId hargs).mpr ⟨_, _, rfl, heval, rfl⟩

end Jib.Graph
