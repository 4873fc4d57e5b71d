import Jib.Proofs.Sums.Meaning

/-!
# Taking sums apart

Trees are taken apart with a stack into the terms that are added, those that are subtracted, and one
number.  Once the stack is empty, terms and number together are worth what the trees were worth, and
so they are after equal terms have been cancelled.  What the steps do not reach is a term like any
other.
-/

namespace Jib.Graph

variable {t : Terms} {v w : ValueId}

namespace Terms

/-- All terms, whatever their sign. -/
def all (t : Terms) : List ValueId := t.added ++ t.subtracted

theorem mem_all_addTerm {negated : Bool} : w ∈ (t.addTerm negated v).all ↔ w ∈ t.all ∨ w = v := by
  cases negated <;> simp [all, addTerm] <;> tauto

theorem mem_all_addLeaf {negated : Bool} {number : Option Int}
    (hw : w ∈ (t.addLeaf negated v number).all) : w ∈ t.all ∨ w = v := by
  cases number with
  | none => exact mem_all_addTerm.mp hw
  | some n =>
    cases t with
    | mk _ _ constant _ => cases constant <;> exact .inl hw

theorem cutOff_subset (t : Terms) (todo : List (ValueId × Bool)) : (t.cutOff todo).2 ⊆ todo := by
  unfold cutOff
  split
  · exact List.nil_subset todo
  · exact List.Subset.refl todo

end Terms

namespace OptState

/-- A stack taken apart completely, from the terms at the start to those at the end.  Any value may
be left as a term. -/
inductive TakenApart (s : OptState) : List (ValueId × Bool) → Terms → Terms → Prop
  | done (t : Terms) : TakenApart s [] t t
  | leaf {v : ValueId} {negated : Bool} {todo : List (ValueId × Bool)} {t t' : Terms}
      {number : Option Int} (hnumber : ∀ n ∈ number, numeral? (s.arena.value v) = some n)
      (hrest : TakenApart s todo (t.addLeaf negated v number) t') :
      TakenApart s ((v, negated) :: todo) t t'
  | sum {v x y : ValueId} {o : Operation} {isSub negated : Bool} {todo : List (ValueId × Bool)}
      {t t' : Terms} (hvalue : s.arena.value v = .op o) (hsum : sumOp? o = some isSub)
      (hargs : o.args.toList = [x, y])
      (hrest : TakenApart s ((s.look y, negated != isSub) :: (s.look x, negated) :: todo) t t') :
      TakenApart s ((v, negated) :: todo) t t'

variable {s : OptState} {todo : List (ValueId × Bool)} {t t' : Terms}

theorem takenApart_leave (todo : List (ValueId × Bool)) (t : Terms) :
    s.TakenApart todo t (t.leave todo) := by
  induction todo generalizing t with
  | nil => exact .done t
  | cons entry todo ih => exact .leaf (by simp) (ih (t.addLeaf entry.2 entry.1 none))

/-- With very many terms the rest of the stack becomes terms. -/
theorem TakenApart.of_cutOff (hapart : s.TakenApart (t.cutOff todo).2 (t.cutOff todo).1 t') :
    s.TakenApart todo t t' := by
  unfold Terms.cutOff at hapart
  split at hapart
  · cases hapart with
    | done => exact takenApart_leave todo t
  · exact hapart

/-- What holds of a tree and, with each sum, of its operands holds of all terms. -/
theorem TakenApart.forall_all {p : ValueId → Prop}
    (hoperands : ∀ {v x y : ValueId} {o : Operation} {isSub : Bool}, p v →
      s.arena.value v = .op o → sumOp? o = some isSub → o.args.toList = [x, y] →
        p (s.look x) ∧ p (s.look y))
    (hapart : s.TakenApart todo t t')
    (hstart : ∀ v, v ∈ t.all ∨ v ∈ todo.map Prod.fst → p v) : ∀ v ∈ t'.all, p v := by
  induction hapart with
  | done t => exact fun v hv => hstart v (Or.inl hv)
  | @leaf v negated todo t t' number _ _ ih =>
    apply ih
    intro w hw
    apply hstart w
    rw [List.map_cons, List.mem_cons]
    rcases hw with hw | hw
    · exact (Terms.mem_all_addLeaf hw).imp id Or.inl
    · exact .inr (.inr hw)
  | @sum v x y o isSub negated todo t t' hvalue hsum hargs _ ih =>
    obtain ⟨hx, hy⟩ := hoperands (hstart v (by simp)) hvalue hsum hargs
    apply ih
    intro w hw
    simp only [List.map_cons, List.mem_cons] at hw
    rcases hw with hw | rfl | rfl | hw
    · exact hstart w (Or.inl hw)
    · exact hy
    · exact hx
    · exact hstart w (Or.inr (List.mem_cons_of_mem _ hw))

/-! ### The run -/

theorem takeApart_leaf (hterm : ∀ o, s.arena.value v = .op o → sumOp? o = none) (steps : Nat)
    (negated : Bool) (todo : List (ValueId × Bool)) (t : Terms) :
    takeApart (steps + 1) ((v, negated) :: todo) t s =
      takeApart steps ((t.addLeaf negated v (numeral? (s.arena.value v))).cutOff todo).2
        ((t.addLeaf negated v (numeral? (s.arena.value v))).cutOff todo).1 s := by
  have hnone : sumOperands? v s = .ok none s := by
    rw [sumOperands?, bind_ok (OptM.value_run v s)]
    cases hvalue : s.arena.value v with
    | op o => simp [hterm o hvalue]
    | _ => rfl
  rw [takeApart, bind_ok hnone]
  exact bind_ok (OptM.value_run v s)

theorem takeApart_sum {x y : ValueId} {o : Operation} {isSub : Bool}
    (hvalue : s.arena.value v = .op o) (hsum : sumOp? o = some isSub)
    (hargs : o.args.toList = [x, y])
    (steps : Nat) (negated : Bool) (todo : List (ValueId × Bool)) (t : Terms) :
    takeApart (steps + 1) ((v, negated) :: todo) t s =
      takeApart steps ((s.look y, negated != isSub) :: (s.look x, negated) :: todo) t s := by
  have hsome : sumOperands? v s = .ok (some (isSub, s.look x, s.look y)) s := by
    rw [sumOperands?, bind_ok (OptM.value_run v s), hvalue]
    simp only [hsum]
    rw [bind_ok (OptM.arg2_run s hargs)]
    rfl
  rw [takeApart, bind_ok hsome]

/-- Trees are taken apart without failing, and what is left when the steps are used up are terms. -/
theorem exists_takeApart (steps : Nat) (htodo : ∀ e ∈ todo, s.SumTree e.1) (t : Terms) :
    ∃ t', takeApart steps todo t s = .ok t' s ∧ s.TakenApart todo t t' := by
  induction steps generalizing todo t with
  | zero => exact ⟨t.leave todo, rfl, takenApart_leave todo t⟩
  | succ steps ih =>
    cases todo with
    | nil => exact ⟨t, rfl, .done t⟩
    | cons entry todo =>
      obtain ⟨v, negated⟩ := entry
      obtain ⟨hv, htodo⟩ := List.forall_mem_cons.mp htodo
      cases hv with
      | term hterm _ =>
        rw [takeApart_leaf hterm]
        obtain ⟨t', hrun, hapart⟩ := ih (fun e he => htodo e (Terms.cutOff_subset _ todo he)) _
        exact ⟨t', hrun, .leaf (fun _ hn => hn) hapart.of_cutOff⟩
      | @sum _ x y o isSub hvalue hsum hargs _ hleft hright =>
        have hoperands : ∀ e ∈ (s.look y, negated != isSub) :: (s.look x, negated) :: todo,
            s.SumTree e.1 :=
          List.forall_mem_cons.mpr ⟨hright, List.forall_mem_cons.mpr ⟨hleft, htodo⟩⟩
        rw [takeApart_sum hvalue hsum hargs]
        obtain ⟨t', hrun, hapart⟩ := ih hoperands t
        exact ⟨t', hrun, .sum hvalue hsum hargs hapart⟩

/-! ### Worth -/

noncomputable def worth (s : OptState) (numbers : ValueId → Int) (v : ValueId) : Int :=
  open Classical in if h : ∃ n, s.Evaluates numbers v n then h.choose else 0

theorem Evaluates.worth_eq {n : Int} (hvalue : s.Evaluates numbers v n) :
    s.worth numbers v = n := by
  have hex : ∃ n, s.Evaluates numbers v n := ⟨n, hvalue⟩
  rw [worth, dif_pos]
  exact hex.choose_spec.unique hvalue

end OptState

namespace Terms

variable (worth : ValueId → Int)

/-- What terms and number are worth together. -/
def total (t : Terms) : Int :=
  (t.added.map worth).sum - (t.subtracted.map worth).sum + t.constant.getD 0

/-- What the values on a stack are worth together. -/
def pending (todo : List (ValueId × Bool)) : Int :=
  (todo.map (fun (v, negated) => if negated then -worth v else worth v)).sum

theorem total_addTerm (t : Terms) (negated : Bool) (v : ValueId) :
    (t.addTerm negated v).total worth =
      t.total worth + (if negated then -worth v else worth v) := by
  cases negated <;> simp [total, addTerm] <;> ring

theorem total_addConst (t : Terms) (n : Int) : (t.addConst n).total worth = t.total worth + n := by
  cases t with
  | mk _ _ constant _ =>
    cases constant with
    | none => simp [total, addConst]
    | some m =>
      simp only [total, addConst, Option.getD_some]
      ring

theorem total_addLeaf (t : Terms) (negated : Bool) {number : Option Int}
    (hnumber : ∀ n ∈ number, worth v = n) :
    (t.addLeaf negated v number).total worth =
      t.total worth + (if negated then -worth v else worth v) := by
  cases number with
  | none => exact total_addTerm worth t negated v
  | some n => rw [addLeaf, total_addConst, hnumber n rfl]

/-- What is cancelled is taken from both sides. -/
theorem cancel_perm (t : Terms) : t.cancel.constant = t.constant ∧
    ∃ common, (t.cancel.added ++ common).Perm t.added ∧
      (t.cancel.subtracted ++ common).Perm t.subtracted := by
  have hfold (added : List ValueId) (t : Terms) :
      (added.foldl cancelOne t).constant = t.constant ∧
        ∃ common, ((added.foldl cancelOne t).added ++ common).Perm (t.added ++ added) ∧
          ((added.foldl cancelOne t).subtracted ++ common).Perm t.subtracted := by
    induction added generalizing t with
    | nil => exact ⟨rfl, [], by simp, by simp⟩
    | cons v added ih =>
      obtain ⟨hconstant, common, hadded, hsubtracted⟩ := ih (t.cancelOne v)
      rw [List.foldl_cons, hconstant]
      unfold cancelOne at hadded hsubtracted ⊢
      split_ifs at hadded hsubtracted ⊢ with hmem
      · have hv := List.perm_cons_erase (List.contains_iff_mem.mp hmem)
        exact ⟨rfl, v :: common,
          List.perm_middle.trans ((hadded.cons v).trans List.perm_middle.symm),
          List.perm_middle.trans ((hsubtracted.cons v).trans hv.symm)⟩
      · exact ⟨rfl, common, by simpa using hadded, hsubtracted⟩
  exact hfold t.added { t with added := [] }

/-- Cancelling equal terms on both sides changes nothing but which terms there are. -/
theorem total_cancel (t : Terms) : t.cancel.total worth = t.total worth := by
  obtain ⟨hconstant, common, hadded, hsubtracted⟩ := t.cancel_perm
  have hleft := (hadded.map worth).sum_eq
  have hright := (hsubtracted.map worth).sum_eq
  rw [List.map_append, List.sum_append] at hleft hright
  rw [total, total, hconstant]
  linarith

theorem mem_all_cancel (hw : w ∈ t.cancel.all) : w ∈ t.all := by
  obtain ⟨-, common, hadded, hsubtracted⟩ := t.cancel_perm
  exact (List.mem_append.mp hw).elim
    (fun hw => List.mem_append_left _ (hadded.subset (List.mem_append_left _ hw)))
    (fun hw => List.mem_append_right _ (hsubtracted.subset (List.mem_append_left _ hw)))

end Terms

namespace OptState

variable {s : OptState} {todo : List (ValueId × Bool)} {t t' : Terms}

theorem TakenApart.total_eq (hapart : s.TakenApart todo t t') (numbers : ValueId → Int)
    (htodo : ∀ v ∈ todo.map Prod.fst, ∃ n, s.Evaluates numbers v n) :
    t'.total (s.worth numbers) =
      t.total (s.worth numbers) + Terms.pending (s.worth numbers) todo := by
  induction hapart with
  | done t => simp [Terms.pending]
  | @leaf v negated todo t t' number hnumber _ ih =>
    have hworth : ∀ n ∈ number, s.worth numbers v = n := by
      intro n hn
      obtain ⟨m, hm⟩ := htodo v (by simp)
      rw [hm.worth_eq, hm.eq_of_numeral (hnumber n hn)]
    rw [ih (fun w hw => htodo w (List.mem_cons_of_mem _ hw)),
      Terms.total_addLeaf _ t negated hworth]
    simp only [Terms.pending, List.map_cons, List.sum_cons]
    ring
  | @sum v x y o isSub negated todo t t' hvalue hsum hargs _ ih =>
    obtain ⟨n, hv⟩ := htodo v (by simp)
    obtain ⟨k, l, hx, hy, rfl⟩ := hv.operands hvalue hsum hargs
    have hpending := ih (by
      intro w hw
      simp only [List.map_cons, List.mem_cons] at hw
      rcases hw with rfl | rfl | hw
      · exact ⟨l, hy⟩
      · exact ⟨k, hx⟩
      · exact htodo w (List.mem_cons_of_mem _ hw))
    rw [hpending]
    simp only [Terms.pending, List.map_cons, hv.worth_eq, hx.worth_eq, hy.worth_eq, combine]
    cases negated <;> cases isSub <;> simp <;> ring

end OptState

end Jib.Graph
