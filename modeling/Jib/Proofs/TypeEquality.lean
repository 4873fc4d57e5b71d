import Jib.Ty

/-!
# Equality of types

The comparison of types is the real equality: it accepts two types exactly when they are built in
the same way.  Tables keyed by types and tests for a given type can be reasoned about through this.
-/

namespace Jib.Ty

mutual

theorem eq_of_beq : ∀ (left right : Ty), beq left right = true → left = right := by
  intro left right hequal
  cases left <;> cases right <;> simp only [beq, Bool.false_eq_true, Bool.and_eq_true,
    beq_iff_eq] at hequal ⊢
  case smallBits.smallBits => rw [hequal]
  case bigBits.bigBits => rw [hequal]
  case struct.struct =>
    obtain ⟨⟨⟨hname, hnames⟩, htuple⟩, htypes⟩ := hequal
    rw [hname, hnames, htuple, eq_of_beqList _ _ htypes]
  case union.union =>
    obtain ⟨⟨hname, hnames⟩, htypes⟩ := hequal
    rw [hname, hnames, eq_of_beqList _ _ htypes]
  case enum.enum => rw [hequal.1, hequal.2]
  case vec.vec => rw [eq_of_beq _ _ hequal]
  case fvec.fvec => rw [hequal.1, eq_of_beq _ _ hequal.2]
  case ref.ref => rw [eq_of_beq _ _ hequal]
  case list.list => rw [eq_of_beq _ _ hequal]
  case tuple.tuple => rw [eq_of_beqList _ _ hequal]
  case function.function => rw [eq_of_beq _ _ hequal.1, eq_of_beq _ _ hequal.2]

theorem eq_of_beqList : ∀ (left right : List Ty), beqList left right = true → left = right := by
  intro left right hequal
  cases left with
  | nil => cases right with
    | nil => rfl
    | cons _ _ => simp [beqList] at hequal
  | cons head tail => cases right with
    | nil => simp [beqList] at hequal
    | cons head' tail' =>
      simp only [beqList, Bool.and_eq_true] at hequal
      rw [eq_of_beq _ _ hequal.1, eq_of_beqList _ _ hequal.2]

end

mutual

theorem beq_self : ∀ (type : Ty), beq type type = true := by
  intro type
  cases type <;> simp only [beq, Bool.and_self, beq_self_eq_true]
  case struct => simp [beqList_self]
  case union => simp [beqList_self]
  case vec => exact beq_self _
  case fvec => simp [beq_self]
  case ref => exact beq_self _
  case list => exact beq_self _
  case tuple => exact beqList_self _
  case function => simp [beq_self]

theorem beqList_self : ∀ (types : List Ty), beqList types types = true := by
  intro types
  cases types with
  | nil => rfl
  | cons head tail => simp [beqList, beq_self, beqList_self]

end

instance : LawfulBEq Ty where
  eq_of_beq {left right} hequal := eq_of_beq left right hequal
  rfl {type} := beq_self type

instance : DecidableEq Ty := instDecidableEqOfLawfulBEq

end Jib.Ty
