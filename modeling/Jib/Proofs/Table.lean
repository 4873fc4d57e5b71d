import Jib.Table
import Mathlib.Data.List.Nodup

/-!
# Reading tables

What an entry of a table is after the table has been changed, and that the list of a table's entries
holds each entry once.
-/

namespace Jib.Table

variable {α β : Type} [BEq α] [Hashable α] [LawfulBEq α] [LawfulHashable α]
variable {t : Table α β} {k k' : α} {v : β}

omit [LawfulBEq α] [LawfulHashable α] in
@[simp]
theorem get?_empty (k : α) : ({} : Table α β).get? k = none := by
  simp [get?]

@[simp]
theorem get?_insert_self (t : Table α β) (k : α) (v : β) : (t.insert k v).get? k = some v := by
  unfold insert get?
  split <;> simp

theorem get?_insert_of_ne (t : Table α β) (v : β) (hk : k ≠ k') :
    (t.insert k v).get? k' = t.get? k' := by
  unfold insert get?
  split <;> simp [Std.HashMap.getElem?_insert, hk]

theorem contains_eq (t : Table α β) (k : α) : t.contains k = (t.get? k).isSome := by
  simp [contains, get?]

theorem getD_eq (t : Table α β) (k : α) (d : β) : t.getD k d = (t.get? k).getD d := by
  simp [getD, get?, Std.HashMap.getD_eq_getD_getElem?]

theorem keys_insert_of_none (v : β) (hk : t.get? k = none) :
    (t.insert k v).keys.toList = t.keys.toList ++ [k] := by
  have hcontains : t.entries.contains k = false := by
    rw [← contains, contains_eq, hk]
    rfl
  rw [insert, hcontains]
  simp

theorem keys_insert_of_some {w : β} (v : β) (hk : t.get? k = some w) :
    (t.insert k v).keys = t.keys := by
  have hcontains : t.entries.contains k = true := by
    rw [← contains, contains_eq, hk]
    rfl
  rw [insert, hcontains]
  simp

/-- A table whose keys are those of its entries, each once. -/
structure Valid (t : Table α β) : Prop where
  nodup : t.keys.toList.Nodup
  mem_keys : ∀ k, k ∈ t.keys.toList ↔ (t.get? k).isSome

omit [LawfulBEq α] [LawfulHashable α] in
theorem valid_empty : ({} : Table α β).Valid where
  nodup := by simp
  mem_keys k := by simp

theorem Valid.insert (ht : t.Valid) (k : α) (v : β) : (t.insert k v).Valid := by
  cases hget : t.get? k with
  | some w =>
    have hkeys := keys_insert_of_some v hget
    refine ⟨by rw [hkeys]; exact ht.nodup, fun k' => ?_⟩
    rw [hkeys, ht.mem_keys]
    by_cases hk : k = k'
    · subst hk
      simp [hget]
    · rw [get?_insert_of_ne t v hk]
  | none =>
    have hkeys := keys_insert_of_none v hget
    refine ⟨?_, fun k' => ?_⟩
    · rw [hkeys]
      refine List.nodup_append.mpr ⟨ht.nodup, List.nodup_singleton k, ?_⟩
      rintro k' hk' _ hmem rfl
      rw [List.mem_singleton] at hmem
      rw [hmem, ht.mem_keys, hget] at hk'
      simp at hk'
    · rw [hkeys, List.mem_append, ht.mem_keys]
      by_cases hk : k = k'
      · subst hk
        simp
      · rw [get?_insert_of_ne t v hk]
        simp [Ne.symm hk]

omit [LawfulBEq α] [LawfulHashable α] in
theorem Valid.mem_toList (ht : t.Valid) : (k, v) ∈ t.toList ↔ t.get? k = some v := by
  unfold toList
  rw [List.mem_filterMap]
  constructor
  · rintro ⟨k', _, hget⟩
    rw [Option.map_eq_some_iff] at hget
    obtain ⟨v', hget, heq⟩ := hget
    cases heq
    exact hget
  · intro hget
    refine ⟨k, (ht.mem_keys k).mpr (by simp [hget]), ?_⟩
    rw [get?] at hget
    simp [hget]

theorem get?_foldl_insert (xs : List (α × β)) (t : Table α β) (ht : t.Valid)
    (hnodup : (t.keys.toList ++ xs.map Prod.fst).Nodup) :
    (xs.foldl (fun t (x : α × β) => t.insert x.1 x.2) t).keys.toList =
        t.keys.toList ++ xs.map Prod.fst ∧
      ∀ k v, (xs.foldl (fun t (x : α × β) => t.insert x.1 x.2) t).get? k = some v ↔
        t.get? k = some v ∨ (k, v) ∈ xs := by
  induction xs generalizing t with
  | nil => simp
  | cons x xs ih =>
    have hnew : t.get? x.1 = none := by
      rw [← Option.not_isSome_iff_eq_none, ← ht.mem_keys]
      intro hmem
      exact (List.nodup_append.mp hnodup).2.2 x.1 hmem x.1 (by simp) rfl
    have hkeys := keys_insert_of_none x.2 hnew
    obtain ⟨hfst, hget⟩ := ih (t.insert x.1 x.2) (ht.insert _ _) (by
      rw [hkeys]
      simpa using hnodup)
    refine ⟨by rw [List.foldl_cons, hfst, hkeys]; simp, fun k v => ?_⟩
    rw [List.foldl_cons, hget]
    by_cases hk : x.1 = k
    · subst hk
      rw [hnew]
      simp [Prod.ext_iff, eq_comm]
    · rw [get?_insert_of_ne t x.2 hk]
      have hne : (k, v) ≠ x := fun h => hk (by rw [← h])
      simp [hne]

/-- A list of entries with different keys is a table with these entries in this order. -/
theorem keys_ofList {xs : List (α × β)} (hnodup : (xs.map Prod.fst).Nodup) :
    (Table.ofList xs).keys.toList = xs.map Prod.fst := by
  rw [ofList, (get?_foldl_insert xs {} valid_empty (by simpa using hnodup)).1]
  rfl

theorem get?_ofList {xs : List (α × β)} (hnodup : (xs.map Prod.fst).Nodup) :
    (Table.ofList xs).get? k = some v ↔ (k, v) ∈ xs := by
  rw [ofList, (get?_foldl_insert xs {} valid_empty (by simpa using hnodup)).2]
  simp

omit [LawfulBEq α] [LawfulHashable α] in
theorem Valid.map_fst_toList (ht : t.Valid) : t.toList.map Prod.fst = t.keys.toList := by
  have hsome : ∀ l : List α, (∀ k ∈ l, (t.get? k).isSome) →
      (l.filterMap (fun k => (t.entries[k]?).map (fun v => (k, v)))).map Prod.fst = l := by
    intro l hl
    induction l with
    | nil => rfl
    | cons k l ih =>
      obtain ⟨v, hv⟩ := Option.isSome_iff_exists.mp (hl k List.mem_cons_self)
      have hentry : t.entries[k]? = some v := hv
      rw [List.filterMap_cons, hentry, Option.map_some, List.map_cons,
        ih (fun k' hk' => hl k' (List.mem_cons_of_mem _ hk'))]
  exact hsome _ (fun k hk => (ht.mem_keys k).mp hk)

theorem Valid.ofList (xs : List (α × β)) : (Table.ofList xs).Valid := by
  have hfold (t : Table α β) (ht : t.Valid) :
      (xs.foldl (fun t x => t.insert x.1 x.2) t).Valid := by
    induction xs generalizing t with
    | nil => exact ht
    | cons x xs ih => exact ih _ (ht.insert x.1 x.2)
  exact hfold {} valid_empty

end Jib.Table
