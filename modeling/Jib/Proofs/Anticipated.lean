import Jib.Graph.Anticipated
import Jib.Proofs.Simulation
import Jib.Proofs.TopoOrder
import Jib.Proofs.TypeEquality

/-!
# Anticipated conversions are performed

The blocks are gone through from the last one on.  What is recorded at a block is performed there,
or it is recorded already at every block that can come next and does not raise; only the block
itself may come next as well, and then the same holds after the next turn.  So along every way to a
return the conversion is performed, whatever loops the way takes.
-/

namespace Jib.Graph

variable {g : Graph} {a : Arena} {t : Anticipated} {b : BlockId} {c : Conversion}
    {path : List BlockId}

/-- The blocks of a way to a return that never enters a block that raises. -/
inductive WayOut (a : Arena) : List BlockId → Prop
  | ret {b : BlockId} (hret : (a.next b).isRet) : WayOut a [b]
  | step {b s : BlockId} {path : List BlockId} (hedge : a.Edge b s) (hraise : ¬ (a.next s).isRaise)
      (hway : WayOut a (s :: path)) : WayOut a (b :: s :: path)

/-- A block holds a cast of a value to a type, or the conversion of the value to a machine
integer. -/
def Performs (a : Arena) (c : Conversion) (b : BlockId) : Prop :=
  ∃ v ∈ a.ops b, ∃ o, a.op? v = some o ∧ o.args[0]? = some c.1 ∧ o.type = c.2 ∧
    (o.kind = .cast ∨ o.name = toMachineIntName)

theorem performs_of_conversion? {v : ValueId} (hv : v ∈ a.ops b) (hc : conversion? a v = some c) :
    Performs a c b := by
  have hcast (k : OpKind) (hk : (k == .cast) = true) :
      k = .cast := by cases k <;> first | rfl | cases hk
  unfold conversion? at hc
  split at hc
  · rename_i o ho
    split at hc
    · rename_i x hx
      split_ifs at hc with hkind
      cases hc
      rw [Bool.or_eq_true, Bool.and_eq_true] at hkind
      exact ⟨v, hv, o, ho, hx, rfl, hkind.imp (fun h => hcast _ h.1) eq_of_beq⟩
    · cases hc
  · cases hc

theorem mem_recordBlock : c ∈ (recordBlock a b t).getD b #[] ↔
    c ∈ commonAhead a t b ∨ ∃ v ∈ a.ops b, conversion? a v = some c := by
  have hadd (own : List Conversion) (cs : Array Conversion) :
      c ∈ own.foldl addConversion cs ↔ c ∈ cs ∨ c ∈ own := by
    induction own generalizing cs with
    | nil => simp
    | cons d own ih =>
      rw [List.foldl_cons, addConversion]
      split <;> simp_all <;> grind
  rw [recordBlock, Std.HashMap.getD_insert_self, ← Array.foldl_toList, hadd, Array.mem_toList_iff,
    Array.mem_filterMap]

theorem getD_recordBlock {x : BlockId} (hx : b ≠ x) :
    (recordBlock a b t).getD x #[] = t.getD x #[] := by
  simp [recordBlock, Std.HashMap.getD_insert, hx]

/-- All that is recorded is performed on every way to a return. -/
def Sound (a : Arena) (t : Anticipated) : Prop :=
  ∀ b, ∀ c ∈ t.getD b #[], ∀ path, WayOut a (b :: path) → ∃ p ∈ b :: path, Performs a c p

theorem of_mem_commonAhead (hc : c ∈ commonAhead a t b) :
    a.targets b ≠ [] ∧ ∀ s, a.Edge b s → ¬ (a.next s).isRaise → s = b ∨ c ∈ t.getD s #[] := by
  unfold commonAhead at hc
  split at hc
  · simp at hc
  · rename_i first rest hahead
    refine ⟨fun hnone => by simp [hnone] at hahead, fun s hedge hraise => ?_⟩
    have hs : s ∈ (a.targets b).filter (fun s => !(a.next s).isRaise) :=
      List.mem_filter.mpr ⟨hedge, by simpa using hraise⟩
    split at hc <;> grind

theorem Sound.commonAhead (ht : Sound a t) (hc : c ∈ commonAhead a t b)
    (hway : WayOut a (b :: path)) : ∃ p ∈ b :: path, Performs a c p := by
  obtain ⟨htargets, hnext⟩ := of_mem_commonAhead hc
  induction path with
  | nil =>
    cases hway with
    | ret hret =>
      unfold Arena.targets at htargets
      cases hnext : a.next b <;> simp_all [Next.isRet, Next.targets]
  | cons s path ih =>
    cases hway with
    | step hedge hraise hway =>
      have hrest : ∃ p ∈ s :: path, Performs a c p := by
        obtain rfl | hs := hnext s hedge hraise
        · exact ih hway
        · exact ht s c hs path hway
      obtain ⟨p, hp, hperforms⟩ := hrest
      exact ⟨p, List.mem_cons_of_mem _ hp, hperforms⟩

theorem Sound.recordBlock (ht : Sound a t) (b : BlockId) : Sound a (recordBlock a b t) := by
  intro x c hc path hway
  obtain rfl | hx := eq_or_ne b x
  · obtain hahead | ⟨v, hv, hconversion⟩ := mem_recordBlock.mp hc
    · exact ht.commonAhead hahead hway
    · exact ⟨b, List.mem_cons_self, performs_of_conversion? hv hconversion⟩
  · exact ht x c (getD_recordBlock hx ▸ hc) path hway

theorem sound_foldr (order : List BlockId) : Sound a (order.foldr (Graph.recordBlock a) ∅) :=
  List.foldrRecOn order _ (by simp [Sound]) fun _ ht b _ => ht.recordBlock b

theorem anticipatedCasts_eq_ok_iff :
    g.anticipatedCasts a = .ok t ↔
      ∃ order, g.bestTopoOrder a = .ok order ∧ order.toList.foldr (recordBlock a) ∅ = t := by
  simp only [anticipatedCasts, bind_eq_ok_iff, pure_eq_ok_iff, Array.foldr_toList]

/-- Every conversion that is recorded at a block is performed on every way from there to a return
that enters no block that raises. -/
theorem anticipated_performed (g : Graph) (a : Arena) (t : Anticipated)
    (ht : g.anticipatedCasts a = .ok t)
    (b : BlockId) (c : Conversion) (hc : c ∈ t.getD b #[]) (path : List BlockId)
    (hway : WayOut a (b :: path)) : ∃ p ∈ b :: path, Performs a c p := by
  obtain ⟨order, -, rfl⟩ := anticipatedCasts_eq_ok_iff.mp ht
  exact sound_foldr order.toList b c hc path hway

theorem mem_foldr_of_conversion? {order : List BlockId} (hb : b ∈ order) {v : ValueId}
    (hv : v ∈ a.ops b)
    (hc : conversion? a v = some c) : c ∈ (order.foldr (recordBlock a) ∅).getD b #[] := by
  induction order with
  | nil => cases hb
  | cons x order ih =>
    obtain rfl | hx := eq_or_ne x b
    · exact mem_recordBlock.mpr (.inr ⟨v, hv, hc⟩)
    · rw [List.foldr_cons, getD_recordBlock hx]
      exact ih (by simpa [hx.symm] using hb)

/-- A block that converts a number and leads back to itself. -/
def spinning : Graph := ⟨"zspinning", #[0, 1], 0, true⟩

def spinningArena : Arena where
  values := #[.argument "zb" .bool, .argument "zx" .int,
    .op ⟨.call, toMachineIntName, #[1], .machineInt, none, none⟩]
  blocks := #[⟨#[], .goto 1 none⟩, ⟨#[2], .branch 0 1 2 none⟩, ⟨#[], .ret none none⟩]

/-- The conversion is performed however often the loop is taken. -/
theorem spinning_performed : ∃ t, spinning.anticipatedCasts spinningArena = .ok t ∧
    (1, .machineInt) ∈ t.getD 1 #[] ∧ WayOut spinningArena [1, 1, 2] ∧
    ∃ p ∈ [1, 1, 2], Performs spinningArena (1, .machineInt) p := by
  obtain ⟨order, horder, -, hmem, -⟩ := exists_listBlocks true (g := spinning) (a := spinningArena)
    (fun p _ => Arena.not_edge_of_forall (by decide) p) nofun
  have hone : 1 ∈ order.toList := by
    rw [Array.mem_toList_iff, hmem, mem_blocks_iff]
    exact .single (show 1 ∈ spinningArena.targets 0 by decide)
  have ht := anticipatedCasts_eq_ok_iff.mpr ⟨order, horder, rfl⟩
  have hc := mem_foldr_of_conversion? (a := spinningArena) hone
      (v := 2) (Array.mem_singleton.mpr rfl) rfl
  have hway : WayOut spinningArena [1, 1, 2] :=
    .step (show 1 ∈ spinningArena.targets 1 by decide) (by decide)
      (.step (show 2 ∈ spinningArena.targets 1 by decide) (by decide) (.ret (by decide)))
  exact ⟨_, ht, hc, hway, anticipated_performed _ _ _ ht 1 _ hc _ hway⟩

end Jib.Graph
