import Jib.Mangle
import Mathlib.Logic.Basic
import Mathlib.Tactic.SplitIfs

/-!
# Encoded names can be read back

A character stands for itself and is no mark, or it is written as a mark and a code that is read as
the character.  So every name can be read back, and different names are encoded differently.
-/

namespace Jib.Mangle

/-- Letters, digits and the underscore. -/
def isPlain (c : Char) : Bool := c.isAlphanum || c == '_'

theorem toNat_ofNat {n : Nat} (hn : n < 256) : (Char.ofNat n).toNat = n := by
  have hvalid : n.isValidChar := .inl (by omega)
  rw [Char.ofNat, dif_pos hvalid]
  rfl

theorem byteChar_eq_ok {c : Char} {k : Int} (hc : c.toNat < 256) (hk : k = c.toNat) :
    byteChar k = .ok c := by
  have hrange : (0 ≤ k && k < 256) = true := by simp; omega
  rw [byteChar, if_pos hrange, hk, Int.toNat_natCast, Char.ofNat_toNat]

theorem encodeChar_cases (c : Char) :
    (encodeChar c = [c] ∧ c ≠ mark) ∨ ∃ d, encodeChar c = [mark, d] ∧ decodeChar d = .ok c := by
  obtain rfl | hne := eq_or_ne c mark
  · exact .inr ⟨mark, rfl, rfl⟩
  have hmark : c.toNat ≠ 122 := fun h => hne (Char.toNat_inj.mp h)
  simp only [encodeChar, Bool.and_eq_true, Bool.or_eq_true, decide_eq_true_eq, beq_iff_eq]
  split_ifs
  case neg => exact .inl ⟨rfl, hne⟩
  -- the codes of different ranges lie apart, so each is moved back to where it came from
  all_goals
    refine .inr ⟨_, rfl, ?_⟩
    simp only [decodeChar, beq_iff_eq]
    rw [toNat_ofNat (by omega)]
    split_ifs <;> first | omega | exact byteChar_eq_ok (by omega) (by omega)

theorem decodeChars_cons {c : Char} (hc : c ≠ mark) (cs : List Char) :
    decodeChars (c :: cs) = (c :: ·) <$> decodeChars cs := by
  cases cs with
  | nil => simp only [decodeChars, beq_false_of_ne hc]; rfl
  | cons d ds => simp [decodeChars, hc]

theorem decodeChars_encode (cs : List Char) : decodeChars (cs.flatMap encodeChar) = .ok cs := by
  induction cs with
  | nil => rfl
  | cons c cs ih =>
    rw [List.flatMap_cons]
    obtain ⟨hself, hmark⟩ | ⟨d, hcode, hread⟩ := encodeChar_cases c
    · rw [hself, List.singleton_append, decodeChars_cons hmark, ih]
      rfl
    · simp [hcode, decodeChars, hread, ih]; rfl

theorem isPlain_of_mem_encodeChar {c d : Char} (hc : 32 ≤ c.toNat ∧ c.toNat ≤ 126)
    (hd : d ∈ encodeChar c) : isPlain d := by
  have hall : (List.range 127).all
      (fun n => n < 32 || (encodeChar (Char.ofNat n)).all isPlain) := by
    decide +kernel
  have hplain := List.all_eq_true.mp hall c.toNat (List.mem_range.mpr (by omega))
  rw [Char.ofNat_toNat, Bool.or_eq_true, decide_eq_true_eq] at hplain
  exact List.all_eq_true.mp (hplain.resolve_left (by omega)) d hd

/-- Every name is read back as it was, so no two names share a code, and the code of a printable
name is a mark, letters, digits and underscores. -/
theorem names_read_back :
    (∀ s, decode (encode s) = .ok s) ∧ Function.Injective encode ∧
    ∀ s : String, (∀ c ∈ s.toList, 32 ≤ c.toNat ∧ c.toNat ≤ 126) →
      ∃ cs, encode s = String.ofList ('z' :: cs) ∧ ∀ c ∈ cs, isPlain c := by
  have hread : ∀ s, decode (encode s) = .ok s := by
    intro s
    rw [decode, encode, encodeChars, String.toList_ofList, List.drop_one, List.tail_cons,
      decodeChars_encode]
    exact congrArg Except.ok String.ofList_toList
  refine ⟨hread, fun s t heq => ?_, fun s hs => ⟨_, rfl, fun d hd => ?_⟩⟩
  · exact Except.ok.inj ((hread s).symm.trans (heq ▸ hread t))
  · obtain ⟨c, hc, hd⟩ := List.mem_flatMap.mp hd
    exact isPlain_of_mem_encodeChar (hs c hc) hd

theorem operator_read_back :
    encode "<=z" = "zzIzJzz" ∧ decode (encode "<=z") = .ok "<=z" ∧
    ∃ cs, encode "<=z" = String.ofList ('z' :: cs) ∧ ∀ c ∈ cs, isPlain c :=
  ⟨by decide +kernel, names_read_back.1 _, names_read_back.2.2 _ (by simp)⟩

end Jib.Mangle
