import Jib.Proofs.Construction.Meaning
import Jib.Proofs.Ranges.Interval

/-!
# What arithmetic means

Operations that the interval analysis knows by name give certain numbers for certain numbers, if
they give anything at all; machine integers, integers and truth values are the values that have a
number. For each of these operations the interval that the analysis finds holds the number that
comes out.
-/

namespace Jib

/-- What an operation does with numbers. -/
inductive Arithmetic where
  | compares (holds : Int → Int → Bool)
  | computes (f : Int → Int → Int)
  | maps (f : Int → Int)
  /-- Gives back a number that fits a machine integer. -/
  | fits
  /-- Gives back a number that lies between two others. -/
  | checks
  | unsigned
  | signed
  | length

/-- The arithmetic of an operation, by its name. -/
def arithmetic? : String → Option Arithmetic
  | "lteq" => some (.compares fun x y => x ≤ y)
  | "gteq" => some (.compares fun x y => y ≤ x)
  | "lt" => some (.compares fun x y => x < y)
  | "gt" => some (.compares fun x y => y < x)
  | "eq" | "eq_int" | "eq_int_o_i" | "eq_int_i_i" => some (.compares fun x y => x = y)
  | "add" | "add_int" | "add_i_i_must_fit" | "add_i_i_wrapped_res" | "add_o_i_wrapped_res" =>
    some (.computes fun x y => x + y)
  | "sub" | "sub_int" | "sub_i_i_must_fit" | "sub_i_i_wrapped_res" | "sub_o_i_wrapped_res"
  | "sub_i_o_wrapped_res" => some (.computes fun x y => x - y)
  | "mult_int" | "mult_i_i_wrapped_res" | "mult_i_i_must_fit" => some (.computes fun x y => x * y)
  | "tdiv_int" | "tdiv_int_i_i" => some (.computes Int.tdiv)
  | "ediv_int" | "ediv_int_i_ipos" => some (.computes fun x y => x / y)
  | "lshift" | "shl_mach_int" | "shl_int_o_i" | "shl_int_i_i_wrapped_res"
  | "shl_int_i_i_must_fit" => some (.computes fun x k => x * 2 ^ k.toNat)
  | "rshift" | "shr_mach_int" | "shr_int_o_i" => some (.computes fun x k => x / 2 ^ k.toNat)
  | "pow2_i" => some (.maps fun k => 2 ^ k.toNat)
  | "int_to_int64" => some .fits
  | "int64_to_int" => some (.maps fun x => x)
  | "assert_in_range" => some .checks
  | "unsigned_bv" => some .unsigned
  | "signed_bv" => some .signed
  | "length_unwrapped_res" => some .length
  | _ => none

/-- Whether a number may come out for given operands, of which some have no number.  Operands that
are not listed leave everything open. -/
def Arithmetic.Gives : Arithmetic → List (Option Int) → Int → Prop
  | compares holds, some x :: some y :: _, n => n = Interval.ofBool (holds x y)
  | computes f, [some x, some y], n => n = f x y
  | maps f, some x :: _, n => n = f x
  | fits, some x :: _, n => n = x ∧ n ∈ Interval.machineInt
  | checks, [x, some l, some h], n => x = some n ∧ l ≤ n ∧ n ≤ h
  | unsigned, [_, some w], n => ∃ x : BitVec w.toNat, n = x.toNat
  | signed, [_, some w], n => ∃ x : BitVec w.toNat, n = x.toInt
  | length, _, n => ∃ w : Nat, n = w
  | _, _, _ => True

variable {V E M : Type} {f : Interval → Interval → Interval}

/-- Interpretations in which constants, tests and operations agree with their numbers, and results
with their types. -/
structure Interpretation.Arithmetical (I : Interpretation V E M) (number : V → Option Int)
    (bn : Builtins) : Prop where
  bool : ∀ b, number (I.constant (.bool b)) = some (Interval.ofBool b)
  machineInt : ∀ n, number (I.constant (.machineInt n)) = some n
  int : ∀ n, number (I.constant (.int n)) = some n
  default : ∀ t, Graph.isRangeType t = true →
    ∃ n ∈ Graph.typeRange t, number (I.constant (.default t)) = some n
  isTrue : ∀ y b, number y = some (Interval.ofBool b) → I.isTrue y = b
  typed : ∀ kind name t ys m y m', Graph.isRangeType t = true →
    I.apply kind name t ys m = .ok y m' → ∃ n ∈ Graph.typeRange t, number y = some n
  call : ∀ name t ys m y m' n k, I.apply .call name t ys m = .ok y m' → number y = some n →
    arithmetic? (bn (stripMarks name)) = some k → k.Gives (ys.map number) n
  /-- Whatever has the name of a comparison, spelled in another way, compares. -/
  compare : ∀ kind name t ys m y m' n holds, I.apply kind name t ys m = .ok y m' →
    number y = some n → arithmetic? (stripAt (bn name)) = some (.compares holds) →
    (Arithmetic.compares holds).Gives (ys.map number) n

namespace Graph

/-- Whether intervals follow from those of the operands as numbers do from numbers. -/
def Transfer.Sound : Transfer → Arithmetic → Prop
  | .one f, .maps g => ∀ r x, x ∈ r → ∃ u, f r = .ok u ∧ g x ∈ u
  | .two f, .computes g => ∀ r s x y, x ∈ r → y ∈ s → ∃ u, f r s = .ok u ∧ g x y ∈ u
  | .two f, .compares holds =>
    ∀ r s x y, x ∈ r → y ∈ s → ∃ u, f r s = .ok u ∧ Interval.ofBool (holds x y) ∈ u
  | .narrowing, .fits | .assertRange, .checks | .unsignedBits, .unsigned | .signedBits, .signed
  | .nonNegative, .length => True
  | _, _ => False

theorem sound_computes {g : Int → Int → Int} (hf : ∀ r s x y, x ∈ r → y ∈ s → g x y ∈ f r s) :
    (Transfer.two fun r s => .ok (f r s)).Sound (.computes g) :=
  fun r s x y hx hy => ⟨_, rfl, hf r s x y hx hy⟩

theorem sound_compares {holds : Int → Int → Bool}
    (hf : ∀ r s x y, x ∈ r → y ∈ s → Interval.ofBool (holds x y) ∈ f r s) :
    (Transfer.two fun r s => .ok (f r s)).Sound (.compares holds) :=
  fun r s x y hx hy => ⟨_, rfl, hf r s x y hx hy⟩

/-- A power of two is one, shifted. -/
theorem sound_pow2 :
    (Transfer.one fun r => .ok (Interval.yes.lshift r)).Sound (.maps fun k => 2 ^ k.toNat) := by
  intro r k hk
  have hone : (1 : Int) ∈ Interval.yes := Interval.mem_yes.mpr rfl
  have hshift := Interval.mem_lshift hone hk
  rw [Interval.shiftLeft, one_mul] at hshift
  exact ⟨_, rfl, hshift⟩

/-- Every operation that the analysis knows is one whose arithmetic is known. -/
theorem transfer?_sound {name : String} {tr : Transfer} (htransfer : transfer? name = some tr) :
    ∃ k, arithmetic? name = some k ∧ tr.Sound k := by
  unfold transfer? at htransfer
  split at htransfer <;> cases htransfer
  case h_1 => exact ⟨_, rfl, sound_compares fun _ _ _ _ hx hy => Interval.mem_le hx hy⟩
  case h_2 =>
    exact ⟨_, rfl, sound_compares fun r s _ _ hx hy =>
      Interval.ge_eq_le r s ▸ Interval.mem_le hy hx⟩
  case h_3 => exact ⟨_, rfl, sound_compares fun _ _ _ _ hx hy => Interval.mem_lt hx hy⟩
  case h_4 =>
    exact ⟨_, rfl, sound_compares fun r s _ _ hx hy =>
      Interval.gt_eq_lt r s ▸ Interval.mem_lt hy hx⟩
  case h_5 | h_6 | h_7 | h_8 | h_9 =>
    exact ⟨_, rfl, fun _ _ _ _ => Interval.exists_add⟩
  case h_10 | h_11 | h_12 | h_13 | h_14 | h_15 =>
    exact ⟨_, rfl, fun _ _ _ _ => Interval.exists_sub⟩
  case h_17 => exact ⟨_, rfl, fun _ _ hx => ⟨_, rfl, hx⟩⟩
  case h_20 | h_21 | h_22 =>
    exact ⟨_, rfl, sound_computes fun _ _ _ _ hx hy => Interval.mem_mul hx hy⟩
  case h_23 | h_24 => exact ⟨_, rfl, fun _ _ _ _ => Interval.exists_tdiv⟩
  case h_25 | h_26 => exact ⟨_, rfl, fun _ _ _ _ => Interval.exists_ediv⟩
  case h_27 | h_28 | h_29 | h_30 | h_31 =>
    exact ⟨_, rfl, sound_computes fun _ _ _ _ hx hy => Interval.mem_lshift hx hy⟩
  case h_32 => exact ⟨_, rfl, sound_pow2⟩
  case h_33 | h_34 | h_35 =>
    exact ⟨_, rfl, sound_computes fun _ _ x k hx hy =>
      Interval.shiftRight_eq x k ▸ Interval.mem_rshift hx hy⟩
  case h_16 | h_18 | h_19 | h_36 | h_37 => exact ⟨_, rfl, trivial⟩

end Graph

end Jib
