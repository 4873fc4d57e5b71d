import Jib.Proofs.Rational

/-!
# Making fractions

Fractions of machine integers and decimal numerals are made exact and in lowest terms.
-/

namespace Jib.Text

variable {ds : List (Fin 10)} {c : Char}

theorem strip_eq {cs : List Char} (h : ∀ c ∈ cs, isBlank c = false) : strip cs = cs := by
  have hdrop {cs : List Char} (h : ∀ c ∈ cs, isBlank c = false) : cs.dropWhile isBlank = cs := by
    cases cs <;> simp_all
  rw [strip, hdrop h, hdrop (by simpa using h), List.reverse_reverse]

def digits (ds : List (Fin 10)) : List Char := ds.map fun d => d.val.digitChar

/-- The number that some digits spell, the highest first. -/
def spelled : List (Fin 10) → Nat
  | [] => 0
  | d :: ds => d * 10 ^ ds.length + spelled ds

theorem digitChar_spec : ∀ d : Fin 10, digitValue d.val.digitChar = some d.val ∧
    isBlank d.val.digitChar = false ∧ d.val.digitChar ∉ ['_', '-', '+', '.'] := by decide

theorem of_mem_digits (hc : c ∈ digits ds) : isBlank c = false ∧ c ∉ ['_', '-', '+', '.'] := by
  obtain ⟨d, -, rfl⟩ := List.mem_map.mp hc
  exact (digitChar_spec d).2

theorem readDigits_digits {before : Bool} (h : before = true ∨ ds ≠ []) (n : Nat) :
    readDigits 10 (digits ds) before n = some (n * 10 ^ ds.length + spelled ds) := by
  induction ds generalizing n before with
  | nil => simp_all [digits, spelled, readDigits]
  | cons d ds ih =>
    obtain ⟨hvalue, -, hmark⟩ := digitChar_spec d
    rw [digits, List.map_cons, readDigits.eq_3 _ _ _ _ _ (by simp_all)]
    simp only [hvalue, d.isLt]
    refine (ih (.inl rfl) _).trans (congrArg some ?_)
    rw [List.length_cons, spelled]
    ring

/-- The text of some digits, perhaps with a sign. -/
def signed (negative : Bool) (ds : List (Fin 10)) : List Char :=
  if negative then '-' :: digits ds else digits ds

theorem plain_of_mem {negative : Bool} (hc : c ∈ signed negative ds) :
    isBlank c = false ∧ c ≠ '.' := by
  have hplain (hc : c ∈ digits ds) : isBlank c = false ∧ c ≠ '.' := by
    have hmark := of_mem_digits hc
    simp_all
  cases negative with
  | true => exact (List.mem_cons.mp hc).elim (fun h => h ▸ by decide) hplain
  | false => exact hplain hc

theorem signed_append (negative : Bool) (ds fs : List (Fin 10)) :
    signed negative (ds ++ fs) = signed negative ds ++ digits fs := by
  cases negative <;> simp [signed, digits]

theorem readInt?_signed (hds : ds ≠ []) (negative : Bool) :
    readInt? (String.ofList (signed negative ds)) =
      some ((if negative then -1 else 1) * (spelled ds : Int)) := by
  have hread := readDigits_digits (show false = true ∨ _ from .inr hds) 0
  rw [readInt?, String.toList_ofList, strip_eq fun c hc => (plain_of_mem hc).1]
  cases negative with
  | true => simp [signed, hread]
  | false =>
    have hmark {c : Char} {cs : List Char} (hcs : digits ds = c :: cs) :=
      of_mem_digits (hcs ▸ List.mem_cons_self)
    rw [show signed false ds = digits ds from rfl]
    split
    case h_3 => simp [hread]
    all_goals
      rename_i hcs
      simpa using hmark hcs

end Jib.Text

namespace Jib.Rational

theorem ofWords_eq {n d : Int} (hn : isWord n = true) (hd : isWord d = true) (h : d ≠ 0) :
    ofWords n d = if n = 0 ∧ d ≠ minWord then .error (.divisionByZero none)
    else .ok (ofRat (n / d)) := by
  have hmake : make (n.natAbs * (n.sign * d.sign)) d.natAbs = ofRat (n / d) := by
    rw [make_ofRat _ (Int.natAbs_ne_zero.mpr h), ← mul_assoc, mul_comm _ n.sign,
      Int.sign_mul_natAbs]
    obtain ⟨m, rfl | rfl⟩ := Int.eq_nat_or_neg d
    all_goals
      have hm : m ≠ 0 := by simpa using h
      simp [Int.sign_natCast_of_ne_zero hm, neg_div, div_neg]
  have hsign : (n.fdiv n.natAbs * d).fdiv d.natAbs = n.sign * d.sign := by
    simp only [Int.natCast_natAbs,
      Int.fdiv_eq_ediv_of_nonneg _ (abs_nonneg _), ← Int.sign_eq_ediv_abs',
      Int.mul_ediv_assoc _ (abs_dvd_self d)]
  unfold ofWords
  simp only [beq_iff_eq, h, hn, hd, hsign, hmake]
  by_cases hzero : n = 0
  · by_cases hmin : d = minWord
    · simp [hmin]
    · simp [hzero, show (0 : Int) ≠ minWord by decide]
  · simp [hzero]

/-- A point, if there is one, splits the text in two. -/
theorem ofText_eq {front : List Char} {back : Option (List Char)} {n : Int}
    (hfront : ∀ c ∈ front, Text.isBlank c = false ∧ c ≠ '.')
    (hback : ∀ c ∈ back.getD [], Text.isBlank c = false)
    (hread : Text.readInt? (String.ofList (front ++ back.getD [])) = some n) :
    ofText (String.ofList (front ++ back.elim [] ('.' :: ·))) =
      .ok (ofRat (n / 10 ^ (back.getD []).length)) := by
  have hwhole : (front ++ back.elim [] ('.' :: ·)).takeWhile (· != '.') = front := by
    rw [List.takeWhile_append_of_pos fun c hc => by simpa using (hfront c hc).2]
    cases back <;> simp
  have hmake (k : Nat) : make n (10 ^ k) = ofRat (n / 10 ^ k) := by
    exact_mod_cast make_ofRat n (pow_ne_zero k (by decide : 10 ≠ 0))
  rw [ofText, String.toList_ofList, Text.strip_eq]
  · simp only [hwhole, ← hmake]
    cases back with
    | none => simp_all
    | some cs =>
      rw [Option.getD_some] at hread
      simp [-String.ofList_append, hread]
  · cases back with
    | none => simpa using fun c hc => (hfront c hc).1
    | some cs =>
      simp only [Option.elim_some, List.forall_mem_append, List.forall_mem_cons]
      exact ⟨fun c hc => (hfront c hc).1, rfl, hback⟩

/-- The text of a decimal numeral: digits, and perhaps a point and more digits. -/
def numeral (negative : Bool) (ds : List (Fin 10)) (fs : Option (List (Fin 10))) : String :=
  String.ofList (Text.signed negative ds ++ (fs.map Text.digits).elim [] ('.' :: ·))

/-- A zero over a machine integer that is not the least one is refused.  All other fractions of
machine integers are exact, and so are decimal numerals. -/
theorem made_exact {n d : Int} (hn : isWord n = true) (hd : isWord d = true) (h : d ≠ 0)
    (negative : Bool) {ds : List (Fin 10)} (hds : ds ≠ []) (fs : Option (List (Fin 10))) :
    ((∃ r, ofWords n d = .ok r ∧ r.Is (n / d)) ↔ n ≠ 0 ∨ d = minWord) ∧
      ∃ r, ofText (numeral negative ds fs) = .ok r ∧
        r.Is ((if negative then -1 else 1) * Text.spelled (ds ++ fs.getD []) /
          10 ^ (fs.getD []).length) := by
  constructor
  · rw [ofWords_eq hn hd h]
    split_ifs with hzero
    · simp_all
    · exact iff_of_true ⟨_, rfl, ofRat_is _⟩ (by tauto)
  · have hback : (fs.map Text.digits).getD [] = Text.digits (fs.getD []) := by cases fs <;> rfl
    have hread := Text.readInt?_signed (List.append_ne_nil_of_left_ne_nil hds (fs.getD [])) negative
    rw [Text.signed_append, ← hback] at hread
    refine ⟨_, ofText_eq (fun c => Text.plain_of_mem) (fun c hc => ?_) hread, ?_⟩
    · exact (Text.of_mem_digits (hback ▸ hc)).1
    · rw [hback, Text.digits, List.length_map]
      exact_mod_cast ofRat_is _

theorem made_exact_quarters : (∃ r, ofWords (-3) 4 = .ok r ∧ r.Is (-3 / 4)) ∧
    ∃ r, ofText "-0.75" = .ok r ∧ r.Is (-75 / 100) := by
  obtain ⟨hwords, r, hr, hvalue⟩ :=
    made_exact (n := -3) (d := 4) (by decide) (by decide) (by decide) true
    (show [(0 : Fin 10)] ≠ [] by decide) (some [7, 5])
  refine ⟨by simpa using hwords, r, hr, ?_⟩
  rw [show Text.spelled _ = 75 from rfl] at hvalue
  norm_num at hvalue ⊢
  exact hvalue

theorem zero_over_seven : isWord 0 = true ∧ isWord 7 = true ∧ ∀ r, ofWords 0 7 ≠ .ok r := by
  refine ⟨by decide, by decide, fun r h => ?_⟩
  cases h

end Jib.Rational
