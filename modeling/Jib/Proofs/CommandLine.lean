import Jib.CommandLine

/-!
# Options are recognized by their names

An option that has no long name is searched for with the empty text in its place, so an empty
argument counts as its name.  Apart from that exactly the names count, and all other arguments stay.
-/

namespace Jib.CommandLine

variable {p q : String → Bool} {args : List String}

/-- Whether an argument is one of the names of an option; an empty long name is none. -/
def isName (short long : String) (arg : String) : Bool :=
  arg == short || (long != "" && arg == long)

/-- The first name is taken out together with the argument behind it. -/
def valueBehind (p : String → Bool) (args : List String) : ValueSearch :=
  match args.dropWhile (!p ·) with
  | [] => .absent
  | [n] => .unfinished n
  | _ :: v :: after => .found v (args.takeWhile (!p ·) ++ after)

/-- From left to right, names are taken out together with the arguments behind them. -/
inductive ValuesTaken (p : String → Bool) : List String → AllValues → Prop
  | done : ValuesTaken p [] ⟨[], [], none⟩
  | keep {a as r} : p a = false → ValuesTaken p as r →
      ValuesTaken p (a :: as) { r with rest := a :: r.rest }
  | take {n v as r} : p n = true → ValuesTaken p as r →
      ValuesTaken p (n :: v :: as) { r with values := v :: r.values }
  | unfinished {n} : p n = true → ValuesTaken p [n] ⟨[], [n], some n⟩

theorem takeName_eq (p : String → Bool) (args : List String) :
    takeName p args = (args.find? p).map (·, args.eraseP p) := by
  induction args with
  | nil => rfl
  | cons a as ih => cases h : p a <;> cases hfind : as.find? p <;> simp [takeName, h, ih, hfind]

theorem flag_eq (name : String) (args : List String) :
    flag name args =
      ((args.find? (isNamed name "")).any (· != ""), args.eraseP (isNamed name "")) := by
  rw [flag, takeName_eq]
  cases hfind : args.find? (isNamed name "") with
  | some a => rfl
  | none => simp [List.eraseP_of_forall_not (List.find?_eq_none.mp hfind)]

theorem flag_of_not_mem (name : String) (hempty : "" ∉ args) :
    flag name args = (decide (name ∈ args), args.erase name) := by
  rw [flag_eq]
  induction args with
  | nil => rfl
  | cons a as ih =>
    obtain ⟨ha, has⟩ := List.ne_and_not_mem_of_not_mem_cons hempty
    by_cases hname : a = name
    · subst hname
      simp [isNamed, ha.symm]
    · have hnot : isNamed name "" a = false := by simp [isNamed, hname, ha.symm]
      have hsame := Prod.mk.inj (ih has)
      simp [hnot, hname, Ne.symm, hsame]

section

variable (hpq : ∀ a ∈ args, p a = q a)
include hpq

theorem takeValue_eq : takeValue p args = valueBehind q args := by
  fun_induction takeValue p args with
  | case5 a b as ha v rest hfound ih | case6 a b as ha hother ih =>
    have hq : q a = false := by simpa [hpq] using ha
    replace ih := ih fun c hc => hpq c (.tail _ hc)
    rw [valueBehind] at ih ⊢
    rw [List.dropWhile_cons, hq]
    generalize (b :: as).dropWhile (!q ·) = behind at ih
    rcases behind with _ | ⟨n, _ | ⟨v, after⟩⟩ <;> simp_all
  | _ => simp_all [valueBehind]

theorem valuesTaken_takeValues : ValuesTaken q args (takeValues p args) := by
  fun_induction takeValues p args with
  | case1 => exact .done
  | case2 a =>
    cases ha : p a with
    | true => exact .unfinished (hpq a (by simp) ▸ ha)
    | false => exact .keep (hpq a (by simp) ▸ ha) .done
  | case3 a b as ha r ih =>
    exact .take (hpq a (by simp) ▸ ha) (ih fun c hc => hpq c (.tail _ (.tail _ hc)))
  | case4 a b as ha r ih =>
    exact .keep (by simpa [hpq] using ha) (ih fun c hc => hpq c (.tail _ hc))

end

/-- What is found and what is left, for flags, values and lists of values: the names are those that
`isNamed` allows, which are the right ones unless there are empty arguments and no long name. -/
theorem taken_by_name (short long : String) (args : List String) :
    flag short args =
      ((args.find? (isNamed short "")).any (· != ""), args.eraseP (isNamed short "")) ∧
    takeValue (isNamed short long) args = valueBehind (isNamed short long) args ∧
    ValuesTaken (isNamed short long) args (takeValues (isNamed short long) args) ∧
    ("" ∉ args → flag short args = (decide (short ∈ args), args.erase short)) ∧
    (long ≠ "" ∨ "" ∉ args →
      takeValue (isNamed short long) args = valueBehind (isName short long) args ∧
      ValuesTaken (isName short long) args (takeValues (isNamed short long) args)) := by
  refine ⟨flag_eq short args, takeValue_eq fun _ _ => rfl, valuesTaken_takeValues fun _ _ => rfl,
    flag_of_not_mem short, fun hnames => ?_⟩
  have hsame : ∀ a ∈ args, isNamed short long a = isName short long a := by
    intro a ha
    by_cases hlong : long = ""
    · have hne : a ≠ "" := ne_of_mem_of_not_mem ha (hnames.resolve_left (absurd hlong))
      simp [isNamed, isName, hlong, hne]
    · simp [isNamed, isName, bne_iff_ne.mpr hlong]
  exact ⟨takeValue_eq hsame, valuesTaken_takeValues hsame⟩

/-- An empty argument hides the flag behind it. -/
theorem flag_behind_empty : flag "-v" ["", "-v"] = (false, ["-v"]) := by decide

end Jib.CommandLine
