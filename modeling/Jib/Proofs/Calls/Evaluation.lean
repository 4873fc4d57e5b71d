import Jib.Exec.Eval
import Jib.Proofs.Calls.Primitives

/-!
# Expressions leave objects alone

Evaluating an expression changes no object that there was, if what it asks for does not and if it
copies objects only into new ones.
-/

namespace Jib

open RunM

variable {w₀ : World} {s : Scope}

/-! ### Classes and fields -/

namespace Scope

theorem quiet_classAttribute (cls name : String) : Quiet w₀ (s.classAttribute cls name) :=
  quiet_ofOption _

theorem quiet_classOf? (d : Datum) : Quiet w₀ (classOf? d) := by
  unfold classOf?
  split
  · exact (quiet_object _).map
  · exact .pure trivial

theorem quiet_isInstance (d : Datum) (cls : String) : Quiet w₀ (s.isInstance d cls) :=
  (quiet_classOf? d).map

theorem quiet_field (d : Datum) (name : String) : Quiet w₀ (s.field d name) := by
  refine (quiet_object d).bind fun o => ?_
  dsimp only
  split
  · exact .pure trivial
  · exact quiet_classAttribute _ _

theorem quiet_pack (p : Packing) (d : Datum) : Quiet w₀ (pack p d) := by
  unfold pack
  split
  · exact .pure trivial
  · dsimp only
    split
    · exact (Primitive.quiet_packBits _).bind fun _ => .ite (.pure trivial) (.throw _)
    · exact (Primitive.quiet_packInteger _).bind fun _ => .ite (.pure trivial) (.throw _)
    · exact Quiet.bind (.throw _) fun _ => .ite (.pure trivial) (.throw _)

theorem quiet_unpack (p : Packing) (parts : List Datum) : Quiet w₀ (unpack p parts) := by
  unfold unpack
  split
  · exact .pure trivial
  · exact .operand fun _ => .operand fun _ => (Primitive.quiet_unpackBits _ _ _).map
  · exact .operand fun _ => (Primitive.quiet_unpackBits _ _ _).map
  · exact .operand fun _ => (Primitive.quiet_unpackInteger _ _).map
  · exact .throw _

theorem quiet_setFields {d : Datum} (hd : d.NewTo w₀) (parts : List (String × Datum)) :
    Quiet w₀ (setFields d parts) := by
  induction parts with
  | nil => exact .pure trivial
  | cons p parts ih => exact (quiet_setField hd _ _).bind fun _ => ih

theorem quiet_setSlots (parts : List (String × Datum)) : Quiet w₀ (setSlots parts) := by
  induction parts with
  | nil => exact .pure trivial
  | cons p parts ih => exact (quiet_setSlot _ _).bind fun _ => ih

theorem quiet_copyFields {target : Datum} (htarget : target.NewTo w₀) (source : Datum)
    (names : List String) : Quiet w₀ (s.copyFields target source names) := by
  induction names with
  | nil => exact .pure trivial
  | cons n names ih =>
    exact (quiet_field _ _).bind fun _ => (quiet_setField htarget _ _).bind fun _ => ih

theorem keeps_construct (name : String) (c : ClassInfo) (args : List Datum) :
    Keeps w₀ (s.construct name c args) (·.NewTo w₀) := by
  unfold construct
  split
  · refine Keeps.guard (Quiet.bind (.mapM ?_) fun _ => keeps_newObject _ _)
    exact fun _ _ => (quiet_pack _ _).map
  · exact keeps_newObject _ _
  · exact keeps_newObject _ _
  · exact (keeps_newObject _ _).bind fun o ho => (quiet_copyFields ho _ _).bind fun _ => .pure ho
  all_goals first | exact keeps_newObject _ _ | exact .throw _

theorem keeps_constructList (name : String) (c : ClassInfo) (args : List Datum) :
    Keeps w₀ (constructList name c args) (·.NewTo w₀) := by
  unfold constructList
  split
  · exact keeps_newObject _ _
  · exact .throw _

end Scope

/-! ### What can be asked for -/

/-- Requests that copy no object into one that is given. -/
def Request.CopiesNew : Request → Prop
  | .builtin n args => n = "copy_into" → args.length ≤ 1
  | _ => True

/-- Answers that leave objects alone, and copies that are new. -/
structure Answers.Quiet (w₀ : World) (ask : Answers) : Prop where
  request : ∀ r : Request, r.CopiesNew → RunM.Quiet w₀ (ask r)
  copy : ∀ d, Keeps w₀ (ask (.builtin "copy_into" [d])) (·.NewTo w₀)

/-- A service that leaves objects alone if what it asks for does. -/
def Service.IsQuiet (w₀ : World) (f : Service) : Prop :=
  ∀ ask : Answers, ask.Quiet w₀ → ∀ args, RunM.Quiet w₀ (f ask args)

structure Platform.IsQuiet (w₀ : World) (p : Platform) : Prop where
  primitive : ∀ n f, p.primitive? n = some f → f.IsQuiet w₀
  replacement : ∀ n f, p.replacement? n = some f → f.IsQuiet w₀

/-! ### Expressions -/

namespace Code.Expr

mutual

/-- Whether an expression copies objects into new ones only. -/
def copiesNew : Expr → Bool
  | .read _ e _ | .promote e | .convert _ e | .isOther _ e | .boxBits _ e | .boxInt e | .readInt e
  | .negate e | .parens e => e.copiesNew
  | .apply c args | .call c args => c.copiesNew && allCopyNew args
  | .construct _ args => allCopyNew args
  | .method e n args => e.copiesNew && allCopyNew args && (n != "copy_into" || args.isEmpty)
  | .compare e rest => e.copiesNew && chainCopiesNew rest
  | .arith _ a b | .index a b | .replicate a b | .each a b => a.copiesNew && b.copiesNew
  | _ => true

def allCopyNew : List Expr → Bool
  | [] => true
  | e :: es => e.copiesNew && allCopyNew es

def chainCopiesNew : List (Relation × Expr) → Bool
  | [] => true
  | (_, e) :: rest => e.copiesNew && chainCopiesNew rest

end

/-- Whether an expression makes a new object, or is one of the variables that hold new ones. -/
def makesNew (own : List String) : Expr → Bool
  | .local n => own.contains n
  | .method _ "copy_into" [] => true
  | .apply (.global _) _ => true
  | _ => false

end Code.Expr

namespace Exec

theorem quiet_truth (d : Datum) : Quiet w₀ (truth d) := by
  unfold truth
  split
  · exact (quiet_items _).map
  · exact .pure trivial

theorem quiet_arithmetic (op : String) (a b : Datum) : Quiet w₀ (arithmetic op a b) := by
  refine .ite (.pure trivial) ?_
  split
  · dsimp only
    split <;> first | exact .pure trivial | exact .throw _
  · exact .throw _

theorem quiet_elementObject (d : Datum) (cases : List (Code.Expr × String)) :
    Quiet w₀ (elementObject s d cases) := by
  induction cases with
  | nil => exact .throw _
  | cons c cases ih =>
    unfold elementObject
    split
    · exact (Scope.quiet_classAttribute _ _).bind fun _ =>
        .ite (Scope.quiet_classAttribute _ _) ih
    · exact .throw _

theorem quiet_className (e : Code.Expr) : Quiet w₀ (className s e) := by
  unfold className
  split
  · exact .ite (.pure trivial) (.throw _)
  · exact .throw _

theorem quiet_replicated (d count : Datum) : Quiet w₀ (replicated d count) := by
  unfold replicated
  split
  · exact quiet_newList _
  · exact quiet_newList _
  · exact .throw _

theorem quiet_indexed (l i : Datum) : Quiet w₀ (indexed l i) :=
  (quiet_items l).bind fun _ => (quiet_ofOption _).bind fun _ => (quiet_ofExcept _).map

variable {ask : Answers}

mutual

theorem quiet_eval (hs : s.platform.IsQuiet w₀) (hask : ask.Quiet w₀) (e : Code.Expr)
    (he : e.copiesNew = true) (env : Locals) : Quiet w₀ (eval s ask env e) := by
  cases e with
    simp only [eval, Code.Expr.copiesNew, Bool.and_eq_true] at he ⊢
  | «local» n => exact quiet_ofOption _
  | global n =>
    split
    · exact .pure trivial
    · exact .throw _
  | support n | machine | malformed m | mismatch ns =>
    exact .throw _
  | bool b | int n | unit | none | text m | unsetText | word v ds | unsetMachineInt | longInt n =>
    exact .pure trivial
  | unsetInt | unsetBits | zeroBits w | longBits w n =>
    exact (quiet_ofExcept _).map
  | element c n =>
    exact Scope.quiet_classAttribute _ _
  | badCast m =>
    exact (quiet_print _).bind fun _ => .throw _
  | read p o f =>
    split
    · exact (Quiet.mapM fun _ _ => quiet_slot _).bind fun _ => Scope.quiet_unpack _ _
    · exact quiet_slot _
    · exact (quiet_eval hs hask o he env).bind fun _ =>
        (Quiet.mapM fun _ _ => Scope.quiet_field _ _).bind fun _ => Scope.quiet_unpack _ _
  | promote e | parens e =>
    exact quiet_eval hs hask e he env
  | boxBits _ e | boxInt e =>
    exact (quiet_eval hs hask e he env).bind fun _ => quiet_ofExcept _
  | readInt e =>
    exact (quiet_eval hs hask e he env).bind fun _ => Primitive.quiet_call _ _
  | negate e =>
    exact (quiet_eval hs hask e he env).bind fun _ => (quiet_truth _).map
  | singleton c =>
    exact (quiet_className c).bind fun _ => Scope.quiet_classAttribute _ _
  | isOther c e =>
    exact (quiet_eval hs hask e he env).bind fun _ => (quiet_className c).bind fun _ =>
      (Scope.quiet_isInstance _ _).map
  | convert c e =>
    exact (quiet_className c).bind fun _ => .guard <|
      (quiet_eval hs hask e he env).bind fun _ => hask.request _ trivial
  | construct c args =>
    refine (quiet_className c).bind fun _ => (quiet_evalList hs hask args he env).bind fun _ => ?_
    split
    · exact quiet_elementObject _ _
    · exact .throw _
  | apply c args =>
    unfold eval
    split
    · split
      · exact (quiet_evalList hs hask args he.2 env).bind fun _ =>
          (Scope.keeps_construct _ _ _).quiet
      · exact .throw _
    · exact (quiet_eval hs hask c he.1 env).bind fun _ =>
        (quiet_evalList hs hask args he.2 env).bind fun _ => .throw _
  | call c args =>
    unfold eval
    split
    · exact (keeps_ofOption (hs.primitive _)).bind fun _ hf =>
        (quiet_evalList hs hask args he.2 env).bind fun _ => hf ask hask _
    · split
      · exact (quiet_evalList hs hask args he.2 env).bind fun _ => hask.request _ trivial
      · exact (quiet_evalList hs hask args he.2 env).bind fun _ => hask.request _ trivial
      · exact (quiet_evalList hs hask args he.2 env).bind fun _ =>
          (Scope.keeps_constructList _ _ _).quiet
      · exact .throw _
    · exact (quiet_eval hs hask c he.1 env).bind fun _ =>
        (quiet_evalList hs hask args he.2 env).bind fun _ => .throw _
  | method e n args =>
    simp only [Bool.or_eq_true, bne_iff_ne, ne_eq] at he
    obtain ⟨⟨he, hargs⟩, hcopy⟩ := he
    refine (quiet_eval hs hask e he env).bind fun d => ?_
    by_cases hn : n = "copy_into"
    · obtain rfl : args = [] := List.isEmpty_iff.mp (hcopy.resolve_left (not_not.mpr hn))
      simp only [evalList, pure_bind]
      split
      · exact hask.request _ fun _ => Nat.le_refl 1
      · exact Primitive.quiet_callMethod _ _
    · refine (quiet_evalList hs hask args hargs env).bind fun ds => ?_
      split
      · exact hask.request _ fun h => absurd h hn
      · exact Primitive.quiet_callMethod _ _
  | compare e rest =>
    exact (quiet_eval hs hask e he.1 env).bind fun d => quiet_evalChain hs hask d rest he.2 env
  | arith op a b =>
    exact (quiet_eval hs hask a he.1 env).bind fun _ => (quiet_eval hs hask b he.2 env).bind
      fun _ => quiet_arithmetic _ _ _
  | index a b =>
    exact (quiet_eval hs hask a he.1 env).bind fun _ => (quiet_eval hs hask b he.2 env).bind
      fun _ => quiet_indexed _ _
  | replicate a b =>
    exact (quiet_eval hs hask a he.1 env).bind fun _ => (quiet_eval hs hask b he.2 env).bind
      fun _ => quiet_replicated _ _
  | each a b =>
    exact (quiet_eval hs hask b he.2 env).bind fun _ => (quiet_items _).bind fun _ =>
      (Quiet.arrayMapM fun x => quiet_eval hs hask a he.1 _).bind fun _ => quiet_newList _

theorem quiet_evalList (hs : s.platform.IsQuiet w₀) (hask : ask.Quiet w₀)
    (es : List Code.Expr) (hes : Code.Expr.allCopyNew es = true) (env : Locals) :
    Quiet w₀ (evalList s ask env es) := by
  cases es with
  | nil =>
    simp only [evalList]
    exact .pure trivial
  | cons e es =>
    simp only [Code.Expr.allCopyNew, Bool.and_eq_true] at hes
    simp only [evalList]
    exact (quiet_eval hs hask e hes.1 env).bind fun _ =>
      (quiet_evalList hs hask es hes.2 env).map

theorem quiet_evalChain (hs : s.platform.IsQuiet w₀) (hask : ask.Quiet w₀) (d : Datum)
    (rest : List (Code.Relation × Code.Expr)) (hrest : Code.Expr.chainCopiesNew rest = true)
    (env : Locals) : Quiet w₀ (evalChain s ask env d rest) := by
  cases rest with
  | nil =>
    simp only [evalChain]
    exact .pure trivial
  | cons p rest =>
    obtain ⟨r, e⟩ := p
    simp only [Code.Expr.chainCopiesNew, Bool.and_eq_true] at hrest
    simp only [evalChain]
    exact (quiet_eval hs hask e hrest.1 env).bind fun x =>
      .ite (quiet_evalChain hs hask x rest hrest.2 env) (.pure trivial)

end

/-- Variables that hold no object of a world. -/
def Owns (w₀ : World) (own : List String) (env : Locals) : Prop :=
  ∀ n ∈ own, ∀ d, env[n]? = some d → d.NewTo w₀

theorem keeps_eval {own : List String} {env : Locals} (hs : s.platform.IsQuiet w₀)
    (hask : ask.Quiet w₀) (henv : Owns w₀ own env) {e : Code.Expr} (he : e.copiesNew = true)
    (hnew : e.makesNew own = true) : Keeps w₀ (eval s ask env e) (·.NewTo w₀) := by
  unfold Code.Expr.makesNew at hnew
  split at hnew
  · rename_i n
    exact keeps_ofOption (henv n (List.contains_iff_mem.mp hnew))
  · simp only [Code.Expr.copiesNew, Bool.and_eq_true] at he
    simp only [eval, evalList, pure_bind]
    refine (quiet_eval hs hask _ he.1.1 env).bind fun d => ?_
    split
    · exact hask.copy _
    · rw [Primitive.callMethod_copy_into]
      exact .throw _
  · simp only [Code.Expr.copiesNew, Bool.and_eq_true] at he
    simp only [eval]
    split
    · exact (quiet_evalList hs hask _ he.2 env).bind fun _ => Scope.keeps_construct _ _ _
    · exact .throw _
  · cases hnew

end Exec

end Jib
