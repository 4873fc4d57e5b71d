import Jib.Platform.Common
import Jib.Proofs.Calls.Evaluation

/-!
# Calls that leave objects alone

A function that first copies the objects that it is given, and then writes fields only of objects
that it has made itself, changes none that its caller can see.  If every function of a program does
so, a call leaves every object as it was, however it ends.
-/

namespace Jib

open RunM

variable {w₀ : World} {s : Scope} {ask : Answers}

/-! ### Lines -/

namespace Code

/-- Whether a place is one of the machine or a field of an object in one of some variables. -/
def Expr.isOwnPlace (own : List String) : Expr → Bool
  | .machine | .read .plain .machine "l" => true
  | .local n => own.contains n
  | _ => false

mutual

/-- Whether a line writes fields only of what some variables hold, and gives these new objects. -/
def Tree.writesOwn (own : List String) : Tree → Bool
  | .node line body =>
    match line with
    | .assign n e _ => e.copiesNew && (!own.contains n || e.makesNew own)
    | .evaluate e _ | .ret e _ | .fail e _ => e.copiesNew
    | .store _ o _ e => e.copiesNew && o.isOwnPlace own
    | .branch c _ => c.copiesNew && Tree.allWriteOwn own body
    | .inBlock _ | .forever => Tree.allWriteOwn own body
    | _ => true

def Tree.allWriteOwn (own : List String) : List Tree → Bool
  | [] => true
  | t :: ts => t.writesOwn own && allWriteOwn own ts

end

/-- The line that puts a copy of an object in its place. -/
def Tree.copyLine (n : String) : Tree :=
  .node (.assign n (.method (.local n) "copy_into" []) none) []

end Code

/-- A function that copies some of its parameters, and writes fields only of what some variables
hold; a parameter among these is copied. -/
structure Function.OwnsWrites (f : Function) (copied own : List String) (rest : List Code.Tree) :
    Prop where
  body : f.body = copied.map Code.Tree.copyLine ++ rest
  params : ∀ n ∈ own, n ∈ f.params → n ∈ copied
  writes : Code.Tree.allWriteOwn own rest = true

namespace Exec

variable {own : List String} {env : Locals} {cls n : String} {d : Datum} {w w' : World}

theorem owns_nil (env : Locals) : Owns w₀ [] env := fun _ h => absurd h List.not_mem_nil

theorem Owns.insert (henv : Owns w₀ own env) (hd : n ∈ own → d.NewTo w₀) :
    Owns w₀ own (env.insert n d) := by
  intro n' hn' d' hd'
  rw [Std.HashMap.getElem?_insert] at hd'
  split at hd'
  · rename_i hbeq
    cases hd'
    exact hd (eq_of_beq hbeq ▸ hn')
  · exact henv n' hn' d' hd'

theorem keeps_iterate {P : Locals → Prop} {body : Locals → RunM (Locals × Outcome)}
    (hbody : ∀ env, P env → Keeps w₀ (body env) fun r => P r.1) (n : Nat) (env : Locals)
    (henv : P env) : Keeps w₀ (iterate body n env) fun r => P r.1 := by
  induction n generalizing env with
  | zero => exact .throw _
  | succ n ih =>
    refine (hbody env henv).bind fun r hr => ?_
    obtain ⟨env', o⟩ := r
    cases o with
    | done d => exact .pure hr
    | next => exact ih env' hr
    | again => exact ih env' hr

variable (hs : s.platform.IsQuiet w₀) (hask : ask.Quiet w₀)
variable {f : Function} {args : List Datum} {rest : List Code.Tree}
include hs hask

theorem quiet_storeValue (henv : Owns w₀ own env) {o : Code.Expr} (ho : o.isOwnPlace own = true)
    (p : Packing) (f : String) (d : Datum) : Quiet w₀ (storeValue s ask env p o f d) := by
  refine (Scope.quiet_pack p d).bind fun parts => ?_
  unfold Code.Expr.isOwnPlace at ho
  split at ho
  · exact Scope.quiet_setSlots _
  · exact quiet_setSlot _ _
  · rename_i n
    refine (keeps_eval hs hask henv (e := .local n) rfl ho).bind fun o ho => ?_
    exact Scope.quiet_setFields ho _
  · cases ho

omit hs hask

mutual

/-- After a line the variables still hold new objects. -/
theorem keeps_exec (hs : s.platform.IsQuiet w₀) (hask : ask.Quiet w₀) (t : Code.Tree)
    (ht : t.writesOwn own = true) (env : Locals) (henv : Owns w₀ own env) :
    Keeps w₀ (exec s ask t env) fun r => Owns w₀ own r.1 := by
  obtain ⟨line, body⟩ := t
  cases line with
    simp only [exec, Code.Tree.writesOwn, Bool.and_eq_true] at ht ⊢
  | assign n e pos =>
    simp only [Bool.or_eq_true, Bool.not_eq_true'] at ht
    by_cases hn : n ∈ own
    · have hnew : e.makesNew own = true := ht.2.resolve_left (by simpa using hn)
      exact (keeps_eval hs hask henv ht.1 hnew).bind fun d hd => .pure (henv.insert fun _ => hd)
    · exact (quiet_eval hs hask e ht.1 env).bind fun d =>
        .pure (henv.insert fun hmem => absurd hmem hn)
  | evaluate e pos | ret e pos =>
    exact (quiet_eval hs hask e ht env).bind fun _ => .pure henv
  | store p o f e =>
    exact (quiet_eval hs hask e ht.1 env).bind fun d =>
      (quiet_storeValue hs hask henv ht.2 p f d).bind fun _ => .pure henv
  | setBlock n pos =>
    exact .pure (henv.insert fun _ => nofun)
  | branch c pos =>
    exact (quiet_eval hs hask c ht.1 env).bind fun _ => (quiet_truth _).bind fun _ =>
      .ite (keeps_execAll hs hask body ht.2 env henv) (.pure henv)
  | inBlock n =>
    exact (quiet_ofOption _).bind fun _ =>
      .ite (keeps_execAll hs hask body ht env henv) (.pure henv)
  | forever =>
    exact keeps_iterate (fun env henv => keeps_execAll hs hask body ht env henv) _ env henv
  | dispatch m ps =>
    exact (Quiet.mapM fun _ _ => quiet_ofOption _).bind fun _ =>
      (hask.request (.attached m _) trivial).bind fun _ => .pure henv
  | fail e pos =>
    exact (quiet_eval hs hask e ht env).bind fun _ => .throw _
  | _ => exact .pure henv

theorem keeps_execAll (hs : s.platform.IsQuiet w₀) (hask : ask.Quiet w₀) (ts : List Code.Tree)
    (hts : Code.Tree.allWriteOwn own ts = true) (env : Locals) (henv : Owns w₀ own env) :
    Keeps w₀ (execAll s ask ts env) fun r => Owns w₀ own r.1 := by
  cases ts with
  | nil =>
    simp only [execAll]
    exact .pure henv
  | cons t ts =>
    simp only [Code.Tree.allWriteOwn, Bool.and_eq_true] at hts
    simp only [execAll]
    refine (keeps_exec hs hask t hts.1 env henv).bind fun r hr => ?_
    obtain ⟨env', o⟩ := r
    cases o with
    | next => exact keeps_execAll hs hask ts hts.2 env' hr
    | again => exact .pure hr
    | done d => exact .pure hr

end

/-! ### Functions -/

theorem runFunction_done (hlen : f.params.length = args.length)
    (hbody : execAll s ask f.body (Std.HashMap.ofList (f.params.zip args)) w
      = .ok (env, .done d) w') :
    runFunction s ask f args w = .ok d w' := by
  have htest : ¬ (f.params.length != args.length) = true := by simp [hlen]
  rw [runFunction, if_neg htest]
  dsimp only
  rw [bind_run, hbody]
  rfl

theorem execAll_cons_next {t : Code.Tree} {ts : List Code.Tree} {env' : Locals}
    (ht : exec s ask t env w = .ok (env', .next) w') :
    execAll s ask (t :: ts) env w = execAll s ask ts env' w' := by
  rw [execAll, bind_run, ht]

theorem exec_copyLine {r : Nat} (hn : env[n]? = some (.object r))
    (hcopy : ask (.builtin "copy_into" [.object r]) w = .ok d w') :
    exec s ask (Code.Tree.copyLine n) env w = .ok (env.insert n d, .next) w' := by
  have hcall : eval s ask env (.method (.local n) "copy_into" []) w = .ok d w' := by
    simp only [eval, hn]
    exact hcopy
  simp only [Code.Tree.copyLine, exec]
  rw [bind_run, hcall]
  rfl

section

variable (hs : s.platform.IsQuiet w₀) (hask : ask.Quiet w₀)
include hs hask

theorem keeps_copyLine (n : String) (env : Locals) :
    Keeps w₀ (exec s ask (Code.Tree.copyLine n) env) fun r =>
      ∃ d, d.NewTo w₀ ∧ r = (env.insert n d, .next) := by
  exact (keeps_eval hs hask (owns_nil env) rfl rfl).bind fun d hd => .pure ⟨d, hd, rfl⟩

/-- The variables that are still to be copied may hold anything. -/
theorem quiet_copied (copied : List String) (hrest : Code.Tree.allWriteOwn own rest = true)
    (env : Locals) (henv : ∀ n ∈ own, n ∉ copied → ∀ d, env[n]? = some d → d.NewTo w₀) :
    Quiet w₀ (execAll s ask (copied.map Code.Tree.copyLine ++ rest) env) := by
  induction copied generalizing env with
  | nil =>
    have howns : Owns w₀ own env := fun n hn => henv n hn List.not_mem_nil
    exact (keeps_execAll hs hask rest hrest env howns).quiet
  | cons m ms ih =>
    refine (keeps_copyLine hs hask m env).bind fun r hr => ?_
    obtain ⟨d, hd, rfl⟩ := hr
    refine ih _ fun n hn hms d' hd' => ?_
    rw [Std.HashMap.getElem?_insert] at hd'
    split at hd'
    · cases hd'
      exact hd
    · rename_i hne
      refine henv n hn (fun hmem => ?_) d' hd'
      rcases List.mem_cons.mp hmem with rfl | hmem
      · exact hne (beq_self_eq_true _)
      · exact hms hmem

theorem quiet_runFunction {copied : List String} (hf : f.OwnsWrites copied own rest)
    (args : List Datum) : Quiet w₀ (runFunction s ask f args) := by
  unfold runFunction
  refine Keeps.guard ?_
  rw [hf.body]
  refine (quiet_copied hs hask copied hf.writes _ fun n hn hcopied d hd => ?_).bind fun r => ?_
  · have hparam := (List.of_mem_zip (mem_of_getElem?_ofList hd)).1
    exact absurd (hf.params n hn hparam) hcopied
  · obtain ⟨env, o⟩ := r
    cases o <;> exact .pure trivial

end

end Exec

/-! ### The lines of a graph -/

namespace Compile

/-- A line written into a function comes after those that it has. -/
theorem emit_run {line : Code.Line} {c : Compilation} (hpart : c.part = .functions)
    (hlevel : c.level ≠ 0) :
    emit line c = .ok () { c with functions := c.functions.push ⟨c.level, line⟩ } := by
  have hpush : push ⟨c.level, line⟩ c =
      .ok () { c with functions := c.functions.push ⟨c.level, line⟩ } := by
    unfold push
    change EStateM.Result.ok () _ = _
    simp only [hpart]
  rw [← hpush, emit, bind_ok (show (get : CompileM Compilation) c = .ok c c from rfl)]
  simp only [beq_eq_false_iff_ne.mpr hlevel, Bool.false_and, Bool.false_eq_true, if_false]

theorem forM_emit_run {f : String → Code.Line} {ns : List String} {e : Emitter} {c : Compilation}
    (hpart : c.part = .functions) (hlevel : c.level ≠ 0) :
    (ns.forM fun n => emit (f n) : EmitM Unit) e c =
      .ok ((), e) { c with
        functions := c.functions ++ ns.map fun n => Code.Placed.mk c.level (f n) } := by
  induction ns generalizing c with
  | nil =>
    rw [List.map_nil, Array.appendList_nil]
    rfl
  | cons n ns ih =>
    have hfirst : (emit (f n) : EmitM Unit) e c =
        .ok ((), e) { c with functions := c.functions.push ⟨c.level, f n⟩ } := by
      exact bind_ok (emit_run hpart hlevel)
    change ((emit (f n) : EmitM Unit) e >>= fun r => (ns.forM _ : EmitM Unit) r.2) c = _
    rw [bind_ok hfirst]
    exact ih hpart hlevel

end Compile

def Code.copyLines (level : Nat) (ns : List String) : List Placed :=
  ns.map fun n => ⟨level, .assign n (.method (.local n) "copy_into" []) none⟩

/-- The code of a graph of several blocks starts with copies of the structures that it is given:
they are written before the blocks, and stand in front of what these are read as. -/
theorem Compile.bodyCode_copies {g : Graph} {a : Arena} {c : Compilation}
    (hmany : (g.blocks a).size ≠ 1) (hpart : c.part = .functions) (hlevel : c.level ≠ 0) :
    (∀ e, bodyCode g a e c = numberedBlocks a (g.blocks a) e
      { c with functions := c.functions ++ Code.copyLines c.level (structArguments g a) }) ∧
    ∀ later ts rest, later.foldr Code.Tree.addLine (some []) = some ((c.level, ts) :: rest) →
      (Code.copyLines c.level (structArguments g a) ++ later).foldr Code.Tree.addLine (some []) =
        some ((c.level, (structArguments g a).map Code.Tree.copyLine ++ ts) :: rest) := by
  refine ⟨fun e => ?_, fun later ts rest hlater => ?_⟩
  · have hbody : bodyCode g a = (do
        (structArguments g a).forM fun n =>
        emit (.assign n (.method (.local n) "copy_into" []) none)
        numberedBlocks a (g.blocks a)) := if_neg (by simpa using hmany)
    rw [hbody]
    exact bind_ok (forM_emit_run hpart hlevel)
  · rw [List.foldr_append, hlater, Code.copyLines]
    induction structArguments g a with
    | nil => rfl
    | cons n ns ih =>
      simp [ih, Code.Tree.addLine, Code.Tree.addTree, Code.Tree.copyLine, Code.Line.isSilent,
        Code.Line.bindsOnce, Code.Line.opensBody]

/-! ### Programs -/

namespace Code

def Payload.copiesNew : Payload → Bool
  | .fields _ empty => empty.copiesNew && empty.makesNew []
  | _ => true

/-- Whether what a class evaluates copies objects into new ones only. -/
def ClassDef.copiesNew : ClassDef → Bool
  | .struct _ _ ds | .tuple _ _ ds => Expr.allCopyNew ds
  | .variant _ _ p _ ds => p.copiesNew && Expr.allCopyNew ds
  | _ => true

end Code

/-- A program all of whose functions copy what they are given before they change it. -/
structure Scope.CallsByValue (s : Scope) : Prop where
  platform : ∀ w₀, s.platform.IsQuiet w₀
  function : ∀ (n : String) f, s.globals[n]? = some (.function f) →
    ∃ copied own rest, f.OwnsWrites copied own rest
  method : ∀ n c, s.class? n = some c → ∀ (m : String) f, c.methods[m]? = some f →
    ∃ copied own rest, f.OwnsWrites copied own rest
  shape : ∀ n c, s.class? n = some c → c.shape.copiesNew = true

theorem Platform.isQuiet_primitives {own : List (String × Service)}
    (hown : ∀ n f, (n, f) ∈ own → f.IsQuiet w₀) {f : Service}
    (hf : Platform.primitives own n = some f) : f.IsQuiet w₀ := by
  unfold primitives at hf
  split at hf
  · rename_i g hg
    cases hf
    exact hown n f (mem_of_getElem?_ofList hg)
  · obtain ⟨e, he, rfl⟩ := Option.map_eq_some_iff.mp hf
    exact fun _ _ args => Primitive.isQuiet_find? he args

namespace Exec

variable (hs : s.CallsByValue) (hask : ask.Quiet w₀)
include hs hask

theorem quiet_runOwn (name : String) (args : List Datum) : Quiet w₀ (runOwn s ask name args) := by
  unfold runOwn
  split
  · rename_i f hf
    obtain ⟨copied, own, rest, howns⟩ := hs.function name f hf
    exact quiet_runFunction (hs.platform w₀) hask howns args
  · exact .pure trivial
  · exact .throw _

theorem quiet_noDifference (env : Locals) (ds : List Code.Expr)
    (hds : Code.Expr.allCopyNew ds = true) : Quiet w₀ (noDifference s ask env ds) := by
  induction ds with
  | nil => exact .pure trivial
  | cons e ds ih =>
    simp only [Code.Expr.allCopyNew, Bool.and_eq_true] at hds
    exact (quiet_eval (hs.platform w₀) hask e hds.1 env).bind fun _ =>
      (quiet_truth _).bind fun _ => .ite (.pure trivial) (ih hds.2)

omit hs hask in
theorem exists_class_of_inherited? {α : Type} {f : ClassInfo → Option α} {x : α}
    (h : s.inherited? cls f = some x) : ∃ n c, s.class? n = some c ∧ f c = some x := by
  obtain ⟨c, -, hlineage⟩ := Option.bind_eq_some_iff.mp h
  obtain ⟨n, -, hn⟩ := List.exists_of_findSome?_eq_some hlineage
  exact ⟨n, Option.bind_eq_some_iff.mp hn⟩

/-- The tests of a comparison. -/
def Comparison.differences : Comparison → List Code.Expr
  | .never => []
  | .checked _ ds | .variant ds => ds

omit hask in
theorem allCopyNew_differences {comparison : Comparison}
    (h : firstShape? s cls comparisonOf? = some comparison) :
    Code.Expr.allCopyNew comparison.differences = true := by
  obtain ⟨n, c, hc, hshape⟩ := exists_class_of_inherited? h
  have hnew := hs.shape n c hc
  unfold comparisonOf? at hshape
  split at hshape <;> cases hshape <;> rename_i heq <;> rw [heq] at hnew
  · exact hnew
  · exact hnew
  · rfl
  · exact (Bool.and_eq_true_iff.mp hnew).2

theorem quiet_equalObjects (cls : String) (self other : Datum) :
    Quiet w₀ (equalObjects s ask cls self other) := by
  unfold equalObjects
  split
  · exact .pure trivial
  · rename_i h
    exact (Scope.quiet_isInstance _ _).bind fun _ => .guard <|
      (quiet_noDifference hs hask _ _ (allCopyNew_differences hs h)).map
  · rename_i h
    exact (Scope.quiet_classOf? _).bind fun _ => .ite (.pure trivial) <|
      (quiet_noDifference hs hask _ _ (allCopyNew_differences hs h)).map
  · exact .throw _

omit hs hask in
/-- A copy is a new object. -/
theorem keeps_copyObject (cls : String) (self : Datum) :
    Keeps w₀ (copyObject s cls self none) (·.NewTo w₀) := by
  unfold copyObject
  split
  · exact (keeps_newObject _ _).bind fun o ho =>
      (Scope.quiet_copyFields ho _ _).bind fun _ => .pure ho
  · exact .throw _

theorem quiet_objectMethod {name : String} (hcopy : name = "copy_into" → args.length ≤ 1) :
    Quiet w₀ (objectMethod s ask name args) := by
  unfold objectMethod
  split
  · exact .throw _
  · refine (quiet_object _).bind fun o => ?_
    dsimp only
    split
    · exact quiet_equalObjects hs hask _ _ _
    · exact (keeps_copyObject _ _).quiet
    · exact (keeps_copyObject _ _).quiet
    · exact absurd (hcopy rfl) (by simp)
    · exact .throw _

omit hs hask in
variable (ask) in
theorem keeps_copy (d : Datum) :
    Keeps w₀ (objectMethod s ask "copy_into" [d]) (·.NewTo w₀) := by
  refine Quiet.bind (quiet_object _) fun o => ?_
  exact keeps_copyObject _ _

omit hask in
/-- What a variant makes to be filled is a new object. -/
theorem makesNew_empty {fs : List (String × Packing)} {empty : Code.Expr}
    (h : firstShape? s cls payload? = some (n, .fields fs empty)) :
    empty.copiesNew = true ∧ empty.makesNew [] = true := by
  obtain ⟨m, c, hc, hshape⟩ := exists_class_of_inherited? h
  have hnew := hs.shape m c hc
  unfold payload? at hshape
  split at hshape
  · rename_i heq
    cases hshape
    rw [heq] at hnew
    exact Bool.and_eq_true_iff.mp (Bool.and_eq_true_iff.mp hnew).1
  · cases hshape

theorem quiet_convertObject (cls : String) (d : Datum) : Quiet w₀ (convertObject s ask cls d) := by
  refine (keeps_ofOption fun _ h => h).bind fun ⟨n, p⟩ h => ?_
  refine (Scope.quiet_isInstance _ _).bind fun _ => .guard ?_
  split
  · exact .pure trivial
  · obtain ⟨hcopies, hmakes⟩ := makesNew_empty hs h
    exact (keeps_eval (hs.platform w₀) hask (owns_nil _) hcopies hmakes).bind fun o ho =>
      (Scope.quiet_copyFields ho _ _).map
  · exact Scope.quiet_field _ _

omit hask in
theorem keeps_method (cls name : String) : Keeps w₀ (s.method cls name) fun f =>
    ∃ copied own rest, f.OwnsWrites copied own rest := by
  refine keeps_ofOption fun f hf => ?_
  obtain ⟨n, c, hc, hmethod⟩ := exists_class_of_inherited? hf
  exact hs.method n c hc name f hmethod

/-- One level of calls. -/
theorem quiet_respond : (respond s ask).Quiet w₀ where
  request r hr := by
    cases r with
    | function n args =>
      simp only [respond]
      split
      · rename_i f hf
        exact (hs.platform w₀).replacement n f hf ask hask args
      · exact quiet_runOwn hs hask n args
    | own n args => exact quiet_runOwn hs hask n args
    | attached n args =>
      refine (quiet_ofOption _).bind fun _ => (quiet_object _).bind fun o => ?_
      refine (keeps_method hs o.1 n).bind fun f hf => ?_
      obtain ⟨copied, own, rest, howns⟩ := hf
      exact quiet_runFunction (hs.platform w₀) hask howns _
    | builtin n args => exact quiet_objectMethod hs hask hr
    | convert c d => exact quiet_convertObject hs hask c d
  copy d := keeps_copy ask d

end Exec

/-- Calls to any depth leave objects alone. -/
theorem Scope.CallsByValue.quiet_answer (hs : s.CallsByValue) (depth : Nat) :
    (s.answer depth).Quiet w₀ := by
  induction depth with
  | zero => exact ⟨fun _ _ => .throw _, fun _ => .throw _⟩
  | succ depth ih => exact Exec.quiet_respond hs ih

/-- A call leaves every object that there was as it was, whether it has a result or fails. -/
theorem Scope.callFunction_keeps_objects (hs : s.CallsByValue) (name : String) (args : List Datum)
    {w : World} {r : Nat} {c : String} {fs : Array (String × Datum)}
    (hr : w.heap[r]? = some (.object c fs)) :
    (∀ y w', s.callFunction name args w = .ok y w' → w'.heap[r]? = some (.object c fs)) ∧
      ∀ e w', s.callFunction name args w = .error e w' → w'.heap[r]? = some (.object c fs) := by
  have hquiet := (hs.quiet_answer Scope.depth).request (.function name args) trivial w (.refl w)
  unfold callFunction
  refine ⟨fun y w' hrun => ?_, fun e w' hrun => ?_⟩
  · rw [hrun] at hquiet
    exact hquiet.1.object r c fs hr
  · rw [hrun] at hquiet
    exact hquiet.object r c fs hr

/-! ### Copies of fields -/

section

variable {w w' w'' : World} {p q : Nat} {n : String} {y : Datum} {names : List String}

/-- The fields of an object after one of them was set. -/
def withField (fs : Array (String × Datum)) (n : String) (y : Datum) : Array (String × Datum) :=
  match fs.findIdx? (·.1 == n) with
  | some i => fs.setIfInBounds i (n, y)
  | none => fs.push (n, y)

def lookField (fs : Array (String × Datum)) (n : String) : Option Datum :=
  (fs.find? (·.1 == n)).map (·.2)

theorem lookField_withField (fs : Array (String × Datum)) (n k : String) (y : Datum) :
    lookField (withField fs n y) k = if k = n then some y else lookField fs k := by
  obtain ⟨l⟩ := fs
  unfold withField lookField
  induction l with
  | nil => by_cases h : k = n <;> simp [h, Ne.symm]
  | cons f l ih =>
    simp only [List.findIdx?_toArray] at ih
    by_cases hf : f.1 = n
    · grind
    · cases hi : l.findIdx? (·.1 == n) <;> simp only [hi] at ih <;> grind

namespace World

/-- A field of an object, as it stands in its cell. -/
def fieldOf (w : World) (r : Nat) (n : String) : Option Datum :=
  match w.heap[r]? with
  | some (.object _ fs) => lookField fs n
  | _ => none

def IsObject (w : World) (r : Nat) : Prop := ∃ c fs, w.heap[r]? = some (.object c fs)

/-- Some fields of one object are copied into another one, and nothing else happens to objects. -/
structure Copies (w w' : World) (p q : Nat) (names : List String) : Prop where
  isObject : w'.IsObject q
  field : ∀ n, w'.fieldOf q n = if n ∈ names then w.fieldOf p n else w.fieldOf q n
  frame : ∀ r, r ≠ q → w'.heap[r]? = w.heap[r]?

theorem fieldOf_congr (h : w'.heap[p]? = w.heap[p]?) : w'.fieldOf p = w.fieldOf p := by
  funext n
  rw [fieldOf, h, fieldOf]

/-- What is copied stays as it was, also if it is copied into itself. -/
theorem Copies.source (h : w.Copies w' p q names) : w'.fieldOf p = w.fieldOf p := by
  by_cases hpq : p = q
  · funext n
    rw [hpq, h.field, hpq, ite_self]
  · exact fieldOf_congr (h.frame p hpq)

theorem Copies.cons (h : w.Copies w' p q [n]) (h' : w'.Copies w'' p q names) :
    w.Copies w'' p q (n :: names) where
  isObject := h'.isObject
  field k := by
    rw [h'.field, h.field, h.source]
    grind
  frame r hr := (h'.frame r hr).trans (h.frame r hr)

end World

theorem field_run (h : w.fieldOf p n = some y) : s.field (.object p) n w = .ok y w := by
  unfold World.fieldOf at h
  split at h
  · rename_i c fs hp
    obtain ⟨f, hf, rfl⟩ := Option.map_eq_some_iff.mp h
    rw [Scope.field, bind_ok (object_run hp)]
    simp only [hf]
    rfl
  · cases h

theorem copyField_run (hq : w.IsObject q) (hy : w.fieldOf p n = some y) :
    ∃ w', setField (.object q) n y w = .ok () w' ∧ w.Copies w' p q [n] := by
  obtain ⟨c, qs, hq⟩ := hq
  refine ⟨_, rfl, ⟨c, withField qs n y, ?_⟩, fun k => ?_, fun r hr => ?_⟩
  · simp only [Array.getElem?_modify, hq]
    rfl
  · simp only [World.fieldOf, Array.getElem?_modify, hq]
    refine (lookField_withField qs n k y).trans ?_
    grind [World.fieldOf]
  · simp [Array.getElem?_modify, hr.symm]

theorem copyFields_run (hq : w.IsObject q) (hset : ∀ n ∈ names, (w.fieldOf p n).isSome) :
    ∃ w', s.copyFields (.object q) (.object p) names w = .ok () w' ∧ w.Copies w' p q names := by
  induction names generalizing w with
  | nil => exact ⟨w, rfl, hq, by simp, fun _ _ => rfl⟩
  | cons n names ih =>
    obtain ⟨y, hy⟩ := Option.isSome_iff_exists.mp (hset n List.mem_cons_self)
    obtain ⟨w₁, hrun₁, hcopies₁⟩ := copyField_run hq hy
    obtain ⟨w₂, hrun₂, hcopies₂⟩ := ih hcopies₁.isObject fun k hk => by
      rw [hcopies₁.source]
      exact hset k (List.mem_cons_of_mem _ hk)
    refine ⟨w₂, ?_, hcopies₁.cons hcopies₂⟩
    rw [Scope.copyFields, bind_ok (field_run hy), bind_ok hrun₁, hrun₂]

end

/-! ### A function that changes what it is given -/

namespace Marking

/-- A structure with one field. -/
def boxClass : ClassInfo where
  shape := .struct "zbox" [("zx", .plain)] []
  lineage := ["zbox"]

/-- Sets the field of the parameter. -/
def lines : List Code.Tree :=
  [.node (.store .plain (.local "zp") "zx" (.int 7)) [], .node (.ret .unit none) []]

def program (body : List Code.Tree) : Scope where
  platform := { primitive? := Platform.primitives [] }
  globals := ((∅ : Std.HashMap String Global).insert "zbox" (.cls boxClass)).insert "zmark"
    (.function ⟨["zp"], body⟩)

def threeBox : Cell := .object "zbox" #[("zx", .int 3)]

def world (heap : Array Cell) : World where
  heap := heap

theorem program_class? (body : List Code.Tree) (n : String) :
    (program body).class? n = if n = "zbox" then some boxClass else none := by
  unfold Scope.class?
  by_cases hmark : n = "zmark"
  · simp [program, hmark]
  · by_cases hbox : n = "zbox"
    · simp [program, hbox, Std.HashMap.getElem_insert]
    · simp [program, Ne.symm hmark, Ne.symm, hbox]

theorem callFunction_program {body : List Code.Tree}
    (hbody : Exec.execAll (program body) ((program body).answer 989) body
      (Std.HashMap.ofList [("zp", .object 0)]) w = .ok (env, .done .unit) w') :
    (program body).callFunction "zmark" [.object 0] w = .ok .unit w' := by
  have hmark : (program body).globals["zmark"]? = some (.function ⟨["zp"], body⟩) := by
    simp [program]
  change Exec.runOwn (program body) ((program body).answer 989) "zmark" [.object 0] w = _
  rw [Exec.runOwn, hmark]
  exact Exec.runFunction_done rfl hbody

variable (s ask) in
theorem execAll_lines {r : Nat} (henv : env["zp"]? = some (.object r)) (w : World) :
    ∃ w', Exec.execAll s ask lines env w = .ok (env, .done .unit) w' ∧
      RunM.setField (.object r) "zx" (.int 7) w = .ok () w' := by
  refine ⟨_, ?_, rfl⟩
  simp only [lines, Exec.execAll, Exec.exec, Exec.eval, Exec.storeValue, Scope.pack, henv]
  rfl

theorem firstShape?_program (body : List Code.Tree) :
    Exec.firstShape? (program body) "zbox" Exec.structFields? = some [("zx", .plain)] := by
  simp [Exec.firstShape?, Scope.inherited?, program_class?, boxClass, Exec.structFields?]

/-- A copy of the object is put behind it. -/
theorem exists_copyObject (body : List Code.Tree) : ∃ w',
    Exec.copyObject (program body) "zbox" (.object 0) none (world #[threeBox]) =
    .ok (.object 1) w' := by
  have hnew : newObject "zbox" #[] (world #[threeBox]) =
      .ok (.object 1) (world #[threeBox, .object "zbox" #[]]) := rfl
  obtain ⟨w', hcopy, -⟩ : ∃ w', (program body).copyFields (.object 1) (.object 0) ["zx"]
      (world #[threeBox, .object "zbox" #[]]) = .ok () w' ∧ _ :=
    copyFields_run ⟨_, _, rfl⟩ (by simp; rfl)
  refine ⟨w', ?_⟩
  rw [Exec.copyObject, firstShape?_program]
  exact (bind_ok hnew).trans (bind_ok hcopy)

theorem exists_callFunction_copying : ∃ w',
    (program (Code.Tree.copyLine "zp" :: lines)).callFunction "zmark" [.object 0]
      (world #[threeBox]) = .ok .unit w' := by
  set s := program (Code.Tree.copyLine "zp" :: lines)
  obtain ⟨w₁, hcopied⟩ := exists_copyObject (Code.Tree.copyLine "zp" :: lines)
  have hcopy : s.answer 989 (.builtin "copy_into" [.object 0]) (world #[threeBox]) = _ := hcopied
  have hline : Exec.exec s (s.answer 989) (.copyLine "zp")
      (Std.HashMap.ofList [("zp", .object 0)]) (world #[threeBox]) = _ :=
    Exec.exec_copyLine (by simp) hcopy
  have henv : ((Std.HashMap.ofList [("zp", .object 0)] : Locals).insert "zp" (.object 1))["zp"]?
      = some (.object 1) := by simp
  obtain ⟨w', hlines, -⟩ := execAll_lines s (s.answer 989) henv w₁
  exact ⟨w', callFunction_program ((Exec.execAll_cons_next hline).trans hlines)⟩

theorem callsByValue_copying : (program (Code.Tree.copyLine "zp" :: lines)).CallsByValue where
  platform w₀ :=
    { primitive := fun n f hf => Platform.isQuiet_primitives (by simp) hf
      replacement := nofun }
  function n f hf := by
    refine ⟨["zp"], ["zp"], lines, ?_⟩
    simp only [program, Std.HashMap.getElem?_insert] at hf
    split at hf
    · cases hf
      exact ⟨rfl, by simp, by decide⟩
    · split at hf
      · cases hf
      · simp at hf
  method n c hc m f hf := by
    rw [program_class?] at hc
    split at hc
    · cases hc
      simp [boxClass] at hf
    · cases hc
  shape n c hc := by
    rw [program_class?] at hc
    split at hc
    · cases hc
      rfl
    · cases hc

end Marking

/-- A function that sets a field of a copy of its argument. -/
theorem marking_keeps_object :
    (Marking.program (Code.Tree.copyLine "zp" :: Marking.lines)).CallsByValue ∧ ∃ w',
      (Marking.program (Code.Tree.copyLine "zp" :: Marking.lines)).callFunction "zmark" [.object 0]
        (Marking.world #[Marking.threeBox]) = .ok .unit w' ∧
      w'.heap[0]? = some (.object "zbox" #[("zx", .int 3)]) := by
  obtain ⟨w', hrun⟩ := Marking.exists_callFunction_copying
  have hkeeps := Scope.callFunction_keeps_objects Marking.callsByValue_copying "zmark" [.object 0]
    (w := Marking.world #[Marking.threeBox]) (r := 0) rfl
  exact ⟨Marking.callsByValue_copying, w', hrun, hkeeps.1 .unit w' hrun⟩

/-- The same function without the copy. -/
theorem marking_changes_object : ∃ w',
    (Marking.program Marking.lines).callFunction "zmark" [.object 0]
      (Marking.world #[Marking.threeBox]) = .ok .unit w' ∧
    w'.heap[0]? = some (.object "zbox" #[("zx", .int 7)]) := by
  have henv : (Std.HashMap.ofList [("zp", .object 0)] : Locals)["zp"]? = some (.object 0) := by
    simp
  obtain ⟨w', hlines, hfield⟩ := Marking.execAll_lines (Marking.program Marking.lines)
    ((Marking.program Marking.lines).answer 989) henv (Marking.world #[Marking.threeBox])
  cases hfield
  exact ⟨_, Marking.callFunction_program hlines, by simp [Marking.world, Marking.threeBox]⟩

end Jib
