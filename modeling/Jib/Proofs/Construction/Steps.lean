import Jib.Proofs.Construction.Edges
import Jib.Proofs.Construction.Statements

/-!
# Building the statements of a block

The operations emitted for the statements of a block, together with the way in which the block ends,
do what the body does from the start of the block up to the next label.
-/

namespace Jib

open Jib.BuildM Jib.Interpretation

/-- A computation of the builder on one block: it emits operations and says how the block ends. -/
structure BlockEmission (b : BlockId) (x : BuildM Unit) (s s' : BuildState) (new : List ValueId) :
    Prop where
  run : x s = .ok () s'
  frame : s' = { s with arena := s'.arena, vars := s'.vars, ops := s'.ops }
  ops : s'.ops.toList = s.ops.toList ++ new
  adds : s.arena.Adds s'.arena
  fresh : ∀ v ∈ new, s.arena.values.size ≤ v
  size : s'.arena.blocks.size = s.arena.blocks.size
  others : ∀ c, c ≠ b → s'.arena.block c = s.arena.block c

namespace BlockEmission

variable {α : Type} {b : BlockId} {s s' s'' : BuildState} {new new' : List ValueId}

theorem grows {x : BuildM Unit} (h : BlockEmission b x s s' new) : s.arena.Grows s'.arena :=
  h.adds.grows

theorem of_emission {x : BuildM α} {g : α → BuildM Unit} {r : α}
    (hx : Emission x s r s' new) (hg : BlockEmission b (g r) s' s'' new') :
    BlockEmission b (x >>= g) s s'' (new ++ new') where
  run := by rw [bind_ok hx.run, hg.run]
  frame := by
    refine hg.frame.trans ?_
    rw [hx.frame]
  ops := by rw [hg.ops, hx.ops, List.append_assoc]
  adds := hx.adds.trans hg.adds
  fresh v hv := by
    rcases List.mem_append.mp hv with hv | hv
    · exact hx.fresh v hv
    · exact hx.adds.size_le.trans (hg.fresh v hv)
  size := by rw [hg.size, hx.blocks]
  others c hc := by rw [hg.others c hc, Arena.block, Arena.block, hx.blocks]

theorem congr {x y : BuildM Unit} (h : BlockEmission b x s s' new) (heq : y s = x s) :
    BlockEmission b y s s' new :=
  { h with run := heq.trans h.run }

/-- Saying how the block ends. -/
theorem setNext (b : BlockId) (n : Next) (s : BuildState) :
    BlockEmission b (setNext b n) s { s with arena := s.arena.setNext b n } [] :=
  ⟨rfl, rfl, by simp, (Arena.Adds.refl s.arena).of_values_eq rfl, by simp, by simp [Arena.setNext],
    fun _ hc => Arena.block_modifyBlock_of_ne hc _⟩

/-- Saying how the block ends, with nothing behind it. -/
theorem last (src : BuildSource) (b : BlockId) (n : Next) (s : BuildState) :
    BlockEmission b (do BuildM.setNext b n; steps src b []) s
      { s with arena := s.arena.setNext b n } [] :=
  (setNext b n s).congr rfl

theorem next_setNext (n : Next) (hb : b < s.arena.blocks.size) :
    (s.arena.setNext b n).next b = n := by
  rw [Arena.next, Arena.setNext, Arena.block_modifyBlock_self hb]

end BlockEmission

variable {V E M : Type} {I : Interpretation V E M} {f : FunctionBody} {types : String → Ty}
variable {known : String → Option Const} {src : BuildSource} {st : Statement}

theorem FunctionBody.declared_of_leadsTo {i j : Nat} {x : String}
    (hstatement : f.statements[i]? = some st) (hleads : st.LeadsTo i j) (hx : f.Declared j x) :
    f.Declared i x ∨ x ∈ st.declared := by
  by_cases hst : x ∈ st.declared
  · exact .inr hst
  · refine .inl fun declared hreaches => ?_
    have hmem := hx _ (.step hreaches hstatement hleads)
    exact (List.mem_append.mp hmem).resolve_left hst

abbrev FunctionBody.step (f : FunctionBody) (I : Interpretation V E M)
    (known : String → Option Const) :
    Machine E M (Halt V) (Store V × Nat) := I.bodyStep known f.statements f.result

section Matches

variable (I f known src)

/-- A place of the body with a store and a memory, and another one that the body goes on at. -/
abbrev Going (V M : Type) := Store V × Nat → M → Store V × Nat → M → Prop

/-- The outcome of a block of the graph is that of the body from a place on; if the body goes on, it
does so at a label, and its variables have the values that the block leaves with. -/
def Matches (goes : Going V M) (a : Arena) (b : BlockId) (vars : VarTable) (targets : List Int)
    (σ : Store V) (i : Nat) (m : M)
    (outcome : EStateM.Result E M (Halt V ⊕ Valuation V × BlockId)) : Prop :=
  match outcome with
  | .ok (.inl r) m' => Halts (f.step I known) (σ, i) m (.ok r m')
  | .error e m' => Halts (f.step I known) (σ, i) m (.error e m')
  | .ok (.inr (ρ, t)) m' => ∃ σ' j ρ', goes (σ, i) m (σ', j) m' ∧ (j : Int) ∈ targets ∧
      src.blockIds.get? j = some t ∧ ρ = I.enter a b t ρ' ∧ Agrees I f (f.Declared j) a vars σ' ρ'

/-- The operations that are emitted for the steps of a block do what the body does from a place
on. -/
def RunsLike (goes : Going V M) (b : BlockId) (i : Nat) (block : List Step) (vars : VarTable)
    (s' : BuildState) (new : List ValueId) : Prop :=
  ∀ a, s'.arena.Grows a → a.next b = s'.arena.next b → ∀ σ ρ,
    Agrees I f (f.Declared i) a vars σ ρ → ∀ m,
      Matches I f known src goes a b s'.vars (StepBlocks.targets block) σ i m
        ((do I.leave a b (← I.evalOps a new ρ)) m)

def BuildsRun (types : String → Ty) (goes : Going V M) (b : BlockId) (i : Nat) (block : List Step)
    (s : BuildState) : Prop :=
  ∃ s' new, BlockEmission b (steps src b block) s s' new ∧
    (∀ j : Nat, (j : Int) ∈ StepBlocks.targets block →
      Ready f types (f.Declared j) s'.arena s'.vars) ∧
    RunsLike I f known src goes b i block s.vars s' new

end Matches

variable {b : BlockId} {i : Nat} {s : BuildState}

/-- What holds from one state of the body on holds from another one that leads to the same. -/
theorem Matches.map {goes goes' : Going V M} {a : Arena} {vars : VarTable} {targets : List Int}
    {σ σ' : Store V} {i' : Nat} {m m' : M}
    {outcome : EStateM.Result E M (Halt V ⊕ Valuation V × BlockId)}
    (h : Matches I f known src goes a b vars targets σ' i' m' outcome)
    (hhalts : ∀ result, Halts (f.step I known) (σ', i') m' result →
      Halts (f.step I known) (σ, i) m result)
    (hgoes : ∀ y m'', goes (σ', i') m' y m'' → goes' (σ, i) m y m'') :
    Matches I f known src goes' a b vars targets σ i m outcome := by
  cases outcome with
  | error e m'' => exact hhalts _ h
  | ok r m'' =>
    cases r with
    | inl r => exact hhalts _ h
    | inr next =>
      obtain ⟨σ'', j, ρ', hfollows, hrest⟩ := h
      exact ⟨σ'', j, ρ', hgoes _ _ hfollows, hrest⟩

theorem bodyStep_plain (hstatement : f.statements[i]? = some st) (hplain : st.isPlain = true)
    (σ : Store V) :
    f.step I known (σ, i) = (do return .inr (← I.exec known σ st, i + 1)) := by
  simp only [bodyStep, hstatement]
  cases st <;> first | rfl | cases hplain

theorem steps_plain (b : BlockId) (hplain : st.isPlain = true) (rest : List Step) :
    steps src b (.statement st :: rest) = (do statement src st; steps src b rest) := by
  cases st <;> first | rfl | cases hplain

theorem BuildsRun.cons (hwell : f.WellFormed types known) {rest : List Step}
    (hstatement : f.statements[i]? = some st) (hplain : st.isPlain = true)
    (hstandard : s.arena.Standard known src.constants)
    (hready : Ready f types (f.Declared i) s.arena s.vars)
    (hrest : ∀ s', s'.arena.Standard known src.constants →
      s'.arena.blocks.size = s.arena.blocks.size →
      Ready f types (f.Declared (i + 1)) s'.arena s'.vars →
      BuildsRun I f known src types (Follows (f.step I known)) b (i + 1) rest s') :
    BuildsRun I f known src types (Advances (f.step I known)) b i (.statement st :: rest) s := by
  have hmem := List.mem_of_getElem? hstatement
  have hlocals (n : String) (hn : n ∈ st.declared) : n ∈ f.locals := by
    exact List.mem_append_right _ (List.mem_flatMap.mpr ⟨st, hmem, hn⟩)
  have hnext (x : String) (hx : f.Declared (i + 1) x) : f.Declared i x ∨ x ∈ st.declared :=
    f.declared_of_leadsTo hstatement ((FunctionBody.leadsTo_of_isPlain hplain).mpr rfl) hx
  have hemits : EmitsStore I f types (f.Declared i) (fun x => f.Declared i x ∨ x ∈ st.declared)
      (statement src st) s (fun σ => I.exec known σ st) :=
    statement_emits hstandard hready hplain (hwell.typed st hmem) (hwell.declared i st hstatement)
      hlocals hwell.exception_not_local
  obtain ⟨s₁, new₁, hem₁, hready₁, hcarries₁⟩ := hemits.mono hnext
  obtain ⟨s₂, new₂, hem₂, hready₂, hmatches⟩ :=
    hrest s₁ (hstandard.grows hem₁.grows) (by rw [hem₁.blocks]) hready₁
  have htargets : StepBlocks.targets (.statement st :: rest) = StepBlocks.targets rest := by
    rw [StepBlocks.targets, List.filterMap_cons, FunctionBody.target?_of_isPlain hplain]
    rfl
  refine ⟨s₂, new₁ ++ new₂, ?_, by rwa [htargets], fun a ha hblock σ ρ hagrees m => ?_⟩
  · rw [steps_plain b hplain]
    exact .of_emission hem₁ hem₂
  · have hbody : f.step I known (σ, i) =
        (do return .inr (← I.exec known σ st, i + 1)) := bodyStep_plain hstatement hplain σ
    have hcarries := hcarries₁ a (hem₂.grows.trans ha) σ ρ hagrees
    rw [htargets, evalOps_append, bind_assoc]
    cases hrun : I.exec known σ st m with
    | error e m' =>
      rw [bind_error (hcarries.run_error hrun)]
      exact Halts.fail (by rw [hbody, bind_error hrun])
    | ok σ' m' =>
      obtain ⟨ρ', heval, -, hagrees'⟩ := hcarries.run_ok hrun
      rw [bind_ok heval]
      have hstep : f.step I known (σ, i) m = .ok (.inr (σ', i + 1)) m' := by
        rw [hbody, bind_ok hrun]
        rfl
      exact (hmatches a ha hblock σ' ρ' hagrees' m').map (fun _ => .next hstep)
        fun _ _ hrest => ⟨_, _, hstep, hrest⟩

theorem Emission.blockId {j : Int} {t : BlockId} (ht : src.blockIds.get? j = some t)
    (s : BuildState) : Emission (blockId src j) s t s [] := by
  rw [BuildM.blockId, ht]
  exact pure t s

/-- A jump to where the body is anyway. -/
theorem BuildsRun.goto {j : Nat} {t : BlockId} (ht : src.blockIds.get? j = some t)
    (hb : b < s.arena.blocks.size) (hready : Ready f types (f.Declared j) s.arena s.vars) :
    BuildsRun I f known src types (Follows (f.step I known)) b j [.goto j] s := by
  have hem : BlockEmission b (steps src b [.goto j]) s
      { s with arena := s.arena.setNext b (.goto t none) } [] :=
    .of_emission (Emission.blockId ht s) (BlockEmission.last src b (.goto t none) s)
  refine ⟨_, [], hem, fun k hk => ?_, fun a ha hblock σ ρ hagrees m => ?_⟩
  · have hk : (k : Int) = j := List.mem_singleton.mp hk
    obtain rfl : k = j := by omega
    exact hready.grows hem.grows
  · have hnext := hblock.trans (BlockEmission.next_setNext _ hb)
    have hleave : I.leave a b ρ m = .ok (.inr (I.enter a b t ρ, t)) m := by
      rw [leave, hnext]
      rfl
    change Matches I f known src _ a b _ _ σ j m (I.leave a b ρ m)
    rw [hleave]
    exact ⟨σ, j, ρ, .refl _ _, List.mem_singleton.mpr rfl, ht, rfl, hagrees⟩

/-- A block ends the body if the body ends there in the same way. -/
theorem BuildsRun.halts {s' : BuildState}
    (hem : BlockEmission b (steps src b [.statement st]) s s' [])
    (htarget : Step.target? (.statement st) = none)
    (hhalts : ∀ a, s'.arena.Grows a → a.next b = s'.arena.next b → ∀ σ ρ,
      Agrees I f (f.Declared i) a s.vars σ ρ → ∃ r, ∀ m,
      I.leave a b ρ m = .ok (.inl r) m ∧ f.step I known (σ, i) m = .ok (.inl r) m) :
    BuildsRun I f known src types (Advances (f.step I known)) b i [.statement st] s := by
  refine ⟨s', [], hem, by simp [StepBlocks.targets, htarget], fun a ha hblock σ ρ hagrees m => ?_⟩
  obtain ⟨r, hr⟩ := hhalts a ha hblock σ ρ hagrees
  change Matches I f known src _ a b _ _ σ i m (I.leave a b ρ m)
  rw [(hr m).1]
  exact Halts.stop (hr m).2

/-- The steps of a block that control does not run on from. -/
theorem BuildsRun.last (hwell : f.WellFormed types known) (hstatement : f.statements[i]? = some st)
    (hends : st.endsBlock = true)
    (hids : ∀ j, f.IsLabel j → ∃ t, src.blockIds.get? (j : Int) = some t)
    (htype : src.type = f.type)
    (hb : b < s.arena.blocks.size) (hready : Ready f types (f.Declared i) s.arena s.vars) :
    BuildsRun I f known src types (Advances (f.step I known)) b i [.statement st] s := by
  cases st with
  | goto t =>
    have ht := (hwell.target _ (List.mem_of_getElem? hstatement) t rfl).1
    obtain ⟨j, rfl⟩ : ∃ j : Nat, t = j := ⟨t.toNat, by omega⟩
    have hdeclared (x : String) (hx : f.Declared j x) : f.Declared i x :=
      (f.declared_of_leadsTo hstatement rfl hx).resolve_right (by simp [Statement.declared])
    obtain ⟨id, hid⟩ := hids j (FunctionBody.isLabel_of_jump hwell hstatement rfl rfl)
    have hgoto : BuildsRun I f known src types (Follows (f.step I known)) b j [.goto j] s :=
      .goto hid hb (hready.mono hdeclared)
    obtain ⟨s', new, hem, hready', hmatches⟩ := hgoto
    refine ⟨s', new, hem, hready', fun a ha hblock σ ρ hagrees m => ?_⟩
    have hstep : f.step I known (σ, i) m = .ok (.inr (σ, j)) m := by
      simp only [bodyStep, hstatement]
      rfl
    exact (hmatches a ha hblock σ ρ (hagrees.mono hdeclared) m).map (fun _ => .next hstep)
      fun _ _ hrest => ⟨_, _, hstep, hrest⟩
  | finish =>
    have hreturn : f.Declared i "return" :=
      hwell.declared i _ hstatement "return" (by simp [Statement.names])
        (by simp [FunctionBody.locals])
    obtain ⟨v, hget, -⟩ := hready.value "return" hreturn
    have hrun : steps src b [.statement .finish] s = setNext b (.ret (some v) none) s := by
      rw [BuildM.steps, bind_ok (get_run s), hget]
      rfl
    refine .halts ((BlockEmission.setNext b (.ret (some v) none) s).congr hrun) rfl
      fun a _ hblock σ ρ hagrees => ?_
    obtain ⟨v', y, hget', hstore, hholds⟩ := hagrees.value "return" hreturn
    cases hget.symm.trans hget'
    refine ⟨.returned y, fun m => ⟨?_, ?_⟩⟩
    · rw [leave, hblock.trans (BlockEmission.next_setNext _ hb)]
      simp only [hholds.1]
      rfl
    · simp only [bodyStep, hstatement, hstore]
      rfl
  | exit kind pos =>
    have hvalue := Arena.value_addValue_self s.arena (.const (.text kind))
    refine .halts (.of_emission (Emission.newValue (.const (.text kind)) s)
      (BlockEmission.last src b (.raise s.arena.values.size pos) _)) rfl
      fun a ha hblock σ ρ _ => ⟨.raised (I.constant (.text kind)), fun m => ⟨?_, ?_⟩⟩
    · rw [leave, hblock.trans (BlockEmission.next_setNext _ hb)]
      simp only [look_const (ha.const hvalue)]
      rfl
    · simp only [bodyStep, hstatement]
      rfl
  | arbitrary =>
    have hvalue := Arena.value_addValue_self s.arena (.const (.default f.result))
    have hrun : steps src b [.statement .arbitrary] = (do
        let k ← newConst (.default f.result)
        setNext b (.ret (some k) none)
        steps src b []) := by
      simp only [BuildM.steps, htype, FunctionBody.type]
    refine .halts ((BlockEmission.of_emission (Emission.newValue (.const (.default f.result)) s)
      (BlockEmission.last src b (.ret (some s.arena.values.size) none) _)).congr
        (congrFun hrun s)) rfl
      fun a ha hblock σ ρ _ => ⟨.returned (I.constant (.default f.result)), fun m => ⟨?_, ?_⟩⟩
    · rw [leave, hblock.trans (BlockEmission.next_setNext _ hb)]
      simp only [look_const (ha.const hvalue)]
      rfl
    · simp only [bodyStep, hstatement]
      rfl
  | _ => cases hends

/-- A conditional jump and the jump to the place behind it. -/
theorem BuildsRun.jump (hwell : f.WellFormed types known) {c : Condition} {t : Int}
    {pos : Option String} (hstatement : f.statements[i]? = some (.jump c t pos))
    (hids : ∀ j, f.IsLabel j → ∃ t, src.blockIds.get? (j : Int) = some t)
    (hb : b < s.arena.blocks.size) (hstandard : s.arena.Standard known src.constants)
    (hready : Ready f types (f.Declared i) s.arena s.vars) :
    BuildsRun I f known src types (Advances (f.step I known)) b i
      [.statement (.jump c t pos), .goto ((i + 1 : Nat) : Int)] s := by
  have hmem := List.mem_of_getElem? hstatement
  have ht := (hwell.target _ hmem t rfl).1
  obtain ⟨j, rfl⟩ : ∃ j : Nat, t = j := ⟨t.toNat, by omega⟩
  have hdeclared (k : Nat) (hk : k = j ∨ k = i + 1) (x : String) (hx : f.Declared k x) :
      f.Declared i x := by
    refine (f.declared_of_leadsTo hstatement ?_ hx).resolve_right (by simp [Statement.declared])
    rcases hk with rfl | rfl
    · exact .inl rfl
    · exact .inr rfl
  obtain ⟨yes, hyes⟩ := hids j (FunctionBody.isLabel_of_jump hwell hstatement rfl (.inl rfl))
  obtain ⟨no, hno⟩ := hids (i + 1) (FunctionBody.isLabel_of_jump hwell hstatement rfl (.inr rfl))
  have hcondition : ∃ t, EmitsValue I f (f.Declared i) (condition src pos c) s t
      (fun σ => I.evalCondition known σ c) :=
    condition_emits (hwell.typed _ hmem) (hwell.declared i _ hstatement) hstandard hready pos
  obtain ⟨-, v, s₁, new, hem₁, hvars, -, -, hcarries⟩ := hcondition
  have hem : BlockEmission b
      (steps src b [.statement (.jump c j pos), .goto ((i + 1 : Nat) : Int)]) s
      { s₁ with arena := s₁.arena.setNext b (.branch v yes no pos) } (new ++ []) :=
    .of_emission hem₁ (.of_emission (Emission.blockId hyes s₁)
      (.of_emission (Emission.blockId hno s₁) (BlockEmission.setNext b _ s₁)))
  rw [List.append_nil] at hem
  refine ⟨_, new, hem, fun k hk => ?_, fun a ha hblock σ ρ hagrees m => ?_⟩
  · have hk : (k : Int) = j ∨ (k : Int) = (i + 1 : Nat) := List.mem_pair.mp hk
    have hready' := (hready.grows hem.grows).mono (hdeclared k (by omega))
    rwa [← hvars] at hready'
  · have hnext := hblock.trans (BlockEmission.next_setNext _ (by rw [hem₁.blocks]; exact hb))
    have hbody : f.step I known (σ, i) = (do
        let y ← I.evalCondition known σ c
        return .inr (σ, if I.isTrue y then j else i + 1)) := by
      simp only [bodyStep, hstatement, Int.toNat_natCast]
    have hcarries' := hcarries a ((BlockEmission.setNext b _ s₁).grows.trans ha) σ ρ hagrees
    cases hrun : I.evalCondition known σ c m with
    | error e m' =>
      rw [bind_error (hcarries'.run_error hrun)]
      exact Halts.fail (by rw [hbody, bind_error hrun])
    | ok y m' =>
      obtain ⟨ρ', heval, hsame, hy⟩ := hcarries'.run_ok hrun
      have hagrees' := hagrees.of_same hready hsame
      rw [← hvars] at hagrees'
      have hstep :
          f.step I known (σ, i) m = .ok (.inr (σ, if I.isTrue y then j else i + 1)) m' := by
        rw [hbody, bind_ok hrun]
        rfl
      have hleave : I.leave a b ρ' m' =
          .ok (.inr (I.enter a b (if I.isTrue y then yes else no) ρ',
            if I.isTrue y then yes else no)) m' := by
        rw [leave, hnext]
        simp only [hy.1]
        rfl
      rw [bind_ok heval, hleave]
      cases htrue : I.isTrue y with
        rw [htrue] at hstep
      | true =>
        exact ⟨σ, j, ρ', ⟨_, _, hstep, .refl _ _⟩, List.mem_pair.mpr (.inl rfl), hyes, rfl,
          hagrees'.mono (hdeclared j (.inl rfl))⟩
      | false =>
        exact ⟨σ, i + 1, ρ', ⟨_, _, hstep, .refl _ _⟩, List.mem_pair.mpr (.inr rfl), hno, rfl,
          hagrees'.mono (hdeclared (i + 1) (.inr rfl))⟩

theorem FunctionBody.Run.builds (hwell : f.WellFormed types known) {block : List Step}
    (hrun : f.Run i block)
    (hids : ∀ j, f.IsLabel j → ∃ t, src.blockIds.get? (j : Int) = some t)
    (htype : src.type = f.type) (s : BuildState) (hb : b < s.arena.blocks.size)
    (hstandard : s.arena.Standard known src.constants)
    (hready : Ready f types (f.Declared i) s.arena s.vars) :
    BuildsRun I f known src types (Advances (f.step I known)) b i block s := by
  induction hrun generalizing s with
  | last hstatement hends => exact .last hwell hstatement hends hids htype hb hready
  | jump hstatement => exact .jump hwell hstatement hids hb hstandard hready
  | fall hstatement hplain hlabel =>
    refine .cons hwell hstatement hplain hstandard hready fun s' _ hsize hready' => ?_
    obtain ⟨t, ht⟩ := hids _ hlabel
    exact .goto ht (hsize ▸ hb) hready'
  | more hstatement hplain _ _ ih =>
    refine .cons hwell hstatement hplain hstandard hready fun s' hstandard' hsize hready' => ?_
    obtain ⟨s'', new, hem, hready'', hmatches⟩ := ih s' (hsize ▸ hb) hstandard' hready'
    exact ⟨s'', new, hem, hready'', fun a ha hblock σ ρ hagrees m =>
      (hmatches a ha hblock σ ρ hagrees m).map (fun _ => id) fun _ _ => Advances.follows⟩

end Jib
