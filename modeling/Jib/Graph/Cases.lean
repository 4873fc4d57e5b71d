import Jib.Graph.Cleanup

/-!
# Decided cases

Along a chain of tests on an enumeration or a union the possible elements get fewer.  A test that
has only one outcome left becomes a constant.
-/

namespace Jib.Graph

/-- For every block, what is known about the elements that a value can have. -/
abbrev CaseTable := Std.HashMap BlockId (Std.HashMap ValueId (List String))

def sameNames (xs ys : List String) : Bool :=
  xs.all (fun x => ys.contains x) && ys.all (fun y => xs.contains y)

def enumElements (a : Arena) (v : ValueId) : Result (List String) :=
  match a.value v with
  | .const (.enum e _) => .ok [e]
  | x =>
    match x.type with
    | .enum _ es => .ok es
    | _ => .error .internal

def unionVariants (a : Arena) (v : ValueId) : Result (List String) :=
  match a.typeOf v with
  | .union _ ns _ => .ok ns.eraseDups
  | _ => .error .internal

def knownCases (init : Arena → ValueId → Result (List String)) (a : Arena) (t : CaseTable)
    (b : BlockId) (v : ValueId) : Result (List String) :=
  (t.getD b ∅)[v]?.elim (init a v) .ok

def learn (entry : EntryMap) (t : CaseTable) (b : BlockId) (v : ValueId) (es : List String) :
    CaseTable :=
  if entry.single b then t.insert b ((t.getD b ∅).insert v es) else t

/-- The operands of a test on an enumeration, the constant second. -/
def enumTest? (a : Arena) (cond : ValueId) : GraphM (Option (ValueId × ValueId)) :=
  equalityTest? (·.isEnum) (· matches .const (.enum ..)) a cond

/-- Tests on an enumeration that only one element can reach are decided. -/
def decideEnumCases (g : Graph) (bn : Builtins) : GraphM Bool := do
  if g.hasLoop then return false
  let mut changed := false
  let mut table : CaseTable := ∅
  let entry := g.entryMap (← get)
  for b in ← GraphM.ofExcept g.topoOrder do
    let a ← get
    if let .branch cond t f pos := a.next b then
      if let some (x, y) ← enumTest? a cond then
        let xs ← GraphM.ofExcept (fun a => knownCases enumElements a table b x)
        let ys ← GraphM.ofExcept (fun a => knownCases enumElements a table b y)
        GraphM.check (ys.length == 1)
        if sameNames xs ys then
          changed := true
          modify (fun a => a.setNext b (.branch Arena.trueId t f pos))
        else
          table := learn entry table t x ys
          table := learn entry table f x (xs.filter (fun e => !ys.contains e))
  if changed then
    let _ ← g.decideBranches
    let _ ← g.removeDead bn
    return true
  return false

def variantCheck? (a : Arena) (b : BlockId) :
    Option (Operation × BlockId × BlockId × Option String) := do
  let .branch cond t f pos := a.next b | none
  let o ← a.op? cond
  if o.kind == .unionVariantCheck then some (o, t, f, pos) else none

/-- Checks for a union's variant that cannot fail are decided. -/
def decideUnionChecks (g : Graph) (bn : Builtins) : GraphM Bool := do
  if g.hasLoop then return false
  let mut changed := false
  let mut table : CaseTable := ∅
  let entry := g.entryMap (← get)
  for b in ← GraphM.ofExcept g.topoOrder do
    let a ← get
    match variantCheck? a b with
    | none =>
      let here := table.getD b ∅
      for t in a.targets b do
        if entry.single t then
          table := table.insert t (here.fold (fun m k v => m.insert k v) (table.getD t ∅))
    | some (o, t, f, pos) =>
      let x ← oneArg o
      let xs ← GraphM.ofExcept (fun a => knownCases unionVariants a table b x)
      if sameNames xs [o.name] then
        changed := true
        modify (fun a => a.setNext b (.branch Arena.falseId t f pos))
      else
        table := learn entry table t x (xs.filter (fun e => e != o.name))
        table := learn entry table f x [o.name]
  if changed then
    let _ ← g.decideBranches
    let _ ← g.removeDead bn
    return true
  return false

end Jib.Graph
