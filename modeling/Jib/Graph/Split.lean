import Jib.Graph.EndBlocks
import Jib.Graph.Simplify

/-!
# Cutting large graphs

A graph is cut in two at a block that all remaining ways go through: the blocks of the second part
become a graph of their own, which the first part calls with the values that it needs.  The cut is
looked for from the exits: the edges to blocks without successor are taken in breadth-first order,
and the blocks that lead to each are added to the first part until one way out of it is left.
-/

namespace Jib

namespace Graph

/-- A set of blocks that remembers the order in which they came. -/
abbrev BlockSet := Table BlockId Unit

/-- Adds blocks with all that lead to them. -/
def addAncestors (preds : EntryMap) : Nat → List BlockId → BlockSet → BlockSet
  | 0, _, s => s
  | _ + 1, [], s => s
  | fuel + 1, b :: todo, s =>
    if s.contains b then addAncestors preds fuel todo s
    else addAncestors preds fuel ((preds.get b).toList.reverse ++ todo) (s.insert b ())

/-- Adds the exits that are reached directly, and collects the other ways out. -/
def waysOut (a : Arena) (first : BlockSet) : BlockSet × BlockSet :=
  first.toList.foldl
    (fun acc (b, _) => (a.targets b).foldl
      (fun (first, out) t =>
        if first.contains t then (first, out)
        else if isEndBlock a t then (first.insert t (), out)
        else (first, Table.insert out t ()))
      acc)
    (first, ({} : BlockSet))

/-- The blocks of the first part, in order of discovery, with the block to cut at. -/
def cutLoop (a : Arena) (preds : EntryMap) (total : Nat) (minSize : Nat) :
    List (BlockId × BlockId) → BlockSet → Result (BlockSet × BlockId)
  | [], _ => .error .cannotSplit
  | (source, target) :: edges, first =>
    if !isEndBlock a target then cutLoop a preds total minSize edges first
    else
      let fuel := a.blocks.size + total * a.blocks.size + 2
      let (first, out) := waysOut a (addAncestors preds fuel [source] (first.insert target ()))
      let next := if first.size == total then .error .cannotSplit
        else cutLoop a preds total minSize edges first
      match out.toList with
      | [(cut, _)] => if first.size > minSize then .ok (first, cut) else next
      | _ => next

/-- The blocks behind the cut, with the exits that they reach. -/
def secondPart (a : Arena) (blocks : Array BlockId) (first : BlockSet) : BlockSet :=
  let second := (blocks.filter (fun b => !first.contains b)).toList
  let set := Table.ofList (second.map (fun b => (b, ())))
  second.foldl
    (fun s b => (a.targets b).foldl
      (fun s t => if isEndBlock a t then Table.insert s t () else s) s)
    set

/-- The values made in the first part that the second one uses, in order of use. -/
def sharedValues (g : Graph) (a : Arena) (first second : BlockSet) : List ValueId :=
  let made : ValueSet := first.toList.foldl
    (fun s (b, _) => (a.ops b).foldl (fun s v => s.insert v) s)
    (g.args.foldl (fun s v => s.insert v) ∅)
  let used := second.toList.flatMap (fun (b, _) =>
    (a.ops b).toList.flatMap (fun v => (a.value v).args.toList) ++ (a.next b).args)
  (Table.ofList ((used.filter (fun v => made.contains v)).map (fun v => (v, ())))).keys.toList

def cut (g : Graph) (name : String) (resultType : Result Ty) (minSize : Nat) :
    GraphM (Graph × Ty × Nat) := do
  let a ← get
  let preds := g.entryMap a
  let blocks := g.blocks a
  let (first, transfer) ← GraphM.ofExcept fun a =>
    cutLoop a preds blocks.size minSize (g.breadthFirstEdges a).toList {}
  let small := (blocks.filter (fun b => !first.contains b)).size < minSize / 3
  if small then throw .cannotSplit
  let second := secondPart a blocks first
  if blocks.any (fun b => first.contains b && second.contains b) then throw .unfinished
  let shared := sharedValues g a first second
  let resultType ← GraphM.ofExcept (fun _ => resultType)
  let call ← GraphM.newValue (.op ⟨.call, name, shared.toArray, resultType, none, none⟩)
  let nb ← GraphM.newBlock #[call] (.ret (some call) none)
  for p in preds.get transfer do
    modify (fun a => a.setNext p ((a.next p).retarget transfer nb))
  let mut args := #[]
  let mut s : Substitution := ∅
  for (v, i) in shared.zipIdx do
    let arg ← GraphM.newValue (.argument s!"a{i}" (a.typeOf v))
    args := args.push arg
    s := s.insert v arg
  let t := Ty.function (.tuple (shared.map a.typeOf)) resultType
  let g2 : Graph := ⟨name, args, transfer, false⟩
  let _ ← g2.replaceValues s
  GraphM.ofExcept g.check
  return (g2, t, second.size)

end Graph

namespace Session

/-- Cuts off parts of a graph until the rest is small; each new graph is shown to `visit`. -/
def cutLoop {ρ : Type} (base : String) (resultType : Result Ty) (minSize : Nat)
    (visit : GraphId → Ty → SessionM ρ) : Nat → Nat → GraphId → Array ρ → SessionM (Array ρ)
  | 0, _, _, _ => throw .internal
  | fuel + 1, i, id, acc => do
    let some (g2, t, left) ← attemptCut id s!"{base}{i}" | return acc
    let id2 ← addGraph g2
    let acc := acc.push (← visit id2 t)
    if left < minSize then return acc
    cutLoop base resultType minSize visit fuel (i + 1) id2 acc
where
  attemptCut (id : GraphId) (name : String) : SessionM (Option (Graph × Ty × Nat)) := do
    try
      return some (← onGraph id (fun g _ => g.cut name resultType minSize))
    catch
      | .cannotSplit => return none
      | e => throw e

def cutCompletely {ρ : Type} (id : GraphId) (functionType : Ty) (minSize : Nat)
    (visit : GraphId → Ty → SessionM ρ) : SessionM (Array ρ) := do
  let copies ← onGraph id (fun g _ => g.copyEndBlocks)
  if copies != 0 then
    let _ ← simplify id
  let resultType := match functionType with
    | .function _ r => .ok r
    | _ => .error .internal
  let s ← get
  cutLoop ((s.graph id).name ++ "_next_") resultType minSize visit
    (s.arena.blocks.size + 1) 0 id #[]

end Session

end Jib
