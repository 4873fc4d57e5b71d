import Jib.Graph.Edges
import Jib.Graph.Printer
import Jib.Graph.Specialize

/-!
# Analyses by name

What the analyses find out about a graph, told with the names of blocks and values.  Tables are
sorted by name.
-/

namespace Jib

inductive Analysis where
  | topoOrder
  | bestTopoOrder
  | breadthFirst
  | edges
  | backEdges
  | entries
  | immediateDominators
  | dominators
  | dominatees
  | anticipatedCasts
  | useCounts
  | shouldInline
  | isSpecializable
  | check
  | ranges
  | globalValue
  deriving BEq, DecidableEq, Repr, Inhabited

/-- What an analysis tells. -/
inductive Finding where
  | nothing
  | truth (b : Bool)
  | count (n : Nat)
  | text (s : String)
  | interval (r : Interval)
  | list (xs : List Finding)
  deriving Repr, Inhabited

namespace Finding

def texts (xs : List String) : Finding := .list (xs.map .text)

def sortedTexts (xs : List String) : Finding := texts (xs.mergeSort (fun x y => x ≤ y))

/-- A table sorted by its keys. -/
def table (xs : List (String × Finding)) : Finding :=
  .list ((xs.mergeSort (fun x y => x.1 ≤ y.1)).map (fun (k, v) => .list [.text k, v]))

end Finding

namespace Graph

/-- Blocks are called by their place in the order of traversal. -/
def orderedName (g : Graph) (a : Arena) : BlockId → String :=
  let numbers : Std.HashMap BlockId Nat := Std.HashMap.ofList (g.blocks a).toList.zipIdx
  fun b => numbers[b]?.elim "?" fun i => s!"block{i}"

end Graph

namespace Analysis

/-- The name of the last operation of the start block. -/
def lastName (g : Graph) (a : Arena) : Result String := do
  let some v := (a.ops g.start).back? | return ""
  let some o := a.op? v | throw .internal
  return o.name

def run (k : Analysis) (s : Session) (id : GraphId) : Result Finding := do
  let g := s.graph id
  let a := s.arena
  let block := g.orderedName a
  let names := g.valueNames a
  let value (v : ValueId) : String := names.getD v "?"
  let listed (bs : Array BlockId) : Finding := .texts (bs.toList.map block)
  let edgeList (es : Array (BlockId × BlockId)) : Finding :=
    .list (es.toList.map (fun (x, y) => .texts [block x, block y]))
  let blockSet (bs : Array BlockId) : Finding := .sortedTexts (bs.toList.map block)
  let nonConstant {β : Type} (xs : List (ValueId × β)) : List (ValueId × β) :=
    xs.filter (fun x => !a.isConst x.1)
  match k with
  | topoOrder => return listed (← g.topoOrder a)
  | bestTopoOrder => return listed (← g.bestTopoOrder a)
  | breadthFirst => return listed (g.breadthFirst a)
  | edges => return edgeList (g.edges a)
  | backEdges => return edgeList (← g.backEdges a)
  | entries =>
    let m := g.entryMap a
    return .table (m.order.toList.map (fun b => (block b, listed (m.get b))))
  | immediateDominators =>
    return .table
      ((← g.immediateDominators a).toList.map (fun (b, d) => (block b, .text (block d))))
  | dominators =>
    return .table ((← g.dominators a).2.toList.map (fun (b, ds) => (block b, blockSet ds)))
  | dominatees =>
    .table <$> (g.blocks a).toList.mapM
      (fun b => do return (block b, blockSet (← g.dominatees a b)))
  | anticipatedCasts =>
    return .table ((← g.anticipatedCasts a).toList.map (fun (b, cs) =>
      let casts := (cs.toList.map (fun (v, t) => (value v, t.text))).mergeSort
        (fun x y => x.1 < y.1 || (x.1 == y.1 && x.2 ≤ y.2))
      (block b, .list (casts.map (fun (n, t) => .texts [n, t])))))
  | useCounts =>
    return .table ((nonConstant (g.countUses a).toList).map (fun (v, n) => (value v, .count n)))
  | shouldInline => return .truth (g.shouldInline a s.shouldInline)
  | isSpecializable => return .truth (g.isUsefullySpecializable a)
  | check =>
    g.check a
    return .truth true
  | ranges =>
    return .table ((← g.analyzeRanges s.builtin a).toList.map (fun (b, m) =>
      (block b, .table ((nonConstant m.toList).map (fun (v, r) => (value v, .interval r))))))
  | globalValue =>
    return ((← g.globalValue? a (← lastName g a)).bind a.const?).elim .nothing fun c =>
      .text c.render

end Analysis

end Jib
