import Jib.Bits.Read
import Jib.Digraph
import Jib.Memory.Basic
import Jib.Rational

/-!
# Workloads

Fixed programs over the library that add up what its operations return.  A workload has a size, the
number of its rounds, and its total depends on nothing else; a round that fails ends it.
-/

namespace Jib

inductive Workload where
  | wideVectors
  | rationals
  | memories
  | digraph
  deriving BEq, DecidableEq, Repr

namespace Workload

def name : Workload → String
  | wideVectors => "wide_bitvector"
  | rationals => "real_arithmetic"
  | memories => "memory_models"
  | digraph => "graph_algorithms"

def all : List Workload := [wideVectors, rationals, memories, digraph]

def ofName? (s : String) : Option Workload := all.find? (fun w => w.name == s)

def sumRounds (rounds : Nat) (f : Nat → Result Int) : Result Int :=
  (List.range rounds).foldlM (fun acc i => return acc + (← f i)) 0

/-- Reads a bit behind the end of a vector of 65 bits, which fails. -/
def wideRound (i : Nat) : Result Int := do
  let v ← Bits.ofWord 65 (Word.ofInt i)
  return if ← v.readBit 70 then 1 else 0

def fractionSize (r : Rational) : Int := r.num + r.den

/-- The square roots of the first four numbers, and then one fraction a round; the first is zero,
which has no fraction of machine integers. -/
def rationalTotal (rounds : Nat) : Result Int := do
  let roots ← [1, 2, 3, 4].mapM (fun n => Rational.sqrt (Rational.ofInt n))
  let rest ← sumRounds rounds (fun i => return fractionSize (← Rational.ofWords i 1))
  return (roots.map fractionSize).foldl (· + ·) 0 + rest

/-- Writes a number and reads it back in several sizes; adds up what was read. -/
def writeAndRead (m : Memory) (address : UInt64) (bytes : Int) (value : UInt64) (sizes : List Int) :
    Result (Int × Memory) := do
  let (done, m) := m.write address bytes value
  done
  sizes.foldlM (fun (acc, m) size => do
    let (r, m) := m.read address size false
    return (acc + (← r).toNat, m)) (0, m)

/-- A flat, a sparse and a split memory. -/
structure Bank where
  flat : Memory
  sparse : Memory
  split : Memory

def Bank.new : Result Bank := do
  let part := Memory.flat (FlatMemory.ofSize 4096)
  return ⟨.flat (FlatMemory.ofSize 8192),
    .sparse .empty, ← Memory.mkSplit part 0 4096 part 4096 4096⟩

/-- One word goes to every memory.  Every fourth round then writes two bytes at an odd address. -/
def memoryRound (b : Bank) (i : Nat) : Result (Int × Bank) := do
  let address := Word.ofInt (8 * i % 8192 : Nat)
  let value := Word.ofInt (i * 0x1234567 + 1)
  let (x, flat) ← writeAndRead b.flat address 8 value [8, 4, 2, 1]
  let (y, sparse) ← writeAndRead b.sparse address 8 value [8, 8, 4]
  let (z, split) ← writeAndRead b.split address 8 value [8]
  if i % 4 == 3 then
    let (u, flat) ← writeAndRead flat (address + 1) 2 0xabcd [2, 1]
    let (v, sparse) ← writeAndRead sparse (address + 1) 2 0xabcd [2]
    return (x + y + z + u + v, ⟨flat, sparse, split⟩)
  else return (x + y + z, ⟨flat, sparse, split⟩)

def memoryTotal (rounds : Nat) : Result Int := do
  let (total, _) ← (List.range rounds).foldlM (fun (acc, b) i => do
    let (x, b) ← memoryRound b i
    return (acc + x, b)) (0, ← Bank.new)
  return total

/-- A chain of nodes, with a jump from every node but the last to a node other than itself. -/
def chainSuccessors (size i : Nat) : List Nat :=
  if i + 1 < size then
    let jump := (7 * i + 3) % size
    if jump == i then [i + 1] else [i + 1, jump]
  else []

/-- Counts the nodes left, the steps of the search, and the nodes with a dominator. -/
def digraphTotal (size : Nat) : Result Int := do
  if size == 0 then throw .missingKey
  let nodes := List.range size
  let succ := chainSuccessors size
  let pred (v : Nat) : List Nat :=
    nodes.flatMap (fun u => (succ u).filter (· == v) |>.map (fun _ => u))
  let bound := Digraph.searchBound succ nodes
  let total : Option Int := do
    let idom ← Digraph.immediateDominators succ pred bound 0
    return (← Digraph.postorder succ bound 0).length + (← Digraph.searchAll succ bound [0]).size +
      idom.size
  total.elim (throw .internal) pure

def total : Workload → Nat → Result Int
  | wideVectors, rounds => sumRounds rounds wideRound
  | rationals, rounds => rationalTotal rounds
  | memories, rounds => memoryTotal rounds
  | digraph, rounds => digraphTotal rounds

end Workload

end Jib
