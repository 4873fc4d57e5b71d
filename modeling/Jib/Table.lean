import Std.Data.HashMap

/-!
# Tables

A finite map that remembers the order in which its keys were first added.
-/

namespace Jib

structure Table (α β : Type) [BEq α] [Hashable α] where
  keys : Array α := #[]
  entries : Std.HashMap α β := ∅

namespace Table

variable {α β : Type} [BEq α] [Hashable α]

instance : Inhabited (Table α β) := ⟨{}⟩

def get? (t : Table α β) (k : α) : Option β := t.entries[k]?

def contains (t : Table α β) (k : α) : Bool := t.entries.contains k

def getD (t : Table α β) (k : α) (d : β) : β := t.entries.getD k d

/-- Adds or changes an entry; a key that is present keeps its place. -/
def insert (t : Table α β) (k : α) (v : β) : Table α β :=
  if t.entries.contains k then { t with entries := t.entries.insert k v }
  else { keys := t.keys.push k, entries := t.entries.insert k v }

def erase (t : Table α β) (k : α) : Table α β :=
  { keys := t.keys.filter (fun x => !(x == k)), entries := t.entries.erase k }

def size (t : Table α β) : Nat := t.keys.size

/-- The entries in the order of their keys. -/
def toList (t : Table α β) : List (α × β) :=
  t.keys.toList.filterMap (fun k => (t.entries[k]?).map (fun v => (k, v)))

def ofList (xs : List (α × β)) : Table α β := xs.foldl (fun t (k, v) => t.insert k v) {}

end Table

end Jib
