import DuckDB.Planner.Expression
import DuckDB.Theory.Chaining
import Mathlib.Algebra.Order.BigOperators.Group.List
import Mathlib.Algebra.Order.Group.Nat
import Mathlib.Algebra.GroupWithZero.Nat
import Mathlib.Data.PNat.Defs

/-!
# The hash table of a join

`JoinHashTable::Build` and `Resize`. `α` are the rows of the left side, which probe the table, and
`β` those of the right side, which are stored in it. The table is modelled in memory: the nodes with
the serialized keys, the heads of the buckets and the pointers from an entry to the next one.
-/

namespace DuckDB

open Theory

variable {α β V : Type*}

/-- A `JoinCondition` with the values of its two expressions. -/
structure JoinKey (α β V : Type*) where
  left : α → Option V
  right : β → Option V
  comparison : ComparisonType
  nullValuesAreEqual : Bool := false
  isOrder : comparison.isOrder = true
  equal_of_nullValuesAreEqual : nullValuesAreEqual = true → comparison = .equal

namespace JoinKey

/-- The right key of the condition can be stored (`CreateNotNullSelVector`). -/
def storable (keys : List (JoinKey α β V)) (r : β) : Bool :=
  keys.all fun key => key.nullValuesAreEqual || (key.right r).isSome

/-- The conditions that are hashed. -/
def equalities (keys : List (JoinKey α β V)) : List (JoinKey α β V) :=
  keys.filter fun key => key.comparison = .equal

end JoinKey

/-! ### The entries in memory -/

/-- The conditions of a join, with the hash of the keys that are compared for equality and the
`NullValue` of each of them. -/
structure HashedKeys (α β V : Type*) where
  keys : List (JoinKey α β V)
  hash : List V → ℕ
  nullValue : ℕ → V

namespace HashedKeys

variable [DecidableEq V] (k : HashedKeys α β V)

/-- The hashed keys of an entry. `FillNullMask` has replaced NULL by `NullValue`. -/
def stored (r : β) : List V :=
  (JoinKey.equalities k.keys).mapIdx fun column key => (key.right r).getD (k.nullValue column)

/-- The nullmasks of the key vectors once `Deserialize` has read some nodes: `GatherLoopSetNull` sets
a bit for every value that equals `NullValue`, and no bit is cleared. -/
def nullmask (read : List (List (β × ℕ))) (position column : ℕ) : Bool :=
  read.any fun node => (node[position]?).any fun entry =>
    (k.stored entry.1)[column]? == some (k.nullValue column)

/-- The keys of an entry of the last node that was read; `operators::Hash` takes NULL for
`NullValue`. -/
def deserialized (read : List (List (β × ℕ))) (position : ℕ) (r : β) : List V :=
  (k.stored r).mapIdx fun column value =>
    if k.nullmask read position column then k.nullValue column else value

/-- The loop of `Resize`: the entries with their new buckets. -/
def rehashAll (size : ℕ+) (nodes : List (List (β × ℕ))) : List (ℕ × (β × ℕ)) :=
  (nodes.mapIdx fun i node => node.mapIdx fun position entry =>
    (k.hash (k.deserialized (nodes.take (i + 1)) position entry.1) % size, entry)).flatten

end HashedKeys

/-- `class JoinHashTable` with the pointers of its entries. An entry is a stored row with its
address, here a number; `nodes` are the blocks of entries, the newest first. -/
structure LinkedHashTable (β : Type*) where
  capacity : ℕ+
  count : ℕ := 0
  nodes : List (List (β × ℕ)) := []
  links : Links (β × ℕ) := {}

namespace LinkedHashTable

variable [DecidableEq β] [DecidableEq V] (k : HashedKeys α β V) (table : LinkedHashTable β)

/-- `JoinHashTable::Resize`, to a larger size than the capacity. -/
def resize (size : ℕ+) : LinkedHashTable β :=
  { table with
    capacity := size
    links := Links.insertAll {} (k.rehashAll size table.nodes) }

/-- The first half of `Build`: the table is resized at half of its capacity. -/
def makeRoom (size : ℕ) : LinkedHashTable β :=
  { (if table.count + size > table.capacity / 2 then
        table.resize k ⟨table.capacity * 2, Nat.mul_pos table.capacity.2 Nat.two_pos⟩
      else table) with count := table.count + size }

/-- The second half of `Build`: the rows are stored and linked. -/
def addEntries (rows : List β) : LinkedHashTable β :=
  let stored := rows.zipIdx table.nodes.flatten.length
  if stored.length = 0 then table
  else
    { table with
      nodes := stored :: table.nodes
      links := table.links.insertAll (stored.map fun entry =>
        (k.hash (k.stored entry.1) % table.capacity, entry)) }

/-- `JoinHashTable::Build`. -/
def build (chunk : List β) : LinkedHashTable β :=
  if chunk.length = 0 then table
  else
    (table.makeRoom k chunk.length).addEntries k (chunk.filter (JoinKey.storable k.keys))

end LinkedHashTable

end DuckDB
