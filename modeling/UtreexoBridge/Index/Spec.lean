import UtreexoBridge.Arena.View
import UtreexoBridge.OpenAddressing.Ops
import UtreexoBridge.Position.Spec

/-!
# The leaf index (`KeylessLeafIndex`)

It stores node ids only. A slot's key is the hash that the arena has for the id,
so every operation also reads the arena. The capacity is a power of two: the
masks of the source are remainders here. `none` is a loop that never ends.
-/

namespace UtreexoBridge

open OpenAddressing

def bitCeil (n : Nat) : Nat := if n ≤ 1 then 1 else 2 ^ Position.bitWidth (n - 1)

structure KeylessLeafIndex where
  table : Table Nat
  size : Nat
  tombstones : Nat

namespace KeylessLeafIndex

def clear (capacity : Nat) : KeylessLeafIndex := ⟨.clear (max 16 (bitCeil capacity)), 0, 0⟩

/-- A new index rehashes to 16 slots. -/
def new : KeylessLeafIndex := clear 16

variable {H : Type} [DecidableEq H] [ForestHash H]

omit [DecidableEq H] in
def home (a : NodeArena H) (capacity id : Nat) : Nat := bucket (a.read id).hash % capacity

def find (index : KeylessLeafIndex) (a : NodeArena H) (hash : H) : Option Nat :=
  index.table.findFrom (fun id => a.isLeaf id && (a.read id).hash = hash) index.table.capacity
    (bucket hash % index.table.capacity)

omit [DecidableEq H] in
def rehash (index : KeylessLeafIndex) (a : NodeArena H) (capacity : Nat) : Option KeylessLeafIndex :=
  let capacity := max 16 (bitCeil capacity)
  let ids := index.table.entries.filter a.isLeaf
  (Table.refill (home a capacity) ids (.clear capacity)).map fun table => ⟨table, ids.length, 0⟩

omit [DecidableEq H] in
def place (index : KeylessLeafIndex) (hash : H) (id : Nat) : Option KeylessLeafIndex :=
  (index.table.insertSlot index.table.capacity (bucket hash % index.table.capacity) none).map fun (slot, tombstone) =>
    ⟨index.table.set slot (.full id), index.size + 1, if tombstone then index.tombstones - 1 else index.tombstones⟩

omit [DecidableEq H] in
def insert (index : KeylessLeafIndex) (a : NodeArena H) (hash : H) (id : Nat) : Option KeylessLeafIndex :=
  let capacity := index.table.capacity
  if (index.size + index.tombstones + 1) * 10 ≥ capacity * 8 then
    (index.rehash a (if (index.size + 1) * 10 < capacity * 8 then capacity else capacity * 2)).bind (·.place hash id)
  else index.place hash id

omit [DecidableEq H] in
def erase (index : KeylessLeafIndex) (a : NodeArena H) (hash : H) (id : Nat) : Option (Bool × KeylessLeafIndex) :=
  let capacity := index.table.capacity
  match index.table.locate id capacity (bucket hash % capacity) with
  | none => none
  | some none => some (false, index)
  | some (some slot) =>
    (Table.backShift (home a capacity) capacity index.table slot (index.table.next slot)).map fun table =>
      (true, { index with table, size := index.size - 1 })

omit [DecidableEq H] in
/-- The source ignores the number of deletions here. -/
def prepareInsertions (index : KeylessLeafIndex) (a : NodeArena H) (additions : Nat) : Option KeylessLeafIndex :=
  let needed := index.size + index.tombstones + additions + 1
  if (needed * 10 + 7) / 8 > index.table.capacity then
    let liveNeeded := index.size + additions + 1
    index.rehash a (max index.table.capacity ((liveNeeded * 10 + 7) / 8))
  else some index

end KeylessLeafIndex

end UtreexoBridge
