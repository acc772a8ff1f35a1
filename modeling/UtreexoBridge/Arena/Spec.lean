import Std.Data.ExtTreeMap
import Mathlib.Data.Finset.Card
import UtreexoBridge.Delta.Run

/-!
# The node arena (`NodeArena`)

One type for both modes of the source. In RAM the chunks start out as default
records and grow on demand, so they are a function. A mapped arena reads
through its dirty records, its delta runs from the newest to the oldest, and
the base files.
-/

namespace UtreexoBridge

structure OriginalRecord (H : Type) where
  record : NodeRecord H
  wasDirty : Bool

structure NodeChange (H : Type) where
  id : Nat
  before : NodeRecord H
  after : NodeRecord H
  wasDirty : Bool
  deriving DecidableEq, Repr

structure NodeArena (H : Type) where
  mapped : Bool
  /-- The RAM chunks. -/
  slots : Nat → NodeRecord H
  /-- `m_files`, the base files of a mapped arena, with `capacity` slots. -/
  files : Nat → NodeRecord H
  capacity : Nat
  baseNext : Nat
  /-- Oldest run first. -/
  deltaRuns : List (DeltaRun H)
  dirty : Std.ExtTreeMap Nat (NodeRecord H)
  transaction : Option (Std.ExtTreeMap Nat (OriginalRecord H))
  /-- `m_free`, its back at the head. -/
  freeStack : List Nat
  freeSet : Finset Nat
  /-- `m_free_operations`, the last one at the head. `true` marks a freed id. -/
  freeOperations : List (Bool × Nat)
  transactionNext : Nat
  transactionLive : Nat
  next : Nat
  live : Nat

def chunkSize : Nat := 2 ^ 20

namespace NodeArena

variable {H : Type} [ForestHash H]

def new : NodeArena H :=
  ⟨false, fun _ => .blank, fun _ => .blank, 0, 0, [], ∅, none, [], ∅, [], 0, 0, 0, 0⟩

/-! ## Reading -/

omit [ForestHash H] in
def findDeltaRecord (a : NodeArena H) (id : Nat) : Option (NodeRecord H) :=
  a.deltaRuns.reverse.findSome? (·.find id)

def readPhysicalBase (a : NodeArena H) (id : Nat) : NodeRecord H :=
  if id ≥ a.baseNext ∨ id ≥ a.capacity then .blank else a.files id

def read (a : NodeArena H) (id : Nat) : NodeRecord H :=
  if a.mapped then
    match a.dirty[id]? with
    | some record => record
    | none =>
      match a.findDeltaRecord id with
      | some record => record
      | none => a.readPhysicalBase id
  else a.slots id

def isLive (a : NodeArena H) (id : Nat) : Bool := id < a.next && (a.read id).type ≠ .free

def isLeaf (a : NodeArena H) (id : Nat) : Bool := a.isLive id && (a.read id).type = .leaf

omit [ForestHash H] in
def freeCount (a : NodeArena H) : Nat := if a.mapped then a.freeSet.card else a.freeStack.length

/-! ## Writing -/

/-- `Mutable`: make the record dirty, and note the original for the open transaction. -/
def touch (a : NodeArena H) (id : Nat) : NodeArena H :=
  let record := a.read id
  { a with
    dirty := a.dirty.insertIfNew id record
    transaction := a.transaction.map (·.insertIfNew id ⟨record, a.dirty.contains id⟩) }

def write (a : NodeArena H) (id : Nat) (record : NodeRecord H) : NodeArena H :=
  if a.mapped then
    let a := a.touch id
    { a with dirty := a.dirty.insert id record }
  else { a with slots := Function.update a.slots id record }

def setHash (a : NodeArena H) (id : Nat) (hash : H) : NodeArena H := a.write id { a.read id with hash }

def setParent (a : NodeArena H) (id parent : Nat) : NodeArena H := a.write id { a.read id with parent }

def setLeft (a : NodeArena H) (id left : Nat) : NodeArena H := a.write id { a.read id with left }

def setRight (a : NodeArena H) (id right : Nat) : NodeArena H := a.write id { a.read id with right }

omit [ForestHash H] in
/-- What a transaction notes about the free set. -/
def noteFree (a : NodeArena H) (freed : Bool) (id : Nat) : NodeArena H :=
  if a.transaction.isSome then { a with freeOperations := (freed, id) :: a.freeOperations } else a

omit [ForestHash H] in
/-- The top of a mapped arena's free stack may be stale: the set decides. -/
def dropStale (a : NodeArena H) : NodeArena H :=
  if a.mapped then { a with freeStack := a.freeStack.dropWhile (· ∉ a.freeSet) } else a

omit [ForestHash H] in
def takeFree (a : NodeArena H) : Option (Nat × NodeArena H) :=
  match a.freeStack with
  | [] => none
  | id :: freeStack =>
    if a.mapped then some (id, { a with freeStack, freeSet := a.freeSet.erase id }.noteFree false id)
    else some (id, { a with freeStack })

def allocate (a : NodeArena H) (type : NodeType) (hash : H) (left right : Nat) : Except String (Nat × NodeArena H) :=
  let record : NodeRecord H := ⟨hash, noNode, left, right, type⟩
  let a := a.dropStale
  if (if a.mapped then a.freeSet ≠ ∅ else a.freeStack ≠ []) then
    match a.takeFree with
    | none => .error "online free-node stack is inconsistent"
    | some (id, a) => .ok (id, { a.write id record with live := a.live + 1 })
  else if a.next = noNode then .error "packed forest exhausted 32-bit node IDs"
  else .ok (a.next, { a.write a.next record with next := a.next + 1, live := a.live + 1 })

/-- The hash stays in the slot. -/
def free (a : NodeArena H) (id : Nat) : NodeArena H :=
  let a' := a.write id (a.read id).freed
  let a' := { a' with freeStack := id :: a'.freeStack, live := a'.live - 1 }
  if a.mapped then { a' with freeSet := insert id a'.freeSet }.noteFree true id else a'

omit [ForestHash H] in
/-- `PrepareAllocations`. Growing the chunks changes nothing that is read. -/
def prepareAllocations (a : NodeArena H) (count : Nat) : Except String Unit :=
  if count ≤ a.freeCount then .ok ()
  else if a.next + (count - a.freeCount) - 1 ≥ noNode then .error "packed forest exhausted 32-bit node IDs"
  else .ok ()

/-! ## The chunks of a RAM arena

Only their number is not seen through `read`. -/

omit [ForestHash H] in
/-- `Ensure`, on the number of chunks. -/
def ensure (a : NodeArena H) (chunks id : Nat) : Nat := if a.mapped then chunks else max chunks (id / chunkSize + 1)

omit [ForestHash H] in
def ensureAllocations (a : NodeArena H) (chunks count : Nat) : Nat :=
  if count ≤ a.freeCount then chunks else a.ensure chunks (a.next + (count - a.freeCount) - 1)

omit [ForestHash H] in
/-- The allocations up to `a'`: `Allocate` ensures each new id, and no id from the free list. -/
def ensureNew (a a' : NodeArena H) (chunks : Nat) : Nat :=
  (List.range' a.next (a'.next - a.next)).foldl a.ensure chunks

/-! ## Transactions of a mapped arena -/

omit [ForestHash H] in
def beginTransaction (a : NodeArena H) : Except String (NodeArena H) :=
  if a.mapped then
    if a.transaction.isSome then .error "nested forest transaction"
    else .ok { a with transaction := some ∅, transactionNext := a.next, transactionLive := a.live, freeOperations := [] }
  else .ok a

/-- Sorted by id, as the keys of an ordered map are. -/
def transactionChanges (a : NodeArena H) : List (NodeChange H) :=
  match a.transaction with
  | none => []
  | some originals => originals.toList.map fun (id, original) => ⟨id, original.record, a.read id, original.wasDirty⟩

omit [ForestHash H] in
def commitTransaction (a : NodeArena H) : NodeArena H := { a with transaction := none, freeOperations := [] }

omit [ForestHash H] in
def undoFree (a : NodeArena H) (op : Bool × Nat) : NodeArena H :=
  if op.1 then { a with freeSet := a.freeSet.erase op.2 }
  else { a with freeSet := insert op.2 a.freeSet, freeStack := op.2 :: a.freeStack }

omit [ForestHash H] in
def undoWrite (dirty : Std.ExtTreeMap Nat (NodeRecord H)) (entry : Nat × OriginalRecord H) :
    Std.ExtTreeMap Nat (NodeRecord H) :=
  if entry.2.wasDirty then dirty.insert entry.1 entry.2.record else dirty.erase entry.1

omit [ForestHash H] in
def rollbackTransaction (a : NodeArena H) : NodeArena H :=
  match a.transaction with
  | none => a
  | some originals =>
    let a := { a with dirty := originals.toList.foldl undoWrite a.dirty }
    let a := a.freeOperations.foldl undoFree a
    { a with next := a.transactionNext, live := a.transactionLive }.commitTransaction

end NodeArena

end UtreexoBridge
