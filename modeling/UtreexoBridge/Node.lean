import UtreexoBridge.Hash

/-! # Node records. Node ids are `uint32_t` values and are written as `Nat`. -/

namespace UtreexoBridge

/-- `NO_NODE`. -/
def noNode : Nat := 2 ^ 32 - 1

/-- `NodeType`. A byte read from disk can be none of the three. -/
inductive NodeType
  | free
  | leaf
  | branch
  | other (code : Nat)
  deriving DecidableEq, Repr

structure NodeRecord (H : Type) where
  hash : H
  parent : Nat := noNode
  left : Nat := noNode
  right : Nat := noNode
  type : NodeType := .free
  deriving DecidableEq, Repr

variable {H : Type} [ForestHash H]

/-- `NodeRecord{}`. -/
def NodeRecord.blank : NodeRecord H := { hash := ForestHash.null }

instance : Inhabited (NodeRecord H) := ⟨.blank⟩

/-- What `NodeArena::Free` leaves in a slot. -/
def NodeRecord.freed (r : NodeRecord H) : NodeRecord H := { hash := r.hash }

/-- How a call ends that does not return: an exception, an access outside an array, or a loop without end. -/
inductive Fault
  | thrown (what : String)
  | outOfBounds
  | diverges
  deriving DecidableEq, Repr

structure ChainPoint (H : Type) where
  height : Nat
  blockHash : H
  deriving DecidableEq, Repr

end UtreexoBridge
