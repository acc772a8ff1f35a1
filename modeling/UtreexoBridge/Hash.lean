import Mathlib.Data.Nat.Bitwise

/-!
# What the forest uses of a hash

The accumulator never looks inside a `Hash256`: it combines two of them with
`ParentHash`, compares them, and buckets them by their first eight bytes. All
results below hold for every type with these operations.
-/

namespace UtreexoBridge

/-- `Hash256`, as far as the forest code looks at it. -/
class ForestHash (H : Type) where
  /-- `ParentHash(left, right)`. -/
  parentHash : H → H → H
  /-- The first eight bytes, read little endian by `memcpy`. -/
  lowWord : H → Nat
  /-- `Hash256{}`, the hash of a default `NodeRecord`. -/
  null : H

export ForestHash (parentHash)

def word (a : Nat) : Nat := a % 2 ^ 64

/-- `KeylessLeafIndex::Bucket`, the finalizer of a 64-bit mix. -/
def bucket {H : Type} [ForestHash H] (hash : H) : Nat :=
  let value := word (ForestHash.lowWord hash)
  let value := value ^^^ (value >>> 33)
  let value := word (value * 0xff51afd7ed558ccd)
  let value := value ^^^ (value >>> 33)
  let value := word (value * 0xc4ceb9fe1a85ec53)
  value ^^^ (value >>> 33)

/-- Hashes as terms: `parentHash` is injective and no leaf is a parent. Runs of
the model on concrete inputs use it. -/
inductive TermHash
  | leaf (n : Nat)
  | parent (l r : TermHash)
  deriving DecidableEq, Repr

instance : ForestHash TermHash where
  parentHash := .parent
  lowWord
    | .leaf n => n
    | .parent _ _ => 0
  null := .leaf 0

end UtreexoBridge
