import Mathlib.Data.List.Sort
import UtreexoBridge.Position.Spec

/-! # The proof verifier (`VerifyProof` in `forest.cpp`) -/

namespace UtreexoBridge

open Position

structure Proof (H : Type) where
  targets : List Nat
  hashes : List H
  deriving DecidableEq, Repr

/-- `std::popcount` on `uint64_t`. -/
def popcount (n : Nat) : Nat := (List.range 64).countP n.testBit

/-- The rows of the forest's trees, from the highest down. -/
def setRows (numLeaves forestRows : Nat) : List Nat :=
  (List.range (forestRows + 1)).reverse.filter numLeaves.testBit

namespace Verify

abbrev Node (H : Type) := Nat × H

def posLE {H : Type} (a b : Node H) : Prop := a.1 ≤ b.1

instance {H : Type} : DecidableRel (posLE (H := H)) := fun a b => Nat.decLe a.1 b.1

/-- The duplicate check on neighbours of the sorted list. -/
def hasDuplicate {H : Type} : List (Node H) → Bool
  | a :: b :: rest => a.1 == b.1 || hasDuplicate (b :: rest)
  | _ => false

/-- `next_node`: the smaller head of the two queues, the provided one on a tie. -/
def nextNode {H : Type} : List (Node H) → List (Node H) → Option (Node H × List (Node H) × List (Node H))
  | [], [] => none
  | c :: computed, [] => some (c, computed, [])
  | [], p :: provided => some (p, [], provided)
  | c :: computed, p :: provided =>
    if c.1 < p.1 then some (c, computed, p :: provided) else some (p, c :: computed, provided)

section Verifier

variable {H : Type} [DecidableEq H] [ForestHash H]

def expectedRoots (roots : List H) (numLeaves forestRows : Nat) : List (Node H) :=
  ((setRows numLeaves forestRows).zip roots).map fun p => (rootPosition numLeaves p.1 forestRows, p.2)

def verifyLoop (numLeaves forestRows : Nat) (expected : List (Node H)) :
    Nat → List (Node H) → List (Node H) → Except String Bool
  | 0, _, _ => .error "verification did not finish"
  | fuel + 1, computed, provided =>
    match nextNode computed provided with
    | none => .ok true
    | some ((pos, hash), computed, provided) =>
      if isRootPosition pos numLeaves forestRows then
        if expected.lookup pos = some hash then verifyLoop numLeaves forestRows expected fuel computed provided
        else .ok false
      else if pos % 2 = 1 then .error "proof is missing a left sibling"
      else
        match nextNode computed provided with
        | none => .error "proof is missing a right sibling"
        | some ((siblingPos, siblingHash), computed, provided) =>
          if siblingPos = pos ||| 1 then
            verifyLoop numLeaves forestRows expected fuel
              (computed ++ [(parent pos forestRows, parentHash hash siblingHash)]) provided
          else .error "proof is missing a right sibling"

/-- The targets and the proof hashes with their positions, sorted by position. -/
def providedNodes (proof : Proof H) (targetHashes : List H) (proofPositions : List Nat) : List (Node H) :=
  (proof.targets.zip targetHashes ++ proofPositions.zip proof.hashes).insertionSort posLE

end Verifier

end Verify

section Verifier

variable {H : Type} [DecidableEq H] [ForestHash H]

open Verify

/-- `VerifyProof`: roots are listed from the highest row to the lowest. Every iteration of its loop
takes at least one node more from the queues than it adds, so the fuel covers them. -/
def verifyProof (proof : Proof H) (targetHashes roots : List H) (numLeaves : Nat) : Except String Bool :=
  if proof.targets.length ≠ targetHashes.length then .error "proof target and target-hash counts differ"
  else if proof.targets = [] then .ok true
  else if numLeaves = 0 then .error "non-empty proof for an empty forest"
  else if roots.length ≠ popcount numLeaves then .error "root count does not match the forest leaf count"
  else
    let forestRows := treeRows numLeaves
    let positions := proofPositions proof.targets numLeaves forestRows
    if positions.length ≠ proof.hashes.length then .error "proof hash count does not match its required positions"
    else
      let provided := providedNodes proof targetHashes positions
      if hasDuplicate provided then .error "proof contains duplicate node positions"
      else
        verifyLoop numLeaves forestRows (expectedRoots roots numLeaves forestRows) (provided.length + 1) [] provided

end Verifier

end UtreexoBridge
