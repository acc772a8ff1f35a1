import Std.Data.ExtTreeSet
import Mathlib.Data.Finset.Insert
import UtreexoBridge.Hash

/-!
# Node positions (`position.cpp`)

Positions are `uint64_t` values: row by row from the leaves up, each row read
left to right. All shifts are truncated to 64 bits, as in the source.
-/

namespace UtreexoBridge.Position

/-- `a << k` on `uint64_t`. -/
def shl (a k : Nat) : Nat := word (a <<< k)

/-- `a - b` on `uint64_t`. -/
def wsub (a b : Nat) : Nat := word (a + 2 ^ 64 - b)

/-- `std::bit_width`, that is `64 - std::countl_zero`. -/
def bitWidth (n : Nat) : Nat := if n = 0 then 0 else n.log2 + 1

def treeRows (leaves : Nat) : Nat := if leaves = 0 then 0 else bitWidth (leaves - 1)

/-- The marker bit is `1 << k` while `k + 1` markers are left, then it is shifted out. -/
def detectRowLoop (pos : Nat) : Nat → Nat → Nat
  | 0, row => row
  | k + 1, row => if pos.testBit k then detectRowLoop pos k (row + 1) else row

def detectRow (pos forestRows : Nat) : Nat := detectRowLoop pos (forestRows + 1) 0

/-- `(uint64_t{2} << forest_rows) - 1`. -/
def rowMask (forestRows : Nat) : Nat := wsub (shl 2 forestRows) 1

def leftChild (pos forestRows : Nat) : Nat := shl pos 1 &&& rowMask forestRows

def rightChild (pos forestRows : Nat) : Nat := leftChild pos forestRows + 1

def parent (pos forestRows : Nat) : Nat := (pos >>> 1) ||| shl 1 forestRows

def rootPosition (leaves row forestRows : Nat) : Nat :=
  let mask := rowMask forestRows
  let before := leaves &&& shl mask (row + 1)
  let shifted := (before >>> row) ||| shl mask (forestRows + 1 - row)
  shifted &&& mask

def isRootPosition (pos leaves forestRows : Nat) : Bool :=
  let row := detectRow pos forestRows
  leaves.testBit row && rootPosition leaves row forestRows == pos

structure Offset where
  treeIndex : Nat
  branchLength : Nat
  pathBits : Nat
  deriving DecidableEq, Repr

/-- The loop of `DetectOffset`. It counts `tree_rows` down to `node_row`. -/
def detectOffsetLoop (leaves nodeRow : Nat) : Nat → Nat → Nat → Nat × Nat × Nat
  | 0, biggerTrees, marker => (biggerTrees, 0, marker)
  | treeRows + 1, biggerTrees, marker =>
    if treeRows + 1 > nodeRow ∧
        shl marker nodeRow &&& rowMask (treeRows + 1) ≥ shl 1 (treeRows + 1) &&& leaves then
      let treeSize := shl 1 (treeRows + 1) &&& leaves
      if treeSize ≠ 0 then detectOffsetLoop leaves nodeRow treeRows (biggerTrees + 1) (wsub marker treeSize)
      else detectOffsetLoop leaves nodeRow treeRows biggerTrees marker
    else (biggerTrees, treeRows + 1, marker)

/-- `~marker` on `uint64_t`. -/
def complement (marker : Nat) : Nat := 2 ^ 64 - 1 - word marker

def detectOffset (pos leaves : Nat) : Offset :=
  let rows := treeRows leaves
  let nodeRow := detectRow pos rows
  -- Invalid positions must not drive the unsigned row counter below zero.
  if nodeRow > rows then ⟨0, 0, complement pos⟩
  else
    let (biggerTrees, rows, marker) := detectOffsetLoop leaves nodeRow rows 0 pos
    ⟨biggerTrees, rows - nodeRow, complement marker⟩

/-- The state of the loop in `ProofPositions`: `queue` is `computed` from the loop index on. -/
structure ProofWalk where
  queue : List Nat
  known : Finset Nat
  proofPositions : Std.ExtTreeSet Nat

def proofStep (leaves forestRows pos : Nat) (w : ProofWalk) : ProofWalk :=
  if isRootPosition pos leaves forestRows then w
  else
    let sibling := pos ^^^ 1
    let proofPositions :=
      if sibling ∈ w.known then w.proofPositions.erase pos else w.proofPositions.insert sibling
    let parent := parent pos forestRows
    if parent ∈ w.known then { w with proofPositions }
    else ⟨w.queue ++ [parent], insert parent w.known, proofPositions⟩

def proofLoop (leaves forestRows : Nat) : Nat → ProofWalk → ProofWalk
  | 0, w => w
  | fuel + 1, w =>
    match w.queue with
    | [] => w
    | pos :: rest => proofLoop leaves forestRows fuel (proofStep leaves forestRows pos { w with queue := rest })

/-- Each target contributes itself and at most 65 new ancestors, so this many iterations are enough. -/
def proofFuel (targets : List Nat) : Nat := targets.length * 66

def proofStart (targets : List Nat) : ProofWalk := ⟨targets, targets.toFinset, ∅⟩

def proofPositions (targets : List Nat) (leaves forestRows : Nat) : List Nat :=
  (proofLoop leaves forestRows (proofFuel targets) (proofStart targets)).proofPositions.toList

end UtreexoBridge.Position
