import UtreexoBridge.Index.Spec
import UtreexoBridge.Verify.Spec

/-!
# The packed forest (`PackedForest::Impl`)

A call returns a `Result` and leaves a state behind, or it ends in a `Fault`.
Loops along parent links have fuel for every node id, so they run out of it
only on a cycle.
-/

namespace UtreexoBridge

open Position

abbrev Res := Except String Unit

def rootAt (roots : Vector Nat 64) (row : Nat) : Nat := roots[row]?.getD noNode

def setRoot (roots : Vector Nat 64) (row id : Nat) : Vector Nat 64 := roots.setIfInBounds row id

def findRoot (roots : Vector Nat 64) (id : Nat) : Option Nat := (List.range 64).find? fun row => rootAt roots row = id

structure PackedForest (H : Type) where
  arena : NodeArena H
  index : KeylessLeafIndex
  roots : Vector Nat 64
  numLeaves : Nat

namespace PackedForest

variable {H : Type} [ForestHash H]

def new : PackedForest H := ⟨.new, .new, .replicate 64 noNode, 0⟩

/-- One fuel for each node id. -/
def chainFuel : Nat := 2 ^ 32

/-! ## Addition -/

/-- The loop of `Add`, with one fuel for each row from `row` on. -/
def addLoop : Nat → Nat → Nat → Nat → NodeArena H → Vector Nat 64 → Except Fault (NodeArena H × Vector Nat 64)
  | 0, _, _, _, _, _ => .error .outOfBounds
  | fuel + 1, leaves, row, node, a, roots =>
    if leaves % 2 = 1 then
      let left := rootAt roots row
      let roots := setRoot roots row noNode
      if left ≠ noNode then
        match a.allocate .branch (parentHash (a.read left).hash (a.read node).hash) left node with
        | .error what => .error (.thrown what)
        | .ok (branch, a) =>
          addLoop fuel (leaves / 2) (row + 1) branch ((a.setParent left branch).setParent node branch) roots
      else addLoop fuel (leaves / 2) (row + 1) node a roots
    else .ok (a, setRoot roots row node)

def add (f : PackedForest H) (hash : H) : Except Fault (PackedForest H) :=
  match f.arena.allocate .leaf hash noNode noNode with
  | .error what => .error (.thrown what)
  | .ok (node, a) =>
    match f.index.insert a hash node with
    | none => .error .diverges
    | some index =>
      match addLoop 64 f.numLeaves 0 node a f.roots with
      | .error fault => .error fault
      | .ok (a, roots) => .ok ⟨a, index, roots, f.numLeaves + 1⟩

/-! ## Deletion -/

/-- `none` if the parent links run in a circle. -/
def recompute : Nat → NodeArena H → Nat → Option (NodeArena H)
  | 0, _, _ => none
  | fuel + 1, a, node =>
    if node = noNode then some a
    else
      let a := a.setHash node
        (parentHash (a.read (a.read node).left).hash (a.read (a.read node).right).hash)
      recompute fuel a (a.read node).parent

/-- The end of `DeleteId`: the leaf leaves the index and the ids become free. -/
def dropIds (f : PackedForest H) (hash : H) (leaf : Nat) (ids : List Nat) : Except Fault (Res × PackedForest H) :=
  match f.index.erase f.arena hash leaf with
  | none => .error .diverges
  | some (_, index) => .ok (.ok (), { f with index, arena := ids.foldl .free f.arena })

def deleteId (f : PackedForest H) (leaf : Nat) : Except Fault (Res × PackedForest H) :=
  if !f.arena.isLeaf leaf then .ok (.error "node is not a live leaf", f)
  else
    let hash := (f.arena.read leaf).hash
    let parent := (f.arena.read leaf).parent
    if parent = noNode then
      match findRoot f.roots leaf with
      | none => .ok (.error "leaf root is not registered", f)
      | some row => dropIds { f with roots := setRoot f.roots row noNode } hash leaf [leaf]
    else
      let sibling :=
        if (f.arena.read parent).left = leaf then (f.arena.read parent).right else (f.arena.read parent).left
      let grandparent := (f.arena.read parent).parent
      if grandparent = noNode then
        match findRoot f.roots parent with
        | none => .ok (.error "branch root is not registered", f)
        | some row =>
          dropIds { f with roots := setRoot f.roots row sibling, arena := f.arena.setParent sibling noNode }
            hash leaf [leaf, parent]
      else if (f.arena.read grandparent).left = parent then
        match recompute chainFuel
            ((f.arena.setLeft grandparent sibling).setParent sibling grandparent) grandparent with
        | none => .error .diverges
        | some arena => dropIds { f with arena } hash leaf [leaf, parent]
      else if (f.arena.read grandparent).right = parent then
        match recompute chainFuel
            ((f.arena.setRight grandparent sibling).setParent sibling grandparent) grandparent with
        | none => .error .diverges
        | some arena => dropIds { f with arena } hash leaf [leaf, parent]
      else .ok (.error "parent is detached from grandparent", f)

/-! ## Positions -/

/-- The first loop of `PositionOf`: the root reached, the directions and their number, a `uint8_t`. -/
def climb (a : NodeArena H) : Nat → Nat → Nat → Nat → Except Fault (Except String (Nat × Nat × Nat))
  | 0, _, _, _ => .error .diverges
  | fuel + 1, node, directions, distance =>
    let parent := (a.read node).parent
    if parent = noNode then .ok (.ok (node, directions, distance))
    else if (a.read parent).right = node then
      climb a fuel parent (shl directions 1 ||| 1) ((distance + 1) % 256)
    else if (a.read parent).left ≠ node then .ok (.error "node parent link is inconsistent")
    else climb a fuel parent (shl directions 1) ((distance + 1) % 256)

/-- The second loop of `PositionOf`. -/
def descend (forestRows : Nat) : Nat → Nat → Nat → Nat
  | 0, _, pos => pos
  | distance + 1, directions, pos =>
    descend forestRows distance (directions >>> 1)
      (if directions % 2 = 0 then leftChild pos forestRows else rightChild pos forestRows)

def positionOf (f : PackedForest H) (leaf : Nat) : Except Fault (Except String Nat) :=
  match climb f.arena chainFuel leaf 0 0 with
  | .error fault => .error fault
  | .ok (.error message) => .ok (.error message)
  | .ok (.ok (node, directions, distance)) =>
    let forestRows := treeRows f.numLeaves
    match (List.range (forestRows + 1)).find? fun row => f.numLeaves.testBit row && rootAt f.roots row = node with
    | none => .ok (.error "could not locate the leaf's root")
    | some row => .ok (.ok (descend forestRows distance directions (rootPosition f.numLeaves row forestRows)))

/-- The loop of `NodeAt` from a root down, for the path bits below `row`. -/
def walkDown (a : NodeArena H) (pathBits : Nat) : Nat → Nat → Except String Nat
  | 0, node => .ok node
  | row + 1, node =>
    if !a.isLive node || a.isLeaf node then .error "position descends past a leaf"
    else
      let child := if (pathBits >>> row) % 2 = 0 then (a.read node).right else (a.read node).left
      if child = noNode then .error "position has no live node" else walkDown a pathBits row child

def nodeAt (f : PackedForest H) (pos : Nat) : Except String Nat :=
  if f.numLeaves = 0 then .error "forest is empty"
  else
    let offset := detectOffset pos f.numLeaves
    let node :=
      match (setRows f.numLeaves (treeRows f.numLeaves))[offset.treeIndex]? with
      | none => noNode
      | some row => rootAt f.roots row
    if node = noNode then .error "position belongs to a deleted subtree"
    else walkDown f.arena offset.pathBits offset.branchLength node

/-! ## Blocks -/

def countrOne : Nat → Nat → Nat
  | 0, _ => 0
  | fuel + 1, n => if n % 2 = 1 then countrOne fuel (n / 2) + 1 else 0

def prepareModify (f : PackedForest H) (additions : Nat) : Except Fault (PackedForest H) :=
  -- `std::countr_one` on `uint64_t`
  let branches := ((List.range additions).map fun i => countrOne 64 (word (f.numLeaves + i))).sum
  match f.index.prepareInsertions f.arena additions with
  | none => .error .diverges
  | some index =>
    match f.arena.prepareAllocations (additions + branches) with
    | .error what => .error (.thrown what)
    | .ok () => .ok { f with index }

def deleteAll (f : PackedForest H) : List Nat → Except Fault (Res × PackedForest H)
  | [] => .ok (.ok (), f)
  | id :: ids =>
    match f.deleteId id with
    | .error fault => .error fault
    | .ok (.error message, f) => .ok (.error message, f)
    | .ok (.ok (), f) => deleteAll f ids

def addAll (f : PackedForest H) : List H → Except Fault (PackedForest H)
  | [] => .ok f
  | hash :: hashes =>
    match f.add hash with
    | .error fault => .error fault
    | .ok f => addAll f hashes

variable [DecidableEq H]

/-- The loop of `Modify` over the deletions: positions and ids in the order given. -/
def resolveDeletions (f : PackedForest H) : List H → List H → Except Fault (Except String (List (Nat × Nat)))
  | _, [] => .ok (.ok [])
  | deleting, hash :: rest =>
    if hash ∈ deleting then .ok (.error "duplicate deletion")
    else
      match f.index.find f.arena hash with
      | none => .ok (.error "deletion is not in forest")
      | some id =>
        match f.positionOf id with
        | .error fault => .error fault
        | .ok (.error message) => .ok (.error message)
        | .ok (.ok pos) =>
          match resolveDeletions f (hash :: deleting) rest with
          | .error fault => .error fault
          | .ok (.error message) => .ok (.error message)
          | .ok (.ok nodes) => .ok (.ok ((pos, id) :: nodes))

def modify (f : PackedForest H) (additions deletions : List H) : Except Fault (Res × PackedForest H) :=
  match f.resolveDeletions [] deletions with
  | .error fault => .error fault
  | .ok (.error message) => .ok (.error message, f)
  | .ok (.ok nodes) =>
    let sorted := nodes.insertionSort fun x y => x.1 ≤ y.1
    match f.prepareModify additions.length with
    | .error fault => .error fault
    | .ok f =>
      match f.deleteAll (sorted.map (·.2)) with
      | .error fault => .error fault
      | .ok (.error message, f) => .ok (.error message, f)
      | .ok (.ok (), f) =>
        match f.addAll additions with
        | .error fault => .error fault
        | .ok f => .ok (.ok (), f)

/-! ## Observations -/

def contains (f : PackedForest H) (hash : H) : Bool := (f.index.find f.arena hash).isSome

omit [DecidableEq H] in
/-- `Roots()`, from the highest row to the lowest. -/
def rootHashes (f : PackedForest H) : List (Option H) :=
  (setRows f.numLeaves (treeRows f.numLeaves)).map fun row =>
    if rootAt f.roots row = noNode then none else some (f.arena.read (rootAt f.roots row)).hash

def proveTargets (f : PackedForest H) : List H → Except Fault (Except String (List Nat))
  | [] => .ok (.ok [])
  | target :: rest =>
    match f.index.find f.arena target with
    | none => .ok (.error "proof target is not in forest")
    | some id =>
      match f.positionOf id with
      | .error fault => .error fault
      | .ok (.error message) => .ok (.error message)
      | .ok (.ok pos) =>
        match proveTargets f rest with
        | .error fault => .error fault
        | .ok (.error message) => .ok (.error message)
        | .ok (.ok positions) => .ok (.ok (pos :: positions))

omit [DecidableEq H] in
def proofHashes (f : PackedForest H) : List Nat → Except String (List H)
  | [] => .ok []
  | pos :: rest =>
    match f.nodeAt pos with
    | .error message => .error message
    | .ok node =>
      match proofHashes f rest with
      | .error message => .error message
      | .ok hashes => .ok ((f.arena.read node).hash :: hashes)

def prove (f : PackedForest H) (targets : List H) : Except Fault (Except String (Proof H)) :=
  match f.proveTargets targets with
  | .error fault => .error fault
  | .ok (.error message) => .ok (.error message)
  | .ok (.ok positions) =>
    let needed := proofPositions positions f.numLeaves (treeRows f.numLeaves)
    match f.proofHashes needed with
    | .error message => .ok (.error message)
    | .ok hashes => .ok (.ok ⟨positions, hashes⟩)

end PackedForest

/-! ## Runs -/

/-- The calls that change an offline forest. -/
inductive Call (H : Type)
  | add (hash : H)
  | modify (additions deletions : List H)

namespace PackedForest

variable {H : Type} [ForestHash H] [DecidableEq H]

def call (f : PackedForest H) : Call H → Except Fault (Res × PackedForest H)
  | .add hash =>
    match f.add hash with
    | .error fault => .error fault
    | .ok f => .ok (.ok (), f)
  | .modify additions deletions => f.modify additions deletions

/-- The results of the calls and the state they lead to. -/
def run (f : PackedForest H) : List (Call H) → Except Fault (List Res × PackedForest H)
  | [] => .ok ([], f)
  | c :: calls =>
    match f.call c with
    | .error fault => .error fault
    | .ok (res, f) =>
      match run f calls with
      | .error fault => .error fault
      | .ok (results, f) => .ok (res :: results, f)

end PackedForest

end UtreexoBridge
