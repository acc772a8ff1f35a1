import UtreexoBridge.Arena.Scan
import UtreexoBridge.Forest.Spec

/-!
# The full validation (`RebuildIndexAndValidate`)

Two passes over the windows of the arena. The first checks each record by
itself and against a parent in its own window, and keeps an edge for each node
whose parent lies in another window. The second shows every branch its children.
-/

namespace UtreexoBridge

variable {H : Type} [ForestHash H]

/-! ## Edges between windows -/

structure Edge (H : Type) where
  hash : H
  child : Nat
  parent : Nat
  deriving DecidableEq

/-- What the first pass collects. The edges are in the bucket of their parent's window. -/
structure FirstPass (H : Type) where
  edges : Nat → List (Edge H)
  leafCount : Nat
  freeIds : List Nat

def FirstPass.start : FirstPass H := ⟨fun _ => [], 0, []⟩

omit [ForestHash H] in
def FirstPass.append (s : FirstPass H) (slots : Nat) (edge : Edge H) : Except String (FirstPass H) :=
  let bucket := edge.parent / slots
  if (s.edges bucket).length ≥ 2 * slots then .error "online branch has too many children"
  else .ok { s with edges := Function.update s.edges bucket (s.edges bucket ++ [edge]) }

/-! ## The first pass -/

/-- A listed root, where the window has it. -/
def checkRoot (next first : Nat) (records : List (NodeRecord H)) (root : Nat) : Except String Unit :=
  if root = noNode then .ok ()
  else if root ≥ next then .error "online forest has an invalid root"
  else
    let record := records.getD (root - first) .blank
    if first ≤ root ∧ root < first + records.length ∧ (record.type = .free ∨ record.parent ≠ noNode) then
      .error "online forest has an invalid root"
    else .ok ()

omit [ForestHash H] in
/-- The type of a live record and its children. -/
def checkKind (next : Nat) (record : NodeRecord H) (s : FirstPass H) : Except String (FirstPass H) :=
  if record.type = .leaf then
    if record.left ≠ noNode ∨ record.right ≠ noNode then .error "online leaf has children"
    else .ok { s with leafCount := s.leafCount + 1 }
  else if record.type = .branch then
    if record.left ≥ next ∨ record.right ≥ next ∨ record.left = record.right then
      .error "online branch has a missing or repeated child"
    else .ok s
  else .error "online node has an invalid type"

/-- The parent of a live record: none for a root, or a branch that lists the record. -/
def checkParent (roots : List Nat) (slots next first : Nat) (records : List (NodeRecord H)) (id : Nat)
    (record : NodeRecord H) (s : FirstPass H) : Except String (FirstPass H) :=
  if record.parent = noNode then
    if id ∉ roots then .error "online forest has an unlisted root" else .ok s
  else if record.parent ≥ next ∨ record.parent = id then .error "online node has an invalid parent"
  else if record.parent < first ∨ record.parent ≥ first + records.length then
    s.append slots ⟨record.hash, id, record.parent⟩
  else
    let parent := records.getD (record.parent - first) .blank
    if parent.type ≠ .branch ∨ (parent.left ≠ id ∧ parent.right ≠ id) then
      .error "online branch child has an inconsistent parent"
    else .ok s

def scanRecord (roots : List Nat) (slots next first : Nat) (records : List (NodeRecord H)) (s : FirstPass H)
    (entry : NodeRecord H × Nat) : Except String (FirstPass H) :=
  let id := first + entry.2
  if entry.1.type = .free then .ok { s with freeIds := s.freeIds ++ [id] }
  else
    match checkKind next entry.1 s with
    | .error message => .error message
    | .ok s => checkParent roots slots next first records id entry.1 s

def scanWindow (roots : List Nat) (slots next : Nat) (s : FirstPass H) (first : Nat) (records : List (NodeRecord H)) :
    Except String (FirstPass H) :=
  match roots.forM (checkRoot next first records) with
  | .error message => .error message
  | .ok () => records.zipIdx.foldlM (scanRecord roots slots next first records) s

/-! ## The second pass -/

/-- For each slot of the window the first child's hash and the children seen: 1 for left, 2 for right. -/
structure Seen (H : Type) where
  pending : Nat → H
  seen : Nat → Nat

/-- The lambda `child`: a branch of the window is shown one of its children. -/
def showChild [DecidableEq H] (first : Nat) (records : List (NodeRecord H)) (w : Seen H) (edge : Edge H) :
    Except String (Seen H) :=
  if edge.parent < first ∨ edge.parent ≥ first + records.length then
    .error "forest validation scratch parent is out of range"
  else
    let offset := edge.parent - first
    let parent := records.getD offset .blank
    let side := if parent.left = edge.child then 1 else if parent.right = edge.child then 2 else 0
    if parent.type ≠ .branch ∨ side = 0 ∨ w.seen offset &&& side ≠ 0 then
      .error "online branch child has an inconsistent parent"
    else if w.seen offset = 0 then
      .ok ⟨Function.update w.pending offset edge.hash, Function.update w.seen offset (w.seen offset ||| side)⟩
    else
      let combined := if side = 1 then parentHash edge.hash (w.pending offset) else parentHash (w.pending offset) edge.hash
      if combined ≠ parent.hash then .error "online branch hash does not match its children"
      else .ok { w with seen := Function.update w.seen offset (w.seen offset ||| side) }

/-- One child id of the branch `id`. Children in other windows come as edges. -/
def checkChild [DecidableEq H] (first : Nat) (records : List (NodeRecord H)) (id : Nat) (w : Seen H) (child : Nat) :
    Except String (Seen H) :=
  if child < first ∨ child ≥ first + records.length then .ok w
  else
    let descendant := records.getD (child - first) .blank
    if descendant.type = .free then .error "online branch has a missing child"
    else if descendant.parent ≠ id then .error "online branch child has an inconsistent parent"
    else showChild first records w ⟨descendant.hash, child, id⟩

/-- The index is `none` once an insertion has run into a loop without end. -/
structure SecondPass (H : Type) where
  index : Option KeylessLeafIndex
  window : Seen H

def SecondPass.start (capacity : Nat) : SecondPass H := ⟨some (.clear capacity), fun _ => ForestHash.null, fun _ => 0⟩

def validateRecord [DecidableEq H] (a : NodeArena H) (first : Nat) (records : List (NodeRecord H)) (s : SecondPass H)
    (entry : NodeRecord H × Nat) : Except String (SecondPass H) :=
  let id := first + entry.2
  match if entry.1.type = .leaf then s.index.bind (·.insert a entry.1.hash id) else s.index with
  | none => .ok { s with index := none }
  | some index =>
    if entry.1.type ≠ .branch then .ok { s with index := some index }
    else ([entry.1.left, entry.1.right].foldlM (checkChild first records id) s.window).map fun w => ⟨some index, w⟩

def checkSeen (records : List (NodeRecord H)) (w : Seen H) : Except String Unit :=
  if ∃ entry ∈ records.zipIdx, entry.1.type = .branch ∧ w.seen entry.2 ≠ 3 then
    .error "online branch has a missing child or inconsistent parent"
  else .ok ()

def validateWindow [DecidableEq H] (a : NodeArena H) (slots : Nat) (edges : Nat → List (Edge H)) (s : SecondPass H)
    (first : Nat) (records : List (NodeRecord H)) : Except String (SecondPass H) :=
  match records.zipIdx.foldlM (validateRecord a first records) { s with window := ⟨s.window.pending, fun _ => 0⟩ } with
  | .error message => .error message
  | .ok ⟨none, w⟩ => .ok ⟨none, w⟩
  | .ok ⟨some index, w⟩ =>
    match (edges (first / slots)).foldlM (showChild first records) w with
    | .error message => .error message
    | .ok w => (checkSeen records w).map fun _ => ⟨some index, w⟩

/-! ## The whole -/

omit [ForestHash H] in
/-- The free ids come sorted, so `is_sorted` and `adjacent_find` ask for an ascending list. -/
def NodeArena.loadBookkeeping (a : NodeArena H) (next : Nat) (freeIds : List Nat) : Except String (NodeArena H) :=
  if a.mapped = false ∨ next ≥ noNode ∨ ¬freeIds.Pairwise (· < ·) ∨ (∃ id ∈ freeIds.getLast?, id ≥ next) then
    .error "validated startup cache has invalid free-node bookkeeping"
  else
    .ok { a with next, freeStack := freeIds.reverse, freeSet := freeIds.toFinset, live := next - freeIds.length }

namespace PackedForest

def rebuildIndexAndValidate [DecidableEq H] (f : PackedForest H) (slots : Nat) :
    Except Fault (Except String (PackedForest H)) :=
  let roots := f.roots.toList
  match f.arena.forEachWindow slots (scanWindow roots slots f.arena.next) .start with
  | .error fault => .error fault
  | .ok (.error message) => .ok (.error message)
  | .ok (.ok s) =>
    if ∃ root ∈ roots, root ≠ noNode ∧ root ≥ f.arena.next then .ok (.error "online forest has an invalid root")
    else
      match f.arena.loadBookkeeping f.arena.next s.freeIds with
      | .error message => .ok (.error message)
      | .ok arena =>
        let required := max 16 ((s.leafCount * 10 + 7) / 8)
        if required > 2 ^ 64 - 1 then .ok (.error "online leaf index exceeds addressable memory")
        else
          match arena.forEachWindow slots (validateWindow arena slots s.edges) (.start required) with
          | .error fault => .error fault
          | .ok (.error message) => .ok (.error message)
          | .ok (.ok ⟨none, _⟩) => .error .diverges
          | .ok (.ok ⟨some index, _⟩) =>
            if s.leafCount ≠ index.size then .ok (.error "online leaf index reconstruction failed")
            else .ok (.ok { f with arena, index })

end PackedForest

end UtreexoBridge
