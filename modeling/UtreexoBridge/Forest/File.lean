import UtreexoBridge.Forest.Spec
import UtreexoBridge.Wal.Spec
import UtreexoBridge.Bytes.Parser

/-!
# Forest files (`WriteForest`, `ReadForest`)

The arena slot by slot, free slots included. The reader rebuilds the free list,
the live count and the index.
-/

namespace UtreexoBridge

open Bytes

/-! ## Writing -/

def forestMagic : List UInt8 := [0x55, 0x54, 0x52, 0x46, 0x4f, 0x52, 0x53, 0x54]

def forestFormatVersion : Nat := 1

variable {H : Type} [StoredHash H]

/-- A node of the file: its type, its hash and its links. -/
def writeNode (r : NodeRecord H) : List UInt8 :=
  appendUnsigned 1 r.type.code ++ (StoredHash.bytes r.hash ++ (appendUnsigned 4 r.parent ++ (appendUnsigned 4 r.left ++
    appendUnsigned 4 r.right)))

def writeForest (f : PackedForest H) : List UInt8 :=
  forestMagic ++ (appendUnsigned 4 forestFormatVersion ++ (appendUnsigned 8 f.numLeaves ++
    (appendUnsigned 8 f.arena.next ++ (appendRoots f.roots ++
      (List.range f.arena.next).flatMap fun id => writeNode (f.arena.read id)))))

/-! ## Reading -/

def linkValid (slots link : Nat) : Prop := link = noNode ∨ link < slots

instance (slots link : Nat) : Decidable (linkValid slots link) := inferInstanceAs (Decidable (_ ∨ _))

def readForestRoots (slots : Nat) : Nat → Parser (List Nat)
  | 0 => pure []
  | count + 1 => do
    let root ← reading "truncated forest roots" (readUnsigned 4)
    require (linkValid slots root) "forest root is out of range"
    let roots ← readForestRoots slots count
    return root :: roots

def readNode (slots : Nat) : Parser (NodeRecord H) := do
  let rawType ← reading "truncated node type" (readUnsigned 1)
  let hash ← reading "truncated node record" (readBytes 32)
  let parent ← reading "truncated node record" (readUnsigned 4)
  let left ← reading "truncated node record" (readUnsigned 4)
  let right ← reading "truncated node record" (readUnsigned 4)
  let type ← reading "invalid node type" (liftM (NodeType.ofCode rawType))
  require (linkValid slots parent ∧ linkValid slots left ∧ linkValid slots right) "node link is out of range"
  return ⟨StoredHash.ofBytes hash, parent, left, right, type⟩

def NodeArena.importNode (a : NodeArena H) (id : Nat) (record : NodeRecord H) : NodeArena H :=
  let a := { a.write id record with next := max a.next (id + 1) }
  if record.type = .free then { a with freeStack := id :: a.freeStack } else { a with live := a.live + 1 }

def readNodes (slots : Nat) : Nat → Nat → NodeArena H → Parser (NodeArena H)
  | 0, _, a => pure a
  | count + 1, id, a => do
    let record ← readNode slots
    readNodes slots count (id + 1) (a.importNode id record)

/-- The second loop of `ReadForest`: the index and the number of leaves. -/
def indexNodes [DecidableEq H] (a : NodeArena H) :
    List Nat → KeylessLeafIndex → Nat → Except Fault (Except String (KeylessLeafIndex × Nat))
  | [], index, leafCount => .ok (.ok (index, leafCount))
  | id :: ids, index, leafCount =>
    let record := a.read id
    match record.type with
    | .leaf =>
      if record.left ≠ noNode ∨ record.right ≠ noNode then .ok (.error "leaf has children")
      else
        match index.insert a record.hash id with
        | none => .error .diverges
        | some index => indexNodes a ids index (leafCount + 1)
    | .branch =>
      if record.left = noNode ∨ record.right = noNode ∨ !a.isLive record.left ∨ !a.isLive record.right then
        .ok (.error "branch has a missing child")
      else if (a.read record.left).parent ≠ id ∨ (a.read record.right).parent ≠ id then
        .ok (.error "branch child has an inconsistent parent")
      else if parentHash (a.read record.left).hash (a.read record.right).hash ≠ record.hash then
        .ok (.error "branch hash does not match its children")
      else indexNodes a ids index leafCount
    | _ => indexNodes a ids index leafCount

def readSections : Parser (Nat × Nat × List Nat × NodeArena H) := do
  let magic ← reading "invalid forest magic" (readBytes 8)
  require (magic = forestMagic) "invalid forest magic"
  let version ← reading "truncated forest header" (readUnsigned 4)
  let leaves ← reading "truncated forest header" (readUnsigned 8)
  let slots ← reading "truncated forest header" (readUnsigned 8)
  require (version = forestFormatVersion) "unsupported forest version"
  require (slots < noNode) "forest node count exceeds the NodeId range"
  let roots ← readForestRoots slots 64
  let arena ← readNodes slots slots 0 .new
  return (leaves, slots, roots, arena)

/-- The forest and the rest of the stream. -/
def readForest [DecidableEq H] (bytes : List UInt8) : Except Fault (Except String (PackedForest H × List UInt8)) :=
  match readSections bytes with
  | .error message => .ok (.error message)
  | .ok ((leaves, slots, roots, arena), rest) =>
    match indexNodes arena (List.range slots) .new 0 with
    | .error fault => .error fault
    | .ok (.error message) => .ok (.error message)
    | .ok (.ok (index, leafCount)) =>
      if leafCount ≠ index.size then .ok (.error "leaf index reconstruction failed")
      else .ok (.ok (⟨arena, index, Vector.ofFn fun row => (roots[row.val]?).getD noNode, leaves⟩, rest))

end UtreexoBridge
