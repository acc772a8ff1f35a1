import UtreexoBridge.Forest.File
import UtreexoBridge.Online.Spec

/-!
# Checkpoints (`SaveCheckpoint`, `LoadCheckpoint`) and their compaction

A chain point, the hashes of the blocks up to it, a forest file and a checksum.
The compactor works on the bytes: it leaves the free slots out and renumbers
every node id that is stored.
-/

namespace UtreexoBridge

open Bytes

def checkpointFormatVersion : Nat := 3

def checkpointMagic : List UInt8 := [0x55, 0x54, 0x52, 0x43, 0x48, 0x4b, 0x50, 0x54]

variable {H : Type} [StoredHash H]

/-! ## Writing -/

/-- What comes before the forest. -/
def checkpointHeader (point : ChainPoint H) (chainHashes : List H) : List UInt8 :=
  checkpointMagic ++ (appendUnsigned 4 checkpointFormatVersion ++ (appendUnsigned 4 point.height ++
    (StoredHash.bytes point.blockHash ++ (appendUnsigned 8 chainHashes.length ++ chainHashes.flatMap StoredHash.bytes))))

def appendChecksum (payload : List UInt8) : List UInt8 := payload ++ appendUnsigned 8 (checksum payload)

def saveCheckpoint [DecidableEq H] (point : ChainPoint H) (forest : PackedForest H) (chainHashes : List H) :
    Except String (List UInt8) :=
  if chainHashes ≠ [] ∧ ¬ChainMatches point chainHashes then
    .error "checkpoint chain-hash index does not match its chain point"
  else .ok (appendChecksum (checkpointHeader point chainHashes ++ writeForest forest))

/-! ## Reading -/

def readCheckpointHeader [DecidableEq H] : Parser (ChainPoint H × List H) := do
  let magic ← reading "invalid or truncated checkpoint header" (readBytes 8)
  require (magic = checkpointMagic) "invalid or truncated checkpoint header"
  let version ← reading "invalid or truncated checkpoint header" (readUnsigned 4)
  let height ← reading "invalid or truncated checkpoint header" (readUnsigned 4)
  require (version = checkpointFormatVersion)
    "unsupported checkpoint version; pre-BIP30-fix checkpoints require reconstruction"
  let blockHash ← reading "truncated checkpoint chain point" readHash
  let chainHashCount ← reading "invalid checkpoint chain-hash count" (readUnsigned 8)
  require (chainHashCount ≤ height + 1) "invalid checkpoint chain-hash count"
  let chainHashes ← parseMany (reading "truncated checkpoint chain-hash index" readHash) chainHashCount
  require (chainHashes = [] ∨ ChainMatches ⟨height, blockHash⟩ chainHashes)
    "checkpoint chain-hash index does not match its chain point"
  return (⟨height, blockHash⟩, chainHashes)

/-- The checks before anything is read: the size and the checksum. -/
def checkpointIntact (bytes : List UInt8) : Except String Unit :=
  if bytes.length < 8 then .error "could not stat checkpoint or file is too short"
  else if checksum (bytes.take (bytes.length - 8)) ≠ valueOf (bytes.drop (bytes.length - 8)) then
    .error "checkpoint checksum mismatch"
  else .ok ()

structure LoadedCheckpoint (H : Type) where
  point : ChainPoint H
  chainHashes : List H
  forest : PackedForest H

/-- The stream ends at the checksum: its eight bytes are left. -/
def loadCheckpoint [DecidableEq H] (bytes : List UInt8) : Except Fault (Except String (LoadedCheckpoint H)) :=
  match checkpointIntact bytes with
  | .error message => .ok (.error message)
  | .ok () =>
    match (readCheckpointHeader : Parser (ChainPoint H × List H)) bytes with
    | .error message => .ok (.error message)
    | .ok ((point, chainHashes), body) =>
      match readForest body with
      | .error fault => .error fault
      | .ok (.error message) => .ok (.error message)
      | .ok (.ok (forest, rest)) =>
        if rest.length ≠ 8 then .ok (.error "checkpoint contains trailing or missing forest data")
        else .ok (.ok ⟨point, chainHashes, forest⟩)

/-! ## The compactor (`checkpoint_compact.cpp`) -/

namespace Compact

structure Header where
  prefixBytes : Nat
  slots : Nat
  leaves : Nat
  roots : List Nat

def parseRoot (slots : Nat) : Reader Nat := do
  let root ← readUnsigned 4
  guard (root = noNode ∨ root < slots)
  return root

def parseHeader : Reader Header := do
  let magic ← readBytes 8
  guard (magic = checkpointMagic)
  let version ← readUnsigned 4
  guard (version = checkpointFormatVersion)
  let height ← readUnsigned 4
  skip 32
  let chains ← readUnsigned 8
  guard (chains ≤ height + 1)
  skip (chains * 32)
  let magic ← readBytes 8
  guard (magic = forestMagic)
  let version ← readUnsigned 4
  let leaves ← readUnsigned 8
  let slots ← readUnsigned 8
  guard (version = forestFormatVersion ∧ slots < noNode)
  let roots ← readMany (parseRoot slots) 64
  -- `tellg` behind the chain hashes
  return ⟨8 + 4 + 4 + 32 + 8 + chains * 32, slots, leaves, roots⟩

/-- The first pass over the records: the new id of each live node, `NO_NODE` for a free one, and their number. -/
def mapNodes : Nat → Nat → Reader (List Nat × Nat)
  | 0, live => pure ([], live)
  | slots + 1, live => do
    let record ← readBytes recordBytes
    guard (record.headD 0 ≤ 2)
    if record.headD 0 = 0 then
      let (map, count) ← mapNodes slots live
      return (noNode :: map, count)
    else
      let (map, count) ← mapNodes slots (live + 1)
      return (live :: map, count)

def remapLink (map : List Nat) (bytes : List UInt8) : Option (List UInt8) :=
  let link := valueOf bytes
  if link ≠ noNode then
    if link ≥ map.length ∨ map.getD link noNode = noNode then none
    else some (appendUnsigned 4 (map.getD link noNode))
  else some (appendUnsigned 4 link)

/-- The links at the offsets 33, 37 and 41. -/
def remapRecord (map : List Nat) (record : List UInt8) : Option (List UInt8) := do
  let parent ← remapLink map ((record.drop 33).take 4)
  let left ← remapLink map ((record.drop 37).take 4)
  let right ← remapLink map ((record.drop 41).take 4)
  return record.take 33 ++ (parent ++ (left ++ right))

def remapNodes (map : List Nat) : Nat → Parser (List UInt8)
  | 0 => pure []
  | slots + 1 => do
    let record ← reading "input changed during compaction" (readBytes recordBytes)
    if record.headD 0 = 0 then remapNodes map slots
    else
      let remapped ← reading "live node references invalid node" (liftM (remapRecord map record))
      let rest ← remapNodes map slots
      return remapped ++ rest

def hashAt (records : List UInt8) (id : Nat) : Option (List UInt8) :=
  (readBytes 32 (records.drop (id * recordBytes + 1))).map (·.1)

def rootHashesMatch (source : List UInt8) (header : Header) (compact : List UInt8) (map : List Nat) : Bool :=
  match parseHeader source, parseHeader compact with
  | some (_, sourceRecords), some (_, compactRecords) =>
    header.roots.all fun root =>
      root = noNode || (hashAt sourceRecords root).isSome &&
        hashAt sourceRecords root = hashAt compactRecords (map.getD root noNode)
  | _, _ => false

def output (source : List UInt8) (header : Header) (map : List Nat) (live : Nat) (nodes : List UInt8) : List UInt8 :=
  appendChecksum (source.take header.prefixBytes ++ (forestMagic ++ (appendUnsigned 4 forestFormatVersion ++
    (appendUnsigned 8 header.leaves ++ (appendUnsigned 8 live ++
      (header.roots.flatMap (fun root => appendUnsigned 4 (if root = noNode then noNode else map.getD root noNode)) ++
        nodes))))))

/-- `main`, from the bytes of `INPUT` to those of `OUTPUT`. -/
def compactCheckpoint (source : List UInt8) : Except String (List UInt8) :=
  if source.length < 8 then .error "cannot stat input checkpoint"
  else if checksum (source.take (source.length - 8)) ≠ valueOf (source.drop (source.length - 8)) then
    .error "input checkpoint checksum mismatch"
  else
    match parseHeader source with
    | none => .error "unsupported or malformed checkpoint"
    | some (header, records) =>
      -- no bytes cannot be mapped
      if header.slots = 0 then .error "cannot map node-ID table"
      else
        match mapNodes header.slots 0 records with
        | none => .error "malformed node record"
        | some ((map, live), _) =>
          if ∃ root ∈ header.roots, root ≠ noNode ∧ map.getD root noNode = noNode then
            .error "root refers to a free node"
          else
            match remapNodes map header.slots records with
            | .error message => .error message
            | .ok (nodes, _) =>
              let compact := output source header map live nodes
              if rootHashesMatch source header compact map then .ok compact
              else .error "compact checkpoint root verification failed"

end Compact

end UtreexoBridge
