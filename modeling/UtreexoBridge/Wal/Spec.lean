import UtreexoBridge.Arena.Spec
import UtreexoBridge.Bytes.Reader

/-!
# WAL records (`SerializeWal`, `ParseWal`)

A record is a magic word, the payload size, the payload, a checksum over all
of it and a commit marker.
-/

namespace UtreexoBridge

open Bytes

/-- `Hash256` as the 32 bytes it is stored as, and `Sha512_256`. -/
class StoredHash (H : Type) extends ForestHash H where
  bytes : H → List UInt8
  ofBytes : List UInt8 → H
  sha512_256 : List UInt8 → H
  length_bytes : ∀ h, (bytes h).length = 32
  ofBytes_bytes : ∀ h, ofBytes (bytes h) = h

/-- `a + b` on `uint32_t`. -/
def add32 (a b : Nat) : Nat := (a + b) % 2 ^ 32

/-! ## Transactions -/

inductive WalKind
  | connect
  | disconnect
  deriving DecidableEq, Repr

def WalKind.code : WalKind → Nat
  | .connect => 1
  | .disconnect => 2

def WalKind.ofCode : Nat → Option WalKind
  | 1 => some .connect
  | 2 => some .disconnect
  | _ => none

structure WalTransaction (H : Type) where
  kind : WalKind
  lsn : Nat
  previous : ChainPoint H
  point : ChainPoint H
  beforeNumLeaves : Nat
  afterNumLeaves : Nat
  beforeNext : Nat
  afterNext : Nat
  beforeRoots : Vector Nat 64
  afterRoots : Vector Nat 64
  changes : List (NodeChange H)
  deriving DecidableEq

/-- The heights, added on `uint32_t`, fit the kind. -/
def WalTransaction.heightValid {H : Type} (t : WalTransaction H) : Bool :=
  match t.kind with
  | .connect => t.point.height = add32 t.previous.height 1
  | .disconnect => t.previous.height = add32 t.point.height 1

/-! ## Bytes -/

def walMagic : List UInt8 := [0x55, 0x54, 0x52, 0x57, 0x41, 0x4c, 0x30, 0x31]

def walCommit : List UInt8 := [0x43, 0x4f, 0x4d, 0x4d, 0x49, 0x54, 0x30, 0x31]

def onlineFormatVersion : Nat := 2

def legacyOnlineFormatVersion : Nat := 1

def checksumOffset : Nat := 14695981039346656037

def checksumPrime : Nat := 1099511628211

def extendChecksum (value : Nat) (bytes : List UInt8) : Nat :=
  bytes.foldl (fun value byte => word ((value ^^^ byte.toNat) * checksumPrime)) value

def checksum (bytes : List UInt8) : Nat := extendChecksum checksumOffset bytes

def NodeType.code : NodeType → Nat
  | .free => 0
  | .leaf => 1
  | .branch => 2
  | .other code => code

/-- `ReadRecord` accepts these types only. -/
def NodeType.ofCode : Nat → Option NodeType
  | 0 => some .free
  | 1 => some .leaf
  | 2 => some .branch
  | _ => none

section Write

variable {H : Type} [StoredHash H]

def appendRecord (r : NodeRecord H) : List UInt8 :=
  StoredHash.bytes r.hash ++ (appendUnsigned 4 r.parent ++ (appendUnsigned 4 r.left ++ (appendUnsigned 4 r.right ++
    (appendUnsigned 1 r.type.code ++ [0, 0, 0]))))

def appendPoint (p : ChainPoint H) : List UInt8 := appendUnsigned 4 p.height ++ StoredHash.bytes p.blockHash

def appendRoots (roots : Vector Nat 64) : List UInt8 := roots.toList.flatMap (appendUnsigned 4)

def appendChange (c : NodeChange H) : List UInt8 := appendUnsigned 4 c.id ++ (appendRecord c.before ++ appendRecord c.after)

def walMetadata (t : WalTransaction H) : List UInt8 :=
  appendUnsigned 4 onlineFormatVersion ++ (appendUnsigned 4 t.kind.code ++ (appendUnsigned 8 t.lsn ++
    (appendPoint t.previous ++ (appendPoint t.point ++ (appendUnsigned 8 t.beforeNumLeaves ++
      (appendUnsigned 8 t.afterNumLeaves ++ (appendUnsigned 4 t.beforeNext ++ appendUnsigned 4 t.afterNext)))))))

def walPayload (t : WalTransaction H) : List UInt8 :=
  walMetadata t ++ (appendRoots t.beforeRoots ++ (appendRoots t.afterRoots ++
    (appendUnsigned 8 t.changes.length ++ t.changes.flatMap appendChange)))

def serializeWal (t : WalTransaction H) : List UInt8 :=
  let record := walMagic ++ (appendUnsigned 8 (walPayload t).length ++ walPayload t)
  record ++ (appendUnsigned 8 (checksum record) ++ walCommit)

end Write

section Read

variable {H : Type} [StoredHash H]

def readHash : Reader H := do
  let bytes ← readBytes 32
  return StoredHash.ofBytes bytes

def readRecord : Reader (NodeRecord H) := do
  let hash ← readHash
  let parent ← readUnsigned 4
  let left ← readUnsigned 4
  let right ← readUnsigned 4
  let code ← readUnsigned 1
  let type ← NodeType.ofCode code
  let _ ← readBytes 3
  return ⟨hash, parent, left, right, type⟩

def readPoint : Reader (ChainPoint H) := do
  let height ← readUnsigned 4
  let blockHash ← readHash
  return ⟨height, blockHash⟩

def readRoots : Reader (Vector Nat 64) := do
  let ids ← readMany (readUnsigned 4) 64
  return .ofFn fun row => ids.getD row noNode

def readChange : Reader (NodeChange H) := do
  let id ← readUnsigned 4
  let before ← readRecord
  let after ← readRecord
  return ⟨id, before, after, false⟩

def readVersion : Reader Unit := do
  let version ← readUnsigned 4
  guard (version = legacyOnlineFormatVersion ∨ version = onlineFormatVersion)

def readKind : Reader WalKind := do
  let code ← readUnsigned 4
  WalKind.ofCode code

/-- The fields before the roots, in a transaction with no roots and no changes yet. -/
def readMetadata : Reader (WalTransaction H) := do
  readVersion
  let kind ← readKind
  let lsn ← readUnsigned 8
  let previous ← readPoint
  let point ← readPoint
  let beforeNumLeaves ← readUnsigned 8
  let afterNumLeaves ← readUnsigned 8
  let beforeNext ← readUnsigned 4
  let afterNext ← readUnsigned 4
  return ⟨kind, lsn, previous, point, beforeNumLeaves, afterNumLeaves, beforeNext, afterNext,
    .replicate 64 0, .replicate 64 0, []⟩

def parsePayload (payload : List UInt8) : Except String (WalTransaction H) :=
  match readMetadata payload with
  | none => .error "invalid WAL transaction metadata"
  | some (t, payload) =>
    match readRoots payload with
    | none => .error "truncated WAL before-roots"
    | some (beforeRoots, payload) =>
      match readRoots payload with
      | none => .error "truncated WAL after-roots"
      | some (afterRoots, payload) =>
        match readUnsigned 8 payload with
        | none => .error "invalid WAL node-change count"
        | some (changeCount, payload) =>
          if changeCount > noNode then .error "invalid WAL node-change count"
          else
            match readMany readChange changeCount payload with
            | none => .error "truncated WAL node change"
            | some (changes, payload) =>
              if payload ≠ [] ∨ !t.heightValid ∨ t.afterNext ≥ noNode then .error "WAL transaction is inconsistent"
              else .ok { t with beforeRoots, afterRoots, changes }

/-- The magic word and the payload size. -/
def readHeader : Reader (List UInt8 × Nat) := do
  let magic ← readBytes 8
  let payloadSize ← readUnsigned 8
  return (magic, payloadSize)

def parseWal (record : List UInt8) : Except String (WalTransaction H) :=
  let offset := record.length - 16
  if record.length < 32 then .error "WAL record is truncated"
  else if record.drop (record.length - 8) ≠ walCommit then .error "WAL commit marker is missing"
  else if checksum (record.take offset) ≠ valueOf ((record.drop offset).take 8) then
    .error "committed WAL checksum mismatch"
  else
    match readHeader (record.take 16) with
    | none => .error "invalid WAL record header"
    | some ((magic, payloadSize), _) =>
      if magic ≠ walMagic ∨ payloadSize ≠ offset - 16 then .error "invalid WAL record header"
      else parsePayload ((record.drop 16).take payloadSize)

/-! ## Scanning a segment -/

/-- What stands at the front of the rest of a segment. -/
inductive NextRecord (H : Type)
  /-- Fewer bytes than a header. -/
  | short
  | badMagic
  /-- Fewer bytes than the header announces. -/
  | incomplete
  | invalid (message : String)
  | record (transaction : WalTransaction H) (size : Nat)

/-- The step that `RecoverSegment`, `ReadConnectTransaction` and `PruneWal` share. Sizes are added on `uint64_t`. -/
def nextRecord (bytes : List UInt8) : NextRecord H :=
  match readHeader bytes with
  | none => .short
  | some ((magic, payloadSize), _) =>
    if magic ≠ walMagic then .badMagic
    else
      let total := word (payloadSize + 32)
      if total > bytes.length then .incomplete
      else
        match parseWal (bytes.take total) with
        | .error message => .invalid message
        | .ok transaction => .record transaction total

end Read

end UtreexoBridge
