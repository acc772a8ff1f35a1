import UtreexoBridge.Sync.Spec
import UtreexoBridge.Wal.Spec

/-!
# The records of the proof archive (`proof_store.cpp`)

Fixed-size records in the index WAL point at variable-size records in the data
file. A data record is a header, the accumulator state with its digest, the
proof payload, a digest over all of it and a commit marker.
-/

namespace UtreexoBridge

open Bytes

/-- `Hash256` with `Sha256`. -/
class ArchiveHash (H : Type) extends StoredHash H where
  sha256 : List UInt8 → H

/-- `a - b` on `uint32_t`. -/
def sub32 (a b : Nat) : Nat := if b ≤ a then a - b else 2 ^ 32 - (b - a)

namespace Archive

def dataMagic : List UInt8 := [0x55, 0x50, 0x52, 0x46, 0x44, 0x41, 0x54, 0x31]

def dataCommit : List UInt8 := [0x55, 0x50, 0x52, 0x46, 0x44, 0x4f, 0x4e, 0x45]

def walMagic : List UInt8 := [0x55, 0x50, 0x52, 0x46, 0x57, 0x41, 0x4c, 0x31]

def walCommit : List UInt8 := [0x55, 0x50, 0x52, 0x46, 0x43, 0x4d, 0x54, 0x31]

def storeFormat : Nat := 2

def legacyStoreFormat : Nat := 1

def dataHeaderSize : Nat := 88

def statePrefixSize : Nat := 16

def stateDigestSize : Nat := 32

def maxStateSize : Nat := statePrefixSize + 64 * 32 + stateDigestSize

def dataFooterSize : Nat := 32 + 8

def walPrefixSize : Nat := 136

def walRecordSize : Nat := walPrefixSize + 32 + 8

inductive WalKind
  | base
  | connect
  | truncate
  deriving DecidableEq, Repr

def WalKind.code : WalKind → Nat
  | .base => 1
  | .connect => 2
  | .truncate => 3

def WalKind.ofCode : Nat → Option WalKind
  | 1 => some .base
  | 2 => some .connect
  | 3 => some .truncate
  | _ => none

structure WalEvent (H : Type) where
  formatVersion : Nat := storeFormat
  kind : WalKind
  point : ChainPoint H
  previousHash : H
  dataOffset : Nat
  dataSize : Nat
  dataDigest : H
  deriving DecidableEq

variable {H : Type} [ArchiveHash H]

/-! ## The index WAL -/

def walPrefix (event : WalEvent H) : List UInt8 :=
  walMagic ++ (appendUnsigned 4 event.formatVersion ++ (appendUnsigned 4 event.kind.code ++
    (appendUnsigned 4 event.point.height ++ (appendUnsigned 4 0 ++ (StoredHash.bytes event.point.blockHash ++
      (StoredHash.bytes event.previousHash ++ (appendUnsigned 8 event.dataOffset ++ (appendUnsigned 8 event.dataSize ++
        StoredHash.bytes event.dataDigest))))))))

def serializeWal (event : WalEvent H) : List UInt8 :=
  walPrefix event ++ (StoredHash.bytes (ArchiveHash.sha256 (walPrefix event) : H) ++ walCommit)

def readStoreVersion : Reader Nat := do
  let version ← readUnsigned 4
  guard (legacyStoreFormat ≤ version ∧ version ≤ storeFormat)
  return version

def readMagic (magic : List UInt8) : Reader Unit := do
  let bytes ← readBytes magic.length
  guard (bytes = magic)

def readReserved : Reader Unit := do
  let reserved ← readUnsigned 4
  guard (reserved = 0)

def readWalKind : Reader WalKind := do
  let code ← readUnsigned 4
  WalKind.ofCode code

def readEvent : Reader (WalEvent H) := do
  readMagic walMagic
  let formatVersion ← readStoreVersion
  let kind ← readWalKind
  let height ← readUnsigned 4
  readReserved
  let blockHash ← readHash
  let previousHash ← readHash
  let dataOffset ← readUnsigned 8
  let dataSize ← readUnsigned 8
  let dataDigest ← readHash
  return ⟨formatVersion, kind, ⟨height, blockHash⟩, previousHash, dataOffset, dataSize, dataDigest⟩

/-- The slot ends with the commit marker. -/
def committed (bytes : List UInt8) : Bool := bytes.drop (bytes.length - walCommit.length) = walCommit

variable [DecidableEq H]

def parseWal (bytes : List UInt8) : Except String (WalEvent H) :=
  if bytes.length ≠ walRecordSize then .error "invalid proof WAL record size"
  else if !committed bytes then .error "proof WAL commit marker is missing"
  else if (ArchiveHash.sha256 (bytes.take walPrefixSize) : H) ≠
      StoredHash.ofBytes ((bytes.drop walPrefixSize).take 32) then
    .error "committed proof WAL checksum mismatch"
  else
    match readEvent (bytes.take walPrefixSize) with
    | some (event, []) => .ok event
    | _ => .error "invalid proof WAL fields"

structure WalEvent.Fits (event : WalEvent H) : Prop where
  version : legacyStoreFormat ≤ event.formatVersion ∧ event.formatVersion ≤ storeFormat
  height : event.point.height < 2 ^ 32
  dataOffset : event.dataOffset < 2 ^ 64
  dataSize : event.dataSize < 2 ^ 64

omit [DecidableEq H] in
theorem reads_hash (h : H) : Reads readHash (StoredHash.bytes h) h := by
  have hbytes := reads_bytes (StoredHash.bytes h)
  rw [StoredHash.length_bytes] at hbytes
  refine hbytes.bind_last ?_
  rw [StoredHash.ofBytes_bytes]
  exact reads_pure h

omit [DecidableEq H] in
theorem length_hashes (hashes : List H) : (hashes.flatMap StoredHash.bytes).length = 32 * hashes.length := by
  induction hashes with
  | nil => rfl
  | cons h hashes ih =>
    rw [List.flatMap_cons, List.length_append, StoredHash.length_bytes, ih, List.length_cons]
    omega

theorem reads_magic (magic : List UInt8) : Reads (readMagic magic) magic () :=
  (reads_bytes magic).bind_last (reads_guard rfl)

theorem reads_reserved : Reads readReserved (appendUnsigned 4 0) () :=
  (reads_unsigned (by decide)).bind_last (reads_guard rfl)

theorem reads_storeVersion {version : Nat} (h : legacyStoreFormat ≤ version ∧ version ≤ storeFormat) :
    Reads readStoreVersion (appendUnsigned 4 version) version := by
  have hlt : version < 256 ^ 4 := by
    have := h.2
    unfold storeFormat at this
    omega
  exact (reads_unsigned hlt).bind_last ((reads_guard h).bind_nil (reads_pure version))

theorem reads_walKind (kind : WalKind) : Reads readWalKind (appendUnsigned 4 kind.code) kind := by
  have hcode : kind.code < 256 ^ 4 := by cases kind <;> decide
  exact (reads_unsigned hcode).bind_last (reads_lift (by cases kind <;> rfl))

omit [DecidableEq H] in
theorem reads_event {event : WalEvent H} (h : event.Fits) : Reads readEvent (walPrefix event) event := by
  refine (reads_magic walMagic).bind ((reads_storeVersion h.version).bind ((reads_walKind event.kind).bind
    ((reads_unsigned h.height).bind (reads_reserved.bind ((reads_hash event.point.blockHash).bind
      ((reads_hash event.previousHash).bind ((reads_unsigned h.dataOffset).bind ((reads_unsigned h.dataSize).bind
        ((reads_hash event.dataDigest).bind_last (reads_pure _))))))))))

omit [DecidableEq H] in
theorem length_walPrefix (event : WalEvent H) : (walPrefix event).length = walPrefixSize := by
  simp only [walPrefix, List.length_append, length_appendUnsigned, StoredHash.length_bytes]
  rfl

omit [DecidableEq H] in
theorem length_serializeWal (event : WalEvent H) : (serializeWal event).length = walRecordSize := by
  simp only [serializeWal, List.length_append, length_walPrefix, StoredHash.length_bytes]
  rfl

omit [DecidableEq H] in
theorem committed_serializeWal (event : WalEvent H) : committed (serializeWal event) = true := by
  unfold committed
  rw [length_serializeWal]
  have hsplit : serializeWal event =
      (walPrefix event ++ StoredHash.bytes (ArchiveHash.sha256 (walPrefix event) : H)) ++ walCommit := by
    rw [serializeWal, List.append_assoc]
  have hfront : walRecordSize - walCommit.length =
      (walPrefix event ++ StoredHash.bytes (ArchiveHash.sha256 (walPrefix event) : H)).length := by
    rw [List.length_append, length_walPrefix, StoredHash.length_bytes]
    rfl
  rw [hsplit, hfront, List.drop_left]
  exact decide_eq_true rfl

theorem parseWal_serializeWal {event : WalEvent H} (h : event.Fits) : parseWal (serializeWal event) = .ok event := by
  have htake : (serializeWal event).take walPrefixSize = walPrefix event := by
    rw [← length_walPrefix event, serializeWal, List.take_left]
  have hdigest : ((serializeWal event).drop walPrefixSize).take 32 =
      StoredHash.bytes (ArchiveHash.sha256 (walPrefix event) : H) := by
    rw [← length_walPrefix event, serializeWal, List.drop_left,
      ← StoredHash.length_bytes (ArchiveHash.sha256 (walPrefix event) : H), List.take_left]
  have hread : readEvent (walPrefix event) = some (event, []) := by
    have := reads_event h []
    rwa [List.append_nil] at this
  unfold parseWal
  rw [if_neg (by simp [length_serializeWal]), if_neg (by simp [committed_serializeWal]), htake, hdigest,
    StoredHash.ofBytes_bytes, if_neg (by simp), hread]

/-! ## Accumulator states -/

omit [ArchiveHash H] [DecidableEq H] in
def validateAccumulatorState (state : AccumulatorState H) : Except String Unit :=
  if state.roots.length ≠ popcount state.numLeaves then
    .error "accumulator state root count does not match the number of occupied rows"
  else .ok ()

def appendAccumulatorState (state : AccumulatorState H) : List UInt8 :=
  appendUnsigned 8 state.numLeaves ++ (appendUnsigned 4 state.roots.length ++ (appendUnsigned 4 0 ++
    state.roots.flatMap StoredHash.bytes))

def stateDomain : List UInt8 := [0x55, 0x50, 0x52, 0x46, 0x53, 0x54, 0x41, 0x32]

def accumulatorStateDigest (state : AccumulatorState H) : H :=
  ArchiveHash.sha256 (stateDomain ++ (appendUnsigned 4 state.point.height ++
    (StoredHash.bytes state.point.blockHash ++ appendAccumulatorState state)))

def commitmentDomain : List UInt8 := [0x55, 0x50, 0x52, 0x46, 0x43, 0x4d, 0x54, 0x32]

def recordCommitment (recordDigest stateDigest : H) : H :=
  ArchiveHash.sha256 (commitmentDomain ++ (StoredHash.bytes recordDigest ++ StoredHash.bytes stateDigest))

/-- The leaf count and the root count. -/
def readStatePrefix : Reader (Nat × Nat) := do
  let numLeaves ← readUnsigned 8
  let rootCount ← readUnsigned 4
  readReserved
  return (numLeaves, rootCount)

def parseAccumulatorState (bytes : List UInt8) (point : ChainPoint H) : Except String (AccumulatorState H) :=
  match readStatePrefix bytes with
  | none => .error "stored accumulator state is malformed"
  | some ((numLeaves, rootCount), rest) =>
    if rootCount > 64 ∨ bytes.length ≠ statePrefixSize + rootCount * 32 then
      .error "stored accumulator state is malformed"
    else
      match readMany readHash rootCount rest with
      | none => .error "stored accumulator state root is truncated"
      | some (roots, rest) =>
        if rest ≠ [] then .error "stored accumulator state has trailing data"
        else
          (validateAccumulatorState ⟨point, numLeaves, roots⟩).map fun _ => ⟨point, numLeaves, roots⟩

def parseAuthenticatedState (bytes : List UInt8) (point : ChainPoint H) : Except String (AccumulatorState H) :=
  if bytes.length < statePrefixSize + stateDigestSize ∨ bytes.length > maxStateSize then
    .error "stored authenticated state size is invalid"
  else
    match parseAccumulatorState (bytes.take (bytes.length - stateDigestSize)) point with
    | .error message => .error message
    | .ok state =>
      if StoredHash.ofBytes (bytes.drop (bytes.length - stateDigestSize)) ≠ accumulatorStateDigest state then
        .error "stored accumulator state checksum mismatch"
      else .ok state

/-! ## Data records -/

/-- The version, the point, the previous hash and the payload size of a data record. -/
structure DataHeader (H : Type) where
  version : Nat
  point : ChainPoint H
  previousHash : H
  payloadSize : Nat

def dataHeader (point : ChainPoint H) (previousHash : H) (payloadSize : Nat) : List UInt8 :=
  dataMagic ++ (appendUnsigned 4 storeFormat ++ (appendUnsigned 4 point.height ++ (StoredHash.bytes point.blockHash ++
    (StoredHash.bytes previousHash ++ appendUnsigned 8 payloadSize))))

def readDataHeader : Reader (DataHeader H) := do
  readMagic dataMagic
  let version ← readStoreVersion
  let height ← readUnsigned 4
  let blockHash ← readHash
  let previousHash ← readHash
  let payloadSize ← readUnsigned 8
  return ⟨version, ⟨height, blockHash⟩, previousHash, payloadSize⟩

/-- A data record and the digest that its WAL record commits to. -/
def dataRecord (point : ChainPoint H) (previousHash : H) (state : AccumulatorState H) (payload : List UInt8) :
    List UInt8 × H :=
  let record := dataHeader point previousHash payload.length ++ (appendAccumulatorState state ++
    (StoredHash.bytes (accumulatorStateDigest state) ++ payload))
  let recordDigest : H := ArchiveHash.sha256 record
  (record ++ (StoredHash.bytes recordDigest ++ dataCommit),
    recordCommitment recordDigest (accumulatorStateDigest state))

/-- `PreadExact`. An offset beyond `off_t` is beyond the file. -/
def preadExact (file : List UInt8) (size offset : Nat) : Except String (List UInt8) :=
  if offset + size ≤ file.length then .ok ((file.drop offset).take size) else .error "proof-store file is truncated"

def parseBaseStateRecord (expectedPoint : ChainPoint H) (expectedDigest : H) (bytes : List UInt8) :
    Except String (AccumulatorState H) :=
  if bytes.length < dataHeaderSize + statePrefixSize + stateDigestSize + dataFooterSize then
    .error "stored base-state record is truncated"
  else if bytes.drop (bytes.length - dataCommit.length) ≠ dataCommit then
    .error "stored base-state commit marker is missing"
  else
    let storedDigest : H := StoredHash.ofBytes ((bytes.drop (bytes.length - dataFooterSize)).take 32)
    if ArchiveHash.sha256 (bytes.take (bytes.length - dataFooterSize)) ≠ storedDigest then
      .error "stored base-state checksum mismatch"
    else
      match readDataHeader (bytes.take dataHeaderSize) with
      | some (header, []) =>
        if header.version ≠ storeFormat ∨ header.point ≠ expectedPoint ∨ header.previousHash ≠ ForestHash.null ∨
            header.payloadSize ≠ 0 then
          .error "stored base-state header is inconsistent"
        else
          let body := (bytes.drop dataHeaderSize).take (bytes.length - dataHeaderSize - dataFooterSize)
          match parseAuthenticatedState body expectedPoint with
          | .error message => .error message
          | .ok state =>
            if recordCommitment storedDigest (accumulatorStateDigest state) ≠ expectedDigest then
              .error "stored base-state commitment does not match its WAL record"
            else .ok state
      | _ => .error "stored base-state header is inconsistent"

/-- The state part of `ValidateDataEnvelope`: legacy records have none. -/
def envelopeState (data : List UInt8) (event : WalEvent H) (base : Bool) (header : DataHeader H) :
    Except String (Option (AccumulatorState H)) :=
  let bodySize := event.dataSize - dataHeaderSize - dataFooterSize
  if header.version = legacyStoreFormat then
    if base ∨ header.payloadSize ≠ bodySize then .error "legacy proof data size does not match its WAL record"
    else .ok none
  else if bodySize < statePrefixSize + stateDigestSize ∨
      header.payloadSize > bodySize - statePrefixSize - stateDigestSize then
    .error "state-bearing proof data is truncated"
  else
    let stateSize := bodySize - header.payloadSize
    if stateSize < statePrefixSize + stateDigestSize ∨ stateSize > maxStateSize then
      .error "stored accumulator state size is invalid"
    else
      match preadExact data stateSize (event.dataOffset + dataHeaderSize) with
      | .error message => .error message
      | .ok bytes => (parseAuthenticatedState bytes event.point).map some

def validateDataEnvelope (data : List UInt8) (event : WalEvent H) (base : Bool) :
    Except String (Option (AccumulatorState H)) := do
  let bytes ← preadExact data dataHeaderSize event.dataOffset
  match readDataHeader bytes with
  | some (header, []) =>
    if header.version ≠ event.formatVersion ∨ header.point ≠ event.point ∨ header.previousHash ≠ event.previousHash ∨
        (base ∧ header.payloadSize ≠ 0) then
      throw "proof data header does not match its WAL record"
    if event.dataSize < dataHeaderSize + dataFooterSize then
      throw "proof data record is shorter than its envelope"
    let state ← envelopeState data event base header
    let footer ← preadExact data dataFooterSize (event.dataOffset + event.dataSize - dataFooterSize)
    let recordDigest : H := StoredHash.ofBytes (footer.take 32)
    let commitment := state.elim recordDigest fun state => recordCommitment recordDigest (accumulatorStateDigest state)
    if commitment ≠ event.dataDigest ∨ footer.drop 32 ≠ dataCommit then
      throw "proof data footer does not match its WAL record"
    if base then
      let bytes ← preadExact data event.dataSize event.dataOffset
      let state ← parseBaseStateRecord event.point event.dataDigest bytes
      return some state
    return state
  | _ => throw "proof data header does not match its WAL record"

end Archive

end UtreexoBridge
