import UtreexoBridge.Archive.Records

/-!
# The running archive (`ProofStore::Impl`)

`Enqueue` queues a block, serializer threads turn queued blocks into records in
any order, and one writer commits the records that are ready in height order.
A step that takes a lock is one step here, and so is each file write.
-/

namespace UtreexoBridge.Archive

open Bytes

structure ProofStoreConfig where
  serializerThreads : Nat
  groupCommitBlocks : Nat
  groupCommitDelayMs : Nat
  maxQueuedBlocks : Nat
  maxQueuedBytes : Nat
  maxRecordBytes : Nat

/-- The limits that `Initialize` checks. -/
def ProofStoreConfig.Valid (config : ProofStoreConfig) : Prop :=
  config.serializerThreads ≠ 0 ∧ config.serializerThreads ≤ 64 ∧ config.groupCommitBlocks ≠ 0 ∧
    config.groupCommitBlocks ≤ 4096 ∧ config.groupCommitDelayMs ≤ 10000 ∧ config.maxQueuedBlocks ≠ 0 ∧
    config.maxQueuedBytes ≠ 0 ∧ 1024 ≤ config.maxRecordBytes ∧ config.maxRecordBytes < 2 ^ 32

instance (config : ProofStoreConfig) : Decidable config.Valid := by
  unfold ProofStoreConfig.Valid
  infer_instance

/-- What `Enqueue` gets: the parts of the block's delta that it keeps, the proof and the state after the block. -/
structure ArchiveBlock (H : Type) where
  point : ChainPoint H
  previousBlockHash : H
  deletions : List H
  proofLeaves : List CompactLeafData
  proof : Proof H
  state : AccumulatorState H
  deriving DecidableEq

structure WorkItem (H : Type) where
  block : ArchiveBlock H
  accountedBytes : Nat

structure PreparedProof (H : Type) where
  point : ChainPoint H
  previousHash : H
  record : List UInt8
  digest : H
  accountedBytes : Nat

/-- Where `WriterLoop` is: it has taken a batch, has written its records, has written its WAL records. -/
inductive WriterPhase (H : Type)
  | idle
  | collected (batch : List (PreparedProof H))
  | dataWritten (batch : List (PreparedProof H)) (events : List (WalEvent H))
  | walWritten (batch : List (PreparedProof H)) (events : List (WalEvent H))

structure ProofStore (H : Type) where
  files : Files
  dataEnd : Nat
  walEnd : Nat
  basePoint : ChainPoint H
  durablePoint : ChainPoint H
  enqueuedPoint : ChainPoint H
  baseState : Option (AccumulatorState H)
  baseDataSize : Nat
  baseDataDigest : H
  /-- The entries of `index_map` up to the durable point. Those beyond are zero. -/
  index : List (DiskIndexEntry H)
  statePresent : List Bool
  hashToHeight : H → Option Nat
  input : List (WorkItem H)
  /-- What the serializer threads hold. -/
  serializing : List (WorkItem H)
  ready : Nat → Option (PreparedProof H)
  writer : WriterPhase H
  /-- The event that `Truncate` has written and not yet published. -/
  truncating : Option (WalEvent H)
  flushHeight : Option Nat
  queuedBlocks : Nat
  queuedBytes : Nat
  failure : Option String

def maxOffset : Nat := 2 ^ 63 - 1

def pwriteAll (file bytes : List UInt8) (offset : Nat) : Except String (List UInt8) :=
  if offset > maxOffset ∨ bytes.length > maxOffset - offset then
    .error "proof-store write offset exceeds the platform file limit"
  else
    .ok (file.take offset ++ List.replicate (offset - file.length) 0 ++ bytes ++ file.drop (offset + bytes.length))

variable {H : Type} [ArchiveHash H] [DecidableEq H]

/-! ## Records -/

/-- `add` in `AccountedBytes`. -/
def addSaturating (bytes amount : Nat) : Nat := if amount > 2 ^ 64 - 1 - bytes then 2 ^ 64 - 1 else bytes + amount

/-- `sizeof(CompactLeafData)`. -/
def compactLeafSize : Nat := 48

/-- The end of `AccountedBytes`, and the limit of one record. -/
def quadruple (bytes : Nat) : Nat := if bytes > (2 ^ 64 - 1) / 4 then 2 ^ 64 - 1 else bytes * 4

def accountedBytes (block : ArchiveBlock H) : Nat :=
  let sized := addSaturating 1024 (block.proof.targets.length * 8)
  let hashed := addSaturating sized (block.proof.hashes.length * 32)
  let deleted := addSaturating hashed (block.deletions.length * 32)
  let leaves := addSaturating deleted (block.proofLeaves.length * compactLeafSize)
  let scripts := block.proofLeaves.foldl (fun bytes leaf => addSaturating bytes leaf.script.length) leaves
  quadruple (addSaturating scripts (block.state.roots.length * 32 + statePrefixSize + stateDigestSize))

def ArchiveBlock.cached (block : ArchiveBlock H) : CachedBlockProof H :=
  { point := block.point, proof := block.proof, leaves := block.proofLeaves }

def prepareProof (item : WorkItem H) (maxRecordBytes : Nat) : Except String (PreparedProof H) := do
  let block := item.block
  if block.state.point ≠ block.point then
    throw "post-block accumulator state point does not match proof block"
  validateAccumulatorState block.state
  let payload ← serializeUtreexoProof block.cached (fullRequest block.point.blockHash) (2 ^ 64 - 1)
  if payload.length > maxRecordBytes ∨
      payload.length > 2 ^ 64 - 1 - dataHeaderSize - maxStateSize - dataFooterSize then
    throw "serialized block proof exceeds the proof-store record limit"
  let (record, digest) := dataRecord block.point block.previousBlockHash block.state payload
  return ⟨block.point, block.previousBlockHash, record, digest, item.accountedBytes⟩

def baseRecord (state : AccumulatorState H) : List UInt8 × H := dataRecord state.point ForestHash.null state []

def baseEvent (state : AccumulatorState H) : WalEvent H where
  kind := .base
  point := state.point
  previousHash := ForestHash.null
  dataOffset := 0
  dataSize := (baseRecord state).1.length
  dataDigest := (baseRecord state).2

/-- `Initialize` in an empty directory, with the base point of the base state. -/
def create (config : ProofStoreConfig) (state : AccumulatorState H) : Except String (ProofStore H) :=
  if ¬config.Valid then .error "invalid proof-store configuration"
  else do
    validateAccumulatorState state
    return {
      files := ⟨serializeWal (baseEvent state), (baseRecord state).1⟩
      dataEnd := (baseRecord state).1.length
      walEnd := (serializeWal (baseEvent state)).length
      basePoint := state.point
      durablePoint := state.point
      enqueuedPoint := state.point
      baseState := some state
      baseDataSize := (baseRecord state).1.length
      baseDataDigest := (baseRecord state).2
      index := []
      statePresent := []
      hashToHeight := fun _ => none
      input := []
      serializing := []
      ready := fun _ => none
      writer := .idle
      truncating := none
      flushHeight := none
      queuedBlocks := 0
      queuedBytes := 0
      failure := none }

namespace ProofStore

variable (config : ProofStoreConfig) (store : ProofStore H)

/-! ## Enqueueing -/

def hasCapacity (accounted : Nat) : Bool :=
  if accounted > config.maxQueuedBytes then store.queuedBlocks = 0 ∧ store.queuedBytes = 0
  else store.queuedBlocks < config.maxQueuedBlocks ∧ store.queuedBytes ≤ config.maxQueuedBytes - accounted

/-- `Enqueue`: `none` while it waits, for space or for `operation_mutex`. -/
def enqueue (block : ArchiveBlock H) : Except String (Option (ProofStore H)) :=
  if store.truncating.isSome then .ok none
  else if block.proof.targets.length ≠ block.deletions.length ∨ block.proofLeaves.length ≠ block.deletions.length then
    .error "block proof does not align with its deletion leaves"
  else if block.state.point ≠ block.point then
    .error "post-block accumulator state does not match the proof block"
  else do
    validateAccumulatorState block.state
    let accounted := accountedBytes block
    if accounted > quadruple config.maxRecordBytes then
      throw "one proof exceeds the proof-store record memory limit"
    match store.failure with
    | some message => throw message
    | none =>
      if !store.hasCapacity config accounted then return none
      if block.point.height ≠ add32 store.enqueuedPoint.height 1 ∨
          block.previousBlockHash ≠ store.enqueuedPoint.blockHash then
        throw "proof does not extend the enqueued archive tip"
      if (store.hashToHeight block.point.blockHash).isSome then
        throw "proof archive already contains this block hash"
      return some { store with
        input := store.input ++ [⟨block, accounted⟩]
        queuedBlocks := store.queuedBlocks + 1
        queuedBytes := store.queuedBytes + accounted
        enqueuedPoint := block.point }

/-- What `WaitDurable`, and `Enqueue` when there is no space, ask of the writer before they wait. -/
def requestFlush (height : Nat) : Option (ProofStore H) :=
  if store.durablePoint.height < height ∧ height ≤ store.enqueuedPoint.height then
    some { store with flushHeight := some (store.flushHeight.elim height (max · height)) }
  else none

/-! ## `SerializerLoop` -/

def setFailure (error : String) : ProofStore H :=
  if store.failure.isSome then store else { store with failure := some error }

/-- A serializer takes the next block. -/
def takeInput : Option (ProofStore H) :=
  if store.failure.isSome ∨ store.serializing.length ≥ config.serializerThreads then none
  else
    match store.input with
    | [] => none
    | item :: rest => some { store with input := rest, serializing := store.serializing ++ [item] }

/-- `ready.emplace`. -/
def emplaceReady (prepared : PreparedProof H) : ProofStore H :=
  if (store.ready prepared.point.height).isSome then store
  else { store with ready := Function.update store.ready prepared.point.height (some prepared) }

/-- The serializer that holds the `i`-th of the taken blocks is done with it. -/
def finishSerializing (i : Nat) : Option (ProofStore H) :=
  match store.serializing[i]? with
  | none => none
  | some item =>
    let rest := { store with serializing := store.serializing.eraseIdx i }
    match prepareProof item config.maxRecordBytes with
    | .error message =>
      some (rest.setFailure ("proof serialization failed at height " ++ toString item.block.point.height ++ ": " ++ message))
    | .ok prepared => some (if store.failure.isSome then rest else rest.emplaceReady prepared)

/-! ## `WriterLoop` -/

/-- The loop of `ContiguousReadyLocked`, `limit` rounds at most. -/
def contiguousReady : Nat → Nat → Nat
  | 0, _ => 0
  | limit + 1, height => if (store.ready height).isSome then contiguousReady limit (add32 height 1) + 1 else 0

def commitThreshold : Nat :=
  let target := store.durablePoint.height + config.groupCommitBlocks
  let target := match store.flushHeight with
    | some height => if height > store.durablePoint.height then min target height else target
    | none => target
  max 1 (target - store.durablePoint.height)

/-- The batch is moved out of `ready`. -/
def takeReady (ready : Nat → Option (PreparedProof H)) : Nat → Nat → List (PreparedProof H) × (Nat → Option (PreparedProof H))
  | 0, _ => ([], ready)
  | count + 1, height =>
    match ready height with
    | none => ([], ready)
    | some prepared =>
      let (batch, rest) := takeReady (Function.update ready height none) count (add32 height 1)
      (prepared :: batch, rest)

/-- The writer takes what is ready, once there is enough of it or the deadline has passed. -/
def collect (timedOut : Bool) : Option (ProofStore H) :=
  match store.writer with
  | .idle =>
    let first := add32 store.durablePoint.height 1
    let count := store.contiguousReady config.groupCommitBlocks first
    if store.failure.isSome ∨ (store.ready first).isNone ∨
        (count < store.commitThreshold config ∧ ¬(timedOut ∧ config.groupCommitDelayMs ≠ 0)) then none
    else
      let (batch, ready) := takeReady store.ready count first
      some { store with ready := ready, writer := .collected batch }
  | _ => none

/-- The records are written one behind the other, and each gets its event. -/
def writeRecords : List (PreparedProof H) → List UInt8 → Nat → Except String (List UInt8 × List (WalEvent H))
  | [], data, _ => .ok (data, [])
  | proof :: batch, data, offset => do
    let data ← pwriteAll data proof.record offset
    let (data, events) ← writeRecords batch data (offset + proof.record.length)
    return (data, {
      kind := .connect, point := proof.point, previousHash := proof.previousHash, dataOffset := offset,
      dataSize := proof.record.length, dataDigest := proof.digest } :: events)

/-- `CommitBatch` up to the sync of the data file. There is no such step when a write fails. -/
def writeData : Option (ProofStore H) :=
  match store.writer with
  | .collected batch =>
    match writeRecords batch store.files.data store.dataEnd with
    | .error _ => none
    | .ok (data, events) =>
      some { store with files := { store.files with data := data }, writer := .dataWritten batch events }
  | _ => none

/-- `CommitBatch` up to the sync of the WAL. -/
def writeWal : Option (ProofStore H) :=
  match store.writer with
  | .dataWritten batch events =>
    match pwriteAll store.files.wal (events.flatMap serializeWal) store.walEnd with
    | .error _ => none
    | .ok wal => some { store with files := { store.files with wal := wal }, writer := .walWritten batch events }
  | _ => none

def publishEvent (event : WalEvent H) (accounted : Nat) : ProofStore H :=
  let relative := sub32 (sub32 event.point.height store.basePoint.height) 1
  { store with
    index := putAt store.index relative .empty (entryFromEvent event)
    hashToHeight := Function.update store.hashToHeight event.point.blockHash (some relative)
    statePresent := putAt store.statePresent relative false true
    durablePoint := event.point
    queuedBlocks := store.queuedBlocks - 1
    queuedBytes := store.queuedBytes - accounted }

/-- The loop over the events of a batch. -/
def publishEvents : ProofStore H → List (WalEvent H × PreparedProof H) → ProofStore H
  | store, [] => store
  | store, (event, proof) :: rest => publishEvents (store.publishEvent event proof.accountedBytes) rest

/-- The end of `CommitBatch`, in the lock. -/
def publish (batch : List (PreparedProof H)) (events : List (WalEvent H)) : ProofStore H :=
  let published := publishEvents
    { store with
      dataEnd := store.dataEnd + (batch.map (·.record.length)).sum
      walEnd := store.walEnd + (events.flatMap serializeWal).length } (events.zip batch)
  { published with
    writer := .idle
    flushHeight := published.flushHeight.filter (published.durablePoint.height < ·) }

def finishCommit : Option (ProofStore H) :=
  match store.writer with
  | .walWritten batch events => some (store.publish batch events)
  | _ => none

/-! ## `Truncate` -/

def entryAt (relative : Nat) : DiskIndexEntry H := (store.index[relative]?).getD .empty

def hashAt (height : Nat) : Option H :=
  if height = store.basePoint.height then some store.basePoint.blockHash
  else if height < store.basePoint.height ∨ height > store.durablePoint.height then none
  else
    let entry := store.entryAt (height - store.basePoint.height - 1)
    if entry.present then some entry.blockHash else none

/-- The event of a truncation, none if the archive ends there. -/
def truncateEvent (point : ChainPoint H) : Except String (Option (WalEvent H)) :=
  if point.height < store.basePoint.height ∨ point.height > store.durablePoint.height then
    .error "proof-store truncation point is outside the active archive"
  else if store.hashAt point.height ≠ some point.blockHash then
    .error "proof-store truncation hash does not match the archive"
  else if point = store.durablePoint then .ok none
  else
    .ok (some {
      kind := .truncate, point := point, previousHash := store.durablePoint.blockHash, dataOffset := 0, dataSize := 0,
      dataDigest := ForestHash.null })

/-- `Truncate`, drained, up to the sync of the WAL. -/
def beginTruncate (point : ChainPoint H) : Option (ProofStore H) :=
  if store.truncating.isSome ∨ store.failure.isSome ∨ store.enqueuedPoint.height > store.durablePoint.height then none
  else
    match store.truncateEvent point with
    | .ok (some event) =>
      match pwriteAll store.files.wal (serializeWal event) store.walEnd with
      | .error _ => none
      | .ok wal => some { store with files := { store.files with wal := wal }, truncating := some event }
    | _ => none

/-- `hash_to_height.erase` for the entries that go. -/
def eraseHashes (hashToHeight : H → Option Nat) (entries : List (DiskIndexEntry H)) : H → Option Nat :=
  entries.foldl
    (fun hashes entry => if entry.present then Function.update hashes entry.blockHash none else hashes) hashToHeight

/-- The end of `Truncate`, in the lock. -/
def publishTruncate (event : WalEvent H) : ProofStore H :=
  let keep := event.point.height - store.basePoint.height
  { store with
    walEnd := store.walEnd + (serializeWal event).length
    hashToHeight := eraseHashes store.hashToHeight (store.index.drop keep)
    index := store.index.take keep
    statePresent := store.statePresent.take keep
    durablePoint := event.point
    enqueuedPoint := event.point
    truncating := none }

def finishTruncate : Option (ProofStore H) := store.truncating.map store.publishTruncate

/-! ## Reading -/

/-- The hash that the block at a place in the index extends. -/
def previousOf (relative : Nat) : H :=
  if relative = 0 then store.basePoint.blockHash else (store.entryAt (relative - 1)).blockHash

def stateAt (height : Nat) : Except String (Option (AccumulatorState H)) :=
  if height = store.basePoint.height then
    if store.baseState.isNone then .ok none
    else
      (readStateRecord config.maxRecordBytes store.files.data ⟨height, store.basePoint.blockHash⟩ ForestHash.null
        ⟨0, store.baseDataSize, store.basePoint.blockHash, store.baseDataDigest⟩ true).map some
  else if height < store.basePoint.height ∨ height > store.durablePoint.height then .ok none
  else
    let relative := height - store.basePoint.height - 1
    if store.statePresent[relative]? ≠ some true then .ok none
    else
      let entry := store.entryAt relative
      (readStateRecord config.maxRecordBytes store.files.data ⟨height, entry.blockHash⟩ (store.previousOf relative) entry
        false).map some

def read (blockHash : H) : Except String (Option (CachedBlockProof H)) :=
  match store.hashToHeight blockHash with
  | none => .ok none
  | some relative => do
    let entry := store.entryAt relative
    let height := add32 (add32 store.basePoint.height 1) relative
    if !validProofRecordSize entry.dataSize config.maxRecordBytes then
      throw "proof index contains an invalid record size"
    let bytes ← preadExact store.files.data entry.dataSize entry.dataOffset
    let parsed ← parseDataRecord ⟨height, blockHash⟩ (store.previousOf relative) entry.dataDigest bytes
    if parsed.proof.proof.targets = [] then return some parsed.proof
    let before ← store.stateAt config (sub32 height 1)
    match before with
    | none => return some parsed.proof
    | some before =>
      if before.point.blockHash ≠ store.previousOf relative then
        throw "pre-block accumulator state changed while reading proof"
      return some { parsed.proof with numLeavesBefore := some before.numLeaves }

end ProofStore

end UtreexoBridge.Archive
