import Mathlib.Data.Finset.Sort
import UtreexoBridge.Arena.Agree
import UtreexoBridge.Bytes.Scans
import UtreexoBridge.Forest.File
import UtreexoBridge.Validate.Spec

/-!
# Going online (`EnableOnline`, `ReadForestOnline`)

As long as the file system does what it is asked to. A file is the values that
are written to it.
-/

namespace UtreexoBridge

open Bytes

/-! ## Configuration and state -/

structure OnlineForestConfig where
  maxDirtyBytes : Nat
  walSegmentBytes : Nat
  undoDepth : Nat
  syncWal : Bool
  deferPublish : Bool
  deltaCompactionMinRuns : Nat
  maxDeltaRuns : Nat
  deltaCompactionGarbagePercent : Nat
  deriving DecidableEq

/-- What every entry refuses. -/
def OnlineForestConfig.Invalid (config : OnlineForestConfig) : Prop :=
  config.maxDirtyBytes = 0 ∨ config.walSegmentBytes < 1024 * 1024 ∨ config.undoDepth = 0 ∨
    config.deltaCompactionMinRuns < 2 ∨ config.maxDeltaRuns < config.deltaCompactionMinRuns ∨
    config.maxDeltaRuns > 1024 ∨ config.deltaCompactionGarbagePercent = 0 ∨ config.deltaCompactionGarbagePercent > 100

instance (config : OnlineForestConfig) : Decidable config.Invalid := by
  unfold OnlineForestConfig.Invalid
  infer_instance

structure OnlineSuperblock (H : Type) where
  formatVersion : Nat
  generation : Nat
  baseLsn : Nat
  point : ChainPoint H
  numLeaves : Nat
  next : Nat
  liveNodes : Nat
  capacitySlots : Nat
  chainHashCount : Nat
  roots : Vector Nat 64
  deriving DecidableEq

structure OnlineStore (H : Type) where
  config : OnlineForestConfig
  base : OnlineSuperblock H
  point : ChainPoint H
  chainHashes : List H
  currentLsn : Nat
  durableLsn : Nat
  durableLiveNodes : Nat

def OnlineStore.new {H : Type} (config : OnlineForestConfig) (base : OnlineSuperblock H) (chainHashes : List H) :
    OnlineStore H := ⟨config, base, base.point, chainHashes, base.baseLsn, base.baseLsn, base.liveNodes⟩

/-- `m_impl` with its `online` store. -/
structure PackedForest.Impl (H : Type) extends PackedForest H where
  online : Option (OnlineStore H)

/-- The hashes of the blocks up to `point`. -/
def ChainMatches {H : Type} (point : ChainPoint H) (chainHashes : List H) : Prop :=
  chainHashes.length = point.height + 1 ∧ chainHashes.getLast? = some point.blockHash

instance {H : Type} [DecidableEq H] (point : ChainPoint H) (chainHashes : List H) :
    Decidable (ChainMatches point chainHashes) := inferInstanceAs (Decidable (_ ∧ _))

/-! ## The startup cache -/

def validatedIndexCapacity (entries : Nat) : Option Nat :=
  if entries > (2 ^ 32 * 8 - 7) / 10 then none
  else
    let required := max 16 ((entries * 10 + 7) / 8)
    if required > 2 ^ 32 then none else some (bitCeil required)

def maximumValidatedIndexCapacity (next : Nat) : Nat := bitCeil (max 16 next)

structure ValidationAnchor (H : Type) where
  generation : Nat
  lsn : Nat
  point : ChainPoint H
  numLeaves : Nat
  next : Nat
  liveNodes : Nat
  roots : Vector Nat 64
  deriving DecidableEq

def OnlineSuperblock.anchor {H : Type} (state : OnlineSuperblock H) : ValidationAnchor H :=
  ⟨0, state.baseLsn, state.point, state.numLeaves, state.next, state.liveNodes, state.roots⟩

structure ValidatedCacheHeader (H : Type) where
  base : OnlineSuperblock H
  anchor : ValidationAnchor H
  indexCapacity : Nat
  indexEntries : Nat
  freeNodes : Nat

structure ValidatedCache (H : Type) where
  header : ValidatedCacheHeader H
  /-- Ids with their index slots, as `uint32_t`. -/
  entries : List (Nat × Nat)
  freeIds : List Nat

def NodeArena.sortedFreeIds {H : Type} (a : NodeArena H) : List Nat :=
  (if a.mapped then a.freeSet else a.freeStack.toFinset).sort

/-- `ForEachValidationEntry`. -/
def KeylessLeafIndex.validationEntries (index : KeylessLeafIndex) : List (Nat × Nat) :=
  (List.range index.table.capacity).filterMap fun slot =>
    (index.table.slot slot).entry.map fun id => (id, slot % 2 ^ 32)

def hasSingleBit (n : Nat) : Bool := n ≠ 0 ∧ bitCeil n = n

def validatedCacheHeaderSize : Nat := 824

def validatedCacheTrailerSize : Nat := 16

def writeValidatedStartupCache {H : Type} (base : OnlineSuperblock H) (anchor : ValidationAnchor H) (arena : NodeArena H)
    (index : KeylessLeafIndex) : Except String (ValidatedCache H) :=
  let freeIds := arena.sortedFreeIds
  let capacity := index.table.capacity
  if anchor.next ≠ arena.next ∨ anchor.liveNodes ≠ arena.live ∨ anchor.liveNodes + freeIds.length ≠ anchor.next ∨
      validatedIndexCapacity index.size = none ∨ hasSingleBit capacity = false ∨
      capacity < (validatedIndexCapacity index.size).getD 0 ∨ capacity > maximumValidatedIndexCapacity anchor.next then
    .error "cannot cache inconsistent validated online bookkeeping"
  else
    let room := 2 ^ 64 - 1 - validatedCacheHeaderSize - validatedCacheTrailerSize
    if index.size > room / 8 ∨ freeIds.length > (room - index.size * 8) / 4 then
      .error "validated startup cache size overflows"
    else
      let entries := index.validationEntries
      if entries.length ≠ index.size then .error "validated leaf index changed while it was cached"
      else if (∃ id ∈ freeIds, id ≥ anchor.next) ∨ ¬freeIds.Pairwise (· < ·) then
        .error "validated free-node list is not sorted and unique"
      else .ok ⟨⟨base, anchor, capacity, index.size, freeIds.length⟩, entries, freeIds⟩

/-! ## From RAM -/

/-- The first multiple of the chunk size that is not below `slots`, and one chunk at least. -/
def chunkCapacity (slots : Nat) : Nat := max 1 ((slots + chunkSize - 1) / chunkSize) * chunkSize

/-- What `MappedArenaFiles::Open` refuses. -/
def InvalidCapacity (capacity : Nat) : Prop := capacity = 0 ∨ capacity ≥ noNode

instance (capacity : Nat) : Decidable (InvalidCapacity capacity) := inferInstanceAs (Decidable (_ ∨ _))

/-- What a slot of a new file reads as before it is written. -/
def zeroRecord {H : Type} [StoredHash H] : NodeRecord H := ⟨StoredHash.ofBytes (List.replicate 32 0), 0, 0, 0, .free⟩

section Enable

variable {H : Type} [StoredHash H]

/-- `WriteNative`: the records below `Next()`. -/
def NodeArena.writeNative (a : NodeArena H) (id : Nat) : NodeRecord H := if id < a.next then a.read id else zeroRecord

omit [StoredHash H] in
/-- `MappedArenaFiles::Open` comes first. -/
def NodeArena.switchToMapped (a : NodeArena H) (files : Nat → NodeRecord H) (capacity : Nat) :
    Except String (NodeArena H) :=
  if InvalidCapacity capacity then .error "invalid mapped arena capacity"
  else .ok { a with mapped := true, files, capacity, baseNext := a.next, freeSet := a.freeStack.toFinset }

omit [StoredHash H] in
/-- The superblock of generation 0. -/
def PackedForest.superblock (f : PackedForest H) (point : ChainPoint H) (chainHashes : List H) : OnlineSuperblock H :=
  ⟨onlineFormatVersion, 0, 0, point, f.numLeaves, f.arena.next, f.arena.live, chunkCapacity f.arena.next,
    chainHashes.length, f.roots⟩

namespace PackedForest.Impl

/-- The end of `EnableOnline`, behind the new directory. -/
def mapPublished (f : PackedForest.Impl H) (state : OnlineSuperblock H) (chainHashes : List H)
    (config : OnlineForestConfig) : Except String (PackedForest.Impl H) :=
  match f.arena.switchToMapped f.arena.writeNative state.capacitySlots with
  | .error message => .error ("online state was published but could not be mapped: " ++ message)
  | .ok arena => .ok { f with arena, online := some (.new config state chainHashes) }

variable [DecidableEq H]

/-- The forest that goes on and the cache in the new directory. -/
def enableOnline (f : PackedForest.Impl H) (point : ChainPoint H) (chainHashes : List H) (config : OnlineForestConfig) :
    Except String (PackedForest.Impl H × ValidatedCache H) :=
  if f.online.isSome then .error "forest is already using online storage"
  else if config.Invalid then .error "invalid online forest configuration"
  else if ¬ChainMatches point chainHashes then .error "online chain-hash index does not match its chain point"
  else
    let state := f.superblock point chainHashes
    match writeValidatedStartupCache state state.anchor f.arena f.index with
    | .error message => .error message
    | .ok cache => (f.mapPublished state chainHashes config).map (·, cache)

end PackedForest.Impl

/-! ## From a forest file -/

def recordBytes : Nat := 45

def importBatch : Nat := 64 * 1024

/-- One batch: its bytes come first, the checks of its records after. -/
def readBatch (slots count : Nat) : Parser (List (NodeRecord H)) := do
  let serialized ← reading "truncated node record" (readBytes (count * recordBytes))
  match parseMany (readNode slots) count serialized with
  | .error message => throw message
  | .ok (records, _) => return records

/-- The batches from slot `first` on. -/
def readBatches (slots : Nat) : Nat → Nat → Parser (List (NodeRecord H))
  | 0, _ => pure []
  | batches + 1, first => do
    let records ← readBatch slots (min importBatch (slots - first))
    let rest ← readBatches slots batches (first + importBatch)
    return records ++ rest

def readForestHeader : Parser (Nat × Nat × List Nat) := do
  let magic ← reading "invalid forest magic" (readBytes 8)
  require (magic = forestMagic) "invalid forest magic"
  let version ← reading "truncated forest header" (readUnsigned 4)
  let leaves ← reading "truncated forest header" (readUnsigned 8)
  let slots ← reading "truncated forest header" (readUnsigned 8)
  require (version = forestFormatVersion) "unsupported forest version"
  require (slots < noNode) "forest node count exceeds the NodeId range"
  let roots ← readForestRoots slots 64
  return (leaves, slots, roots)

def readOnlineSections : Parser (Nat × Nat × List Nat × List (NodeRecord H)) := do
  let (leaves, slots, roots) ← readForestHeader
  require (chunkCapacity slots < noNode) "forest capacity exceeds the NodeId range"
  let records ← readBatches slots ((slots + importBatch - 1) / importBatch) 0
  return (leaves, slots, roots, records)

/-- `OpenMapped` of a new arena, without bookkeeping. -/
def NodeArena.openMapped (files : Nat → NodeRecord H) (capacity next : Nat) : NodeArena H :=
  { (NodeArena.new : NodeArena H) with mapped := true, files, capacity, baseNext := next, next }

variable [DecidableEq H]

def readForestOnline (bytes : List UInt8) (point : ChainPoint H) (chainHashes : List H) (config : OnlineForestConfig) :
    Except Fault (Except String (PackedForest.Impl H × ValidatedCache H)) :=
  if config.Invalid then .ok (.error "invalid online forest configuration")
  else if ¬ChainMatches point chainHashes then .ok (.error "online chain-hash index does not match its chain point")
  else
    match (readOnlineSections : Parser (Nat × Nat × List Nat × List (NodeRecord H))) bytes with
    | .error message => .ok (.error message)
    | .ok ((leaves, slots, rootList, records), _) =>
      let roots : Vector Nat 64 := Vector.ofFn fun row => (rootList[row.val]?).getD noNode
      let capacity := chunkCapacity slots
      let liveNodes := records.countP fun record => record.type ≠ .free
      let state : OnlineSuperblock H := ⟨onlineFormatVersion, 0, 0, point, leaves, slots, liveNodes, capacity,
        chainHashes.length, roots⟩
      let arena := NodeArena.openMapped (fun id => records.getD id zeroRecord) capacity slots
      match PackedForest.rebuildIndexAndValidate ⟨arena, .new, roots, leaves⟩ validationWindowSlots with
      | .error fault => .error fault
      | .ok (.error message) => .ok (.error message)
      | .ok (.ok forest) =>
        if forest.arena.live ≠ liveNodes then
          .ok (.error "online arena live-node count does not match its superblock")
        else
          match writeValidatedStartupCache state state.anchor forest.arena forest.index with
          | .error message => .ok (.error message)
          | .ok cache => .ok (.ok ({ forest with online := some (.new config state chainHashes) }, cache))

end Enable

end UtreexoBridge
