import UtreexoBridge.Online.Spec
import UtreexoBridge.OrderedMap

/-!
# The open store (`OnlineStore`, `ModifyBlock`, `FlushOnline`)

Blocks go to the WAL, flushes seal the dirty records into delta runs. Each step
of the file system may fail, and an argument says which does. A delta file is
the values written to it.
-/

namespace UtreexoBridge

open Bytes

/-- The log segments and the delta runs, by the numbers in their names. -/
structure Directory (H : Type) where
  path : String
  segments : List (Nat × List UInt8)
  deltas : List (Nat × DeltaRun H)

/-- The store with the members that change while it is open. -/
structure OpenStore (H : Type) extends OnlineStore H where
  directory : Directory H
  /-- `m_publish_target` is set. -/
  pending : Bool
  deltaGeneration : Nat
  /-- `m_wal_fd`, by the number of its segment. -/
  walFd : Option Nat
  walSegmentSize : Nat
  redoWalBytes : Nat

structure OpenForest (H : Type) extends PackedForest H where
  online : Option (OpenStore H)

/-- A forest that has just gone online, in a directory with nothing but its base. -/
def PackedForest.Impl.opened {H : Type} (f : PackedForest.Impl H) (path : String) : OpenForest H :=
  { toPackedForest := f.toPackedForest
    online := f.online.map fun store => { store with
      directory := ⟨path, [], []⟩
      pending := store.config.deferPublish
      deltaGeneration := 0
      walFd := none
      walSegmentSize := 0
      redoWalBytes := 0 } }

/-! ## What the file system answers -/

structure AppendIo where
  /-- `open` and `fstat` of a segment. -/
  opened : Res
  /-- Whether a failed `opened` has created the segment. -/
  created : Bool
  directorySynced : Res
  /-- A failed `WriteAll` has written some bytes. -/
  writeError : Option (Nat × String)
  synced : Res

structure DeltaIo where
  /-- All steps up to the rename. -/
  published : Res
  /-- The steps after it: inspection, the directory's sync, the mapping. -/
  confirmed : Res

structure PruneIo where
  /-- The segments that can be read and removed. -/
  removable : Nat → Bool
  iterated : Res
  synced : Res

structure FlushIo where
  sealed : DeltaIo
  compacted : DeltaIo
  /-- For the obsolete runs, by generation. -/
  unlinked : Nat → Res
  unlinkSynced : Res
  pruned : PruneIo

/-- With `left`, what a rebuild leaves behind that fails after its first changes. -/
structure BlockIo (H : Type) where
  flush : FlushIo
  append : AppendIo
  /-- The scratch file of the rebuild. -/
  scratch : Res
  left : PackedForest H

/-! ## Numbers in names -/

def decimal20 (n : Nat) : String := String.ofList (List.replicate (20 - (Nat.repr n).length) '0') ++ Nat.repr n

def Directory.deltaPath {H : Type} (d : Directory H) (generation : Nat) : String :=
  d.path ++ "/delta-" ++ decimal20 generation ++ ".run"

/-! ## The log -/

namespace OpenStore

variable {H : Type} [StoredHash H]

omit [StoredHash H] in
def openAppendSegment (s : OpenStore H) (recordSize : Nat) (io : AppendIo) : Res × OpenStore H :=
  if s.walFd.isSome ∧ (s.walSegmentSize = 0 ∨ s.walSegmentSize + recordSize ≤ s.config.walSegmentBytes) then (.ok (), s)
  else
    let s := { s with walFd := none }
    let startLsn := word (s.currentLsn + 1)
    let bytes := (OrderedMap.lookup s.directory.segments startLsn).getD []
    let directory := { s.directory with segments := OrderedMap.assign s.directory.segments startLsn bytes }
    match io.opened with
    | .error message => (.error message, if io.created then { s with directory } else s)
    | .ok () =>
      let s := { s with directory }
      if bytes = [] then
        match io.directorySynced with
        | .error message => (.error message, s)
        | .ok () => (.ok (), { s with walFd := some startLsn, walSegmentSize := 0 })
      else (.ok (), { s with walFd := some startLsn, walSegmentSize := bytes.length })

omit [StoredHash H] in
def writeSegment (s : OpenStore H) (bytes : List UInt8) : OpenStore H :=
  match s.walFd with
  | none => s
  | some startLsn =>
    let old := (OrderedMap.lookup s.directory.segments startLsn).getD []
    { s with directory := { s.directory with
        segments := OrderedMap.assign s.directory.segments startLsn (old ++ bytes) } }

variable [DecidableEq H]

omit [StoredHash H] in
/-- `chain_valid` of `Append`. -/
def chainValid (s : OpenStore H) (t : WalTransaction H) : Bool :=
  decide (t.previous = s.point) &&
    match t.kind with
    | .connect => decide (t.point.height = s.chainHashes.length ∧ add32 t.previous.height 1 = t.point.height)
    | .disconnect =>
      decide (s.chainHashes.length = t.previous.height + 1 ∧ t.previous.height = add32 t.point.height 1 ∧
        s.chainHashes.length ≥ 2 ∧ s.chainHashes[t.point.height]? = some t.point.blockHash)

omit [StoredHash H] [DecidableEq H] in
/-- The end of `Append`: the transaction counts. -/
def advance (s : OpenStore H) (t : WalTransaction H) : OpenStore H :=
  { s with
    currentLsn := t.lsn
    point := t.point
    chainHashes :=
      match t.kind with
      | .connect => s.chainHashes ++ [t.point.blockHash]
      | .disconnect => s.chainHashes.dropLast }

def append (s : OpenStore H) (t : WalTransaction H) (io : AppendIo) : Res × OpenStore H :=
  if !s.chainValid t then (.error "WAL transaction does not extend the online chain", s)
  else
    let t := { t with lsn := word (s.currentLsn + 1) }
    if s.config.syncWal then
      let bytes := serializeWal t
      match s.openAppendSegment bytes.length io with
      | (.error message, s) => (.error message, s)
      | (.ok (), s) =>
        match io.writeError with
        | some (count, message) => (.error message, s.writeSegment (bytes.take count))
        | none =>
          let s := s.writeSegment bytes
          match io.synced with
          | .error message => (.error message, s)
          | .ok () =>
            (.ok (), { s with
              walSegmentSize := s.walSegmentSize + bytes.length
              redoWalBytes := s.redoWalBytes + bytes.length }.advance t)
    else (.ok (), s.advance t)

omit [DecidableEq H] in
/-- The scan of `PruneWal`: the largest height and LSN of a segment of whole records. -/
def scanSegment : Nat → List UInt8 → Nat → Nat → Option (Nat × Nat)
  | 0, _, _, _ => none
  | fuel + 1, bytes, maxHeight, maxLsn =>
    if bytes = [] then some (maxHeight, maxLsn)
    else
      match (nextRecord bytes : NextRecord H) with
      | .record t size => scanSegment fuel (bytes.drop size) (max maxHeight t.point.height) (max maxLsn t.lsn)
      | _ => none

omit [DecidableEq H] in
/-- Whether `PruneWal` wants to remove a segment. -/
def obsoleteSegment (s : OpenStore H) (segment : Nat × List UInt8) : Bool :=
  let floor := if s.point.height > s.config.undoDepth then s.point.height - s.config.undoDepth else 0
  s.walFd ≠ some segment.1 && segment.2 ≠ [] &&
    match scanSegment (H := H) (segment.2.length + 1) segment.2 0 0 with
    | none => false
    | some (maxHeight, maxLsn) => (!s.config.syncWal || decide (maxHeight < floor)) && decide (maxLsn ≤ s.durableLsn)

omit [DecidableEq H] in
def pruneWal (s : OpenStore H) (io : PruneIo) : Res × OpenStore H :=
  let kept := s.directory.segments.filter fun segment => !(s.obsoleteSegment segment && io.removable segment.1)
  let pruned := { s with directory := { s.directory with segments := kept } }
  match io.iterated with
  | .error message => (.error ("prune WAL directory: " ++ message), pruned)
  | .ok () => if kept.length < s.directory.segments.length then (io.synced, pruned) else (.ok (), pruned)

end OpenStore

/-! ## Delta runs -/

section Deltas

variable {H : Type} [StoredHash H] [DecidableEq H]

def onlineMagic : List UInt8 := [0x55, 0x54, 0x52, 0x4f, 0x4e, 0x4c, 0x4e, 0x31]

omit [DecidableEq H] in
def serializeSuperblock (state : OnlineSuperblock H) : List UInt8 :=
  let bytes := onlineMagic ++ (appendUnsigned 4 onlineFormatVersion ++ (appendUnsigned 8 state.generation ++
    (appendUnsigned 8 state.baseLsn ++ (appendPoint state.point ++ (appendUnsigned 8 state.numLeaves ++
      (appendUnsigned 4 state.next ++ (appendUnsigned 8 state.liveNodes ++ (appendUnsigned 8 state.capacitySlots ++
        (appendUnsigned 8 state.chainHashCount ++ appendRoots state.roots)))))))))
  bytes ++ appendUnsigned 8 (checksum bytes)

omit [DecidableEq H] in
def NodeArena.baseRecord (a : NodeArena H) (id : Nat) : Except String (NodeRecord H) :=
  if a.mapped = false ∨ id ≥ a.baseNext then .error "base forest node is outside the mapped arena" else .ok (a.files id)

omit [DecidableEq H] in
def onlineBaseFingerprint (state : OnlineSuperblock H) (arena : NodeArena H) : Except String H := do
  let hashes ← state.roots.toList.mapM fun root =>
    if root = noNode then .ok (List.replicate 32 0)
    else (arena.baseRecord root).map fun record => StoredHash.bytes record.hash
  return StoredHash.sha512_256 (serializeSuperblock state ++ hashes.flatten)

omit [StoredHash H] [DecidableEq H] in
/-- The checks of `Parse` on what a run holds. -/
def DeltaState.parseError (state : DeltaState H) (records : List (Nat × NodeRecord H)) : Option String :=
  if state.generation = 0 ∨ state.previousGeneration ≥ state.generation ∨ state.previousLsn > state.endLsn ∨
      state.next ≥ noNode ∨ state.liveNodes > state.next ∨ state.baseChainCount = 0 ∨
      state.chainHashCount < state.baseChainCount ∨ state.chainHashCount ≠ state.point.height + 1 then
    some "forest delta fields are inconsistent"
  else if ∃ entry ∈ records, entry.1 ≥ state.next ∨ entry.2.type.code > 2 ∨ ¬linkValid state.next entry.2.parent ∨
      ¬linkValid state.next entry.2.left ∨ ¬linkValid state.next entry.2.right then
    some "forest delta records are invalid or unsorted"
  else if ∃ root ∈ state.roots.toList, root ≠ noNode ∧ root ≥ state.next then some "forest delta root is out of range"
  else none

/-- `WriteDeltaRun`: what is in the directory afterwards, and the mapped run. -/
def writeDeltaRun (directory : Directory H) (state : DeltaState H) (chainHashes : List H)
    (records : List (Nat × NodeRecord H)) (io : DeltaIo) : Except String (DeltaRun H) × Directory H :=
  if state.generation = 0 ∨ state.recordCount ≥ noNode ∨ state.baseChainCount = 0 ∨
      state.chainHashCount ≠ chainHashes.length ∨ state.baseChainCount > chainHashes.length ∨
      chainHashes.getLast? ≠ some state.point.blockHash then
    (.error "invalid forest delta publication state", directory)
  else if (OrderedMap.lookup directory.deltas state.generation).isSome then
    (.error ("forest delta generation already exists: " ++ directory.deltaPath state.generation), directory)
  else if hsorted : records.Pairwise fun x y => x.1 < y.1 then
    if ∃ entry ∈ records, entry.1 ≥ state.next then
      (.error "forest delta records are outside the arena or unsorted", directory)
    else if records.length ≠ state.recordCount then
      (.error "forest delta record count changed during publication", directory)
    else
      match io.published with
      | .error message => (.error message, directory)
      | .ok () =>
        let run : DeltaRun H := ⟨state, records, chainHashes.drop state.baseChainCount, hsorted⟩
        let directory := { directory with deltas := OrderedMap.assign directory.deltas state.generation run }
        match io.confirmed with
        | .error message => (.error message, directory)
        | .ok () =>
          match state.parseError records with
          | some what => (.error (directory.deltaPath state.generation ++ ": " ++ what), directory)
          | none => (.ok run, directory)
  else (.error "forest delta records are outside the arena or unsorted", directory)

/-! ## Flushing -/

namespace OpenStore

/-- The state that `SealDelta` and `CompactDeltas` write. -/
def deltaState (s : OpenStore H) (snapshot : Bool) (endLsn recordCount : Nat) (fingerprint : H) (arena : NodeArena H)
    (roots : Vector Nat 64) (numLeaves : Nat) : DeltaState H where
  snapshot
  generation := word (s.deltaGeneration + 1)
  previousGeneration := s.deltaGeneration
  baseGeneration := s.base.generation
  physicalBaseLsn := s.base.baseLsn
  baseFingerprint := fingerprint
  previousLsn := s.durableLsn
  endLsn
  baseChainCount := s.base.chainHashCount
  point := s.point
  numLeaves
  next := arena.next % 2 ^ 32
  liveNodes := arena.live
  chainHashCount := s.chainHashes.length
  recordCount
  roots

/-- The loop over the obsolete runs. `true` if one was removed. -/
def removeRuns (s : OpenStore H) (unlinked : Nat → Res) : List Nat → Bool → Except String Bool × OpenStore H
  | [], removed => (.ok removed, s)
  | generation :: generations, _ =>
    match unlinked generation with
    | .error message => (.error message, s)
    | .ok () =>
      removeRuns { s with directory := { s.directory with
        deltas := s.directory.deltas.filter fun run => run.1 ≠ generation } } unlinked generations true

def compactDeltas (s : OpenStore H) (arena : NodeArena H) (roots : Vector Nat 64) (numLeaves : Nat) (io : FlushIo) :
    Res × OpenStore H × NodeArena H :=
  match onlineBaseFingerprint s.base arena with
  | .error message => (.error message, s, arena)
  | .ok fingerprint =>
    let records := arena.compactRecords
    let snapshot := s.deltaState true s.durableLsn records.length fingerprint arena roots numLeaves
    let obsolete := arena.deltaRuns.map (·.state.generation)
    match writeDeltaRun s.directory snapshot s.chainHashes records io.compacted with
    | (.error message, directory) => (.error message, { s with directory }, arena)
    | (.ok run, directory) =>
      let s := { s with directory, deltaGeneration := snapshot.generation }
      match s.removeRuns io.unlinked obsolete false with
      | (.error message, s) => (.error message, s, arena.replaceDeltaRuns run)
      | (.ok removed, s) => (if removed then io.unlinkSynced else .ok (), s, arena.replaceDeltaRuns run)

/-- Too many runs, or too much garbage in them. -/
def compactionDue (s : OpenStore H) (arena : NodeArena H) : Bool :=
  let runs := arena.deltaRuns.length
  let records := (arena.deltaRuns.map (·.records.length)).sum
  let obsolete := records - arena.latestDeltaRecords.length
  runs ≥ s.config.maxDeltaRuns ∨
    (runs ≥ s.config.deltaCompactionMinRuns ∧ records ≠ 0 ∧
      obsolete * 100 ≥ records * s.config.deltaCompactionGarbagePercent)

def sealDirty (s : OpenStore H) (arena : NodeArena H) (roots : Vector Nat 64) (numLeaves : Nat) (io : DeltaIo) :
    Res × OpenStore H × NodeArena H :=
  match onlineBaseFingerprint s.base arena with
  | .error message => (.error message, s, arena)
  | .ok fingerprint =>
    let state := s.deltaState false s.currentLsn arena.sealRecords.length fingerprint arena roots numLeaves
    match writeDeltaRun s.directory state s.chainHashes arena.sealRecords io with
    | (.error message, directory) => (.error message, { s with directory }, arena)
    | (.ok run, directory) =>
      (.ok (), { s with
        directory
        deltaGeneration := state.generation
        durableLsn := state.endLsn
        durableLiveNodes := state.liveNodes
        redoWalBytes := 0 }, (arena.appendDeltaRun run).clearDirty)

def compactIfDue (s : OpenStore H) (arena : NodeArena H) (roots : Vector Nat 64) (numLeaves : Nat) (io : FlushIo) :
    Res × OpenStore H × NodeArena H :=
  if s.compactionDue arena then s.compactDeltas arena roots numLeaves io else (.ok (), s, arena)

def sealDelta (s : OpenStore H) (arena : NodeArena H) (roots : Vector Nat 64) (numLeaves : Nat) (io : FlushIo) :
    Res × OpenStore H × NodeArena H :=
  match s.sealDirty arena roots numLeaves io.sealed with
  | (.error message, s, arena) => (.error message, s, arena)
  | (.ok (), s, arena) =>
    match s.compactIfDue arena roots numLeaves io with
    | (.error message, s, arena) => (.error message, s, arena)
    | (.ok (), s, arena) => ((s.pruneWal io.pruned).1, (s.pruneWal io.pruned).2, arena)

end OpenStore

namespace OpenForest

/-- The refresh of the startup cache after a seal changes no result. -/
def flushOnline (f : OpenForest H) (io : FlushIo) : Res × OpenForest H :=
  match f.online with
  | none => (.error "forest is not using online storage", f)
  | some store =>
    if store.pending then (.error "publish the validated online generation before flushing it", f)
    else if f.arena.dirty.size = 0 ∧ store.durableLsn = store.currentLsn then (.ok (), f)
    else
      let (res, store, arena) := store.sealDelta f.arena f.roots f.numLeaves io
      (res, { f with arena, online := some store })

/-! ## Blocks -/

def maxRedoWalBytes : Nat := 1024 * 1024 * 1024

/-- `DirtyBytes` or the log is at its limit. -/
def sealDue (f : OpenForest H) (store : OpenStore H) : Bool :=
  f.arena.dirty.size * 80 ≥ store.config.maxDirtyBytes ∨ (store.config.syncWal ∧ store.redoWalBytes ≥ maxRedoWalBytes)

/-- The flush in front of a block. -/
def sealBeforeBlock (f : OpenForest H) (store : OpenStore H) (io : FlushIo) : Res × OpenForest H :=
  if f.sealDue store then
    match f.flushOnline io with
    | (.error message, f) => (.error ("online delta seal required before block: " ++ message), f)
    | (.ok (), f) => (.ok (), f)
  else (.ok (), f)

/-- Undo the block that began at `before` and rebuild the rest. A rebuild at the last node id stops before it
changes anything. -/
def abandonBlock (f before : OpenForest H) (message : String) (io : BlockIo H) : Except Fault (Res × OpenForest H) :=
  let undone : PackedForest H := { f.toPackedForest with
    arena := f.arena.rollbackTransaction, roots := before.roots, numLeaves := before.numLeaves }
  match io.scratch with
  | .error what => .ok (.error (message ++ "; rollback failed: " ++ what), { f with toPackedForest := io.left })
  | .ok () =>
    match undone.rebuildIndexAndValidate validationWindowSlots with
    | .error fault => .error fault
    | .ok (.ok rebuilt) => .ok (.error message, { f with toPackedForest := rebuilt })
    | .ok (.error what) =>
      .ok (.error (message ++ "; rollback failed: " ++ what),
        { f with toPackedForest := if undone.arena.next ≥ noNode then undone else io.left })

def blockTransaction (before f : OpenForest H) (store : OpenStore H) (point : ChainPoint H) : WalTransaction H where
  kind := .connect
  lsn := 0
  previous := store.point
  point
  beforeNumLeaves := before.numLeaves
  afterNumLeaves := f.numLeaves
  beforeNext := before.arena.next % 2 ^ 32
  afterNext := f.arena.next % 2 ^ 32
  beforeRoots := before.roots
  afterRoots := f.roots
  changes := if store.config.syncWal then f.arena.transactionChanges else []

/-- The block itself, on a forest that needs no flush. -/
def connectBlock (f : OpenForest H) (store : OpenStore H) (additions deletions : List H) (point : ChainPoint H)
    (io : BlockIo H) : Except Fault (Res × OpenForest H) :=
  match f.arena.beginTransaction with
  | .error what => .error (.thrown what)
  | .ok arena =>
    let begun : OpenForest H := { f with arena }
    match begun.toPackedForest.modify additions deletions with
    | .error fault => .error fault
    | .ok (.error message, modified) => { begun with toPackedForest := modified }.abandonBlock begun message io
    | .ok (.ok (), modified) =>
      let f : OpenForest H := { begun with toPackedForest := modified }
      match store.append (blockTransaction begun f store point) io.append with
      | (.error message, store) => { f with online := some store }.abandonBlock begun message io
      | (.ok (), store) => .ok (.ok (), { f with arena := f.arena.commitTransaction, online := some store })

def modifyBlock (f : OpenForest H) (additions deletions : List H) (point : ChainPoint H) (io : BlockIo H) :
    Except Fault (Res × OpenForest H) :=
  match f.online with
  | none =>
    match f.toPackedForest.modify additions deletions with
    | .error fault => .error fault
    | .ok (res, modified) => .ok (res, { f with toPackedForest := modified })
  | some store =>
    if store.pending then .ok (.error "publish the validated online generation before modifying it", f)
    else if point.height ≠ add32 store.point.height 1 then
      .ok (.error "online block height does not extend the durable tip", f)
    else
      match f.sealBeforeBlock store io.flush with
      | (.error message, f) => .ok (.error message, f)
      | (.ok (), f) =>
        match f.online with
        | none => .ok (.ok (), f)
        | some store => f.connectBlock store additions deletions point io

/-- `Modify`, for an offline forest only. -/
def modify (f : OpenForest H) (additions deletions : List H) : Except Fault (Res × OpenForest H) :=
  if f.online.isSome then .ok (.error "use ModifyBlock for an online forest", f)
  else
    match f.toPackedForest.modify additions deletions with
    | .error fault => .error fault
    | .ok (res, modified) => .ok (res, { f with toPackedForest := modified })

end OpenForest

end Deltas

end UtreexoBridge
