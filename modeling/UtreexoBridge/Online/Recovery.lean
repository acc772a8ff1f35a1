import UtreexoBridge.Online.Rollback
import UtreexoBridge.Online.StartupCache

/-!
# Opening an online forest (`OpenOnline`)

The base is mapped, the sealed runs are laid over it, and what the log has
beyond them is replayed. The startup cache spares the full scan. Nothing of the
file system fails here.
-/

namespace UtreexoBridge

open Bytes

/-- The files of a base: the superblock, the chain hashes and the nodes. -/
structure OnlineBase (H : Type) where
  superblock : OnlineSuperblock H
  chainHashes : List H
  files : Nat → NodeRecord H

section Recovery

variable {H : Type} [StoredHash H]

def Directory.segmentPath (d : Directory H) (startLsn : Nat) : String := d.path ++ "/wal-" ++ decimal20 startLsn ++ ".log"

namespace OnlineBase

def store (base : OnlineBase H) (config : OnlineForestConfig) (directory : Directory H) : OpenStore H :=
  { OnlineStore.new config base.superblock (base.chainHashes.take base.superblock.chainHashCount) with
    directory, pending := false, deltaGeneration := 0, walFd := none, walSegmentSize := 0, redoWalBytes := 0 }

def forest (base : OnlineBase H) : PackedForest H where
  arena := .openMapped base.files base.superblock.capacitySlots base.superblock.next
  index := .new
  roots := base.superblock.roots
  numLeaves := base.superblock.numLeaves

end OnlineBase

namespace NodeArena

def applyRecovered (a : NodeArena H) (id : Nat) (record : NodeRecord H) : NodeArena H :=
  { a with next := if id ≥ a.next then add32 id 1 else a.next, dirty := a.dirty.insert id record }

def setRecoveredNext (a : NodeArena H) (next : Nat) : NodeArena H := { a with next }

end NodeArena

variable [DecidableEq H]

/-! ## The sealed runs -/

/-- The runs of a directory, from the oldest one on. -/
def openRuns (directory : Directory H) : Nat → List (Nat × DeltaRun H) → Except String (List (DeltaRun H))
  | _, [] => .ok []
  | priorGeneration, (generation, run) :: runs =>
    if generation = priorGeneration then .error "duplicate forest delta generation"
    else
      match run.state.parseError run.records with
      | some what => .error (directory.deltaPath generation ++ ": " ++ what)
      | none =>
        if run.state.generation ≠ generation then .error "forest delta filename does not match its generation"
        else
          match openRuns directory generation runs with
          | .error message => .error message
          | .ok opened => .ok (run :: opened)

/-- What is behind the last snapshot begins with it. -/
def fromLatestSnapshot : List (DeltaRun H) → List (DeltaRun H)
  | [] => []
  | run :: runs => if runs.any (·.state.snapshot) then fromLatestSnapshot runs else run :: runs

structure DeltaScan (H : Type) where
  store : OpenStore H
  forest : PackedForest H
  expectedGeneration : Nat
  expectedLsn : Nat
  /-- Behind the first run. -/
  started : Bool

/-- `recovered_chain`. -/
def DeltaScan.recoveredChain (scan : DeltaScan H) (run : DeltaRun H) : List H :=
  scan.store.chainHashes.take scan.store.base.chainHashCount ++ run.chainSuffix

def DeltaScan.push (scan : DeltaScan H) (run : DeltaRun H) : DeltaScan H where
  store := { scan.store with
    chainHashes := scan.recoveredChain run
    point := run.state.point
    currentLsn := run.state.endLsn
    durableLsn := run.state.endLsn
    durableLiveNodes := run.state.liveNodes
    deltaGeneration := run.state.generation }
  forest := { scan.forest with
    arena := (scan.forest.arena.setRecoveredNext run.state.next).appendDeltaRun run
    roots := run.state.roots
    numLeaves := run.state.numLeaves }
  expectedGeneration := run.state.generation
  expectedLsn := run.state.endLsn
  started := true

def recoverRun (fingerprint : H) (scan : DeltaScan H) (run : DeltaRun H) : Except String (DeltaScan H) :=
  let s := scan.store
  let state := run.state
  if state.baseGeneration ≠ s.base.generation ∨ state.physicalBaseLsn ≠ s.base.baseLsn ∨ state.endLsn < s.base.baseLsn ∨
      state.baseFingerprint ≠ fingerprint ∨ state.baseChainCount ≠ s.base.chainHashCount then
    .error "forest delta is anchored to a different mmap base"
  else if ¬(scan.started = false ∧ state.snapshot = true) ∧ (state.previousGeneration ≠ scan.expectedGeneration ∨
      state.generation ≠ word (scan.expectedGeneration + 1) ∨ state.previousLsn ≠ scan.expectedLsn) then
    .error "forest delta generations or LSNs are not contiguous"
  else if scan.started = true ∧ state.snapshot = true then
    .error "unexpected forest delta snapshot after recovery start"
  else if (scan.recoveredChain run).getLast? ≠ some state.point.blockHash ∨
      state.chainHashCount = state.baseChainCount ∧ state.point ≠ s.base.point then
    .error "forest delta chain does not extend its mmap base"
  else .ok (scan.push run)

def recoverDeltas (s : OpenStore H) (f : PackedForest H) : Except String (OpenStore H × PackedForest H) :=
  if s.directory.deltas.any (·.1 = 0) then .error ("forest delta filename is malformed: delta-" ++ decimal20 0 ++ ".run")
  else
    match openRuns s.directory 0 s.directory.deltas with
    | .error message => .error message
    | .ok [] => .ok (s, f)
    | .ok runs =>
      match onlineBaseFingerprint s.base f.arena with
      | .error message => .error message
      | .ok fingerprint =>
        match (fromLatestSnapshot runs).foldlM (recoverRun fingerprint) ⟨s, f, 0, s.base.baseLsn, false⟩ with
        | .error message => .error message
        | .ok scan => .ok (scan.store, scan.forest)

/-! ## The log -/

/-- `chain_valid` of `RecoverSegment`. -/
def WalTransaction.extendsChain (t : WalTransaction H) (point : ChainPoint H) (chainHashes : List H) : Bool :=
  decide (t.previous = point) &&
    match t.kind with
    | .connect => decide (t.point.height = chainHashes.length)
    | .disconnect =>
      decide (chainHashes.length ≥ 2 ∧ add32 t.previous.height 1 = chainHashes.length ∧
        add32 t.point.height 1 = t.previous.height ∧ chainHashes[t.point.height]? = some t.point.blockHash)

def WalTransaction.chainAfter (t : WalTransaction H) (chainHashes : List H) : List H :=
  match t.kind with
  | .connect => chainHashes ++ [t.point.blockHash]
  | .disconnect => chainHashes.dropLast

structure WalScan (H : Type) where
  store : OpenStore H
  forest : PackedForest H
  lastSeenLsn : Nat

def WalScan.apply (scan : WalScan H) (t : WalTransaction H) (size : Nat) : WalScan H where
  store := { scan.store with
    point := t.point
    chainHashes := t.chainAfter scan.store.chainHashes
    redoWalBytes := scan.store.redoWalBytes + size }
  forest := { scan.forest with
    arena := (t.changes.foldl (fun a change => a.applyRecovered change.id change.after) scan.forest.arena).setRecoveredNext
      t.afterNext
    roots := t.afterRoots
    numLeaves := t.afterNumLeaves }
  lastSeenLsn := t.lsn

def WalScan.replay (scan : WalScan H) (t : WalTransaction H) (size : Nat) : Except String (WalScan H) :=
  if t.lsn > scan.store.durableLsn then
    if t.lsn ≠ word (scan.lastSeenLsn + 1) then .error "non-contiguous WAL LSN after durable base"
    else if !t.extendsChain scan.store.point scan.store.chainHashes ∨ t.beforeNumLeaves ≠ scan.forest.numLeaves then
      .error "WAL does not extend the recovered online state"
    else .ok (scan.apply t size)
  else .ok scan

/-- The loop over the records of a segment, and how much of it they take. -/
def recoverRecords (path : String) : Nat → List UInt8 → Nat → WalScan H → Except String (WalScan H × Nat)
  | 0, _, validSize, scan => .ok (scan, validSize)
  | fuel + 1, bytes, validSize, scan =>
    if bytes = [] then .ok (scan, validSize)
    else
      match nextRecord bytes with
      | .short | .incomplete => .ok (scan, validSize)
      | .badMagic => .error ("invalid WAL magic in " ++ path)
      | .invalid message => .error (path ++ ": " ++ message)
      | .record t size =>
        match scan.replay t size with
        | .error message => .error message
        | .ok scan => recoverRecords path fuel (bytes.drop size) (validSize + size) scan

/-- `RecoverSegment` for each segment. An incomplete tail is cut off. -/
def recoverSegments : List (Nat × List UInt8) → WalScan H → Except String (WalScan H × List (Nat × List UInt8))
  | [], scan => .ok (scan, [])
  | segment :: segments, scan =>
    match recoverRecords (scan.store.directory.segmentPath segment.1) (segment.2.length + 1) segment.2 0 scan with
    | .error message => .error message
    | .ok (scan, validSize) =>
      match recoverSegments segments scan with
      | .error message => .error message
      | .ok (scan, kept) => .ok (scan, (segment.1, segment.2.take validSize) :: kept)

/-- `Recover`. -/
def recoverLog (s : OpenStore H) (f : PackedForest H) : Except String (OpenStore H × PackedForest H) :=
  match recoverSegments s.directory.segments ⟨s, f, s.durableLsn⟩ with
  | .error message => .error message
  | .ok (scan, segments) =>
    .ok ({ scan.store with
      directory := { scan.store.directory with segments }
      currentLsn := max scan.store.durableLsn scan.lastSeenLsn }, scan.forest)

/-! ## Opening -/

/-- `RecoverDeltas`, then `Recover`. -/
def OnlineBase.recover (base : OnlineBase H) (config : OnlineForestConfig) (directory : Directory H) :
    Except String (OpenStore H × PackedForest H) :=
  match recoverDeltas (base.store config directory) base.forest with
  | .error message => .error message
  | .ok (s, f) => recoverLog s f

/-- Index and free ids: those of the cache if it is hit, else those of the full scan. -/
def OpenStore.validate (s : OpenStore H) (f : PackedForest H) (cache : Option (ValidatedCache H)) :
    Except Fault (Except String (PackedForest H)) :=
  let miscounts (f : PackedForest H) : Prop := s.currentLsn = s.durableLsn ∧ f.arena.live ≠ s.durableLiveNodes
  match (cache.bind (f.loadValidatedStartupCache s.base)).filter fun f => ¬miscounts f with
  | some f => .ok (.ok f)
  | none =>
    match f.rebuildIndexAndValidate validationWindowSlots with
    | .error fault => .error fault
    | .ok (.error message) => .ok (.error message)
    | .ok (.ok f) =>
      if miscounts f then .ok (.error "online arena live-node count does not match its durable state")
      else .ok (.ok f)

/-- `cache` is the startup cache of the directory, if it has one. -/
def openOnline (base : OnlineBase H) (directory : Directory H) (cache : Option (ValidatedCache H))
    (config : OnlineForestConfig) : Except Fault (Except String (OpenForest H)) :=
  let count := base.superblock.chainHashCount
  if config.Invalid then .ok (.error "invalid online forest configuration")
  else if base.chainHashes.length < count then .ok (.error "online chain-hash file is truncated or malformed")
  else if (base.chainHashes.take count).getLast? ≠ some base.superblock.point.blockHash then
    .ok (.error "online chain hashes do not match the base superblock")
  else if InvalidCapacity base.superblock.capacitySlots then .ok (.error "invalid mapped arena capacity")
  else
    match base.recover config directory with
    | .error message => .ok (.error message)
    | .ok (s, f) =>
      match s.validate f cache with
      | .error fault => .error fault
      | .ok (.error message) => .ok (.error message)
      | .ok (.ok f) =>
        if ¬ChainMatches s.point s.chainHashes then
          .ok (.error "recovered WAL chain does not match its online point")
        else .ok (.ok { toPackedForest := f, online := some s })

end Recovery

end UtreexoBridge
