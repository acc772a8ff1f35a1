import UtreexoBridge.Online.Store

/-!
# Disconnecting a block (`ReadConnectTransaction`, `RollbackOnlineBlock`)

The log keeps what a block changed. The record of the tip is read back from the
segments and applied the other way round.
-/

namespace UtreexoBridge

open Bytes

/-! ## Reading a record from the log -/

/-- The transaction connects the block at `point`. -/
def WalTransaction.connects {H : Type} [DecidableEq H] (t : WalTransaction H) (point : ChainPoint H) : Bool :=
  t.kind = .connect && t.point = point

namespace OpenStore

variable {H : Type} [StoredHash H] [DecidableEq H]

def readSegment (point : ChainPoint H) :
    Nat → List UInt8 → Option (WalTransaction H) → Except String (Option (WalTransaction H))
  | 0, _, found => .ok found
  | fuel + 1, bytes, found =>
    if bytes = [] then .ok found
    else
      match nextRecord bytes with
      | .short | .badMagic | .incomplete => .ok found
      | .invalid message => .error message
      | .record t size => readSegment point fuel (bytes.drop size) (if t.connects point then some t else found)

def readSegments (point : ChainPoint H) :
    List (Nat × List UInt8) → Option (WalTransaction H) → Except String (Option (WalTransaction H))
  | [], found => .ok found
  | segment :: segments, found =>
    match readSegment point (segment.2.length + 1) segment.2 found with
    | .error message => .error message
    | .ok found => readSegments point segments found

def readConnectTransaction (s : OpenStore H) (point : ChainPoint H) : Except String (WalTransaction H) :=
  match readSegments point s.directory.segments none with
  | .error message => .error message
  | .ok none => .error "tip before-images are outside the retained WAL window"
  | .ok (some t) => .ok t

end OpenStore

/-! ## Applying records -/

section Apply

variable {H : Type} [ForestHash H]

namespace NodeArena

def applyRuntime (a : NodeArena H) (id : Nat) (record : NodeRecord H) : Except String (NodeArena H) :=
  if !a.mapped then .error "runtime record application requires a mapped arena"
  else if (a.read id).type = .free ∧ record.type ≠ .free then
    .ok (({ a with freeSet := a.freeSet.erase id, live := a.live + 1 }.noteFree false id).write id record)
  else if (a.read id).type ≠ .free ∧ record.type = .free then
    .ok (({ a with freeSet := insert id a.freeSet, freeStack := id :: a.freeStack, live := a.live - 1 }.noteFree
      true id).write id record)
  else .ok (a.write id record)

omit [ForestHash H] in
def setRuntimeNext (a : NodeArena H) (next : Nat) (changes : List (NodeChange H)) : NodeArena H :=
  { a with
    next
    freeSet := (changes.filter fun change => change.id ≥ next).foldl (fun set change => set.erase change.id) a.freeSet }

end NodeArena

variable [DecidableEq H]

def PackedForest.applyChanges (useAfter : Bool) :
    List (NodeChange H) → PackedForest H → Except Fault (Res × PackedForest H)
  | [], f => .ok (.ok (), f)
  | change :: changes, f =>
    let current := f.arena.read change.id
    let replacement := if useAfter then change.after else change.before
    let expected := if useAfter then change.before else change.after
    if current ≠ expected then .ok (.error "WAL before-image does not match the current mapped node", f)
    else
      match if current.type = .leaf then f.index.erase f.arena current.hash change.id else some (true, f.index) with
      | none => .error .diverges
      | some (false, _) => .ok (.error "could not remove the current leaf during WAL state application", f)
      | some (true, index) =>
        match f.arena.applyRuntime change.id replacement with
        | .error what => .error (.thrown what)
        | .ok arena =>
          match if replacement.type = .leaf then index.insert arena replacement.hash change.id else some index with
          | none => .error .diverges
          | some index => applyChanges useAfter changes { f with arena, index }

def PackedForest.applyPhysicalChanges (f : PackedForest H) (changes : List (NodeChange H)) (useAfter : Bool)
    (next : Nat) : Except Fault (Res × PackedForest H) :=
  match applyChanges useAfter changes f with
  | .error fault => .error fault
  | .ok (.error message, f) => .ok (.error message, f)
  | .ok (.ok (), f) => .ok (.ok (), { f with arena := f.arena.setRuntimeNext next changes })

end Apply

/-! ## The rollback -/

/-- The transaction that takes the block of `original` back from `current`. -/
def WalTransaction.rollback {H : Type} (original : WalTransaction H) (current : ChainPoint H) : WalTransaction H where
  kind := .disconnect
  lsn := 0
  previous := current
  point := original.previous
  beforeNumLeaves := original.afterNumLeaves
  afterNumLeaves := original.beforeNumLeaves
  beforeNext := original.afterNext
  afterNext := original.beforeNext
  beforeRoots := original.afterRoots
  afterRoots := original.beforeRoots
  changes := original.changes.map fun change => ⟨change.id, change.after, change.before, false⟩

namespace OpenForest

variable {H : Type} [StoredHash H] [DecidableEq H]

/-- Undo what was applied and rebuild the rest, as `abandonBlock` does. -/
def abandonRollback (f : OpenForest H) (rollback : WalTransaction H) (message : String) (io : BlockIo H) :
    Except Fault (Except String (ChainPoint H) × OpenForest H) :=
  let undone : PackedForest H := { f.toPackedForest with
    arena := f.arena.rollbackTransaction, roots := rollback.beforeRoots, numLeaves := rollback.beforeNumLeaves }
  match io.scratch with
  | .error what => .ok (.error (message ++ "; rollback recovery failed: " ++ what), { f with toPackedForest := io.left })
  | .ok () =>
    match undone.rebuildIndexAndValidate validationWindowSlots with
    | .error fault => .error fault
    | .ok (.ok rebuilt) => .ok (.error message, { f with toPackedForest := rebuilt })
    | .ok (.error what) =>
      .ok (.error (message ++ "; rollback recovery failed: " ++ what),
        { f with toPackedForest := if undone.arena.next ≥ noNode then undone else io.left })

def disconnectBlock (f : OpenForest H) (store : OpenStore H) (rollback : WalTransaction H) (io : BlockIo H) :
    Except Fault (Except String (ChainPoint H) × OpenForest H) :=
  match f.arena.beginTransaction with
  | .error what => .error (.thrown what)
  | .ok arena =>
    match { f.toPackedForest with arena }.applyPhysicalChanges rollback.changes true rollback.afterNext with
    | .error fault => .error fault
    | .ok (.error message, applied) => { f with toPackedForest := applied }.abandonRollback rollback message io
    | .ok (.ok (), applied) =>
      let f : OpenForest H := { f with toPackedForest := { applied with
        roots := rollback.afterRoots, numLeaves := rollback.afterNumLeaves } }
      match store.append rollback io.append with
      | (.error message, store) => { f with online := some store }.abandonRollback rollback message io
      | (.ok (), store) =>
        .ok (.ok rollback.point, { f with arena := f.arena.commitTransaction, online := some store })

def rollbackOnlineBlock (f : OpenForest H) (io : BlockIo H) :
    Except Fault (Except String (ChainPoint H) × OpenForest H) :=
  match f.online with
  | none => .ok (.error "forest is not using online storage", f)
  | some store =>
    if store.pending then .ok (.error "publish the validated online generation before rolling it back", f)
    else if !store.config.syncWal then
      .ok (.error "online forest WAL is disabled; restart from the last base and replay Bitcoin Core", f)
    else if store.point.height = 0 then .ok (.error "cannot roll back the genesis point", f)
    else
      match store.readConnectTransaction store.point with
      | .error message => .ok (.error message, f)
      | .ok original =>
        if original.point ≠ store.point then .ok (.error "retained WAL transaction does not match the online tip", f)
        else f.disconnectBlock store (original.rollback store.point) io

end OpenForest

end UtreexoBridge
