import Mathlib.Data.List.Sort
import UtreexoBridge.Arena.Spec
import UtreexoBridge.Position.Spec

/-!
# Scans over a mapped arena

`ForEachWindow` copies the arena into windows of consecutive slots, reading
each run through a buffer of 128 records. `ForEachLatestDeltaRecordFrom` merges
the runs with a priority queue. Sealing and compaction replace dirty records
and runs by a new run.
-/

namespace UtreexoBridge

variable {H : Type}

/-! ## Windows -/

/-- The cursor of `ForEachWindow` in one run. Records of an earlier block stay in the array
behind a shorter one. -/
structure WindowCursor (H : Type) where
  records : List (Nat × NodeRecord H)
  next : Nat
  position : Nat
  count : Nat

def cursorRecords : Nat := 128

/-- `Cursor{}`: the ids of default records are `NO_NODE`. -/
def WindowCursor.new [ForestHash H] : WindowCursor H := ⟨List.replicate cursorRecords (noNode, .blank), 0, 0, 0⟩

/-- The refill of a cursor at the end of its block: `none` if the run has no more records. -/
def WindowCursor.refill (run : List (Nat × NodeRecord H)) (c : WindowCursor H) : Option (WindowCursor H) :=
  let count := min cursorRecords (run.length - c.next)
  if count = 0 then none
  else some ⟨(run.drop c.next).take count ++ c.records.drop count, c.next + count, 0, count⟩

/-- `id - first` on `uint64_t`. -/
def windowSlot (id first : Nat) : Nat := if first ≤ id then id - first else 2 ^ 64 - (first - id)

def putRecord (window : List (NodeRecord H)) (index : Nat) (record : NodeRecord H) :
    Except Fault (List (NodeRecord H)) :=
  if index < window.length then .ok (window.set index record) else .error .outOfBounds

/-- The inner loop of `ForEachWindow`: records of one run below `stop` go into the window from `first` on. -/
def drainRun (run : List (Nat × NodeRecord H)) (first stop : Nat) :
    Nat → WindowCursor H → List (NodeRecord H) → Except Fault (WindowCursor H × List (NodeRecord H))
  | 0, _, _ => .error .diverges
  | fuel + 1, c, window =>
    match if c.position = c.count then c.refill run else some c with
    -- `cursor.count` is 0 here and `cursor.position` stays
    | none => .ok ({ c with count := 0 }, window)
    | some c =>
      match c.records[c.position]? with
      | none => .error .outOfBounds
      | some (id, record) =>
        if id ≥ stop then .ok (c, window)
        else
          match putRecord window (windowSlot id first) record with
          | .error fault => .error fault
          | .ok window => drainRun run first stop fuel { c with position := c.position + 1 } window

def drainRuns (first stop : Nat) :
    List (DeltaRun H × WindowCursor H) → List (NodeRecord H) → Except Fault (List (WindowCursor H) × List (NodeRecord H))
  | [], window => .ok ([], window)
  | (run, c) :: rest, window =>
    match drainRun run.records first stop (run.records.length + 1) c window with
    | .error fault => .error fault
    | .ok (c, window) =>
      match drainRuns first stop rest window with
      | .error fault => .error fault
      | .ok (cursors, window) => .ok (c :: cursors, window)

/-- The dirty records below `stop`, and the ids left for later windows. -/
def drainDirty (dirty : Nat → NodeRecord H) (first stop : Nat) :
    List Nat → List (NodeRecord H) → Except Fault (List Nat × List (NodeRecord H))
  | [], window => .ok ([], window)
  | id :: ids, window =>
    if id < stop then
      match putRecord window (windowSlot id first) (dirty id) with
      | .error fault => .error fault
      | .ok window => drainDirty dirty first stop ids window
    else .ok (id :: ids, window)

namespace NodeArena

variable [ForestHash H]

omit [ForestHash H] in
def sortedDirtyIds (a : NodeArena H) : List Nat := a.dirty.keys

omit [ForestHash H] in
/-- The dirty ids below `next`: `std::lower_bound` cuts the sorted list. -/
def sortedVisibleDirtyIds (a : NodeArena H) : List Nat := a.sortedDirtyIds.takeWhile (· < a.next)

def dirtyRecord (a : NodeArena H) (id : Nat) : NodeRecord H := a.dirty[id]?.getD .blank

/-- `MappedArenaFiles::ReadRange` into the head of the window. -/
def readRange (a : NodeArena H) (first count : Nat) (window : List (NodeRecord H)) :
    Except String (List (NodeRecord H)) :=
  if first + count > a.capacity then .error "online-state file was truncated while reading"
  else .ok ((List.range count).map (fun i => a.files (first + i)) ++ window.drop count)

/-- One window of a mapped arena, before the callback. -/
def fillWindow (a : NodeArena H) (first size : Nat) (cursors : List (WindowCursor H)) (dirty : List Nat) :
    Except Fault (Except String (List (WindowCursor H) × List Nat × List (NodeRecord H))) :=
  let window := List.replicate size .blank
  let base := if first < a.baseNext then a.readRange first (min size (a.baseNext - first)) window else .ok window
  match base with
  | .error message => .ok (.error message)
  | .ok window =>
    match drainRuns first (first + size) (a.deltaRuns.zip cursors) window with
    | .error fault => .error fault
    | .ok (cursors, window) =>
      match drainDirty a.dirtyRecord first (first + size) dirty window with
      | .error fault => .error fault
      | .ok (dirty, window) => .ok (.ok (cursors, dirty, window))

variable {σ : Type}

/-- The loop of `ForEachWindow` over the windows, with the callback's state. -/
def windowLoop (a : NodeArena H) (slots : Nat) (callback : σ → Nat → List (NodeRecord H) → Except String σ) :
    Nat → Nat → List (WindowCursor H) → List Nat → σ → Except Fault (Except String σ)
  | 0, first, _, _, s => if first < a.next then .error .diverges else .ok (.ok s)
  | fuel + 1, first, cursors, dirty, s =>
    if first < a.next then
      let size := min slots (a.next - first)
      let filled :=
        if a.mapped then a.fillWindow first size cursors dirty
        else .ok (.ok (cursors, dirty, (List.range size).map fun i => a.read (first + i)))
      match filled with
      | .error fault => .error fault
      | .ok (.error message) => .ok (.error message)
      | .ok (.ok (cursors, dirty, window)) =>
        match callback s first window with
        | .error message => .ok (.error message)
        | .ok s => windowLoop a slots callback fuel (first + slots) cursors dirty s
    else .ok (.ok s)

/-- Every window has at least one slot, so `next` bounds their number. -/
def forEachWindow (a : NodeArena H) (slots : Nat) (callback : σ → Nat → List (NodeRecord H) → Except String σ)
    (s : σ) : Except Fault (Except String σ) :=
  a.windowLoop slots callback a.next 0 (a.deltaRuns.map fun _ => .new) a.sortedVisibleDirtyIds s

end NodeArena

/-! ## Merging the runs -/

structure MergeCursor where
  id : Nat
  runIndex : Nat
  recordIndex : Nat
  deriving DecidableEq, Repr

/-- The order of the priority queue: the smallest id on top, of the oldest run first. -/
def MergeCursor.before (x y : MergeCursor) : Prop := x.id < y.id ∨ x.id = y.id ∧ x.runIndex ≤ y.runIndex

instance : DecidableRel MergeCursor.before := fun _ _ => inferInstanceAs (Decidable (_ ∨ _ ∧ _))

def recordAt (runs : List (DeltaRun H)) (runIndex recordIndex : Nat) : Option (Nat × NodeRecord H) :=
  runs[runIndex]?.bind (·.records[recordIndex]?)

/-- Advance a popped cursor and push it again unless its run is at the end. -/
def advanceCursor (runs : List (DeltaRun H)) (c : MergeCursor) (pending : List MergeCursor) : List MergeCursor :=
  match recordAt runs c.runIndex (c.recordIndex + 1) with
  | none => pending
  | some (id, _) => pending.orderedInsert MergeCursor.before ⟨id, c.runIndex, c.recordIndex + 1⟩

/-- Whether the popped occurrence replaces the newest one so far. -/
def newer (newest : Option (Nat × NodeRecord H)) (runIndex : Nat) (record : NodeRecord H) :
    Option (Nat × NodeRecord H) :=
  match newest with
  | none => some (runIndex, record)
  | some (newestRun, _) => if runIndex > newestRun then some (runIndex, record) else newest

/-- The `do` loop: pop every occurrence of `nextId` and keep the one of the newest run. -/
def popId (runs : List (DeltaRun H)) (nextId : Nat) :
    Nat → Option (Nat × NodeRecord H) → List MergeCursor → Option (Nat × NodeRecord H) × List MergeCursor
  | 0, newest, pending => (newest, pending)
  | fuel + 1, newest, pending =>
    match pending with
    | [] => (newest, [])
    | c :: rest =>
      if c.id = nextId then
        match recordAt runs c.runIndex c.recordIndex with
        | none => (newest, pending)
        | some (_, record) => popId runs nextId fuel (newer newest c.runIndex record) (advanceCursor runs c rest)
      else (newest, pending)

/-- Every pass takes at least one record. -/
def mergeLoop (runs : List (DeltaRun H)) : Nat → List MergeCursor → List (Nat × NodeRecord H)
  | 0, _ => []
  | fuel + 1, pending =>
    match pending with
    | [] => []
    | c :: rest =>
      match popId runs c.id (runs.length + 1) none (c :: rest) with
      | (none, _) => []
      | (some (_, record), pending) => (c.id, record) :: mergeLoop runs fuel pending

def mergeStart (runs : List (DeltaRun H)) (firstRun : Nat) : List MergeCursor :=
  ((List.range runs.length).drop firstRun).foldl (fun pending runIndex =>
    match recordAt runs runIndex 0 with
    | none => pending
    | some (id, _) => pending.orderedInsert MergeCursor.before ⟨id, runIndex, 0⟩) []

namespace NodeArena

/-- What the callback of `ForEachLatestDeltaRecordFrom` sees, until it asks to stop. -/
def latestDeltaRecordsFrom (a : NodeArena H) (firstRun : Nat) : List (Nat × NodeRecord H) :=
  (mergeLoop a.deltaRuns (a.deltaRuns.map (·.records.length)).sum (mergeStart a.deltaRuns firstRun)).filter
    (·.1 < a.next)

def latestDeltaRecords (a : NodeArena H) : List (Nat × NodeRecord H) := a.latestDeltaRecordsFrom 0

/-! ## Sealing and compaction -/

def appendDeltaRun (a : NodeArena H) (run : DeltaRun H) : NodeArena H := { a with deltaRuns := a.deltaRuns ++ [run] }

def replaceDeltaRuns (a : NodeArena H) (run : DeltaRun H) : NodeArena H := { a with deltaRuns := [run] }

def clearDirty (a : NodeArena H) : NodeArena H := { a with dirty := ∅ }

variable [ForestHash H] [DecidableEq H]

/-- Free slots count as equal whatever hash is left in them. -/
def equalsPhysicalBase (a : NodeArena H) (id : Nat) (record : NodeRecord H) : Bool :=
  let base := a.readPhysicalBase id
  if record.type = .free ∧ base.type = .free then true else record = base

def sealRecords (a : NodeArena H) : List (Nat × NodeRecord H) :=
  a.sortedVisibleDirtyIds.map fun id => (id, a.dirtyRecord id)

def compactRecords (a : NodeArena H) : List (Nat × NodeRecord H) :=
  a.latestDeltaRecords.filter fun entry => !a.equalsPhysicalBase entry.1 entry.2

end NodeArena

end UtreexoBridge
