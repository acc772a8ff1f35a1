import UtreexoBridge.Index.Repair
import UtreexoBridge.Online.Spec

/-!
# The startup cache (`LoadValidatedStartupCache`)

The index and the free ids of a cache file are brought up to the records behind
its anchor. `none` is a miss. A file that does not parse, or that is about other
forest files, counts as no cache.
-/

namespace UtreexoBridge

/-- The end of `ParseValidatedCacheHeader`. -/
def ValidatedCacheHeader.FieldsConsistent {H : Type} (header : ValidatedCacheHeader H) : Prop :=
  let base := header.base
  let anchor := header.anchor
  (base.formatVersion = legacyOnlineFormatVersion ∨ base.formatVersion = onlineFormatVersion) ∧ base.next < noNode ∧
    base.liveNodes ≤ base.next ∧ base.next ≤ base.capacitySlots ∧ base.capacitySlots < noNode ∧
    base.chainHashCount = base.point.height + 1 ∧ anchor.next < noNode ∧ anchor.liveNodes ≤ anchor.next ∧
    anchor.point.height ≠ 2 ^ 32 - 1 ∧
    (∃ capacity ∈ validatedIndexCapacity header.indexEntries, capacity ≤ header.indexCapacity) ∧
    hasSingleBit header.indexCapacity = true ∧ header.indexCapacity ≤ maximumValidatedIndexCapacity anchor.next ∧
    header.indexEntries < header.indexCapacity ∧ header.freeNodes = anchor.next - anchor.liveNodes

instance {H : Type} (header : ValidatedCacheHeader H) : Decidable header.FieldsConsistent := by
  unfold ValidatedCacheHeader.FieldsConsistent
  infer_instance

/-! ## The anchor -/

section Anchor

variable {H : Type} [DecidableEq H]

omit [DecidableEq H] in
def DeltaRun.anchor (run : DeltaRun H) : ValidationAnchor H :=
  ⟨run.state.generation, run.state.endLsn, run.state.point, run.state.numLeaves, run.state.next, run.state.liveNodes,
    run.state.roots⟩

def ValidationAnchor.findRun (anchor : ValidationAnchor H) : Nat → List (DeltaRun H) → Option Nat
  | _, [] => none
  | runIndex, run :: runs =>
    if run.state.generation ≠ anchor.generation then anchor.findRun (runIndex + 1) runs
    else if anchor = run.anchor then some (runIndex + 1)
    else none

/-- `first_patch_run`, if the anchor matches. -/
def ValidationAnchor.firstPatchRun (anchor : ValidationAnchor H) (base : OnlineSuperblock H) (runs : List (DeltaRun H)) :
    Option Nat :=
  if anchor.generation = 0 then if anchor = base.anchor then some 0 else none else anchor.findRun 0 runs

end Anchor

/-! ## Index and free ids -/

section Books

variable {H : Type} [StoredHash H]

def KeylessLeafIndex.loadValidationSlot (index : KeylessLeafIndex) (slot id : Nat) (changed : Bool) :
    Option KeylessLeafIndex :=
  if slot ≥ index.table.capacity ∨ index.table.slot slot ≠ .empty then none
  else if changed then some ⟨index.table.set slot .deleted, index.size, index.tombstones + 1⟩
  else some ⟨index.table.set slot (.full id), index.size + 1, index.tombstones⟩

/-- The entries, behind those of the ids in `seen`. -/
def loadEntries (next : Nat) (changed : Nat → Bool) :
    List (Nat × Nat) → List Nat → KeylessLeafIndex → Option KeylessLeafIndex
  | [], _, index => some index
  | (id, slot) :: entries, seen, index =>
    if id ≥ next ∨ id ∈ seen then none
    else (index.loadValidationSlot slot id (changed id)).bind (loadEntries next changed entries (id :: seen))

/-- A record behind the anchor. A dirty record of the same id comes later. -/
def patchBooks (dirty : Nat → Bool) (books : Finset Nat × KeylessLeafIndex) (entry : Nat × NodeRecord H) :
    Option (Finset Nat × KeylessLeafIndex) :=
  let free := if entry.2.type = .free then insert entry.1 books.1 else books.1.erase entry.1
  if entry.2.type = .leaf ∧ dirty entry.1 = false then
    (books.2.insertValidationHome (KeylessLeafIndex.validationHome entry.2.hash) entry.1).map (free, ·)
  else some (free, books.2)

end Books

/-! ## Loading -/

section Load

variable {H : Type} [StoredHash H] [DecidableEq H] {f g : PackedForest H}

/-- The books of the cache, brought up to the arena. -/
def ValidatedCache.books (cache : ValidatedCache H) (a : NodeArena H) (firstPatchRun : Nat) :
    Option (Finset Nat × KeylessLeafIndex) := do
  let anchor := cache.header.anchor
  let patches := a.latestDeltaRecordsFrom firstPatchRun
  let dirty := a.sealRecords
  let changed (id : Nat) : Bool := id ≥ a.next ∨ id ∈ (patches ++ dirty).map (·.1)
  let index ← loadEntries anchor.next changed cache.entries [] (.clear cache.header.indexCapacity)
  guard (cache.freeIds.Pairwise (· < ·) ∧ ∀ id ∈ cache.freeIds, id < anchor.next ∧ id ∉ cache.entries.map (·.1))
  let index ← index.repairValidationDeletions a
  let free := cache.freeIds.toFinset.filter (· < a.next) ∪ Finset.Ico anchor.next a.next
  let books ← patches.foldlM (patchBooks fun id => id ∈ dirty.map (·.1)) (free, index)
  dirty.foldlM (patchBooks fun _ => false) books

namespace PackedForest

def loadValidatedStartupCache (f : PackedForest H) (base : OnlineSuperblock H) (cache : ValidatedCache H) :
    Option (PackedForest H) := do
  let header := cache.header
  guard (header.FieldsConsistent ∧ header.base = base)
  guard (cache.entries.length = header.indexEntries ∧ cache.freeIds.length = header.freeNodes)
  let firstPatchRun ← header.anchor.firstPatchRun base f.arena.deltaRuns
  guard (f.arena.next < noNode)
  let (free, index) ← cache.books f.arena firstPatchRun
  guard (∃ capacity ∈ validatedIndexCapacity index.size, capacity ≤ index.table.capacity)
  let arena ← (f.arena.loadBookkeeping f.arena.next free.sort).toOption
  guard (∀ root ∈ f.roots.toList, root ≠ noNode → arena.isLive root = true ∧ (arena.read root).parent = noNode)
  return { f with arena, index }

end PackedForest

/-! ## What is taken from it -/

omit [StoredHash H] [DecidableEq H] in
/-- The same records with other books. -/
def PackedForest.Rebooked (f g : PackedForest H) : Prop :=
  ∃ freeStack freeSet live index,
    g = { f with arena := { f.arena with freeStack := freeStack, freeSet := freeSet, live := live }, index := index }

omit [StoredHash H] [DecidableEq H] in
theorem rebooked_loadBookkeeping {a : NodeArena H} {freeIds : List Nat} {index : KeylessLeafIndex}
    (h : f.arena.loadBookkeeping f.arena.next freeIds = .ok a) : f.Rebooked { f with arena := a, index } := by
  unfold NodeArena.loadBookkeeping at h
  split at h
  · cases h
  · cases h
    exact ⟨_, _, _, _, rfl⟩

/-- Whatever is in the cache, the records stay as they are. -/
theorem rebooked_loadValidatedStartupCache {base : OnlineSuperblock H} {cache : ValidatedCache H}
    (h : f.loadValidatedStartupCache base cache = some g) : f.Rebooked g := by
  unfold PackedForest.loadValidatedStartupCache at h
  simp only [bind, Option.bind_eq_some_iff] at h
  obtain ⟨-, -, -, -, firstPatchRun, -, -, -, ⟨free, index⟩, -, -, -, a, hload, -, -, hg⟩ := h
  cases hbooks : f.arena.loadBookkeeping f.arena.next free.sort with
  | error message =>
    rw [hbooks] at hload
    cases hload
  | ok a' =>
    rw [hbooks] at hload
    cases hload
    cases hg
    exact rebooked_loadBookkeeping hbooks

/-- So does the full scan. -/
theorem rebooked_rebuildIndexAndValidate {slots : Nat} (h : f.rebuildIndexAndValidate slots = .ok (.ok g)) :
    f.Rebooked g := by
  unfold PackedForest.rebuildIndexAndValidate at h
  dsimp only at h
  split at h
  · cases h
  · cases h
  split at h
  · cases h
  split at h
  · cases h
  rename_i hload
  split at h
  · cases h
  split at h
  · cases h
  · cases h
  · cases h
  split at h
  · cases h
  · cases h
    exact rebooked_loadBookkeeping hload

end Load

end UtreexoBridge
