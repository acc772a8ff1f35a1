import UtreexoBridge.Online.Spec
import UtreexoBridge.Forest.Reachable
import UtreexoBridge.Validate.Represented

/-!
# Which forests go online

Every check of `WriteValidatedStartupCache` holds in a reachable forest but one:
the index may be larger than the number of slots allows. And the slots, rounded
up to chunks, may be too many to be mapped.
-/

namespace UtreexoBridge

open Bytes

/-! ## Capacities -/

theorem bitCeil_le {n k : Nat} (h : n ≤ 2 ^ k) : bitCeil n ≤ 2 ^ k := by
  unfold bitCeil Position.bitWidth
  split_ifs with h1 h2
  · exact Nat.one_le_two_pow
  · exact Nat.pow_le_pow_right (by omega) (by omega)
  · apply Nat.pow_le_pow_right (by omega)
    have := (Nat.log2_lt h2).mpr (show n - 1 < 2 ^ k by omega)
    omega

theorem hasSingleBit_pow (k : Nat) : hasSingleBit (2 ^ k) = true := by
  unfold hasSingleBit
  rw [KeylessLeafIndex.bitCeil_pow]
  simp

theorem validatedIndexCapacity_eq {entries : Nat} (h : entries ≤ 3435973836) :
    validatedIndexCapacity entries = some (bitCeil (max 16 ((entries * 10 + 7) / 8))) := by
  unfold validatedIndexCapacity
  rw [if_neg (by omega)]
  dsimp only
  rw [if_neg (by omega)]

theorem KeylessLeafIndex.Indexes.validated_le {H : Type} [ForestHash H] {index : KeylessLeafIndex} {a : NodeArena H}
    {S : Finset Nat} (h : index.Indexes a S) :
    bitCeil (max 16 ((index.size * 10 + 7) / 8)) ≤ index.table.capacity := by
  obtain ⟨k, hk⟩ := h.pow
  have hload := h.load
  have hcap := h.cap
  rw [hk] at hload hcap ⊢
  exact bitCeil_le (by omega)

theorem le_chunkCapacity (slots : Nat) : slots ≤ chunkCapacity slots := by
  unfold chunkCapacity chunkSize
  omega

theorem chunkCapacity_lt_iff (slots : Nat) : chunkCapacity slots < noNode ↔ slots ≤ 2 ^ 32 - 2 ^ 20 := by
  unfold chunkCapacity chunkSize noNode
  omega

theorem invalidCapacity_chunkCapacity (slots : Nat) :
    InvalidCapacity (chunkCapacity slots) ↔ ¬slots ≤ 2 ^ 32 - 2 ^ 20 := by
  have hpos : chunkCapacity slots ≠ 0 := by
    unfold chunkCapacity chunkSize
    omega
  rw [← chunkCapacity_lt_iff, not_lt]
  exact or_iff_right hpos

/-! ## The startup cache -/

section Cache

variable {H : Type} [ForestHash H] {a : NodeArena H} {index : KeylessLeafIndex}

theorem NodeArena.Bookkeeping.sortedFreeIds_eq (books : a.Bookkeeping) : a.sortedFreeIds = a.freeIds.sort := by
  have hfree := books.free_eq
  unfold NodeArena.FreeExact at hfree
  unfold NodeArena.sortedFreeIds
  split_ifs with hm
  · rw [if_pos hm] at hfree
    rw [hfree.1]
  · rw [if_neg hm] at hfree
    rw [hfree.2]

theorem validationEntries_length {S : Finset Nat} (h : index.Indexes a S) : index.validationEntries.length = index.size := by
  rw [h.size_eq, ← h.holds.entries_length, KeylessLeafIndex.validationEntries, OpenAddressing.Table.entries]
  generalize List.range index.table.capacity = slots
  induction slots with
  | nil => rfl
  | cons slot slots ih =>
    cases hentry : (index.table.slot slot).entry with
    | none => simp only [List.filterMap_cons, hentry, Option.map_none, ih]
    | some id => simp only [List.filterMap_cons, hentry, Option.map_some, List.length_cons, ih]

theorem decides_writeCache (books : a.Bookkeeping) (hindex : index.Indexes a a.leafIds)
    (hleaves : 2 * a.leafIds.card ≤ a.next + 64) (state : OnlineSuperblock H)
    (hnext : state.next = a.next) (hlive : state.liveNodes = a.live) :
    Decides (writeValidatedStartupCache state state.anchor a index)
      (index.table.capacity ≤ maximumValidatedIndexCapacity a.next) fun _ => True := by
  have hle := books.next_le
  have hnone : noNode = 2 ^ 32 - 1 := rfl
  have hsum := a.card_liveIds_add
  have hsize : index.size ≤ 3435973836 := by
    rw [hindex.size_eq]
    omega
  have hfree : a.sortedFreeIds.length = a.freeIds.card := by rw [books.sortedFreeIds_eq, Finset.length_sort]
  obtain ⟨k, hk⟩ := hindex.pow
  have hbit : hasSingleBit index.table.capacity = true := by
    rw [hk]
    exact hasSingleBit_pow k
  have hlower := hindex.validated_le
  unfold writeValidatedStartupCache OnlineSuperblock.anchor
  dsimp only
  rw [validatedIndexCapacity_eq hsize, Option.getD_some, hnext, hlive, hfree, books.live_eq, hbit]
  by_cases hfits : index.table.capacity ≤ maximumValidatedIndexCapacity a.next
  · rw [if_neg, if_neg, if_neg, if_neg]
    · exact Decides.ok hfits trivial
    · rintro (⟨id, hid, hge⟩ | hunsorted)
      · rw [books.sortedFreeIds_eq, Finset.mem_sort, NodeArena.mem_freeIds] at hid
        omega
      · rw [books.sortedFreeIds_eq] at hunsorted
        exact hunsorted (Finset.sortedLT_sort _).pairwise
    · rw [not_not]
      exact validationEntries_length hindex
    · unfold validatedCacheHeaderSize validatedCacheTrailerSize
      omega
    · simp only [ne_eq, not_true_eq_false, reduceCtorEq, Bool.true_eq_false, false_or]
      omega
  · rw [if_pos (by omega)]
    exact Decides.error hfits

end Cache

variable {H : Type} [StoredHash H] [DecidableEq H] {f : PackedForest H} {trees : Nat → Option (IdTree H)}
  {point : ChainPoint H} {chainHashes : List H} {config : OnlineForestConfig}

omit [DecidableEq H] in
theorem decides_mapPublished (f : PackedForest.Impl H) (state : OnlineSuperblock H) (chainHashes : List H)
    (config : OnlineForestConfig) :
    Decides (f.mapPublished state chainHashes config) (¬InvalidCapacity state.capacitySlots) fun _ => True := by
  unfold PackedForest.Impl.mapPublished NodeArena.switchToMapped
  by_cases hinvalid : InvalidCapacity state.capacitySlots
  · rw [if_pos hinvalid]
    exact Decides.error (not_not.mpr hinvalid)
  · rw [if_neg hinvalid]
    exact Decides.ok hinvalid trivial

omit [DecidableEq H] in
theorem mapPublished_eq_ok {f g : PackedForest.Impl H} {state : OnlineSuperblock H}
    (h : f.mapPublished state chainHashes config = .ok g) :
    g = { f with
      arena := { f.arena with
        mapped := true, files := f.arena.writeNative, capacity := state.capacitySlots, baseNext := f.arena.next,
        freeSet := f.arena.freeStack.toFinset }
      online := some (.new config state chainHashes) } := by
  unfold PackedForest.Impl.mapPublished NodeArena.switchToMapped at h
  by_cases hinvalid : InvalidCapacity state.capacitySlots
  · rw [if_pos hinvalid] at h
    cases h
  · rw [if_neg hinvalid] at h
    exact (Except.ok.inj h).symm

theorem enableOnline_published {f g : PackedForest.Impl H} {cache : ValidatedCache H}
    (h : f.enableOnline point chainHashes config = .ok (g, cache)) :
    ChainMatches point chainHashes ∧ f.mapPublished (f.superblock point chainHashes) chainHashes config = .ok g := by
  unfold PackedForest.Impl.enableOnline at h
  -- its capacity is a large number
  generalize f.superblock point chainHashes = state at h ⊢
  dsimp only at h
  split_ifs at h with _ _ hmatches
  refine ⟨hmatches, ?_⟩
  cases hcache : writeValidatedStartupCache state state.anchor f.arena f.index with
  | error message =>
    rw [hcache] at h
    cases h
  | ok _ =>
    rw [hcache] at h
    cases hmap : f.mapPublished state chainHashes config with
    | error message =>
      rw [hmap] at h
      cases h
    | ok _ =>
      rw [hmap] at h
      cases h
      rfl

theorem Structured.decides_enableOnline (h : Structured f trees) (hchain : ChainMatches point chainHashes)
    (hconfig : ¬config.Invalid) :
    Decides (PackedForest.Impl.enableOnline ⟨f, none⟩ point chainHashes config)
      (f.arena.next ≤ 2 ^ 32 - 2 ^ 20 ∧ f.index.table.capacity ≤ maximumValidatedIndexCapacity f.arena.next)
      fun _ => True := by
  have hslots : ¬InvalidCapacity (f.superblock point chainHashes).capacitySlots ↔ f.arena.next ≤ 2 ^ 32 - 2 ^ 20 := by
    have hinvalid := invalidCapacity_chunkCapacity f.arena.next
    unfold PackedForest.superblock
    dsimp only
    rw [hinvalid, not_not]
  generalize 2 ^ 32 - 2 ^ 20 = limit at hslots ⊢
  unfold PackedForest.Impl.enableOnline
  rw [if_neg (by simp), if_neg hconfig, if_neg (not_not.mpr hchain)]
  dsimp only
  rcases decides_writeCache h.books h.index h.leaves_le (f.superblock point chainHashes) rfl rfl with
    ⟨hfits, cache, hrun, -⟩ | ⟨hbad, message, hrun⟩
  · rw [hrun]
    have hmapped := decides_mapPublished ⟨f, none⟩ (f.superblock point chainHashes) chainHashes config
    exact (hmapped.map fun _ _ => trivial).iff (hslots.trans (and_iff_left hfits).symm)
  · rw [hrun]
    exact Decides.error fun hboth => hbad hboth.2

end UtreexoBridge
