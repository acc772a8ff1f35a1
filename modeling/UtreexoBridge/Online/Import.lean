import UtreexoBridge.Forest.Accept
import UtreexoBridge.Online.Enable
import UtreexoBridge.Online.Sections

/-!
# The records of a forest file in online storage

The validation decides whether they are taken. Then the index has the least
capacity for their leaves, and the startup cache asks for one that is not too
large.
-/

namespace UtreexoBridge

open Bytes

variable {H : Type} [StoredHash H]

/-! ## The arena over the imported files -/

section Import

variable (read : Nat → NodeRecord H) (next : Nat)

def importedArena : NodeArena H :=
  .openMapped (fun id => ((List.range next).map read).getD id zeroRecord) (chunkCapacity next) next

theorem importedArena_read {id : Nat} (hid : id < next) : (importedArena read next).read id = read id := by
  have hcap := le_chunkCapacity next
  have hdirty : (importedArena read next).dirty[id]? = none := Std.ExtTreeMap.getElem?_empty
  unfold NodeArena.read
  rw [if_pos (show (importedArena read next).mapped = true from rfl), hdirty]
  show (NodeArena.readPhysicalBase _ id) = read id
  unfold NodeArena.readPhysicalBase
  have hin : ¬(id ≥ next ∨ id ≥ chunkCapacity next) := by omega
  rw [if_neg (show ¬(id ≥ (importedArena read next).baseNext ∨ id ≥ (importedArena read next).capacity) from hin)]
  show ((List.range next).map read).getD id zeroRecord = read id
  simp [List.getD_eq_getElem?_getD, hid]

theorem importedArena_mapped (hnext : next ≤ noNode) : (importedArena read next).Mapped :=
  ⟨rfl, le_chunkCapacity next, hnext⟩

theorem importedArena_scannable (slots : Nat) : (importedArena read next).Scannable slots := fun _ hr => nomatch hr

theorem countP_live (a : NodeArena H) :
    ((List.range a.next).map a.read).countP (fun record => record.type ≠ .free) = a.liveIds.card := by
  have hset : a.liveIds = ((List.range a.next).filter fun id => (a.read id).type ≠ .free).toFinset := by
    ext id
    simp [NodeArena.liveIds]
  rw [hset, List.toFinset_card_of_nodup (List.nodup_range.filter _), List.countP_map, List.countP_eq_length_filter]
  rfl

end Import

/-! ## Validation -/

omit [StoredHash H] in
/-- A capacity that was large enough at the end was never left. -/
theorem KeylessLeafIndex.Grown.capacity_eq {index : KeylessLeafIndex}
    (h : index.Grown (max 16 (bitCeil (max 16 ((index.size * 10 + 7) / 8))))) :
    index.table.capacity = bitCeil (max 16 ((index.size * 10 + 7) / 8)) := by
  have hle := le_bitCeil (max 16 ((index.size * 10 + 7) / 8))
  have hcapacity := h.capacity
  rw [max_eq_right (by omega)] at hcapacity
  refine hcapacity.resolve_right fun hfull => ?_
  obtain ⟨k, hk⟩ := bitCeil_eq_pow (max 16 ((index.size * 10 + 7) / 8))
  rw [hk] at hle hfull
  -- a full table would be five quarters of its entries, and no power of two is
  have hfive : 5 ∣ 2 ^ k * 4 := ⟨index.size, by omega⟩
  have hcoprime : Nat.Coprime 5 (2 ^ k * 4) := Nat.Coprime.mul_right ((by decide : Nat.Coprime 5 2).pow_right k) (by decide)
  have := Nat.Coprime.eq_one_of_dvd hcoprime hfive
  omega

structure ImportedForest (read : Nat → NodeRecord H) (next : Nat) (roots : Vector Nat 64) (leaves : Nat)
    (g : PackedForest H) : Prop where
  books : g.arena.Bookkeeping
  next_eq : g.arena.next = next
  read_eq : ∀ id < next, g.arena.read id = read id
  roots_eq : g.roots = roots
  leaves_eq : g.numLeaves = leaves
  index : g.index.Indexes g.arena g.arena.leafIds
  capacity : g.index.table.capacity = bitCeil (max 16 ((g.index.size * 10 + 7) / 8))

section Forest

variable [DecidableEq H] {read : Nat → NodeRecord H} {next leaves : Nat} {roots : Vector Nat 64}

variable (read leaves roots) in
theorem decides_import (hnext : next < noNode) :
    ∃ result, PackedForest.rebuildIndexAndValidate ⟨importedArena read next, .new, roots, leaves⟩ validationWindowSlots =
        .ok result ∧
      Decides result (WellFormed roots.toList next read) (ImportedForest read next roots leaves) := by
  have hread : ∀ id < next, (importedArena read next).read id = read id := fun id hid => importedArena_read read next hid
  have hmapped := importedArena_mapped read next hnext.le
  obtain ⟨result, hrun, hdecides⟩ := PackedForest.rebuildIndexAndValidate_of_scannable
    (f := ⟨importedArena read next, .new, roots, leaves⟩) hmapped hnext (show 0 < validationWindowSlots by decide)
    (importedArena_scannable read next validationWindowSlots)
  refine ⟨result, hrun, hdecides.congr ⟨fun h => ?_, fun h => ?_⟩ fun g _ hrebuilt => ?_⟩
  · exact WellFormed.congr h fun id hid => (hread id hid).symm
  · exact WellFormed.congr h hread
  · have harena : g.arena = (importedArena read next).booked := congrArg PackedForest.arena hrebuilt.eq
    have hindexes := hrebuilt.indexes
    refine ⟨?_, by rw [harena]; rfl, fun id hid => ?_, by rw [hrebuilt.eq], by rw [hrebuilt.eq], ?_, ?_⟩
    · rw [harena]
      exact NodeArena.booked_bookkeeping hmapped
    · rw [harena]
      exact hread id hid
    · rw [harena]
      exact hindexes
    · apply KeylessLeafIndex.Grown.capacity_eq
      rw [hindexes.size_eq]
      exact hrebuilt.grown

def leafCount (read : Nat → NodeRecord H) (next : Nat) : Nat :=
  ((Finset.range next).filter fun id => (read id).type = .leaf).card

omit [StoredHash H] [DecidableEq H] in
theorem leafCount_congr {read' : Nat → NodeRecord H} (h : ∀ id < next, read' id = read id) :
    leafCount read' next = leafCount read next :=
  congrArg Finset.card (Finset.filter_congr fun id hid => by rw [h id (Finset.mem_range.mp hid)])

omit [DecidableEq H] in
theorem ImportedForest.size_eq {g : PackedForest H} (h : ImportedForest read next roots leaves g) :
    g.index.size = leafCount read next := by
  rw [h.index.size_eq, ← leafCount_congr h.read_eq]
  exact congrArg (leafCount g.arena.read) h.next_eq

omit [DecidableEq H] in
/-- At most half of the records are leaves, so the validated capacity exists. -/
theorem ImportedForest.decides_cache {g : PackedForest H} (h : ImportedForest read next roots leaves g)
    (hgood : WellFormed roots.toList next read) (state : OnlineSuperblock H) (hnext : state.next = next)
    (hlive : state.liveNodes = g.arena.live) :
    Decides (writeValidatedStartupCache state state.anchor g.arena g.index)
      (∃ capacity ∈ validatedIndexCapacity (leafCount read next), capacity ≤ maximumValidatedIndexCapacity next)
      fun _ => True := by
  have hgood' : WellFormed g.roots.toList g.arena.next g.arena.read := by
    rw [h.roots_eq, h.next_eq]
    exact hgood.congr h.read_eq
  have hleaves := hgood'.leaves_le
  have hcache := decides_writeCache h.books h.index hleaves state (hnext.trans h.next_eq.symm) hlive
  have hle := h.books.next_le
  have hnone : noNode = 2 ^ 32 - 1 := rfl
  have hsize : g.index.size ≤ 3435973836 := by
    rw [h.index.size_eq]
    omega
  rw [h.capacity, h.next_eq] at hcache
  rw [← h.size_eq, validatedIndexCapacity_eq hsize]
  refine hcache.iff ⟨fun hfits => ⟨_, rfl, hfits⟩, ?_⟩
  rintro ⟨capacity, hmem, hfits⟩
  cases hmem
  exact hfits

end Forest

/-! ## The loader -/

section Loader

variable [DecidableEq H] {bytes rest : List UInt8} {leaves slots : Nat} {rootList : List Nat} {records : List (NodeRecord H)}
  {point : ChainPoint H} {chainHashes : List H} {config : OnlineForestConfig}

def rootVector (rootList : List Nat) : Vector Nat 64 := Vector.ofFn fun row => (rootList[row.val]?).getD noNode

omit [DecidableEq H] in
theorem map_getD (records : List (NodeRecord H)) :
    (List.range records.length).map (fun id => records.getD id zeroRecord) = records := by
  apply List.ext_getElem
  · simp
  · intro i h1 h2
    simp [List.getElem?_eq_getElem h2]

theorem decides_readForestOnline (hchain : ChainMatches point chainHashes) (hconfig : ¬config.Invalid)
    (hholds : Holds bytes leaves slots rootList records rest) :
    ∃ result, readForestOnline bytes point chainHashes config = .ok result ∧
      Decides result (chunkCapacity slots < noNode ∧ WellFormed (rootVector rootList).toList slots (records.getD · zeroRecord) ∧
          ∃ capacity ∈ validatedIndexCapacity (leafCount (records.getD · zeroRecord) slots),
            capacity ≤ maximumValidatedIndexCapacity slots)
        fun out => ImportedForest (records.getD · zeroRecord) slots (rootVector rootList) leaves out.1.toPackedForest := by
  obtain ⟨body, hheader, hrecords⟩ := hholds
  have hslots := readForestHeader_slots hheader
  have hlength := (readNodes_readable hrecords).1
  unfold readForestOnline
  rw [if_neg hconfig, if_neg (not_not.mpr hchain)]
  by_cases hcapacity : chunkCapacity slots < noNode
  · rw [readOnlineSections_iff.mpr ⟨hcapacity, body, hheader, hrecords⟩]
    dsimp only
    obtain ⟨result, hrun, hdecides⟩ := decides_import (records.getD · zeroRecord) leaves (rootVector rootList) hslots
    unfold importedArena at hrun
    rw [← hlength, map_getD, hlength] at hrun
    unfold rootVector at hrun
    rw [hrun]
    rcases hdecides with ⟨hgood, g, rfl, himported⟩ | ⟨hbad, message, rfl⟩
    · dsimp only
      have hcount : g.arena.live = records.countP fun record => record.type ≠ .free := by
        rw [himported.books.live_eq, ← countP_live, himported.next_eq, List.map_congr_left fun id hid =>
          himported.read_eq id (List.mem_range.mp hid), ← hlength, map_getD]
      rw [if_neg (not_not.mpr hcount)]
      have hcache := himported.decides_cache hgood ⟨onlineFormatVersion, 0, 0, point, leaves, slots,
        records.countP fun record => record.type ≠ .free, chunkCapacity slots, chainHashes.length, rootVector rootList⟩
        rfl hcount.symm
      unfold rootVector at hcache
      rcases hcache with ⟨hfits, cache, hwrite, -⟩ | ⟨hbad, message, hwrite⟩
      · rw [hwrite]
        exact ⟨_, rfl, Decides.ok ⟨hcapacity, hgood, hfits⟩ himported⟩
      · rw [hwrite]
        exact ⟨_, rfl, Decides.error fun h => hbad h.2.2⟩
    · exact ⟨_, rfl, Decides.error fun h => hbad h.2.1⟩
  · cases hsections : readOnlineSections (H := H) bytes with
    | error message => exact ⟨_, rfl, Decides.error fun h => hcapacity h.1⟩
    | ok result =>
      obtain ⟨⟨leaves', slots', roots', records'⟩, rest'⟩ := result
      obtain ⟨hfits, body', hheader', -⟩ := readOnlineSections_iff.mp hsections
      rw [hheader] at hheader'
      cases hheader'
      exact absurd hfits hcapacity

theorem readForestOnline_ok_iff (hchain : ChainMatches point chainHashes) (hconfig : ¬config.Invalid)
    (hholds : Holds bytes leaves slots rootList records rest) :
    (∃ out, readForestOnline bytes point chainHashes config = .ok (.ok out)) ↔
      chunkCapacity slots < noNode ∧ WellFormed (rootVector rootList).toList slots (records.getD · zeroRecord) ∧
        ∃ capacity ∈ validatedIndexCapacity (leafCount (records.getD · zeroRecord) slots),
          capacity ≤ maximumValidatedIndexCapacity slots := by
  obtain ⟨result, hrun, hdecides⟩ := decides_readForestOnline hchain hconfig hholds
  rw [hrun]
  constructor
  · rintro ⟨out, hok⟩
    exact (hdecides.of_ok (Except.ok.inj hok)).1
  · intro h
    obtain ⟨out, rfl, -⟩ := hdecides.exists_ok h
    exact ⟨out, rfl⟩

/-- Only a whole file is loaded. -/
theorem readForestOnline_holds {out : PackedForest.Impl H × ValidatedCache H}
    (h : readForestOnline bytes point chainHashes config = .ok (.ok out)) :
    ¬config.Invalid ∧ ChainMatches point chainHashes ∧
      ∃ leaves slots rootList records rest, Holds (H := H) bytes leaves slots rootList records rest := by
  unfold readForestOnline at h
  split at h
  · cases h
  split at h
  · cases h
  rename_i hconfig hchain
  refine ⟨hconfig, not_not.mp hchain, ?_⟩
  cases hsections : readOnlineSections (H := H) bytes with
  | error message =>
    rw [hsections] at h
    cases h
  | ok result =>
    obtain ⟨⟨leaves, slots, rootList, records⟩, rest⟩ := result
    exact ⟨leaves, slots, rootList, records, rest, (readOnlineSections_iff.mp hsections).2⟩

end Loader

end UtreexoBridge
