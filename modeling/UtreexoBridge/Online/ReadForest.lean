import UtreexoBridge.Online.Import

/-!
# Forest files that are read into online storage

What is written holds the records of the forest, and these are well formed. So
only the number of slots and the size of the index are left to check.
-/

namespace UtreexoBridge

open Bytes

variable {H : Type} [StoredHash H] [DecidableEq H] {f : PackedForest H} {trees : Nat → Option (IdTree H)}
  {point : ChainPoint H} {chainHashes : List H} {config : OnlineForestConfig}

omit [DecidableEq H] in
theorem Structured.holds_writeForest (h : Structured f trees) (hlinks : f.Links) (hslots : f.arena.next < noNode) :
    ∃ records, Holds (writeForest f) f.numLeaves f.arena.next f.roots.toList records [] ∧
      ∀ id < f.arena.next, records.getD id zeroRecord = f.arena.read id := by
  obtain ⟨a, hparses, himp⟩ := h.parses_sections hlinks hslots
  have hparse := hparses []
  rw [List.append_nil] at hparse
  obtain ⟨records, hholds, rfl⟩ := readSections_iff.mp hparse
  refine ⟨records, hholds, fun id hid => ?_⟩
  rw [← himp.read_eq id hid, hholds.read_eq hid]

omit [DecidableEq H] in
theorem Structured.fails_forestHeader (h : Structured f trees) (hslots : ¬f.arena.next < noNode) :
    Fails readForestHeader (writeForest f) := by
  have hle := h.books.next_le
  unfold readForestHeader writeForest
  refine (parses_reading (reads_bytes forestMagic)).bind_fails ?_
  refine (parses_require rfl).bind_nil_fails ?_
  refine (parses_reading (reads_unsigned (by decide))).bind_fails ?_
  refine (parses_reading (reads_unsigned (by have := h.bound; norm_num; omega))).bind_fails ?_
  refine (parses_reading (reads_unsigned (by have := noNode_lt; norm_num at this ⊢; omega))).bind_fails ?_
  refine (parses_require rfl).bind_nil_fails ?_
  exact (fails_require hslots).bind

theorem Structured.readForestOnline_iff (h : Structured f trees) (hlinks : f.Links) (hchain : ChainMatches point chainHashes)
    (hconfig : ¬config.Invalid) :
    (∃ result, readForestOnline (writeForest f) point chainHashes config = .ok (.ok result)) ↔
      f.arena.next ≤ 2 ^ 32 - 2 ^ 20 ∧
        ∃ capacity ∈ validatedIndexCapacity f.index.size, capacity ≤ maximumValidatedIndexCapacity f.arena.next := by
  by_cases hslots : f.arena.next < noNode
  · obtain ⟨records, hholds, hread⟩ := h.holds_writeForest hlinks hslots
    have hgood : WellFormed (rootVector f.roots.toList).toList f.arena.next (records.getD · zeroRecord) := by
      unfold rootVector
      rw [ofFn_toList]
      exact h.wellFormed.congr hread
    have hcount : leafCount (records.getD · zeroRecord) f.arena.next = f.index.size := by
      rw [leafCount_congr hread, h.index.size_eq]
      rfl
    rw [readForestOnline_ok_iff hchain hconfig hholds, chunkCapacity_lt_iff, hcount]
    exact ⟨fun hok => ⟨hok.1, hok.2.2⟩, fun hok => ⟨hok.1, hgood, hok.2⟩⟩
  · obtain ⟨message, hfail⟩ := h.fails_forestHeader hslots []
    rw [List.append_nil] at hfail
    have hnone : noNode = 2 ^ 32 - 1 := rfl
    constructor
    · rintro ⟨out, hok⟩
      obtain ⟨-, -, leaves, slots, rootList, records, rest, body, hheader, -⟩ := readForestOnline_holds hok
      rw [hfail] at hheader
      cases hheader
    · rintro ⟨hle, -⟩
      omega

/-- **Going online.** A forest reached by any calls is taken online exactly if its slots fill at most 4095 chunks and its
index is not larger than their number allows. Its file is read exactly if the slots fill at most 4095 chunks and the
least index for its leaves is not too large. -/
theorem goes_online_iff {calls : List (Call H)} {results : List Res} (hrun : PackedForest.new.run calls = .ok (results, f))
    (hchain : ChainMatches point chainHashes) (hconfig : ¬config.Invalid) :
    ((∃ result, PackedForest.Impl.enableOnline ⟨f, none⟩ point chainHashes config = .ok result) ↔
        f.arena.next ≤ 2 ^ 32 - 2 ^ 20 ∧ f.index.table.capacity ≤ maximumValidatedIndexCapacity f.arena.next) ∧
      ((∃ result, readForestOnline (writeForest f) point chainHashes config = .ok (.ok result)) ↔
        f.arena.next ≤ 2 ^ 32 - 2 ^ 20 ∧
          ∃ capacity ∈ validatedIndexCapacity f.index.size, capacity ≤ maximumValidatedIndexCapacity f.arena.next) := by
  obtain ⟨trees, h⟩ := represents_new.toStructured.run hrun
  refine ⟨?_, h.readForestOnline_iff (PackedForest.links_new.run hrun) hchain hconfig⟩
  rcases h.decides_enableOnline hchain hconfig with ⟨hfits, result, hok, -⟩ | ⟨hbad, message, herr⟩
  · exact ⟨fun _ => hfits, fun _ => ⟨result, hok⟩⟩
  · rw [herr]
    exact ⟨fun ⟨result, hok⟩ => (nomatch hok), fun hfits => absurd hfits hbad⟩

/-! ## Concrete forests -/

def defaultOnlineConfig : OnlineForestConfig := ⟨512 * 1024 * 1024, 256 * 1024 * 1024, 1008, false, false, 4, 128, 50⟩

theorem goes_online_iff_spending :
    ((∃ result, PackedForest.Impl.enableOnline ⟨reached spendingCalls, none⟩ ⟨0, leafHash 1⟩ [leafHash 1] defaultOnlineConfig =
        .ok result) ↔
      (reached spendingCalls).arena.next ≤ 2 ^ 32 - 2 ^ 20 ∧
        (reached spendingCalls).index.table.capacity ≤ maximumValidatedIndexCapacity (reached spendingCalls).arena.next) ∧
    ((∃ result, readForestOnline (writeForest (reached spendingCalls)) ⟨0, leafHash 1⟩ [leafHash 1] defaultOnlineConfig =
        .ok (.ok result)) ↔
      (reached spendingCalls).arena.next ≤ 2 ^ 32 - 2 ^ 20 ∧ ∃ capacity ∈ validatedIndexCapacity (reached spendingCalls).index.size,
        capacity ≤ maximumValidatedIndexCapacity (reached spendingCalls).arena.next) :=
  goes_online_iff run_spendingCalls (by decide) (by decide)

/-- Six leaves, then a block that spends them and adds six others: the reservation counts all twelve. -/
def replacingCalls : List (Call ByteHash) :=
  [.modify ((List.range 6).map leafHash) [],
    .modify ((List.range 6).map fun i => leafHash (6 + i)) ((List.range 6).map leafHash)]

theorem replaced_forest_stays_offline :
    (∃ results, PackedForest.new.run replacingCalls = .ok (results, reached replacingCalls)) ∧
      ChainMatches ⟨0, leafHash 1⟩ [leafHash 1] ∧ ¬defaultOnlineConfig.Invalid ∧
      ¬∃ result, PackedForest.Impl.enableOnline ⟨reached replacingCalls, none⟩ ⟨0, leafHash 1⟩ [leafHash 1]
        defaultOnlineConfig = .ok result := by
  have hrun : PackedForest.new.run replacingCalls = .ok ([.ok (), .ok ()], reached replacingCalls) :=
    run_reached (by decide +kernel)
  obtain ⟨trees, h⟩ := represents_new.toStructured.run hrun
  have hchain : ChainMatches ⟨0, leafHash 1⟩ [leafHash 1] := by decide
  have hconfig : ¬defaultOnlineConfig.Invalid := by decide
  -- 32 index slots for 10 nodes
  have hlarge : ¬(reached replacingCalls).index.table.capacity ≤
      maximumValidatedIndexCapacity (reached replacingCalls).arena.next := by decide +kernel
  obtain ⟨message, herr⟩ := (h.decides_enableOnline hchain hconfig).exists_error fun hboth => hlarge hboth.2
  refine ⟨⟨_, hrun⟩, hchain, hconfig, ?_⟩
  rintro ⟨result, hok⟩
  rw [herr] at hok
  cases hok

end UtreexoBridge
