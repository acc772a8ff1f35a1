import UtreexoBridge.Checkpoint.Compact
import UtreexoBridge.Online.Loaders

/-!
# What is loaded from a checkpoint and from the compacted one

The file of an accepted checkpoint is determined by its parts, up to the last
byte. So the compactor's view of it and the loader's are of the same parts.
-/

namespace UtreexoBridge

open Bytes RawNode UtreexoBridge.Compact

variable {H : Type} [StoredHash H] [DecidableEq H] {c : RawCheckpoint} {bytes : List UInt8} {loaded : LoadedCheckpoint H}
  {point : ChainPoint H} {chainHashes : List H} {f : PackedForest H}

/-! ## Files that are accepted -/

/-- The forest behind the header, and the trailer. -/
def RawCheckpoint.body (c : RawCheckpoint) : List UInt8 :=
  forestHeader c.leaves c.nodes.length c.roots ++ (c.nodes.flatMap encode ++ c.trailer)

theorem checkpointIntact_iff : checkpointIntact bytes = .ok () ↔ ∃ payload, bytes = appendChecksum payload := by
  unfold checkpointIntact
  constructor
  · intro h
    split at h
    · cases h
    rename_i hlong
    split at h
    · cases h
    rename_i hsum
    rw [not_not] at hsum
    have hlength : (bytes.drop (bytes.length - 8)).length = 8 := by
      rw [List.length_drop]
      omega
    refine ⟨bytes.take (bytes.length - 8), ?_⟩
    rw [appendChecksum, hsum]
    have hvalue := appendUnsigned_valueOf (bytes.drop (bytes.length - 8))
    rw [hlength] at hvalue
    rw [hvalue, List.take_append_drop]
  · rintro ⟨payload, rfl⟩
    obtain ⟨hlong, hsum⟩ := intact_appendChecksum payload
    rw [if_neg hlong, if_neg (not_not.mpr hsum)]

theorem load_file_iff (hheader : Parses readCheckpointHeader c.header (point, chainHashes)) :
    loadCheckpoint c.file = .ok (.ok loaded) ↔ loaded.point = point ∧ loaded.chainHashes = chainHashes ∧
      ∃ rest, readForest c.body = .ok (.ok (loaded.forest, rest)) ∧ rest.length = 8 := by
  have hintact : checkpointIntact c.file = .ok () := checkpointIntact_iff.mpr ⟨c.payload, rfl⟩
  have hread : readCheckpointHeader c.file = .ok ((point, chainHashes), c.body) := by
    rw [RawCheckpoint.file_eq]
    exact hheader _
  unfold loadCheckpoint
  simp only [hintact, hread]
  cases hforest : readForest (H := H) c.body with
  | error fault =>
    constructor
    · intro h
      cases h
    · rintro ⟨-, -, rest, h, -⟩
      cases h
  | ok result =>
    cases result with
    | error message =>
      constructor
      · intro h
        cases h
      · rintro ⟨-, -, rest, h, -⟩
        cases h
    | ok result =>
      obtain ⟨forest, rest⟩ := result
      simp only
      by_cases hlength : rest.length = 8
      · rw [if_neg (not_not.mpr hlength)]
        constructor
        · intro h
          cases h
          exact ⟨rfl, rfl, rest, rfl, hlength⟩
        · rintro ⟨rfl, rfl, rest', h, -⟩
          cases h
          rfl
      · rw [if_pos hlength]
        constructor
        · intro h
          cases h
        · rintro ⟨-, -, rest', h, hlength'⟩
          cases h
          exact absurd hlength' hlength

theorem exists_raw (h : loadCheckpoint bytes = .ok (.ok loaded)) :
    ∃ c : RawCheckpoint, c.Valid ∧ bytes = c.file ∧
      Parses readCheckpointHeader c.header (loaded.point, loaded.chainHashes) ∧
      readForest c.body = .ok (.ok (loaded.forest, c.trailer)) := by
  unfold loadCheckpoint at h
  split at h
  · cases h
  rename_i hintact
  obtain ⟨payload, hpayload⟩ := checkpointIntact_iff.mp hintact
  split at h
  · cases h
  rename_i point chainHashes body hheader
  split at h
  · cases h
  · cases h
  rename_i forest rest hforest
  split at h
  · cases h
  rename_i hlength
  cases h
  rw [not_not] at hlength
  obtain ⟨height, blockHash, chains, chainBytes, hraw, hbytes, hparses⟩ := readCheckpointHeader_spec hheader
  obtain ⟨hf, rootList, records, ⟨forestBody, hforestHeader, hrecords⟩, -, -⟩ := readForest_accepts hforest
  obtain ⟨hvalid, rfl⟩ := readForestHeader_spec hforestHeader
  obtain ⟨nodes, hnodes, hnodesValid, rfl, -⟩ := exists_rawNodes hvalid.slots_lt hrecords
  rw [← hnodes] at hvalid hnodesValid hforest hbytes
  let c : RawCheckpoint := ⟨height, blockHash, chains, chainBytes, forest.numLeaves, rootList, nodes⟩
  -- the last eight bytes are the checksum of the others
  have hsplit : appendChecksum payload = c.payload ++ rest := by
    rw [← hpayload, hbytes]
    simp only [c, RawCheckpoint.payload, RawCheckpoint.header, RawCheckpoint.forest, List.append_assoc]
  obtain ⟨rfl, hrest⟩ := List.append_inj' hsplit (by rw [length_appendUnsigned, hlength])
  have hbody : c.body = forestHeader forest.numLeaves nodes.length rootList ++ (nodes.flatMap encode ++ rest) := by
    rw [← hrest]
    rfl
  refine ⟨c, ⟨hraw, hvalid, hnodesValid⟩, hpayload, hparses, ?_⟩
  rw [hbody, hforest, ← hrest]
  rfl

/-! ## The compacted checkpoint -/

/-- Nothing that can be asked of the two differs. -/
structure LoadedCheckpoint.Alike (x y : LoadedCheckpoint H) : Prop where
  point : y.point = x.point
  chainHashes : y.chainHashes = x.chainHashes
  numLeaves : y.forest.numLeaves = x.forest.numLeaves
  rootHashes : y.forest.rootHashes = x.forest.rootHashes
  contains : ∀ hash, y.forest.contains hash = x.forest.contains hash
  prove : ∀ targets, y.forest.prove targets = x.forest.prove targets

theorem LoadedCheckpoint.Alike.trans {x y z : LoadedCheckpoint H} (h : x.Alike y) (h' : y.Alike z) : x.Alike z :=
  ⟨h'.point.trans h.point, h'.chainHashes.trans h.chainHashes, h'.numLeaves.trans h.numLeaves,
    h'.rootHashes.trans h.rootHashes, fun hash => (h'.contains hash).trans (h.contains hash),
    fun targets => (h'.prove targets).trans (h.prove targets)⟩

/-- No root and no live node names a free slot. -/
structure PackedForest.LinksLive (f : PackedForest H) : Prop where
  roots : ∀ row, f.arena.LinkLive (rootAt f.roots row)
  nodes : ∀ id ∈ f.arena.liveIds,
    f.arena.LinkLive (f.arena.read id).parent ∧ f.arena.LinkLive (f.arena.read id).left ∧ f.arena.LinkLive (f.arena.read id).right

theorem kept_iff (h : c.Valid) (hread : readForest c.body = .ok (.ok (f, c.trailer))) : c.Kept ↔ f.LinksLive := by
  have hslots := h.forest.slots_lt
  obtain ⟨index, -, rfl, -⟩ := (readForest_raw_iff h.forest h.nodes _).mp hread
  constructor
  · intro hkept
    refine ⟨fun row => ?_, fun id hid => ?_⟩
    · rw [rawArena_kept hslots, rootAt_rootVector]
      split_ifs
      · cases hroot : c.roots[row]? with
        | none => exact Or.inl rfl
        | some root => exact hkept.roots root (List.mem_of_getElem? hroot)
      · exact Or.inl rfl
    · obtain ⟨r, hr, hlive⟩ := rawArena_live.mp hid
      obtain ⟨hp, hl, hright⟩ := hkept.links r (List.mem_of_getElem? hr) hlive
      simp only [rawArena_read hr, rawArena_kept hslots]
      exact ⟨hp, hl, hright⟩
  · intro hlive
    refine ⟨fun root hroot => ?_, fun r hr hrlive => ?_⟩
    · obtain ⟨row, hrow, rfl⟩ := List.getElem_of_mem hroot
      have hlink := hlive.roots row
      rwa [rawArena_kept hslots, rootAt_rootVector, if_pos (by rw [← h.forest.length_roots]; exact hrow),
        List.getElem?_eq_getElem hrow, Option.getD_some] at hlink
    · obtain ⟨id, hid⟩ := List.mem_iff_getElem?.mp hr
      have hlinks := hlive.nodes id (rawArena_live.mpr ⟨r, hid, hrlive⟩)
      simp only [rawArena_read hid, rawArena_kept hslots] at hlinks
      exact hlinks

/-- The second forest is the live part of the first under new ids. -/
structure PackedForest.Compacts (f g : PackedForest H) : Prop where
  renumbered : ∃ m, f.Renumbered m g ∧ ∀ y ∈ g.arena.liveIds, ∃ x ∈ f.arena.liveIds, m x = y
  books : g.arena.Bookkeeping
  free : g.arena.freeIds = ∅
  next_eq : g.arena.next = f.arena.liveIds.card

theorem PackedForest.Compacts.alike {f g : PackedForest H} (h : f.Compacts g) :
    LoadedCheckpoint.Alike ⟨point, chainHashes, f⟩ ⟨point, chainHashes, g⟩ := by
  obtain ⟨m, hren, -⟩ := h.renumbered
  exact ⟨rfl, rfl, hren.numLeaves, hren.rootHashes_eq, hren.contains_eq, hren.prove_eq⟩

theorem compactCheckpoint_ok_iff {source : List UInt8} (hload : loadCheckpoint source = .ok (.ok loaded)) :
    (∃ out, compactCheckpoint source = .ok out) ↔ 0 < loaded.forest.arena.next ∧ loaded.forest.LinksLive := by
  obtain ⟨c, hc, rfl, -, hforest⟩ := exists_raw hload
  obtain ⟨index, -, hf, -⟩ := (readForest_raw_iff hc.forest hc.nodes _).mp hforest
  have hnext : loaded.forest.arena.next = c.nodes.length := by rw [hf, rawArena_next]
  rw [hnext, List.length_pos_iff, ← kept_iff hc hforest]
  constructor
  · rintro ⟨out, hout⟩
    by_contra hno
    obtain ⟨message, herr⟩ := compact_error hc hno
    rw [herr] at hout
    cases hout
  · exact fun h => ⟨_, compact_ok hc h.1 h.2⟩

/-- What the compactor writes is loaded as the live part of what it reads. -/
theorem compactCheckpoint_loads {source out : List UInt8} (hload : loadCheckpoint source = .ok (.ok loaded))
    (hout : compactCheckpoint source = .ok out) :
    ∃ g : PackedForest H, loadCheckpoint out = .ok (.ok ⟨loaded.point, loaded.chainHashes, g⟩) ∧
      loaded.forest.Compacts g ∧ (0 < g.arena.next → compactCheckpoint out = .ok out) := by
  obtain ⟨hpos, hlinks⟩ := (compactCheckpoint_ok_iff hload).mp ⟨out, hout⟩
  obtain ⟨c, hc, rfl, hheader, hforest⟩ := exists_raw hload
  have hslots := hc.forest.slots_lt
  have hk := (kept_iff hc hforest).mpr hlinks
  obtain ⟨index, -, hf, -⟩ := (readForest_raw_iff hc.forest hc.nodes _).mp hforest
  have hnext : loaded.forest.arena.next = c.nodes.length := by rw [hf, rawArena_next]
  have hnodes : c.nodes ≠ [] := by rwa [hnext, List.length_pos_iff] at hpos
  obtain rfl : c.compacted.file = out := Except.ok.inj ((compact_ok hc hnodes hk).symm.trans hout)
  obtain ⟨g, hread, hren, harena⟩ := readForest_compacted hc.forest hc.nodes hk.links hk.roots hforest c.compacted.trailer
  have hbody : readForest c.compacted.body = .ok (.ok (g, c.compacted.trailer)) := by
    rw [← hread, RawCheckpoint.body, ← length_compacted]
    rfl
  have hcard : liveCount c.nodes = loaded.forest.arena.liveIds.card := by rw [hf, card_liveIds]
  have hnext' : g.arena.next = loaded.forest.arena.liveIds.card := by rw [harena, rawArena_next, length_compacted, hcard]
  refine ⟨g, (load_file_iff (c := c.compacted) hheader).mpr ⟨rfl, rfl, _, hbody, length_appendUnsigned 8 _⟩,
    ⟨⟨_, hren, fun y hy => ?_⟩, ?_, by rw [harena, freeIds_compacted], hnext'⟩, fun hsome => ?_⟩
  · -- every id below the count is given to a live node
    have hlt := (NodeArena.mem_liveIds.mp hy).1
    rw [hnext', ← hcard, ← List.mem_range, ← range_liveCount (H := H), List.mem_map] at hlt
    obtain ⟨x, hx, rfl⟩ := hlt
    refine ⟨x, ?_, rfl⟩
    rw [hf, ← NodeArena.isLive_iff]
    exact (List.mem_filter.mp hx).2
  · rw [harena]
    refine rawArena_books ?_
    rw [length_compacted]
    exact (liveCount_le c.nodes).trans hslots.le
  · have hnonempty : c.compacted.nodes ≠ [] := by
      rw [← List.length_pos_iff]
      show 0 < (RawNode.compacted c.nodes).length
      rw [length_compacted, hcard, ← hnext']
      exact hsome
    rw [compact_ok (hc.compacted hk) hnonempty (RawCheckpoint.kept_compacted hc hk), RawCheckpoint.compacted_compacted hc hk]

/-- The checkpoint of a forest that lost the first of its two leaves, and two of its three nodes with it. -/
def prunedCheckpoint : List UInt8 :=
  appendChecksum (checkpointHeader ⟨7, leafHash 9⟩ [] ++
    writeForest (reached [.add (leafHash 1), .add (leafHash 2), .modify [] [leafHash 1]]))

theorem load_prunedCheckpoint :
    ∃ loaded : LoadedCheckpoint ByteHash, loadCheckpoint prunedCheckpoint = .ok (.ok loaded) := by
  have hsome : ((loadCheckpoint (H := ByteHash) prunedCheckpoint).toOption.bind (·.toOption)).isSome = true := by
    decide +kernel
  cases h : loadCheckpoint (H := ByteHash) prunedCheckpoint with
  | error fault =>
    rw [h] at hsome
    cases hsome
  | ok result =>
    cases result with
    | error message =>
      rw [h] at hsome
      cases hsome
    | ok loaded => exact ⟨loaded, rfl⟩

/-- The compactor drops the two free slots, each of 45 bytes. -/
example : (compactCheckpoint prunedCheckpoint).map (·.length + 2 * recordBytes) = .ok prunedCheckpoint.length := by
  decide +kernel

end UtreexoBridge
