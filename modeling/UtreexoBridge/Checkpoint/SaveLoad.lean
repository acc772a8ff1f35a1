import UtreexoBridge.Checkpoint.Preserve

/-!
# Saving and loading

A saved forest is loaded as a forest that goes on in the same way, and an
accepted file is the one that saving its contents writes.
-/

namespace UtreexoBridge

open Bytes RawNode UtreexoBridge.Compact

variable {H : Type} [StoredHash H] [DecidableEq H] {point : ChainPoint H} {chainHashes : List H} {f : PackedForest H}

/-! ## Loading what was saved -/

omit [DecidableEq H] in
theorem parses_hash (message : String) (h : H) : Parses (reading message readHash) (StoredHash.bytes h) h := by
  have hbytes := reads_bytes (StoredHash.bytes h)
  rw [StoredHash.length_bytes] at hbytes
  refine parses_reading ?_
  unfold readHash
  have hread : Reads (do let b ← readBytes 32; pure (StoredHash.ofBytes b : H)) (StoredHash.bytes h)
      (StoredHash.ofBytes (StoredHash.bytes h)) := hbytes.bind_last (reads_pure _)
  rwa [StoredHash.ofBytes_bytes] at hread

theorem parses_checkpointHeader (hheight : point.height < 2 ^ 32) (hchain : chainHashes = [] ∨ ChainMatches point chainHashes) :
    Parses readCheckpointHeader (checkpointHeader point chainHashes) (point, chainHashes) := by
  have hcount : chainHashes.length ≤ point.height + 1 := by
    rcases hchain with rfl | hmatches
    · exact Nat.zero_le _
    · exact hmatches.1.le
  unfold readCheckpointHeader checkpointHeader
  refine (parses_reading (reads_bytes checkpointMagic)).bind ?_
  refine (parses_require rfl).bind_nil ?_
  refine (parses_reading (reads_unsigned (by decide))).bind ?_
  refine (parses_reading (reads_unsigned (by norm_num; omega))).bind ?_
  refine (parses_require rfl).bind_nil ?_
  refine (parses_hash _ point.blockHash).bind ?_
  refine (parses_reading (reads_unsigned (by norm_num; omega))).bind ?_
  refine (parses_require hcount).bind_nil ?_
  refine (parses_many chainHashes fun h _ => parses_hash _ h).bind_last ?_
  exact (parses_require hchain).bind_nil (parses_pure _)

omit [DecidableEq H] in
theorem Structured.linksLive {trees : Nat → Option (IdTree H)} (h : Structured f trees) : f.LinksLive := by
  have hwell := h.wellLinked
  refine ⟨fun row => ?_, fun id hid => ⟨?_, ?_⟩⟩
  · by_cases hrow : row < 64
    · rw [h.roots row hrow]
      cases ht : trees row with
      | none => exact Or.inl rfl
      | some t => exact Or.inr (h.shape.mem_live (h.mem_rows ht) t.id_mem_ids)
    · exact Or.inl (by simp [rootAt, hrow])
  · by_cases hparent : (f.arena.read id).parent = noNode
    · exact Or.inl hparent
    · exact Or.inr (hwell.parent id hid hparent).1
  · obtain ⟨row, fs, s, -, rfl, hl⟩ := h.exists_linked hid
    cases s with
    | leaf x v =>
      have hrec : f.arena.read x = _ := hl
      rw [IdTree.id, hrec]
      exact ⟨Or.inl rfl, Or.inl rfl⟩
    | node x l r =>
      have hchildren := hwell.children x hid (congrArg NodeRecord.type hl.1)
      exact ⟨Or.inr hchildren.1.1, Or.inr hchildren.2.1⟩

theorem saveCheckpoint_eq (hchain : chainHashes = [] ∨ ChainMatches point chainHashes) :
    saveCheckpoint point f chainHashes = .ok (appendChecksum (checkpointHeader point chainHashes ++ writeForest f)) := by
  unfold saveCheckpoint
  rw [if_neg]
  rintro ⟨hsome, hno⟩
  exact hchain.elim hsome hno

theorem chain_of_saveCheckpoint {bytes : List UInt8} (h : saveCheckpoint point f chainHashes = .ok bytes) :
    chainHashes = [] ∨ ChainMatches point chainHashes := by
  unfold saveCheckpoint at h
  split at h
  · cases h
  · rename_i hno
    by_cases hnil : chainHashes = []
    · exact Or.inl hnil
    · exact Or.inr (not_not.mp fun hmatch => hno ⟨hnil, hmatch⟩)

theorem loadCheckpoint_saved {trees : Nat → Option (IdTree H)} (h : Structured f trees) (hlinks : f.Links)
    (hslots : f.arena.next < noNode) (hheight : point.height < 2 ^ 32)
    (hchain : chainHashes = [] ∨ ChainMatches point chainHashes) :
    ∃ g : PackedForest H, loadCheckpoint (appendChecksum (checkpointHeader point chainHashes ++ writeForest f)) =
        .ok (.ok ⟨point, chainHashes, g⟩) ∧
      Structured g trees ∧ g.Links ∧ g.numLeaves = f.numLeaves ∧ g.roots = f.roots ∧
      Imported f.arena.read f.arena.next g.arena := by
  let payload := checkpointHeader point chainHashes ++ writeForest f
  obtain ⟨g, hread, hrest⟩ := readForest_writeForest h hlinks hslots (appendUnsigned 8 (checksum payload))
  refine ⟨g, ?_, hrest⟩
  have hintact : checkpointIntact (appendChecksum payload) = .ok () := checkpointIntact_iff.mpr ⟨payload, rfl⟩
  have hheader : readCheckpointHeader (appendChecksum payload) =
      .ok ((point, chainHashes), writeForest f ++ appendUnsigned 8 (checksum payload)) := by
    rw [appendChecksum, List.append_assoc]
    exact parses_checkpointHeader hheight hchain _
  show loadCheckpoint (appendChecksum payload) = _
  unfold loadCheckpoint
  simp only [hintact, hheader, hread]
  rw [if_neg (not_not.mpr (length_appendUnsigned 8 _))]

/-! ## Going on from a loaded forest -/

/-- Runs that come to an end look alike from two forests of one accumulator, wherever their nodes are. -/
theorem observe_run_eq {g : PackedForest H} {trees trees' : Nat → Option (IdTree H)} (hf : Represents f trees)
    (hg : Represents g trees') (hacc : accumulatorOf g.numLeaves trees' = accumulatorOf f.numLeaves trees)
    {blocks : List (Call H)} (hfresh : (accumulatorOf f.numLeaves trees).FreshRun blocks)
    {seen seen' : List Res × List (Option H) × Nat} (hseen : observe (f.run blocks) = .ok seen)
    (hseen' : observe (g.run blocks) = .ok seen') : seen' = seen := by
  rcases hf.run blocks hfresh with ⟨fault, herr, -⟩ | ⟨f', treesF, hok, hrep, haccF⟩
  · rw [herr] at hseen
    cases hseen
  rw [← hacc] at hfresh
  rcases hg.run blocks hfresh with ⟨fault, herr, -⟩ | ⟨g', treesG, hok', hrep', haccG⟩
  · rw [herr] at hseen'
    cases hseen'
  rw [hacc] at hok' haccG
  have hsame : accumulatorOf g'.numLeaves treesG = accumulatorOf f'.numLeaves treesF := haccG.trans haccF.symm
  have hleaves : g'.numLeaves = f'.numLeaves := congrArg Accumulator.numLeaves hsame
  rw [hok] at hseen
  rw [hok'] at hseen'
  obtain rfl := Except.ok.inj hseen
  obtain rfl := Except.ok.inj hseen'
  dsimp only
  rw [hrep.rootHashes_eq, hrep'.rootHashes_eq, hsame, hleaves]

theorem Twin.observe_run {m : Accumulator H} {g : PackedForest H} (h : Twin m g f) {blocks : List (Call H)}
    (hfresh : m.FreshRun blocks) : observe (g.run blocks) = observe (f.run blocks) := by
  rcases h.run hfresh with ⟨fault, hg, hf⟩ | ⟨g', f', hg, hf, htwin⟩
  · rw [hg, hf]
  · rw [hg, hf]
    simp only [observe, Except.map]
    rw [htwin.left.rootHashes_eq, htwin.right.rootHashes_eq, htwin.left.numLeaves_eq, htwin.right.numLeaves_eq]

omit [DecidableEq H] in
theorem PackedForest.Compacts.represents {g : PackedForest H} {trees : Nat → Option (IdTree H)} (h : f.Compacts g)
    (hf : Represents f trees) (hg : g.Accepted) :
    ∃ trees', Represents g trees' ∧ accumulatorOf g.numLeaves trees' = accumulatorOf f.numLeaves trees := by
  obtain ⟨m, hren, honto⟩ := h.renumbered
  exact hf.renumber hren h.books hg.index honto

theorem accepted_of_load {bytes : List UInt8} {loaded : LoadedCheckpoint H} (h : loadCheckpoint bytes = .ok (.ok loaded)) :
    loaded.forest.Accepted := by
  obtain ⟨c, -, -, -, hread⟩ := exists_raw h
  exact (readForest_accepts hread).1

/-- **Checkpoints of runs.** The checkpoint of a forest that was reached by calls that add no live hash is loaded as a
forest that goes on in the same way. The compactor takes it, and a run from what the compactor leaves ends as it does
from the forest that was saved. -/
theorem saveCheckpoint_pipeline (calls : List (Call H)) (hfresh : (Accumulator.empty : Accumulator H).FreshRun calls)
    {results : List Res} (hrun : PackedForest.new.run calls = .ok (results, f)) (hslots : f.arena.next < noNode)
    (hheight : point.height < 2 ^ 32) (hchain : chainHashes = [] ∨ ChainMatches point chainHashes) :
    ∃ bytes loaded, saveCheckpoint point f chainHashes = .ok bytes ∧ loadCheckpoint bytes = .ok (.ok loaded) ∧
      LoadedCheckpoint.Alike ⟨point, chainHashes, f⟩ loaded ∧
      (∀ blocks, ((Accumulator.empty : Accumulator H).run calls).2.FreshRun blocks →
        observe (loaded.forest.run blocks) = observe (f.run blocks)) ∧
      (0 < f.arena.next → ∃ out compacted, compactCheckpoint bytes = .ok out ∧ loadCheckpoint out = .ok (.ok compacted) ∧
        LoadedCheckpoint.Alike ⟨point, chainHashes, f⟩ compacted ∧ compacted.forest.arena.freeIds = ∅ ∧
        ∀ blocks seen seen', ((Accumulator.empty : Accumulator H).run calls).2.FreshRun blocks →
          observe (f.run blocks) = .ok seen → observe (compacted.forest.run blocks) = .ok seen' → seen' = seen) := by
  have hlinks := PackedForest.links_new.run hrun
  rcases represents_new.run calls hfresh with ⟨fault, herr, -⟩ | ⟨f0, trees, hok, hrep, hacc⟩
  · rw [herr] at hrun
    cases hrun
  rw [hok] at hrun
  cases hrun
  have hreached : accumulatorOf f.numLeaves trees = ((Accumulator.empty : Accumulator H).run calls).2 := hacc
  rw [← hreached]
  obtain ⟨g, hload, hstrG, hlinksG, hnum, hroots, himp⟩ :=
    loadCheckpoint_saved hrep.toStructured hlinks hslots hheight hchain
  have hrepG : Represents g trees := ⟨hstrG, hrep.hashes⟩
  have hacc' : accumulatorOf g.numLeaves trees = accumulatorOf f.numLeaves trees := by rw [hnum]
  obtain ⟨hhashes, hcontains⟩ := hrep.toStructured.alike hstrG hnum
  have halike : LoadedCheckpoint.Alike ⟨point, chainHashes, f⟩ ⟨point, chainHashes, g⟩ :=
    ⟨rfl, rfl, hnum, hhashes, hcontains, prove_alike hrep hrepG hnum hroots himp⟩
  refine ⟨_, _, saveCheckpoint_eq hchain, hload, halike, fun blocks hblocks => ?_, fun hsome => ?_⟩
  · have htwin : Twin (accumulatorOf f.numLeaves trees) g f :=
      ⟨⟨⟨trees, hrepG, hacc'⟩, hlinksG⟩, ⟨⟨trees, hrep, rfl⟩, hlinks⟩, himp.next_eq⟩
    exact htwin.observe_run hblocks
  · obtain ⟨out, hout⟩ := (compactCheckpoint_ok_iff hload).mpr ⟨by rwa [himp.next_eq], hrepG.toStructured.linksLive⟩
    obtain ⟨k, hloaded, hcompacts, -⟩ := compactCheckpoint_loads hload hout
    obtain ⟨trees', hrepK, haccK⟩ := hcompacts.represents hrepG (accepted_of_load hloaded)
    refine ⟨out, _, hout, hloaded, halike.trans hcompacts.alike, hcompacts.free, fun blocks seen seen' hblocks h h' => ?_⟩
    exact observe_run_eq hrep hrepK (haccK.trans hacc') hblocks h h'

theorem saveCheckpoint_pipeline_spending :
    ∃ bytes loaded, saveCheckpoint ⟨7, leafHash 9⟩ (reached spendingCalls) [] = .ok bytes ∧
      loadCheckpoint bytes = .ok (.ok loaded) ∧
      LoadedCheckpoint.Alike ⟨⟨7, leafHash 9⟩, [], reached spendingCalls⟩ loaded ∧
      (∀ blocks, ((Accumulator.empty : Accumulator ByteHash).run spendingCalls).2.FreshRun blocks →
        observe (loaded.forest.run blocks) = observe ((reached spendingCalls).run blocks)) ∧
      (0 < (reached spendingCalls).arena.next → ∃ out compacted, compactCheckpoint bytes = .ok out ∧
        loadCheckpoint out = .ok (.ok compacted) ∧
        LoadedCheckpoint.Alike ⟨⟨7, leafHash 9⟩, [], reached spendingCalls⟩ compacted ∧
        compacted.forest.arena.freeIds = ∅ ∧
        ∀ blocks seen seen', ((Accumulator.empty : Accumulator ByteHash).run spendingCalls).2.FreshRun blocks →
          observe ((reached spendingCalls).run blocks) = .ok seen →
            observe (compacted.forest.run blocks) = .ok seen' → seen' = seen) :=
  saveCheckpoint_pipeline spendingCalls freshRun_spendingCalls run_spendingCalls (by decide +kernel) (by decide) (Or.inl rfl)

/-- **Compaction of runs.** The checkpoint of a forest with a live node, reached by any calls, is compacted into one that
is loaded with the same chain, roots, leaf count and members, and no free slot. A second compaction leaves it as it is.
If the calls add no live hash, the proofs are the same too. -/
theorem compactCheckpoint_saved {calls : List (Call H)} {results : List Res}
    (hrun : PackedForest.new.run calls = .ok (results, f)) (hslots : f.arena.next < noNode) (hlive : 0 < f.arena.live)
    (hheight : point.height < 2 ^ 32) {bytes : List UInt8} (hsave : saveCheckpoint point f chainHashes = .ok bytes) :
    ∃ out compacted, compactCheckpoint bytes = .ok out ∧ loadCheckpoint out = .ok (.ok compacted) ∧
      compacted.point = point ∧ compacted.chainHashes = chainHashes ∧ compacted.forest.rootHashes = f.rootHashes ∧
      compacted.forest.numLeaves = f.numLeaves ∧ (∀ hash, compacted.forest.contains hash = f.contains hash) ∧
      ((Accumulator.empty : Accumulator H).FreshRun calls →
        ∀ targets, compacted.forest.prove targets = f.prove targets) ∧
      compacted.forest.arena.freeIds = ∅ ∧ compactCheckpoint out = .ok out := by
  have hlinks := PackedForest.links_new.run hrun
  obtain ⟨trees, hstr, hrep⟩ := exists_trees hrun
  have hchain := chain_of_saveCheckpoint hsave
  obtain rfl : _ = bytes := Except.ok.inj ((saveCheckpoint_eq hchain).symm.trans hsave)
  obtain ⟨g, hload, hstrG, -, hnum, hroots, himp⟩ := loadCheckpoint_saved hstr hlinks hslots hheight hchain
  have hcard : 0 < f.arena.liveIds.card := by rwa [hstr.books.live_eq] at hlive
  have hnext : f.arena.liveIds.card ≤ f.arena.next := by
    have := f.arena.card_liveIds_add
    omega
  obtain ⟨out, hout⟩ := (compactCheckpoint_ok_iff hload).mpr ⟨by rw [himp.next_eq]; omega, hstrG.linksLive⟩
  obtain ⟨k, hloaded, hcompacts, hagain⟩ := compactCheckpoint_loads hload hout
  obtain ⟨hhashes, hcontains⟩ := hstr.alike hstrG hnum
  have halike : LoadedCheckpoint.Alike ⟨point, chainHashes, g⟩ ⟨point, chainHashes, k⟩ := hcompacts.alike
  refine ⟨out, _, hout, hloaded, rfl, rfl, halike.rootHashes.trans hhashes, halike.numLeaves.trans hnum,
    fun hash => (halike.contains hash).trans (hcontains hash), fun hfresh targets => ?_, hcompacts.free, hagain ?_⟩
  · have hrepG : Represents g trees := ⟨hstrG, (hrep hfresh).hashes⟩
    exact (halike.prove targets).trans (prove_alike (hrep hfresh) hrepG hnum hroots himp targets)
  · rw [hcompacts.next_eq, himp.liveIds_eq]
    exact hcard

theorem compactCheckpoint_saved_spending :
    ∃ bytes out compacted, saveCheckpoint ⟨7, leafHash 9⟩ (reached spendingCalls) [] = .ok bytes ∧
      compactCheckpoint bytes = .ok out ∧ loadCheckpoint out = .ok (.ok compacted) ∧
      compacted.point = ⟨7, leafHash 9⟩ ∧ compacted.chainHashes = [] ∧
      compacted.forest.rootHashes = (reached spendingCalls).rootHashes ∧
      compacted.forest.numLeaves = (reached spendingCalls).numLeaves ∧
      (∀ hash, compacted.forest.contains hash = (reached spendingCalls).contains hash) ∧
      ((Accumulator.empty : Accumulator ByteHash).FreshRun spendingCalls →
        ∀ targets, compacted.forest.prove targets = (reached spendingCalls).prove targets) ∧
      compacted.forest.arena.freeIds = ∅ ∧ compactCheckpoint out = .ok out := by
  have hsave : saveCheckpoint ⟨7, leafHash 9⟩ (reached spendingCalls) [] = .ok _ := saveCheckpoint_eq (Or.inl rfl)
  obtain ⟨out, compacted, hrest⟩ :=
    compactCheckpoint_saved run_spendingCalls (by decide +kernel) (by decide +kernel) (by decide) hsave
  exact ⟨_, out, compacted, hsave, hrest⟩

/-- The hash that is live twice is proved at one place by the forest and at the other one by its compacted checkpoint. -/
theorem compactCheckpoint_repeated_leaf :
    ¬∀ (calls : List (Call ByteHash)) (results : List Res) (f : PackedForest ByteHash) (bytes : List UInt8),
      PackedForest.new.run calls = .ok (results, f) → 0 < f.arena.live →
        saveCheckpoint ⟨7, leafHash 9⟩ f [] = .ok bytes →
          ∃ out compacted, compactCheckpoint bytes = .ok out ∧ loadCheckpoint out = .ok (.ok compacted) ∧
            ∀ targets, compacted.forest.prove targets = f.prove targets := by
  intro h
  have hrun : PackedForest.new.run repeatedCalls = .ok ([.ok (), .ok (), .ok ()], reached repeatedCalls) :=
    run_reached (by decide +kernel)
  have hsave : saveCheckpoint ⟨7, leafHash 9⟩ (reached repeatedCalls) [] = .ok _ := saveCheckpoint_eq (Or.inl rfl)
  obtain ⟨out, compacted, hout, hload, hprove⟩ := h repeatedCalls _ _ _ hrun (by decide +kernel) hsave
  have hsame : repeatedPositions compacted.forest = repeatedPositions (reached repeatedCalls) := by
    rw [repeatedPositions, repeatedPositions, hprove]
  have hbefore : repeatedPositions (reached repeatedCalls) = some [4] := by decide +kernel
  have hafter : ((compactCheckpoint (appendChecksum (checkpointHeader ⟨7, leafHash 9⟩ ([] : List ByteHash) ++
      writeForest (reached repeatedCalls)))).toOption.bind fun out => (loadCheckpoint (H := ByteHash) out).toOption.bind
        fun result => result.toOption.bind fun loaded => repeatedPositions loaded.forest) = some [3] := by
    decide +kernel
  rw [hout] at hafter
  change ((loadCheckpoint (H := ByteHash) out).toOption.bind fun result =>
    result.toOption.bind fun loaded => repeatedPositions loaded.forest) = some [3] at hafter
  rw [hload] at hafter
  change repeatedPositions compacted.forest = some [3] at hafter
  rw [hsame, hbefore] at hafter
  cases hafter

/-! ## Saving what was loaded -/

theorem rootVector_toList {roots : List Nat} (h : roots.length = 64) : (rootVector roots).toList = roots := by
  apply List.ext_getElem
  · rw [Vector.length_toList, h]
  · intro row hrow hrow'
    simp [rootVector, hrow']

variable (H) in
omit [DecidableEq H] in
/-- A hash is 32 bytes and nothing else. -/
def Lossless : Prop := ∀ bytes : List UInt8, bytes.length = 32 → StoredHash.bytes (StoredHash.ofBytes bytes : H) = bytes

section Lossless

variable (hlossless : Lossless H)
include hlossless

omit [DecidableEq H] in
theorem readHash_canonical (message : String) :
    Scans (reading message (readHash (H := H))) (fun _ => True) StoredHash.bytes fun h _ => h := by
  intro bytes v rest
  constructor
  · intro hread
    obtain ⟨front, hlength, rfl, -⟩ := readHash_fixedSize message _ _ _ hread
    have hread := reading_eq_ok.mp hread
    unfold readHash at hread
    obtain ⟨b, back, hb, hpure⟩ := Reader.bind_eq_some.mp hread
    cases Reader.pure_eq_some.mp hpure
    obtain ⟨hb, heq⟩ := readBytes_iff.mp hb
    exact ⟨StoredHash.ofBytes b, trivial, by rw [hlossless b hb, heq], rfl⟩
  · rintro ⟨h, -, rfl, rfl⟩
    exact parses_hash message _ rest

theorem readCheckpointHeader_canonical {bytes body : List UInt8}
    (h : readCheckpointHeader bytes = .ok ((point, chainHashes), body)) :
    bytes = checkpointHeader point chainHashes ++ body ∧ (chainHashes = [] ∨ ChainMatches point chainHashes) := by
  unfold readCheckpointHeader at h
  obtain ⟨magic, more, hmagic, h⟩ := Parser.bind_eq_ok.mp h
  obtain ⟨⟨⟩, more, hknown, h⟩ := Parser.bind_eq_ok.mp h
  obtain ⟨version, more, hversion, h⟩ := Parser.bind_eq_ok.mp h
  obtain ⟨height, more, hheight, h⟩ := Parser.bind_eq_ok.mp h
  obtain ⟨⟨⟩, more, hsupported, h⟩ := Parser.bind_eq_ok.mp h
  obtain ⟨blockHash, more, hhash, h⟩ := Parser.bind_eq_ok.mp h
  obtain ⟨chains, more, hchains, h⟩ := Parser.bind_eq_ok.mp h
  obtain ⟨⟨⟩, more, hcount, h⟩ := Parser.bind_eq_ok.mp h
  obtain ⟨hashes, more, hhashes, h⟩ := Parser.bind_eq_ok.mp h
  obtain ⟨⟨⟩, more, hmatches, h⟩ := Parser.bind_eq_ok.mp h
  cases Parser.pure_eq_ok.mp h
  obtain ⟨-, rfl⟩ := readBytes_iff.mp (reading_eq_ok.mp hmagic)
  obtain ⟨rfl, hend⟩ := require_eq_ok.mp hknown
  cases hend
  obtain ⟨-, rfl⟩ := readUnsigned_iff.mp (reading_eq_ok.mp hversion)
  obtain ⟨-, rfl⟩ := readUnsigned_iff.mp (reading_eq_ok.mp hheight)
  obtain ⟨rfl, hend⟩ := require_eq_ok.mp hsupported
  cases hend
  obtain ⟨_, -, rfl, rfl⟩ := (readHash_canonical hlossless _ _ _ _).mp hhash
  obtain ⟨-, rfl⟩ := readUnsigned_iff.mp (reading_eq_ok.mp hchains)
  obtain ⟨-, hend⟩ := require_eq_ok.mp hcount
  cases hend
  obtain ⟨hs, ⟨rfl, -⟩, rfl, rfl⟩ := ((readHash_canonical hlossless _).many _ _ _ _).mp hhashes
  obtain ⟨hindex, hend⟩ := require_eq_ok.mp hmatches
  cases hend
  rw [valuesOf_const, List.map_id'] at hindex ⊢
  exact ⟨by simp only [checkpointHeader, List.append_assoc], hindex⟩

omit [DecidableEq H] in
theorem RawNode.encode_value {r : RawNode} {slots : Nat} (h : r.Valid slots) : writeNode (r.value (H := H)) = r.encode := by
  rw [writeNode, encode, value, hlossless r.hash h.hash]

omit [DecidableEq H] in
theorem writeForest_raw {c : RawCheckpoint} (hc : c.Valid) {index : KeylessLeafIndex} :
    writeForest (⟨rawArena c.nodes, index, rootVector c.roots, c.leaves⟩ : PackedForest H) = c.forest := by
  have hroots : appendRoots (rootVector c.roots) = c.roots.flatMap (appendUnsigned 4) := by
    rw [appendRoots, rootVector_toList hc.forest.length_roots]
  have hnodes : (List.range c.nodes.length).flatMap (fun id => writeNode ((rawArena c.nodes : NodeArena H).read id)) =
      c.nodes.flatMap encode := by
    have hvalues : (List.range c.nodes.length).map (rawArena c.nodes : NodeArena H).read = c.nodes.map RawNode.value := by
      refine List.ext_getElem (by simp) fun id hid hid' => ?_
      rw [List.getElem_map, List.getElem_range, List.getElem_map, rawArena_read (List.getElem?_eq_getElem _)]
    rw [← List.flatMap_map, hvalues, List.flatMap_map]
    exact List.flatMap_congr fun r hr => encode_value hlossless (hc.nodes r hr)
  rw [writeForest, RawCheckpoint.forest, forestHeader, hroots, rawArena_next, hnodes]
  simp only [List.append_assoc]

/-- **One file for one checkpoint.** What was loaded from a file is saved as that file. -/
theorem saveCheckpoint_loaded {bytes : List UInt8} {loaded : LoadedCheckpoint H}
    (h : loadCheckpoint bytes = .ok (.ok loaded)) :
    saveCheckpoint loaded.point loaded.forest loaded.chainHashes = .ok bytes := by
  obtain ⟨c, hc, rfl, hheader, hread⟩ := exists_raw h
  obtain ⟨index, -, hf, -⟩ := (readForest_raw_iff hc.forest hc.nodes _).mp hread
  obtain ⟨hcanonical, hchain⟩ := readCheckpointHeader_canonical hlossless (hheader [])
  rw [List.append_nil, List.append_nil] at hcanonical
  rw [saveCheckpoint_eq hchain, hf, writeForest_raw hlossless hc, ← hcanonical]
  rfl

end Lossless

theorem lossless_byteHash : Lossless ByteHash := by
  intro bytes hlength
  show ByteHash.bytes (if h : bytes.length = 32 then ⟨bytes, h⟩ else .zero) = bytes
  rw [dif_pos hlength]

theorem saveCheckpoint_loaded_pruned :
    Lossless ByteHash ∧ ∃ loaded : LoadedCheckpoint ByteHash, loadCheckpoint prunedCheckpoint = .ok (.ok loaded) ∧
      saveCheckpoint loaded.point loaded.forest loaded.chainHashes = .ok prunedCheckpoint := by
  obtain ⟨loaded, hload⟩ := load_prunedCheckpoint
  exact ⟨lossless_byteHash, loaded, hload, saveCheckpoint_loaded lossless_byteHash hload⟩

end UtreexoBridge
