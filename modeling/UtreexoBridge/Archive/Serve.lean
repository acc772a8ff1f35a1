import UtreexoBridge.Archive.Run
import UtreexoBridge.Leaf

/-!
# What the archive serves

In every state of every run the durable blocks read back as they were enqueued,
and opening the files again gives the same archive.
-/

namespace UtreexoBridge.Archive

open Bytes

variable {H : Type} [ArchiveHash H] [DecidableEq H] {config : ProofStoreConfig} {base : AccumulatorState H}
  {store : ProofStore H} {blocks : List (ArchiveBlock H)}

/-! ## Reading -/

/-- The state that a block of the chain was applied to. -/
def stateBefore (base : AccumulatorState H) (blocks : List (ArchiveBlock H)) (i : Nat) : AccumulatorState H :=
  ((blocks.take i).getLast?).elim base (·.state)

omit [ArchiveHash H] [DecidableEq H] in
theorem stateBefore_succ {i : Nat} {block : ArchiveBlock H} (h : blocks[i]? = some block) :
    stateBefore base blocks (i + 1) = block.state := by
  rw [stateBefore, List.take_add_one, h, Option.toList_some, List.getLast?_concat, Option.elim_some]

theorem Inv.previousOf (h : Inv config base store blocks) {i : Nat} {block : ArchiveBlock H}
    (hblock : blocks[i]? = some block) (hi : i < store.index.length) :
    store.previousOf i = block.previousBlockHash := by
  rw [ProofStore.previousOf, h.chain.linked i block hblock]
  rcases i with _ | i
  · rw [if_pos rfl, h.durable.basePoint, List.take_zero]
    rfl
  · obtain ⟨before, hbefore, -, hstored⟩ := h.durable.entry (by omega : i < store.index.length)
    rw [if_neg (Nat.succ_ne_zero i), Nat.add_sub_cancel, hstored.blockHash, tip_take_succ hbefore,
      (h.chain.states before (List.mem_of_getElem? hbefore)).2]

theorem Inv.stateAt_base (h : Inv config base store blocks) (hvalid : config.Valid) :
    store.stateAt config base.point.height = .ok (some base) := by
  have hmax : config.maxRecordBytes < 2 ^ 32 := hvalid.2.2.2.2.2.2.2.2
  have hread : readStateRecord config.maxRecordBytes store.files.data base.point ForestHash.null
      (entryOf 0 ForestHash.null base []) true = .ok base :=
    readStateRecord_located h.fits hmax (Nat.zero_le _) (fun _ => rfl) h.durable.baseLocated
  unfold ProofStore.stateAt
  rw [h.durable.basePoint, if_pos rfl, h.durable.baseState, if_neg (by simp), h.durable.baseDataSize,
    h.durable.baseDataDigest]
  have hentry : (⟨0, (baseRecord base).1.length, base.point.blockHash, (baseRecord base).2⟩ : DiskIndexEntry H) =
      entryOf 0 ForestHash.null base [] := rfl
  rw [hentry, show (⟨base.point.height, base.point.blockHash⟩ : ChainPoint H) = base.point from rfl, hread]
  rfl

theorem Inv.stateAt_block (h : Inv config base store blocks) (hvalid : config.Valid) {i : Nat} {block : ArchiveBlock H}
    (hblock : blocks[i]? = some block) (hi : i < store.index.length) :
    store.stateAt config block.point.height = .ok (some block.state) := by
  have hmax : config.maxRecordBytes < 2 ^ 32 := hvalid.2.2.2.2.2.2.2.2
  have hheight := h.chain.height i block hblock
  have hdurable := h.durable.height h.chain
  obtain ⟨hstate, hpoint⟩ := h.chain.states block (List.mem_of_getElem? hblock)
  have hrelative : block.point.height - base.point.height - 1 = i := by omega
  obtain ⟨found, hfound, -, hstored⟩ := h.durable.entry hi
  rw [hblock] at hfound
  cases hfound
  have hhash := hstored.blockHash
  obtain ⟨payload, offset, hprepared, hentry, hlocated⟩ := hstored
  have hread : readStateRecord config.maxRecordBytes store.files.data block.state.point block.previousBlockHash
      (entryOf offset block.previousBlockHash block.state payload) false = .ok block.state :=
    readStateRecord_located hstate hmax hprepared.size (fun hbase => absurd hbase Bool.false_ne_true) hlocated
  unfold ProofStore.stateAt
  rw [h.durable.basePoint, if_neg (by omega), if_neg (by omega)]
  simp only [hrelative]
  rw [if_neg (by
    rw [h.durable.statePresent, List.getElem?_replicate, if_pos hi]
    simp), h.previousOf hblock hi, hhash]
  rw [hpoint] at hread
  rw [hpoint, hentry, show (⟨block.point.height, block.point.blockHash⟩ : ChainPoint H) = block.point from rfl, hread]
  rfl

theorem Inv.stateAt_before (h : Inv config base store blocks) (hvalid : config.Valid) {i : Nat} {block : ArchiveBlock H}
    (hblock : blocks[i]? = some block) (hi : i < store.index.length) :
    store.stateAt config (sub32 block.point.height 1) = .ok (some (stateBefore base blocks i)) ∧
      (stateBefore base blocks i).point.blockHash = block.previousBlockHash := by
  have hheight := h.chain.height i block hblock
  have hlink := h.chain.linked i block hblock
  rcases i with _ | i
  · have hprevious : sub32 block.point.height 1 = base.point.height := by
      rw [hheight, sub32, if_pos (by omega)]
      omega
    rw [hprevious, h.stateAt_base hvalid, hlink, List.take_zero, stateBefore, List.take_zero]
    exact ⟨rfl, rfl⟩
  · obtain ⟨before, hbefore, -, -⟩ := h.durable.entry (by omega : i < store.index.length)
    have hprevious : sub32 block.point.height 1 = before.point.height := by
      rw [hheight, h.chain.height i before hbefore, sub32, if_pos (by omega)]
      omega
    rw [hprevious, h.stateAt_block hvalid hbefore (by omega), stateBefore_succ hbefore, hlink, tip_take_succ hbefore,
      (h.chain.states before (List.mem_of_getElem? hbefore)).2]
    exact ⟨rfl, rfl⟩

theorem Inv.read (h : Inv config base store blocks) (hvalid : config.Valid) {i : Nat} {block : ArchiveBlock H}
    (hblock : blocks[i]? = some block) (hi : i < store.index.length) :
    store.read config block.point.blockHash = .ok (some { block.cached with
      numLeavesBefore := if block.proof.targets = [] then none else some (stateBefore base blocks i).numLeaves }) := by
  have hmax : config.maxRecordBytes < 2 ^ 32 := hvalid.2.2.2.2.2.2.2.2
  have hmem := List.mem_of_getElem? hblock
  have hheight := h.chain.height i block hblock
  have hfits := h.chain.fits block hmem
  obtain ⟨hstate, hpoint⟩ := h.chain.states block hmem
  obtain ⟨hbefore, hbeforeHash⟩ := h.stateAt_before hvalid hblock hi
  have hfound : store.hashToHeight block.point.blockHash = some i := by
    rw [h.durable.hashes]
    exact ⟨hi, by rw [hblock, Option.map_some]⟩
  have hplace : add32 (add32 store.basePoint.height 1) i = block.point.height := by
    have := hfits.height
    rw [h.durable.basePoint, add32, add32, hheight]
    omega
  obtain ⟨found, hsame, -, hstored⟩ := h.durable.entry hi
  rw [hblock] at hsame
  cases hsame
  obtain ⟨payload, offset, hprepared, hentry, hlocated⟩ := hstored
  have hsize : validProofRecordSize (store.entryAt i).dataSize config.maxRecordBytes = true := by
    rw [hentry]
    exact validSize_record hstate hmax hprepared.size
  have hread : preadExact store.files.data (store.entryAt i).dataSize (store.entryAt i).dataOffset =
      .ok (dataRecord block.state.point block.previousBlockHash block.state payload).1 := by
    rw [hentry]
    exact hlocated.pread_all
  have hparse : parseDataRecord block.point block.previousBlockHash (store.entryAt i).dataDigest
      (dataRecord block.state.point block.previousBlockHash block.state payload).1 =
        .ok ⟨block.cached, some block.state⟩ := by
    have hrecord : parseDataRecord block.state.point block.previousBlockHash
        (dataRecord block.state.point block.previousBlockHash block.state payload).2
        (dataRecord block.state.point block.previousBlockHash block.state payload).1 =
          .ok ⟨{ point := block.state.point, proof := block.cached.proof, leaves := block.cached.leaves }, some block.state⟩ :=
      parseDataRecord_record hstate hpoint.symm hprepared.serialized (lt_of_le_of_lt hprepared.size (by omega)) hfits.hashes
        hfits.targets hfits.leaves
    rw [hentry]
    rw [hpoint] at hrecord ⊢
    simp only [entryOf, hpoint]
    exact hrecord
  unfold ProofStore.read
  rw [hfound]
  simp only [hplace, hsize, Bool.not_true, Bool.false_eq_true, if_false, bind, Except.bind, pure, Except.pure, hread,
    h.previousOf hblock hi]
  rw [show (⟨block.point.height, block.point.blockHash⟩ : ChainPoint H) = block.point from rfl, hparse]
  simp only [ArchiveBlock.cached]
  by_cases htargets : block.proof.targets = []
  · simp only [htargets, if_true]
  · simp only [htargets, if_false, hbefore, hbeforeHash, ne_eq, not_true_eq_false, if_false]

/-! ## Opening the files again -/

/-- The store once what is in the WAL is published. -/
def ProofStore.settled (store : ProofStore H) : ProofStore H :=
  match store.writer with
  | .walWritten batch events => store.publish batch events
  | _ =>
    match store.truncating with
    | some event => store.publishTruncate event
    | none => store

theorem Inv.settled (h : Inv config base store blocks) (hvalid : config.Valid) :
    ∃ events : List (WalEvent H), store.files.wal = (baseEvent base :: events).flatMap serializeWal ∧
      Ordered base.point.height base.point events store.settled.durablePoint ∧
      Replays config.maxRecordBytes store.files.data .empty store.files.wal store.settled.view := by
  obtain ⟨old, hwal, -, hreplay, horder⟩ := h.log.committed
  unfold ProofStore.settled
  split
  · rename_i batch events hphase
    obtain ⟨-, -, hmore, hnext⟩ := h.publish hvalid hphase
    rw [ProofStore.inflight, hphase] at hwal
    refine ⟨old ++ events, ?_, horder.append hnext, ?_⟩
    · rw [hwal, ← List.cons_append, List.flatMap_append]
    · rw [hwal]
      exact hreplay.append hmore
  · rename_i hphase
    have hinflight : store.inflight = store.truncating.toList := by
      unfold ProofStore.inflight
      split
      · rename_i batch events hnow
        exact absurd hnow (hphase batch events)
      · rfl
    rw [hinflight] at hwal
    split
    · rename_i event htrunc
      obtain ⟨-, -, hevent⟩ := h.log.truncating event htrunc
      have hheight := h.durable.height h.chain
      have hfits : event.Fits := hevent.fits (by rw [hheight]; exact h.height_lt h.durable.length_le)
      have hwal : store.files.wal = (baseEvent base :: old).flatMap serializeWal ++ serializeWal event := by
        rw [hwal, htrunc]
        simp only [Option.toList_some, List.flatMap_cons, List.flatMap_nil, List.append_nil]
      refine ⟨old ++ [event], ?_, ?_, ?_⟩
      · rw [hwal, ← List.cons_append, List.flatMap_append, List.flatMap_singleton]
      · exact horder.append (.truncate hevent.kind hevent.base_le hevent.lt_durable hevent.previous (.nil _))
      · rw [hwal]
        exact hreplay.append (Replays.event hfits (h.durable.applyTruncate h.chain hevent store.files.data))
    · rename_i hfree
      rw [hfree, Option.toList_none, List.flatMap_nil, List.append_nil] at hwal
      exact ⟨old, hwal, horder, by rw [hwal]; exact hreplay⟩

theorem Inv.recoverWal (h : Inv config base store blocks) (hvalid : config.Valid) :
    Archive.recoverWal config.maxRecordBytes store.files true =
      .ok (.ok (store.settled.view, ⟨store.files.wal, store.files.data.take store.settled.dataEnd⟩)) := by
  obtain ⟨events, hwal, -, hreplay⟩ := h.settled hvalid
  have hne : store.files.wal ≠ [] := by
    rw [hwal, List.flatMap_cons]
    intro hnil
    exact serializeWal_ne_nil _ (List.append_eq_nil_iff.mp hnil).1
  have hempty : Uncommitted [] := by
    intro i hi
    have hsize : walRecordSize = 176 := rfl
    rw [List.length_nil, hsize] at hi
    omega
  have hopen := recoverWal_tail hreplay hne hempty
  rw [if_pos (by decide), List.append_nil] at hopen
  exact hopen

theorem Inv.settled_durable (h : Inv config base store blocks) (hvalid : config.Valid) (hfree : store.truncating = none) :
    Durable config base store.settled blocks ∧ store.index.length ≤ store.settled.index.length := by
  unfold ProofStore.settled
  split
  · rename_i batch events hphase
    obtain ⟨hdurable, hcount, -, -⟩ := h.publish hvalid hphase
    exact ⟨hdurable, by omega⟩
  · rw [hfree]
    exact ⟨h.durable, le_refl _⟩

/-! ## The archive as a whole -/

theorem Inv.durable_iff (h : Inv config base store blocks) {i : Nat} {block : ArchiveBlock H}
    (hblock : blocks[i]? = some block) : block.point.height ≤ store.durablePoint.height ↔ i < store.index.length := by
  have hheight := h.chain.height i block hblock
  have hdurable := h.durable.height h.chain
  omega

theorem Inv.index_hashes (h : Inv config base store blocks) :
    store.index.map (·.blockHash) = (blocks.take store.index.length).map (·.point.blockHash) := by
  apply List.ext_getElem?
  intro i
  rw [List.getElem?_map, List.getElem?_map, List.getElem?_take]
  split
  · rename_i hi
    obtain ⟨block, hblock, hentry, hstored⟩ := h.durable.entry hi
    rw [hentry, hblock, Option.map_some, Option.map_some, hstored.blockHash,
      (h.chain.states block (List.mem_of_getElem? hblock)).2]
  · rename_i hi
    rw [List.getElem?_eq_none (by omega)]
    rfl

/-- Every state of every run, whatever the interleaving: the WAL is the base and then blocks in height order with
truncations between them, opening the files gives the memory's archive with what the WAL holds published, the index
holds exactly the durable blocks, no other block is lost, and every durable block and its state read back. -/
theorem archive_refines (hfits : base.numLeaves < 2 ^ 64 ∧ base.point.height < 2 ^ 32)
    (h : Runs config base store blocks) :
    (∃ events : List (WalEvent H), store.files.wal = (baseEvent base :: events).flatMap serializeWal ∧
      Ordered base.point.height base.point events store.settled.durablePoint) ∧
    recoverWal config.maxRecordBytes store.files true =
      .ok (.ok (store.settled.view, ⟨store.files.wal, store.files.data.take store.settled.dataEnd⟩)) ∧
    store.index.length = store.durablePoint.height - base.point.height ∧
    (∀ (i : Nat) (block : ArchiveBlock H), blocks[i]? = some block → block.point.height ≤ store.durablePoint.height →
      (store.index.map (·.blockHash)).count block.point.blockHash = 1 ∧
      store.read config block.point.blockHash = .ok (some { block.cached with
        numLeavesBefore := if block.proof.targets = [] then none else some (stateBefore base blocks i).numLeaves }) ∧
      store.stateAt config block.point.height = .ok (some block.state)) ∧
    (store.failure = none → ∀ block ∈ blocks, store.durablePoint.height < block.point.height →
      (∃ prepared ∈ store.writer.batch, prepared.point = block.point) ∨ (∃ item ∈ store.items, item.block = block) ∨
        (store.ready block.point.height).isSome = true) := by
  obtain ⟨hvalid, hinv⟩ := h.inv hfits
  obtain ⟨events, hwal, horder, -⟩ := hinv.settled hvalid
  have hdurable := hinv.durable.height hinv.chain
  refine ⟨⟨events, hwal, horder⟩, hinv.recoverWal hvalid, by omega, ?_, ?_⟩
  · intro i block hblock hheight
    have hi := (hinv.durable_iff hblock).mp hheight
    refine ⟨?_, hinv.read hvalid hblock hi, hinv.stateAt_block hvalid hblock hi⟩
    rw [hinv.index_hashes]
    refine List.count_eq_one_of_mem ?_ ?_
    · exact (hinv.chain.take store.index.length).nodup
    · refine List.mem_map_of_mem (List.mem_iff_getElem?.mpr ⟨i, ?_⟩)
      rw [List.getElem?_take, if_pos hi, hblock]
  · intro hok block hblock hheight
    obtain ⟨i, hi⟩ := List.mem_iff_getElem?.mp hblock
    have hlater : store.index.length ≤ i := by
      have := (hinv.durable_iff hi).not.mp (by omega)
      omega
    rcases Nat.lt_or_ge i store.taken with hbatch | hrest
    · left
      have hj : i - store.index.length < store.writer.batch.length := by
        rw [ProofStore.taken] at hbatch
        omega
      obtain ⟨found, hfound, hprepares⟩ := hinv.pipeline.pending.prepares _ _ (List.getElem?_eq_getElem hj)
      rw [Nat.add_sub_cancel' hlater, hi] at hfound
      cases hfound
      exact ⟨_, List.getElem_mem hj, hprepares.choose_spec.2.1⟩
    · exact Or.inr (hinv.pipeline.kept hok i block hrest hi)

/-! ## Schedules -/

instance CompactLeafData.decidableFits (leaf : CompactLeafData) : Decidable leaf.Fits :=
  decidable_of_iff (leaf.headerCode < 2 ^ 32 ∧ leaf.amount < 2 ^ 64) ⟨fun h => ⟨h.1, h.2⟩, fun h => ⟨h.1, h.2⟩⟩

omit [ArchiveHash H] [DecidableEq H] in
theorem ArchiveBlock.fits_iff (block : ArchiveBlock H) :
    block.Fits ↔ (0 < block.point.height ∧ block.point.height < 2 ^ 32) ∧
      (block.state.numLeaves < 2 ^ 64 ∧ block.proof.hashes.length < 2 ^ 64) ∧
      (∀ target ∈ block.proof.targets, target < 2 ^ 64) ∧ ∀ leaf ∈ block.proofLeaves, leaf.Fits :=
  ⟨fun h => ⟨⟨h.height_pos, h.height⟩, ⟨h.numLeaves, h.hashes⟩, h.targets, h.leaves⟩,
    fun h => ⟨h.1.1, h.1.2, h.2.1.1, h.2.1.2, h.2.2.1, h.2.2.2⟩⟩

instance decidableAdmits (blocks : List (ArchiveBlock H)) : (action : Action H) → Decidable (Admits blocks action)
  | .enqueue block =>
    decidable_of_iff (_ ∧ block.point.blockHash ∉ blocks.map (·.point.blockHash)) (and_congr_left' block.fits_iff.symm)
  | .requestFlush _ | .takeInput | .finishSerializing _ | .collect _ | .writeData | .writeWal | .finishCommit
  | .beginTruncate _ | .finishTruncate => isTrue trivial

/-- The archive and its blocks after the actions, none if one of them cannot be taken. -/
def play (config : ProofStoreConfig) : List (Action H) → ProofStore H × List (ArchiveBlock H) →
    Option (ProofStore H × List (ArchiveBlock H))
  | [], now => some now
  | action :: rest, (store, blocks) =>
    if Admits blocks action then
      (step config store action).bind fun store' => play config rest (store', archived store blocks action)
    else none

theorem Runs.play {actions : List (Action H)} {now after : ProofStore H × List (ArchiveBlock H)}
    (h : Runs config base now.1 now.2) (hplay : play config actions now = some after) :
    Runs config base after.1 after.2 := by
  induction actions generalizing now with
  | nil =>
    cases hplay
    exact h
  | cons action rest ih =>
    rw [Archive.play] at hplay
    split_ifs at hplay with hadmits
    obtain ⟨store', hstep, hrest⟩ := Option.bind_eq_some_iff.mp hplay
    exact ih (h.step action hadmits hstep) hrest

/-! ## Two blocks, from the queue to the index -/

def filledHash (byte : UInt8) : RawHash := ⟨List.replicate 32 byte, rfl⟩

def emptyBase : AccumulatorState RawHash := ⟨⟨0, zeroHash⟩, 0, []⟩

def firstBlock : ArchiveBlock RawHash where
  point := ⟨1, filledHash 1⟩
  previousBlockHash := zeroHash
  deletions := []
  proofLeaves := []
  proof := ⟨[], []⟩
  state := ⟨⟨1, filledHash 1⟩, 2, [filledHash 12]⟩

/-- The output of the first block that the second one spends. -/
def spentLeaf : LeafData RawHash := ⟨filledHash 1, ⟨filledHash 21, 0⟩, 1, true, ⟨5000000000, [0x51]⟩⟩

/-- It deletes the first leaf, so that the second one becomes the root. -/
def secondBlock : ArchiveBlock RawHash where
  point := ⟨2, filledHash 2⟩
  previousBlockHash := filledHash 1
  deletions := [filledHash 10]
  proofLeaves := [compactLeaf spentLeaf]
  proof := ⟨[0], [filledHash 11]⟩
  state := ⟨⟨2, filledHash 2⟩, 2, [filledHash 11]⟩

def twoWorkers : ProofStoreConfig := ⟨2, 2, 0, 2, 65536, 65536⟩

/-- The archive as `create` leaves it. -/
def createdStore : ProofStore RawHash where
  files := ⟨serializeWal (baseEvent emptyBase), (baseRecord emptyBase).1⟩
  dataEnd := (baseRecord emptyBase).1.length
  walEnd := (serializeWal (baseEvent emptyBase)).length
  basePoint := emptyBase.point
  durablePoint := emptyBase.point
  enqueuedPoint := emptyBase.point
  baseState := some emptyBase
  baseDataSize := (baseRecord emptyBase).1.length
  baseDataDigest := (baseRecord emptyBase).2
  index := []
  statePresent := []
  hashToHeight := fun _ => none
  input := []
  serializing := []
  ready := fun _ => none
  writer := .idle
  truncating := none
  flushHeight := none
  queuedBlocks := 0
  queuedBytes := 0
  failure := none

theorem runs_createdStore {config : ProofStoreConfig} (h : config.Valid) : Runs config emptyBase createdStore [] := by
  refine .create ?_
  rw [create, if_neg (not_not.mpr h)]
  rfl

/-- Two serializers, the second block is ready before the first. -/
def committing : List (Action RawHash) :=
  [.enqueue firstBlock, .enqueue secondBlock, .takeInput, .takeInput, .finishSerializing 1, .finishSerializing 0,
    .collect false, .writeData, .writeWal, .finishCommit]

theorem runs_committing : ∃ store : ProofStore RawHash,
    Runs twoWorkers emptyBase store [firstBlock, secondBlock] ∧ store.durablePoint = secondBlock.point ∧
      store.settled.durablePoint = secondBlock.point := by
  have hplay : (play twoWorkers committing (createdStore, [])).map (fun after =>
      (after.2, after.1.durablePoint, after.1.settled.durablePoint)) =
        some ([firstBlock, secondBlock], secondBlock.point, secondBlock.point) := by
    decide +kernel
  obtain ⟨after, hafter, heq⟩ := Option.map_eq_some_iff.mp hplay
  obtain ⟨hblocks, hdurable, hsettled⟩ := Prod.mk.inj heq |>.imp_right Prod.mk.inj
  have hcreated : Runs twoWorkers emptyBase createdStore [] := runs_createdStore (by decide)
  have hruns := Runs.play hcreated hafter
  exact ⟨after.1, hblocks ▸ hruns, hdurable, hsettled⟩

/-- Both blocks are durable, and the second one reads back with its target, its hash and its leaf. -/
theorem archive_refines_committed : ∃ store : ProofStore RawHash,
    Runs twoWorkers emptyBase store [firstBlock, secondBlock] ∧ store.index.length = 2 ∧
      (∃ (recovered : Recovered RawHash) (files : Files),
        recoverWal twoWorkers.maxRecordBytes store.files true = .ok (.ok (recovered, files)) ∧
          recovered.durablePoint = secondBlock.point) ∧
      store.read twoWorkers secondBlock.point.blockHash =
        .ok (some { secondBlock.cached with numLeavesBefore := some 2 }) ∧
      store.stateAt twoWorkers 2 = .ok (some secondBlock.state) := by
  obtain ⟨store, hruns, hdurable, hsettled⟩ := runs_committing
  obtain ⟨-, hopen, hindex, hread, -⟩ := archive_refines ⟨by decide, by decide⟩ hruns
  obtain ⟨-, hsecond, hstate⟩ := hread 1 secondBlock rfl (by rw [hdurable])
  rw [hdurable] at hindex
  exact ⟨store, hruns, hindex, ⟨_, _, hopen, hsettled⟩, hsecond, hstate⟩

end UtreexoBridge.Archive
