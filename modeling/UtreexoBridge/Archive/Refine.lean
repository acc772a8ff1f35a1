import UtreexoBridge.Archive.Commit

/-!
# The archive refines a list of blocks

`Enqueue` adds a block to the list and `Truncate` cuts it. At every moment the
blocks up to the durable point are in the index, in the files and in what a
replay of the WAL makes of the files.
-/

namespace UtreexoBridge.Archive

open Bytes

variable {H : Type}

/-! ## Chains of blocks -/

/-- The last point of a chain on a base. -/
def tip (base : ChainPoint H) (blocks : List (ArchiveBlock H)) : ChainPoint H := (blocks.getLast?).elim base (·.point)

theorem tip_take_succ {base : ChainPoint H} {blocks : List (ArchiveBlock H)} {i : Nat} {block : ArchiveBlock H}
    (h : blocks[i]? = some block) : tip base (blocks.take (i + 1)) = block.point := by
  rw [tip, List.take_add_one, h, Option.toList_some, List.getLast?_concat, Option.elim_some]

theorem tip_concat (base : ChainPoint H) (blocks : List (ArchiveBlock H)) (block : ArchiveBlock H) :
    tip base (blocks ++ [block]) = block.point := by
  rw [tip, List.getLast?_concat, Option.elim_some]

/-- The widths of the fields. Only the genesis block has height 0, and it is never above a base. -/
structure ArchiveBlock.Fits (block : ArchiveBlock H) : Prop where
  height_pos : 0 < block.point.height
  height : block.point.height < 2 ^ 32
  numLeaves : block.state.numLeaves < 2 ^ 64
  hashes : block.proof.hashes.length < 2 ^ 64
  targets : ∀ target ∈ block.proof.targets, target < 2 ^ 64
  leaves : ∀ leaf ∈ block.proofLeaves, leaf.Fits

structure Chain (base : ChainPoint H) (blocks : List (ArchiveBlock H)) : Prop where
  height : ∀ i block, blocks[i]? = some block → block.point.height = base.height + 1 + i
  linked : ∀ i block, blocks[i]? = some block → block.previousBlockHash = (tip base (blocks.take i)).blockHash
  fits : ∀ block ∈ blocks, block.Fits
  states : ∀ block ∈ blocks, StateFits block.state ∧ block.state.point = block.point
  nodup : (blocks.map (·.point.blockHash)).Nodup

variable {base : ChainPoint H} {blocks : List (ArchiveBlock H)}

theorem Chain.tip_height (h : Chain base blocks) {n : Nat} (hn : n ≤ blocks.length) :
    (tip base (blocks.take n)).height = base.height + n := by
  rcases n with _ | i
  · rw [List.take_zero]
    rfl
  · obtain ⟨block, hblock⟩ : ∃ block, blocks[i]? = some block := ⟨_, List.getElem?_eq_getElem hn⟩
    rw [tip_take_succ hblock, h.height i block hblock]
    omega

theorem Chain.nil (base : ChainPoint H) : Chain base [] where
  height i block hblock := by cases hblock
  linked i block hblock := by cases hblock
  fits block hblock := absurd hblock List.not_mem_nil
  states block hblock := absurd hblock List.not_mem_nil
  nodup := List.nodup_nil

theorem Chain.take (h : Chain base blocks) (n : Nat) : Chain base (blocks.take n) where
  height i block hblock := by
    rw [List.getElem?_take] at hblock
    split at hblock
    · exact h.height i block hblock
    · cases hblock
  linked i block hblock := by
    rw [List.getElem?_take] at hblock
    split at hblock
    · rename_i hlt
      rw [List.take_take, Nat.min_eq_left (le_of_lt hlt)]
      exact h.linked i block hblock
    · cases hblock
  fits block hblock := h.fits block (List.mem_of_mem_take hblock)
  states block hblock := h.states block (List.mem_of_mem_take hblock)
  nodup := by
    rw [List.map_take]
    exact h.nodup.sublist (List.take_sublist _ _)

theorem Chain.concat (h : Chain base blocks) {block : ArchiveBlock H} (hheight : block.point.height = base.height + 1 + blocks.length)
    (hlink : block.previousBlockHash = (tip base blocks).blockHash) (hfits : block.Fits)
    (hstate : StateFits block.state ∧ block.state.point = block.point)
    (hnew : block.point.blockHash ∉ blocks.map (·.point.blockHash)) : Chain base (blocks ++ [block]) where
  height i found hfound := by
    rcases getElem?_concat_some hfound with hold | ⟨rfl, rfl⟩
    · exact h.height i found hold
    · exact hheight
  linked i found hfound := by
    rcases getElem?_concat_some hfound with hold | ⟨rfl, rfl⟩
    · have hlt : i < blocks.length := (List.getElem?_eq_some_iff.mp hold).1
      rw [List.take_append_of_le_length (le_of_lt hlt)]
      exact h.linked i found hold
    · rw [List.take_append_of_le_length (le_refl _), List.take_length]
      exact hlink
  fits found hfound := by
    rcases List.mem_append.mp hfound with hold | hlast
    · exact h.fits found hold
    · rw [List.mem_singleton.mp hlast]
      exact hfits
  states found hfound := by
    rcases List.mem_append.mp hfound with hold | hlast
    · exact h.states found hold
    · rw [List.mem_singleton.mp hlast]
      exact hstate
  nodup := by
    rw [List.map_append, List.map_singleton]
    refine List.Nodup.append h.nodup (List.nodup_singleton _) ?_
    intro hash hold hlast
    rw [List.mem_singleton.mp hlast] at hold
    exact hnew hold

theorem Chain.index_unique (h : Chain base blocks) {i j : Nat} {hash : H}
    (hi : (blocks[i]?).map (·.point.blockHash) = some hash) (hj : (blocks[j]?).map (·.point.blockHash) = some hash) :
    i = j := by
  rw [← List.getElem?_map] at hi hj
  have hilt : i < (blocks.map (·.point.blockHash)).length := (List.getElem?_eq_some_iff.mp hi).1
  exact (List.getElem?_inj hilt h.nodup).mp (hi.trans hj.symm)

/-! ## Prepared records -/

variable [ArchiveHash H] [DecidableEq H]

/-- The record of a block, with its payload. -/
structure Prepared (maxRecordBytes : Nat) (block : ArchiveBlock H) (payload : List UInt8) : Prop where
  serialized : serializeUtreexoProof block.cached (fullRequest block.point.blockHash) (2 ^ 64 - 1) = .ok payload
  size : payload.length ≤ maxRecordBytes

/-- What `PrepareProof` makes of a block. -/
def Prepares (maxRecordBytes : Nat) (block : ArchiveBlock H) (prepared : PreparedProof H) : Prop :=
  ∃ payload, Prepared maxRecordBytes block payload ∧ prepared.point = block.point ∧
    prepared.previousHash = block.previousBlockHash ∧
    prepared.record = (dataRecord block.point block.previousBlockHash block.state payload).1 ∧
    prepared.digest = (dataRecord block.point block.previousBlockHash block.state payload).2

theorem prepares_of_prepareProof {item : WorkItem H} {maxRecordBytes : Nat} {prepared : PreparedProof H}
    (h : prepareProof item maxRecordBytes = .ok prepared) : Prepares maxRecordBytes item.block prepared := by
  unfold prepareProof at h
  simp only [bind, Except.bind, pure, Except.pure] at h
  split at h
  · cases h
  · split at h
    · cases h
    · split at h
      · cases h
      · rename_i payload hpayload
        split at h
        · cases h
        · rename_i hsize
          cases h
          exact ⟨payload, ⟨hpayload, by omega⟩, rfl, rfl, rfl, rfl⟩

/-- The entry of a block, and its record in the data file. -/
def Stored (maxRecordBytes : Nat) (data : List UInt8) (entry : DiskIndexEntry H) (block : ArchiveBlock H) : Prop :=
  ∃ payload offset, Prepared maxRecordBytes block payload ∧
    entry = entryOf offset block.previousBlockHash block.state payload ∧
    Located data offset (dataRecord block.state.point block.previousBlockHash block.state payload).1

theorem Stored.more {maxRecordBytes : Nat} {data : List UInt8} {entry : DiskIndexEntry H} {block : ArchiveBlock H}
    (h : Stored maxRecordBytes data entry block) (more : List UInt8) :
    Stored maxRecordBytes (data ++ more) entry block := by
  obtain ⟨payload, offset, hprepared, hentry, hlocated⟩ := h
  exact ⟨payload, offset, hprepared, hentry, hlocated.append more⟩

/-! ## The durable part -/

/-- The index, the flags and the hashes are those of the first blocks. -/
structure Durable (config : ProofStoreConfig) (base : AccumulatorState H) (store : ProofStore H)
    (blocks : List (ArchiveBlock H)) : Prop where
  basePoint : store.basePoint = base.point
  baseState : store.baseState = some base
  baseDataSize : store.baseDataSize = (baseRecord base).1.length
  baseDataDigest : store.baseDataDigest = (baseRecord base).2
  baseLocated : Located store.files.data 0 (baseRecord base).1
  length_le : store.index.length ≤ blocks.length
  durablePoint : store.durablePoint = tip base.point (blocks.take store.index.length)
  entries : ∀ (i : Nat) (entry : DiskIndexEntry H), store.index[i]? = some entry →
    ∃ block : ArchiveBlock H, blocks[i]? = some block ∧ Stored config.maxRecordBytes store.files.data entry block
  statePresent : store.statePresent = List.replicate store.index.length true
  hashes : ∀ (hash : H) (i : Nat), store.hashToHeight hash = some i ↔
    i < store.index.length ∧ (blocks[i]?).map (·.point.blockHash) = some hash

omit [ArchiveHash H] [DecidableEq H] in
theorem putAt_length {α : Type} (values : List α) (filler value : α) :
    putAt values values.length filler value = values ++ [value] := by
  have hone : values.length + 1 - values.length = 1 := by omega
  unfold putAt
  rw [hone, List.replicate_one, List.set_append_right _ _ (le_refl _), Nat.sub_self]
  rfl

omit [ArchiveHash H] [DecidableEq H] in
theorem relative_eq {height first count : Nat} (h : height = first + 1 + count) : sub32 (sub32 height first) 1 = count := by
  unfold sub32
  rw [if_pos (by omega : first ≤ height), if_pos (by omega)]
  omega

section Publish

variable {config : ProofStoreConfig} {base : AccumulatorState H} {store : ProofStore H}

theorem Durable.publishEvent {blocks : List (ArchiveBlock H)} (h : Durable config base store blocks)
    (hchain : Chain base.point blocks) {block : ArchiveBlock H} (hblock : blocks[store.index.length]? = some block)
    {event : WalEvent H} (hpoint : event.point = block.point)
    (hstored : Stored config.maxRecordBytes store.files.data (entryFromEvent event) block) (accounted : Nat) :
    Durable config base (store.publishEvent event accounted) blocks ∧
      (store.publishEvent event accounted).index = store.index ++ [entryFromEvent event] := by
  have hrelative : sub32 (sub32 event.point.height store.basePoint.height) 1 = store.index.length := by
    rw [hpoint, h.basePoint]
    exact relative_eq (hchain.height _ _ hblock)
  have hindex : (store.publishEvent event accounted).index = store.index ++ [entryFromEvent event] := by
    simp only [ProofStore.publishEvent, hrelative, putAt_length]
  have hlt : store.index.length < blocks.length := (List.getElem?_eq_some_iff.mp hblock).1
  refine ⟨⟨h.basePoint, h.baseState, h.baseDataSize, h.baseDataDigest, h.baseLocated, ?_, ?_, ?_, ?_, ?_⟩, hindex⟩
  · rw [hindex, List.length_append, List.length_singleton]
    exact hlt
  · rw [hindex, List.length_append, List.length_singleton, tip_take_succ hblock]
    exact hpoint
  · intro i entry hentry
    rw [hindex] at hentry
    rcases getElem?_concat_some hentry with hold | ⟨rfl, rfl⟩
    · exact h.entries i entry hold
    · exact ⟨block, hblock, hstored⟩
  · have hpresent : (store.publishEvent event accounted).statePresent = store.statePresent ++ [true] := by
      have hlength : store.statePresent.length = store.index.length := by rw [h.statePresent, List.length_replicate]
      simp only [ProofStore.publishEvent, hrelative, ← hlength, putAt_length]
    rw [hpresent, hindex, h.statePresent, List.length_append, List.length_singleton, List.replicate_succ']
  · intro hash i
    rw [hindex, List.length_append, List.length_singleton]
    simp only [ProofStore.publishEvent, hrelative]
    have hhere : (blocks[store.index.length]?).map (·.point.blockHash) = some event.point.blockHash := by
      rw [hblock, hpoint, Option.map_some]
    by_cases hsame : hash = event.point.blockHash
    · subst hsame
      rw [Function.update_self, Option.some_inj]
      constructor
      · rintro rfl
        exact ⟨Nat.lt_succ_self _, hhere⟩
      · rintro ⟨-, hi⟩
        exact hchain.index_unique hhere hi
    · rw [Function.update_of_ne hsame, h.hashes]
      constructor
      · rintro ⟨hi, hmap⟩
        exact ⟨Nat.lt_succ_of_lt hi, hmap⟩
      · rintro ⟨hi, hmap⟩
        refine ⟨lt_of_le_of_ne (Nat.lt_succ_iff.mp hi) ?_, hmap⟩
        rintro rfl
        rw [hhere] at hmap
        exact hsame (Option.some.inj hmap).symm

/-- What a replay of the WAL is to give. -/
def ProofStore.view (store : ProofStore H) : Recovered H where
  sawBase := true
  basePoint := store.basePoint
  durablePoint := store.durablePoint
  baseState := store.baseState
  baseDataSize := store.baseDataSize
  baseDataDigest := store.baseDataDigest
  index := store.index
  statePresent := store.statePresent
  dataEnd := store.dataEnd

/-- The events behind the base, from one durable point to another. -/
inductive Ordered (first : Nat) : ChainPoint H → List (WalEvent H) → ChainPoint H → Prop
  | nil (point : ChainPoint H) : Ordered first point [] point
  | connect {point last : ChainPoint H} {event : WalEvent H} {events : List (WalEvent H)} (hkind : event.kind = .connect)
      (hheight : event.point.height = point.height + 1) (hprevious : event.previousHash = point.blockHash)
      (hrest : Ordered first event.point events last) : Ordered first point (event :: events) last
  | truncate {point last : ChainPoint H} {event : WalEvent H} {events : List (WalEvent H)} (hkind : event.kind = .truncate)
      (hbase : first ≤ event.point.height) (hheight : event.point.height < point.height)
      (hprevious : event.previousHash = point.blockHash) (hrest : Ordered first event.point events last) :
      Ordered first point (event :: events) last

omit [ArchiveHash H] [DecidableEq H] in
theorem Ordered.append {first : Nat} {point middle last : ChainPoint H} {events events' : List (WalEvent H)}
    (h : Ordered first point events middle) (h' : Ordered first middle events' last) :
    Ordered first point (events ++ events') last := by
  induction h with
  | nil point => exact h'
  | connect hkind hheight hprevious _ ih => exact .connect hkind hheight hprevious (ih h')
  | truncate hkind hbase hheight hprevious _ ih => exact .truncate hkind hbase hheight hprevious (ih h')

variable {blocks : List (ArchiveBlock H)}

theorem Durable.applyEvent (h : Durable config base store blocks) (hchain : Chain base.point blocks)
    (hmax : config.maxRecordBytes < 2 ^ 32) {block : ArchiveBlock H} (hblock : blocks[store.index.length]? = some block)
    {event : WalEvent H} {payload : List UInt8} (hkind : event.kind = .connect)
    (hdesc : Describes event block.previousBlockHash block.state payload) (hpayload : payload.length ≤ config.maxRecordBytes)
    (hlocated : Located store.files.data event.dataOffset
      (dataRecord block.state.point block.previousBlockHash block.state payload).1) (accounted : Nat) :
    applyEvent config.maxRecordBytes store.files.data true { store.view with dataEnd := event.dataOffset } event =
      .ok (.ok { (store.publishEvent event accounted).view with dataEnd := event.dataOffset + event.dataSize }) := by
  have hmem : block ∈ blocks := List.mem_of_getElem? hblock
  obtain ⟨hstate, hpoint⟩ := hchain.states block hmem
  have hheight := hchain.height _ _ hblock
  have hfit := (hchain.fits block hmem).height
  have hdurable : store.durablePoint.height = base.point.height + store.index.length := by
    rw [h.durablePoint, hchain.tip_height h.length_le]
  have hprevious : event.previousHash = store.durablePoint.blockHash := by
    rw [hdesc.previous, hchain.linked _ _ hblock, h.durablePoint]
  have hnext : event.point.height = add32 store.durablePoint.height 1 := by
    rw [hdesc.point, hpoint, hheight, add32, hdurable, Nat.mod_eq_of_lt (by omega)]
    omega
  have hin := hlocated.length_le
  have hsize := hdesc.dataSize
  have hvalid : validProofRecordSize event.dataSize config.maxRecordBytes = true := by
    rw [hsize]
    exact validSize_record hstate hmax hpayload
  unfold Archive.applyEvent
  rw [if_neg (by simp [ProofStore.view]), hkind]
  simp only
  unfold applyConnect
  rw [if_neg (by
    simp only [ProofStore.view, not_or, not_not, not_lt, ne_eq, hvalid, Bool.not_true, Bool.false_eq_true, not_false_eq_true]
    exact ⟨hnext, hprevious, trivial, trivial, by omega, by omega⟩)]
  rw [validateDataEnvelope_located hstate (by omega) hdesc hlocated]
  rfl

/-- The records of a batch are the next blocks', and they are in the data file. -/
structure Pending (maxRecordBytes : Nat) (blocks : List (ArchiveBlock H)) (batch : List (PreparedProof H)) (first : Nat) :
    Prop where
  prepares : ∀ (j : Nat) (prepared : PreparedProof H), batch[j]? = some prepared →
    ∃ block : ArchiveBlock H, blocks[first + j]? = some block ∧ Prepares maxRecordBytes block prepared

theorem Pending.tail {maxRecordBytes first : Nat} {prepared : PreparedProof H} {batch : List (PreparedProof H)}
    (h : Pending maxRecordBytes blocks (prepared :: batch) first) : Pending maxRecordBytes blocks batch (first + 1) where
  prepares j found hfound := by
    obtain ⟨block, hblock, hprepares⟩ := h.prepares (j + 1) found hfound
    exact ⟨block, by rw [← hblock]; congr 1; omega, hprepares⟩

theorem publishEvents_frame (store : ProofStore H) (events : List (WalEvent H × PreparedProof H)) :
    ∃ index hashToHeight statePresent durablePoint queuedBlocks queuedBytes, ProofStore.publishEvents store events =
      { store with
        index := index, hashToHeight := hashToHeight, statePresent := statePresent, durablePoint := durablePoint,
        queuedBlocks := queuedBlocks, queuedBytes := queuedBytes } := by
  induction events generalizing store with
  | nil => exact ⟨_, _, _, _, _, _, rfl⟩
  | cons head rest ih =>
    obtain ⟨event, prepared⟩ := head
    obtain ⟨index, hashToHeight, statePresent, durablePoint, queuedBlocks, queuedBytes, hrest⟩ :=
      ih (store.publishEvent event prepared.accountedBytes)
    refine ⟨index, hashToHeight, statePresent, durablePoint, queuedBlocks, queuedBytes, ?_⟩
    rw [ProofStore.publishEvents, hrest]
    rfl

theorem Durable.publishEvents (hchain : Chain base.point blocks) (hmax : config.maxRecordBytes < 2 ^ 32)
    (batch : List (PreparedProof H)) :
    ∀ (store : ProofStore H) (offset : Nat), Durable config base store blocks →
      Pending config.maxRecordBytes blocks batch store.index.length →
      Located store.files.data offset (batch.flatMap (·.record)) → store.files.data.length ≤ maxOffset →
      Durable config base (ProofStore.publishEvents store ((connectEvents offset batch).zip batch)) blocks ∧
        (ProofStore.publishEvents store ((connectEvents offset batch).zip batch)).index.length =
          store.index.length + batch.length ∧
        Replays config.maxRecordBytes store.files.data { store.view with dataEnd := offset }
          ((connectEvents offset batch).flatMap serializeWal)
          { (ProofStore.publishEvents store ((connectEvents offset batch).zip batch)).view with
            dataEnd := offset + (batch.map (·.record.length)).sum } ∧
        Ordered base.point.height store.durablePoint (connectEvents offset batch)
          (ProofStore.publishEvents store ((connectEvents offset batch).zip batch)).durablePoint := by
  induction batch with
  | nil =>
    intro store offset h _ _ _
    exact ⟨h, rfl, .nil _, .nil _⟩
  | cons prepared batch ih =>
    intro store offset h hpending hlocated hfile
    obtain ⟨block, hblock, payload, hprepared, hpoint, hprevious, hrecord, hdigest⟩ := hpending.prepares 0 prepared rfl
    rw [Nat.add_zero] at hblock
    have hmem : block ∈ blocks := List.mem_of_getElem? hblock
    obtain ⟨hstate, hstatePoint⟩ := hchain.states block hmem
    rw [← hstatePoint] at hrecord hdigest
    rw [connectEvents, List.zip_cons_cons, ProofStore.publishEvents]
    set event : WalEvent H := {
      kind := .connect, point := prepared.point, previousHash := prepared.previousHash, dataOffset := offset,
      dataSize := prepared.record.length, dataDigest := prepared.digest } with hevent
    have hdesc : Describes event block.previousBlockHash block.state payload :=
      ⟨rfl, hpoint.trans hstatePoint.symm, hprevious, by rw [hevent]; exact congrArg List.length hrecord, hdigest⟩
    have hhere : Located store.files.data offset
        (dataRecord block.state.point block.previousBlockHash block.state payload).1 := by
      rw [← hrecord]
      exact hlocated.left
    have hrest : Located store.files.data (offset + prepared.record.length) (batch.flatMap (·.record)) := hlocated.right
    have hstored : Stored config.maxRecordBytes store.files.data (entryFromEvent event) block := by
      refine ⟨payload, offset, hprepared, ?_, hhere⟩
      rw [entryFromEvent, entryOf, hevent]
      simp only [hrecord, hdigest, hpoint, hstatePoint]
    have heventPoint : event.point = block.point := hpoint
    have hkind : event.kind = .connect := rfl
    obtain ⟨hnext, hindex⟩ := h.publishEvent hchain hblock heventPoint hstored prepared.accountedBytes
    have hlength : (store.publishEvent event prepared.accountedBytes).index.length = store.index.length + 1 := by
      rw [hindex, List.length_append, List.length_singleton]
    have hfits : event.Fits := by
      have hbound := hlocated.length_le
      have hoff : maxOffset < 2 ^ 64 := by decide
      have hrecords : prepared.record.length ≤ ((prepared :: batch).flatMap (·.record)).length := by
        rw [List.flatMap_cons, List.length_append]
        omega
      refine ⟨⟨(by decide : legacyStoreFormat ≤ storeFormat), le_refl _⟩, ?_, ?_, ?_⟩
      · show prepared.point.height < 2 ^ 32
        rw [hpoint]
        exact (hchain.fits block hmem).height
      · show offset < 2 ^ 64
        omega
      · show prepared.record.length < 2 ^ 64
        omega
    have happly := h.applyEvent hchain hmax hblock hkind hdesc hprepared.size hhere prepared.accountedBytes
    obtain ⟨hdurable, hcount, hreplay, horder⟩ := ih (store.publishEvent event prepared.accountedBytes)
      (offset + prepared.record.length) hnext (by rw [hlength]; exact hpending.tail) hrest hfile
    refine ⟨hdurable, ?_, ?_, ?_⟩
    · rw [hcount, hlength, List.length_cons]
      omega
    · rw [List.flatMap_cons, List.map_cons, List.sum_cons, ← Nat.add_assoc]
      exact (Replays.event hfits happly).append hreplay
    · refine .connect rfl ?_ ?_ horder
      · show prepared.point.height = store.durablePoint.height + 1
        rw [hpoint, hchain.height _ _ hblock, h.durablePoint, hchain.tip_height h.length_le]
        omega
      · show prepared.previousHash = store.durablePoint.blockHash
        rw [hprevious, hchain.linked _ _ hblock, h.durablePoint]

end Publish

/-! ## Truncation -/

section Truncate

variable {config : ProofStoreConfig} {base : AccumulatorState H} {store : ProofStore H} {blocks : List (ArchiveBlock H)}

theorem Stored.present {maxRecordBytes : Nat} {data : List UInt8} {entry : DiskIndexEntry H} {block : ArchiveBlock H}
    (h : Stored maxRecordBytes data entry block) : entry.present = true := by
  obtain ⟨payload, offset, -, rfl, -⟩ := h
  have hlength := length_dataRecord block.state.point block.previousBlockHash block.state payload
  have hheader : dataHeaderSize = 88 := rfl
  rw [DiskIndexEntry.present, entryOf, decide_eq_true_iff]
  show (dataRecord block.state.point block.previousBlockHash block.state payload).1.length ≠ 0
  omega

theorem Stored.blockHash {maxRecordBytes : Nat} {data : List UInt8} {entry : DiskIndexEntry H} {block : ArchiveBlock H}
    (h : Stored maxRecordBytes data entry block) : entry.blockHash = block.state.point.blockHash := by
  obtain ⟨payload, offset, -, rfl, -⟩ := h
  rfl

omit [ArchiveHash H] in
theorem eraseHashes_eq_some {entries : List (DiskIndexEntry H)} (hpresent : ∀ entry ∈ entries, entry.present = true)
    (hashes : H → Option Nat) (hash : H) (i : Nat) :
    ProofStore.eraseHashes hashes entries hash = some i ↔ hash ∉ entries.map (·.blockHash) ∧ hashes hash = some i := by
  unfold ProofStore.eraseHashes
  induction entries generalizing hashes with
  | nil => simp only [List.foldl_nil, List.map_nil, List.not_mem_nil, not_false_eq_true, true_and]
  | cons entry entries ih =>
    rw [List.foldl_cons, ih (fun e he => hpresent e (List.mem_cons_of_mem _ he)), if_pos (hpresent entry List.mem_cons_self),
      List.map_cons, List.mem_cons, not_or]
    by_cases hsame : hash = entry.blockHash
    · subst hsame
      rw [Function.update_self]
      simp
    · rw [Function.update_of_ne hsame]
      simp only [hsame, not_false_eq_true, true_and]

/-- A truncation of the chain, as `Truncate` writes it. -/
structure Truncates (base : ChainPoint H) (blocks : List (ArchiveBlock H)) (durable : ChainPoint H) (event : WalEvent H) :
    Prop where
  version : event.formatVersion = storeFormat
  kind : event.kind = .truncate
  base_le : base.height ≤ event.point.height
  lt_durable : event.point.height < durable.height
  point : event.point = tip base (blocks.take (event.point.height - base.height))
  previous : event.previousHash = durable.blockHash
  dataOffset : event.dataOffset = 0
  dataSize : event.dataSize = 0
  dataDigest : event.dataDigest = ForestHash.null

theorem Durable.entry (h : Durable config base store blocks) {i : Nat} (hi : i < store.index.length) :
    ∃ block, blocks[i]? = some block ∧ store.index[i]? = some (store.entryAt i) ∧
      Stored config.maxRecordBytes store.files.data (store.entryAt i) block := by
  have hentry : store.index[i]? = some (store.entryAt i) := by
    rw [ProofStore.entryAt, List.getElem?_eq_getElem hi, Option.getD_some]
  obtain ⟨block, hblock, hstored⟩ := h.entries i _ hentry
  exact ⟨block, hblock, hentry, hstored⟩

theorem Durable.entry_hash (h : Durable config base store blocks) (hchain : Chain base.point blocks) {i : Nat}
    (hi : i < store.index.length) : (blocks[i]?).map (·.point.blockHash) = some (store.entryAt i).blockHash := by
  obtain ⟨block, hblock, -, hstored⟩ := h.entry hi
  rw [hblock, Option.map_some, hstored.blockHash, (hchain.states block (List.mem_of_getElem? hblock)).2]

theorem Durable.height (h : Durable config base store blocks) (hchain : Chain base.point blocks) :
    store.durablePoint.height = base.point.height + store.index.length := by
  rw [h.durablePoint, hchain.tip_height h.length_le]

theorem Durable.publishTruncate (h : Durable config base store blocks) (hchain : Chain base.point blocks)
    {event : WalEvent H} (hevent : Truncates base.point blocks store.durablePoint event) :
    Durable config base (store.publishTruncate event) (blocks.take (event.point.height - base.point.height)) ∧
      (store.publishTruncate event).index = store.index.take (event.point.height - base.point.height) := by
  have hkeep : event.point.height - store.basePoint.height = event.point.height - base.point.height := by rw [h.basePoint]
  set keep := event.point.height - base.point.height with hkeepDef
  have hheight := h.height hchain
  have hlt : keep < store.index.length := by
    have := hevent.lt_durable
    have := hevent.base_le
    omega
  have hindex : (store.publishTruncate event).index = store.index.take keep := by
    simp only [ProofStore.publishTruncate, hkeep]
  have hlength : (store.index.take keep).length = keep := List.length_take_of_le (le_of_lt hlt)
  refine ⟨⟨h.basePoint, h.baseState, h.baseDataSize, h.baseDataDigest, h.baseLocated, ?_, ?_, ?_, ?_, ?_⟩, hindex⟩
  · rw [hindex, hlength, List.length_take]
    have := h.length_le
    omega
  · rw [hindex, hlength, List.take_take, Nat.min_self]
    exact hevent.point
  · intro i entry hentry
    rw [hindex, List.getElem?_take] at hentry
    split at hentry
    · rename_i hi
      obtain ⟨block, hblock, hstored⟩ := h.entries i entry hentry
      exact ⟨block, by rw [List.getElem?_take, if_pos hi, hblock], hstored⟩
    · cases hentry
  · rw [hindex, hlength]
    simp only [ProofStore.publishTruncate, hkeep]
    rw [h.statePresent, List.take_replicate, Nat.min_eq_left (le_of_lt hlt)]
  · intro hash i
    rw [hindex, hlength]
    simp only [ProofStore.publishTruncate, hkeep]
    have hpresent : ∀ entry ∈ store.index.drop keep, entry.present = true := by
      intro entry hentry
      obtain ⟨j, hj⟩ := List.mem_iff_getElem?.mp (List.mem_of_mem_drop hentry)
      obtain ⟨block, -, hstored⟩ := h.entries j entry hj
      exact hstored.present
    rw [eraseHashes_eq_some hpresent, h.hashes]
    constructor
    · rintro ⟨hkept, hi, hmap⟩
      have hik : i < keep := by
        by_contra hge
        apply hkept
        obtain ⟨block, hblock, hentry, hstored⟩ := h.entry hi
        have hhash := h.entry_hash hchain hi
        rw [hmap] at hhash
        rw [Option.some.inj hhash]
        refine List.mem_map_of_mem (List.mem_iff_getElem?.mpr ⟨i - keep, ?_⟩)
        rw [List.getElem?_drop, Nat.add_sub_cancel' (by omega), hentry]
      exact ⟨hik, by rw [List.getElem?_take, if_pos hik, hmap]⟩
    · rintro ⟨hi, hmap⟩
      rw [List.getElem?_take, if_pos hi] at hmap
      refine ⟨?_, by omega, hmap⟩
      intro herased
      obtain ⟨entry, hentry, hhash⟩ := List.mem_map.mp herased
      obtain ⟨j, hj⟩ := List.mem_iff_getElem?.mp hentry
      rw [List.getElem?_drop] at hj
      obtain ⟨block, hblock, hstored⟩ := h.entries _ _ hj
      have hother : (blocks[keep + j]?).map (·.point.blockHash) = some hash := by
        rw [hblock, Option.map_some, ← hhash, hstored.blockHash, (hchain.states block (List.mem_of_getElem? hblock)).2]
      have := hchain.index_unique hmap hother
      omega

theorem Durable.applyTruncate (h : Durable config base store blocks) (hchain : Chain base.point blocks)
    {event : WalEvent H} (hevent : Truncates base.point blocks store.durablePoint event) (data : List UInt8) :
    Archive.applyEvent config.maxRecordBytes data true store.view event =
      .ok (.ok (store.publishTruncate event).view) := by
  have hheight := h.height hchain
  have hlow := hevent.base_le
  have hhigh := hevent.lt_durable
  have hbase : store.basePoint = base.point := h.basePoint
  unfold Archive.applyEvent
  rw [if_neg (by simp [ProofStore.view]), hevent.kind]
  simp only
  unfold Archive.applyTruncate
  rw [if_neg (by
    simp only [ProofStore.view, not_or, not_not, not_lt, ge_iff_le, not_le, ne_eq, hbase]
    exact ⟨hlow, hhigh, hevent.previous, hevent.dataOffset, hevent.dataSize, hevent.dataDigest⟩)]
  have hexpected : (if event.point.height = store.view.basePoint.height then some store.view.basePoint.blockHash
      else (store.view.index[event.point.height - store.view.basePoint.height - 1]?).map (·.blockHash)) =
      some event.point.blockHash := by
    simp only [ProofStore.view, hbase]
    split
    · rename_i heq
      rw [hevent.point, heq, Nat.sub_self, List.take_zero]
      rfl
    · rename_i hne
      have hi : event.point.height - base.point.height - 1 < store.index.length := by omega
      obtain ⟨block, hblock, hentry, hstored⟩ := h.entry hi
      have htip : event.point = block.point := by
        rw [hevent.point, ← tip_take_succ hblock]
        congr 2
        omega
      rw [hentry, Option.map_some, hstored.blockHash, (hchain.states block (List.mem_of_getElem? hblock)).2, htip]
  simp only [hexpected, ne_eq, not_true_eq_false, if_false]
  rfl

end Truncate

end UtreexoBridge.Archive
