import UtreexoBridge.Archive.Serve
import UtreexoBridge.Leaf
import UtreexoBridge.Wire.Uproof

/-!
# What the archive admits

`Enqueue` estimates the memory of a block before it takes it. The estimate is
never below what the serializer writes, and the queue's counters are those of the
blocks that are not yet durable.
-/

namespace UtreexoBridge.Archive

open Bytes Wire

variable {H : Type} [ArchiveHash H] [DecidableEq H]

/-! ## The estimate -/

theorem addSaturating_le {bytes amount limit : Nat} (h : addSaturating bytes amount ≤ limit) (hlimit : limit < 2 ^ 32) :
    bytes + amount ≤ limit := by
  unfold addSaturating at h
  split_ifs at h <;> omega

theorem foldl_addSaturating_le {limit : Nat} (hlimit : limit < 2 ^ 32) (leaves : List CompactLeafData) (bytes : Nat)
    (h : leaves.foldl (fun bytes leaf => addSaturating bytes leaf.script.length) bytes ≤ limit) :
    bytes + (leaves.map (·.script.length)).sum ≤ limit := by
  induction leaves generalizing bytes with
  | nil => simpa using h
  | cons leaf leaves ih =>
    have hrest := ih (addSaturating bytes leaf.script.length) h
    have hhead := @addSaturating_le bytes leaf.script.length (limit - (leaves.map (·.script.length)).sum) (by omega)
      (by omega)
    rw [List.map_cons, List.sum_cons]
    omega

theorem quadruple_le {bytes limit : Nat} (h : quadruple bytes ≤ quadruple limit) (hlimit : limit < 2 ^ 32) :
    bytes ≤ limit := by
  unfold quadruple at h
  split_ifs at h <;> omega

omit [ArchiveHash H] [DecidableEq H] in
theorem estimate_le {block : ArchiveBlock H} {limit : Nat} (h : accountedBytes block ≤ quadruple limit)
    (hlimit : limit < 2 ^ 32) :
    1024 + block.proof.targets.length * 8 + block.proof.hashes.length * 32 + block.deletions.length * 32 +
      block.proofLeaves.length * 48 + (block.proofLeaves.map (·.script.length)).sum ≤ limit := by
  have h := quadruple_le h hlimit
  have hroots := addSaturating_le h hlimit
  have hscripts := foldl_addSaturating_le hlimit block.proofLeaves _ (le_trans (Nat.le_add_right _ _) hroots)
  have hleaves := addSaturating_le (le_trans (Nat.le_add_right _ _) hscripts) hlimit
  simp only [compactLeafSize] at hscripts hleaves
  unfold addSaturating at *
  split_ifs at * <;> omega

/-! ## An admitted block -/

section Admitted

variable {config : ProofStoreConfig} {store store' : ProofStore H} {block : ArchiveBlock H}

omit [ArchiveHash H] in
theorem enqueue_sizes (h : store.enqueue config block = .ok (some store')) :
    block.proof.targets.length = block.deletions.length ∧ block.proofLeaves.length = block.deletions.length ∧
      accountedBytes block ≤ quadruple config.maxRecordBytes ∧ store.hasCapacity config (accountedBytes block) = true := by
  unfold ProofStore.enqueue at h
  simp only [bind, Except.bind, pure, Except.pure, validateAccumulatorState] at h
  split at h
  · cases h
  · split at h
    · cases h
    · rename_i haligned
      split at h
      · cases h
      · split at h
        · cases h
        · split at h
          · cases h
          · rename_i hsize
            split at h
            · cases h
            · split at h
              · cases h
              · rename_i hspace
                simp only [not_or, not_not, ne_eq] at haligned
                exact ⟨haligned.1, haligned.2, Nat.le_of_not_lt hsize, by simpa using hspace⟩

theorem compactSizeBytes_le (n : Nat) : compactSizeBytes n ≤ 9 := by
  unfold compactSizeBytes
  split_ifs <;> omega

theorem sum_appendLeaf_le (leaves : List CompactLeafData) (h : ∀ leaf ∈ leaves, leaf.Known) :
    (leaves.map fun leaf => (appendLeaf leaf).length).sum ≤
      leaves.length * 22 + (leaves.map (·.script.length)).sum := by
  induction leaves with
  | nil => simp
  | cons leaf leaves ih =>
    have hrest := ih fun other hother => h other (List.mem_cons_of_mem _ hother)
    have hhead : (appendLeaf leaf).length ≤ 22 + leaf.script.length := by
      have hsize := compactSizeBytes_le leaf.script.length
      rw [length_appendLeaf]
      split_ifs <;> omega
    simp only [List.map_cons, List.sum_cons, List.length_cons]
    omega

theorem sum_compactSizeBytes_le (values : List Nat) : (values.map compactSizeBytes).sum ≤ values.length * 9 := by
  induction values with
  | nil => simp
  | cons value values ih =>
    have hhead := compactSizeBytes_le value
    simp only [List.map_cons, List.sum_cons, List.length_cons]
    omega

omit [DecidableEq H] in
theorem length_payload_le {limit : Nat} (haligned : block.proof.targets.length = block.deletions.length)
    (hleaves : block.proofLeaves.length = block.deletions.length) (hknown : ∀ leaf ∈ block.proofLeaves, leaf.Known)
    (h : accountedBytes block ≤ quadruple limit) (hlimit : limit < 2 ^ 32) :
    (layoutPayload block.cached (fullRequest block.point.blockHash)).length ≤ limit := by
  have hestimate := estimate_le h hlimit
  have hwritten := sum_appendLeaf_le block.proofLeaves hknown
  have htargets := sum_compactSizeBytes_le block.proof.targets
  have h1 := compactSizeBytes_le block.proof.hashes.length
  have h2 := compactSizeBytes_le block.proof.targets.length
  have h3 := compactSizeBytes_le block.proofLeaves.length
  obtain ⟨hhash, htarget, hleaf⟩ := @requested_full H block.cached (fullRequest block.point.blockHash) rfl
  rw [length_layoutPayload, hhash, htarget, hleaf]
  simp only [ArchiveBlock.cached]
  omega

theorem prepareProof_accounted {item : WorkItem H} {maxRecordBytes : Nat} {prepared : PreparedProof H}
    (h : prepareProof item maxRecordBytes = .ok prepared) : prepared.accountedBytes = item.accountedBytes := by
  unfold prepareProof at h
  simp only [bind, Except.bind, pure, Except.pure, throw, throwThe, MonadExceptOf.throw] at h
  split_ifs at h
  split at h
  · cases h
  · split at h
    · cases h
    · split_ifs at h
      cases h
      rfl

/-- A serializer does not fail on an admitted block, and the record has a size that is read and recovered. -/
theorem prepareProof_admitted (hvalid : config.Valid) (h : store.enqueue config block = .ok (some store'))
    (hcount : block.proofLeaves.length ≤ maxInputsPerBlock) (hknown : ∀ leaf ∈ block.proofLeaves, leaf.Known)
    (hnumLeaves : block.state.numLeaves < 2 ^ 64) (hheight : block.point.height < 2 ^ 32) :
    ∃ prepared, prepareProof ⟨block, accountedBytes block⟩ config.maxRecordBytes = .ok prepared ∧
      validProofRecordSize prepared.record.length config.maxRecordBytes = true := by
  have hlimit : config.maxRecordBytes < 2 ^ 32 := hvalid.2.2.2.2.2.2.2.2
  obtain ⟨-, hpoint, hroots, -, -, -⟩ := enqueue_eq h
  obtain ⟨haligned, hleaves, hsize, -⟩ := enqueue_sizes h
  have hpayload := length_payload_le haligned hleaves hknown hsize hlimit
  obtain ⟨-, -, hleaf⟩ := @requested_full H block.cached (fullRequest block.point.blockHash) rfl
  have hmeasure : measureUtreexoProof block.cached (fullRequest block.point.blockHash) (2 ^ 64 - 1) =
      .ok (layoutPayload block.cached (fullRequest block.point.blockHash)).length := measure_iff.mpr ⟨rfl, haligned.trans hleaves.symm, hcount,
    by rw [hleaf]; exact hknown, le_trans hpayload (by omega), rfl⟩
  have hserialize : serializeUtreexoProof block.cached (fullRequest block.point.blockHash) (2 ^ 64 - 1) =
      .ok (layoutPayload block.cached (fullRequest block.point.blockHash)) := by
    rw [serializeUtreexoProof, hmeasure]
    exact if_neg (not_not.mpr rfl)
  have hfits : StateFits block.state := ⟨hnumLeaves, by rw [hpoint]; exact hheight, hroots⟩
  have hrecord : validProofRecordSize (dataRecord block.point block.previousBlockHash block.state
      (layoutPayload block.cached (fullRequest block.point.blockHash))).1.length config.maxRecordBytes = true :=
    validSize_record hfits hlimit hpayload
  refine ⟨⟨block.point, block.previousBlockHash, _, (dataRecord block.point block.previousBlockHash block.state
    (layoutPayload block.cached (fullRequest block.point.blockHash))).2, accountedBytes block⟩, ?_, hrecord⟩
  have hheader : dataHeaderSize = 88 := rfl
  have hstate : maxStateSize = 2096 := rfl
  have hfooter : dataFooterSize = 40 := rfl
  unfold prepareProof validateAccumulatorState
  simp only [bind, Except.bind, pure, Except.pure]
  rw [if_neg (not_not.mpr hpoint), if_neg (not_not.mpr hroots), hserialize]
  dsimp only
  rw [if_neg (by omega)]

end Admitted

/-! ## The counters -/

def queued (store : ProofStore H) (blocks : List (ArchiveBlock H)) : List (ArchiveBlock H) :=
  blocks.drop store.index.length

structure Counted (config : ProofStoreConfig) (store : ProofStore H) (blocks : List (ArchiveBlock H)) : Prop where
  items : ∀ item ∈ store.items, item.accountedBytes = accountedBytes item.block
  ready : ∀ (height : Nat) (prepared : PreparedProof H), store.ready height = some prepared →
    ∀ block ∈ blocks, block.point.height = height → prepared.accountedBytes = accountedBytes block
  batch : ∀ (j : Nat) (prepared : PreparedProof H) (block : ArchiveBlock H), store.writer.batch[j]? = some prepared →
    blocks[store.index.length + j]? = some block → prepared.accountedBytes = accountedBytes block
  count : store.queuedBlocks = (queued store blocks).length
  bytes : store.queuedBytes = ((queued store blocks).map accountedBytes).sum
  room : (store.queuedBlocks ≤ config.maxQueuedBlocks ∧ store.queuedBytes ≤ config.maxQueuedBytes) ∨
    (store.queuedBlocks = 1 ∧ config.maxQueuedBytes < store.queuedBytes)

section Counted

variable {config : ProofStoreConfig} {base : AccumulatorState H} {store store' : ProofStore H}
  {blocks : List (ArchiveBlock H)}

omit [ArchiveHash H] [DecidableEq H] in
theorem Counted.frame (h : Counted config store blocks) (hitems : ∀ item ∈ store'.items, item ∈ store.items)
    (hready : store'.ready = store.ready) (hbatch : store'.writer.batch = store.writer.batch)
    (hindex : store'.index = store.index) (hblocks : store'.queuedBlocks = store.queuedBlocks)
    (hbytes : store'.queuedBytes = store.queuedBytes) : Counted config store' blocks where
  items item hitem := h.items item (hitems item hitem)
  ready := by
    rw [hready]
    exact h.ready
  batch := by
    rw [hbatch, hindex]
    exact h.batch
  count := by
    rw [queued, hblocks, hindex]
    exact h.count
  bytes := by
    rw [queued, hbytes, hindex]
    exact h.bytes
  room := by
    rw [hblocks, hbytes]
    exact h.room

theorem Counted.batch_bytes (h : Counted config store blocks) (hinv : Inv config base store blocks) :
    store.writer.batch.map (·.accountedBytes) = ((queued store blocks).take store.writer.batch.length).map accountedBytes := by
  have htaken := hinv.taken_le
  rw [ProofStore.taken] at htaken
  apply List.ext_getElem?
  intro j
  rw [List.getElem?_map, List.getElem?_map, List.getElem?_take, queued, List.getElem?_drop]
  split_ifs with hj
  · have hplace : store.index.length + j < blocks.length := by omega
    rw [List.getElem?_eq_getElem hj, List.getElem?_eq_getElem hplace, Option.map_some, Option.map_some,
      h.batch j _ _ (List.getElem?_eq_getElem hj) (List.getElem?_eq_getElem hplace)]
  · rw [List.getElem?_eq_none (by omega)]
    rfl

theorem Counted.batch_le (h : Counted config store blocks) (hinv : Inv config base store blocks) :
    store.writer.batch.length ≤ store.queuedBlocks ∧
      (store.writer.batch.map (·.accountedBytes)).sum ≤ store.queuedBytes := by
  have htaken := hinv.taken_le
  have hbytes := congrArg List.sum (List.take_append_drop store.writer.batch.length ((queued store blocks).map accountedBytes))
  rw [ProofStore.taken] at htaken
  rw [List.sum_append, ← List.map_take, ← h.batch_bytes hinv, ← h.bytes] at hbytes
  refine ⟨?_, by omega⟩
  rw [h.count, queued, List.length_drop]
  omega

theorem publishEvents_counters (store : ProofStore H) (events : List (WalEvent H × PreparedProof H)) :
    (ProofStore.publishEvents store events).queuedBlocks = store.queuedBlocks - events.length ∧
      (ProofStore.publishEvents store events).queuedBytes =
        store.queuedBytes - (events.map (·.2.accountedBytes)).sum := by
  induction events generalizing store with
  | nil => exact ⟨rfl, rfl⟩
  | cons head rest ih =>
    obtain ⟨event, prepared⟩ := head
    obtain ⟨hblocks, hbytes⟩ := ih (store.publishEvent event prepared.accountedBytes)
    have hone : (store.publishEvent event prepared.accountedBytes).queuedBlocks = store.queuedBlocks - 1 := rfl
    have hsize : (store.publishEvent event prepared.accountedBytes).queuedBytes =
        store.queuedBytes - prepared.accountedBytes := rfl
    rw [ProofStore.publishEvents, hblocks, hbytes, hone, hsize]
    simp only [List.length_cons, List.map_cons, List.sum_cons]
    omega

theorem publish_counters {batch : List (PreparedProof H)} {events : List (WalEvent H)}
    (hlength : events.length = batch.length) :
    (store.publish batch events).queuedBlocks = store.queuedBlocks - batch.length ∧
      (store.publish batch events).queuedBytes = store.queuedBytes - (batch.map (·.accountedBytes)).sum := by
  obtain ⟨hblocks, hbytes⟩ := publishEvents_counters
    { store with
      dataEnd := store.dataEnd + (batch.map (·.record.length)).sum
      walEnd := store.walEnd + (events.flatMap serializeWal).length } (events.zip batch)
  have hproofs : (events.zip batch).map (·.2.accountedBytes) = batch.map (·.accountedBytes) := by
    calc (events.zip batch).map (·.2.accountedBytes)
      _ = ((events.zip batch).map Prod.snd).map (·.accountedBytes) := List.map_map.symm
      _ = batch.map (·.accountedBytes) := by rw [List.map_snd_zip hlength.ge]
  have hcount : (events.zip batch).length = batch.length := by
    rw [List.length_zip, hlength, Nat.min_self]
  rw [hcount] at hblocks
  rw [hproofs] at hbytes
  exact ⟨hblocks, hbytes⟩

/-! ## One step of the pipeline -/

theorem Counted.enqueue (h : Counted config store blocks) (hinv : Inv config base store blocks) {block : ArchiveBlock H}
    (hnext : Inv config base store' (blocks ++ [block])) (hstep : store.enqueue config block = .ok (some store')) :
    Counted config store' (blocks ++ [block]) := by
  have hspace := (enqueue_sizes hstep).2.2.2
  have hunready := hnext.pipeline.unready
  have htaken := hinv.taken_le
  obtain ⟨-, -, -, -, -, rfl⟩ := enqueue_eq hstep
  have hqueued : (blocks ++ [block]).drop store.index.length = queued store blocks ++ [block] :=
    List.drop_append_of_le_length hinv.durable.length_le
  have hsum : ((queued store blocks ++ [block]).map accountedBytes).sum =
      ((queued store blocks).map accountedBytes).sum + accountedBytes block := by
    rw [List.map_append, List.sum_append, List.map_singleton, List.sum_singleton]
  refine ⟨?_, ?_, ?_, ?_, ?_, ?_⟩
  · intro item hitem
    simp only [ProofStore.items, List.mem_append, List.mem_singleton] at hitem
    rcases hitem with (hold | rfl) | hheld
    · exact h.items item (List.mem_append_left _ hold)
    · rfl
    · exact h.items item (List.mem_append_right _ hheld)
  · intro height prepared hready found hfound hheight
    have hready : store.ready height = some prepared := hready
    rcases List.mem_append.mp hfound with hold | hlast
    · exact h.ready height prepared hready found hold hheight
    · -- nothing is ready at the height of a block that is queued now
      rw [List.mem_singleton.mp hlast] at hheight
      have hnone : store.ready block.point.height = none := hunready ⟨block, accountedBytes block⟩
        (List.mem_append_left _ (List.mem_append_right _ (List.mem_singleton_self _)))
      rw [hheight, hready] at hnone
      cases hnone
  · intro j prepared found hprepared hfound
    have hj : j < store.writer.batch.length := (List.getElem?_eq_some_iff.mp hprepared).1
    have hfound : (blocks ++ [block])[store.index.length + j]? = some found := hfound
    refine h.batch j prepared found hprepared ?_
    rwa [List.getElem?_append_left (by rw [ProofStore.taken] at htaken; omega)] at hfound
  · show store.queuedBlocks + 1 = ((blocks ++ [block]).drop store.index.length).length
    rw [hqueued, List.length_append, ← h.count, List.length_singleton]
  · show store.queuedBytes + accountedBytes block = (((blocks ++ [block]).drop store.index.length).map accountedBytes).sum
    rw [hqueued, hsum, ← h.bytes]
  · show (store.queuedBlocks + 1 ≤ config.maxQueuedBlocks ∧
        store.queuedBytes + accountedBytes block ≤ config.maxQueuedBytes) ∨
      (store.queuedBlocks + 1 = 1 ∧ config.maxQueuedBytes < store.queuedBytes + accountedBytes block)
    unfold ProofStore.hasCapacity at hspace
    split_ifs at hspace with hoversized
    · have hempty := of_decide_eq_true hspace
      omega
    · have hroom := of_decide_eq_true hspace
      omega

theorem Counted.finishSerializing (h : Counted config store blocks) (hinv : Inv config base store blocks) {i : Nat}
    (hstep : store.finishSerializing config i = some store') : Counted config store' blocks := by
  unfold ProofStore.finishSerializing at hstep
  split at hstep
  · cases hstep
  · rename_i item hitem
    obtain ⟨hi, rfl⟩ := List.getElem?_eq_some_iff.mp hitem
    have hheld : store.serializing[i] ∈ store.items := List.mem_append_right _ (List.getElem_mem hi)
    have hrest : ∀ other, other ∈ store.input ++ store.serializing.eraseIdx i → other ∈ store.items := by
      intro other hother
      rcases List.mem_append.mp hother with hinput | hother
      · exact List.mem_append_left _ hinput
      · exact List.mem_append_right _ (List.mem_of_mem_eraseIdx hother)
    split at hstep
    · cases hstep
      unfold ProofStore.setFailure
      split
      · exact h.frame hrest rfl rfl rfl rfl rfl
      · exact h.frame hrest rfl rfl rfl rfl rfl
    · rename_i prepared hprepared
      cases hstep
      split
      · exact h.frame hrest rfl rfl rfl rfl rfl
      · have hunready := hinv.pipeline.unready _ hheld
        have hpoint : prepared.point = store.serializing[i].block.point :=
          (prepares_of_prepareProof hprepared).choose_spec.2.1
        have haccounted : prepared.accountedBytes = store.serializing[i].accountedBytes := prepareProof_accounted hprepared
        unfold ProofStore.emplaceReady
        rw [if_neg (by rw [hpoint]; simp [hunready])]
        refine ⟨fun other hother => h.items other (hrest other hother), ?_, h.batch, h.count, h.bytes, h.room⟩
        intro height found hfound block hblock hheight
        simp only [Function.update_apply] at hfound
        split_ifs at hfound with hsame
        · -- the record is that of the block which the serializer held
          cases hfound
          obtain ⟨j, -, hj⟩ := hinv.pipeline.items _ hheld
          obtain ⟨k, hk⟩ := List.mem_iff_getElem?.mp hblock
          have hplace := hinv.chain.index_of_height hk hj (by rw [hheight, hsame, hpoint])
          rw [hplace, hj] at hk
          rw [haccounted, h.items _ hheld, Option.some.inj hk]
        · exact h.ready height found hfound block hblock hheight

theorem Counted.collect (h : Counted config store blocks) (hinv : Inv config base store blocks) {timedOut : Bool}
    (hstep : store.collect config timedOut = some store') : Counted config store' blocks := by
  unfold ProofStore.collect at hstep
  split at hstep
  · rename_i hidle
    simp only at hstep
    split at hstep
    · cases hstep
    · rename_i hgo
      simp only [not_or, Option.isNone_iff_eq_none] at hgo
      have hready : (store.ready (add32 store.durablePoint.height 1)).isSome = true :=
        Option.isSome_iff_ne_none.mpr hgo.2.1
      have hfirst : add32 store.durablePoint.height 1 = base.point.height + 1 + store.index.length := by
        have hlt := hinv.ready_lt hready
        have htaken : store.index.length ≤ store.taken := Nat.le_add_right _ _
        have hbound := hinv.height_lt (by omega : store.index.length + 1 ≤ blocks.length)
        rw [hinv.durable.height hinv.chain, add32, Nat.mod_eq_of_lt (by omega)]
        omega
      obtain ⟨hbatch, hrest⟩ := takeReady_spec
        (store.contiguousReady config.groupCommitBlocks (add32 store.durablePoint.height 1)) store.ready
        (add32 store.durablePoint.height 1) (fun k hk => hinv.pipeline.ready_height hinv.chain hk)
      cases hstep
      refine ⟨h.items, ?_, ?_, h.count, h.bytes, h.room⟩
      · intro height prepared hprepared
        have hprepared : (ProofStore.takeReady store.ready
            (store.contiguousReady config.groupCommitBlocks (add32 store.durablePoint.height 1))
            (add32 store.durablePoint.height 1)).2 height = some prepared := hprepared
        rw [hrest] at hprepared
        split_ifs at hprepared
        exact h.ready height prepared hprepared
      · intro j prepared block hprepared hblock
        refine h.ready _ prepared (hbatch j prepared hprepared) block (List.mem_of_getElem? hblock) ?_
        rw [hinv.chain.height _ block hblock, hfirst]
        show base.point.height + 1 + (store.index.length + j) = _
        omega
  · cases hstep

theorem Counted.finishCommit (h : Counted config store blocks) (hinv : Inv config base store blocks)
    (hvalid : config.Valid) (hstep : store.finishCommit = some store') : Counted config store' blocks := by
  have hle := h.batch_le hinv
  have htaken := hinv.taken_le
  have hfirst := h.batch_bytes hinv
  have hbusy := hinv.pipeline.busy
  unfold ProofStore.finishCommit at hstep
  split at hstep
  · rename_i batch events hphase
    cases hstep
    obtain ⟨-, hindex, -, -⟩ := hinv.publish hvalid hphase
    have hlength : events.length = batch.length := by
      rw [hinv.log.events _ _ (Or.inr hphase), length_connectEvents]
    obtain ⟨hblocks, hbytes⟩ := @publish_counters H _ _ store _ _ hlength
    have hpos : 0 < batch.length := by
      have hsome := hbusy (by rw [hphase]; intro hno; cases hno)
      rw [hphase] at hsome
      exact List.length_pos_iff.mpr hsome
    rw [hphase] at hle hfirst
    simp only [ProofStore.taken, hphase, WriterPhase.batch] at htaken hle hfirst
    have hqueued : queued (store.publish batch events) blocks = (queued store blocks).drop batch.length := by
      rw [queued, queued, List.drop_drop, hindex]
    have hsplit := congrArg List.sum (List.take_append_drop batch.length ((queued store blocks).map accountedBytes))
    rw [List.sum_append, ← List.map_take, ← List.map_drop, ← hfirst, ← h.bytes] at hsplit
    obtain ⟨_, _, _, _, _, _, _, hframe⟩ := publish_frame store batch events
    refine ⟨?_, ?_, ?_, ?_, ?_, ?_⟩
    · rw [hframe]
      exact h.items
    · rw [hframe]
      exact h.ready
    · rw [hframe]
      intro j prepared block hprepared
      cases hprepared
    · rw [hqueued, hblocks, h.count, List.length_drop]
    · rw [hqueued, hbytes]
      omega
    · rw [hblocks, hbytes]
      rcases h.room with hroom | hroom
      · exact Or.inl ⟨by omega, by omega⟩
      · -- the oversized block was alone, and is durable now
        have hnone : (queued store blocks).length - batch.length = 0 := by
          rw [← h.count]
          omega
        have hempty : ((queued store blocks).drop batch.length).map accountedBytes = [] := by
          rw [List.map_eq_nil_iff, ← List.length_eq_zero_iff, List.length_drop]
          exact hnone
        rw [hempty, List.sum_nil] at hsplit
        exact Or.inl ⟨by omega, by omega⟩
  · cases hstep

theorem Counted.finishTruncate (h : Counted config store blocks) (hinv : Inv config base store blocks)
    {event : WalEvent H} (htrunc : store.truncating = some event) :
    Counted config (store.publishTruncate event) (blocks.take (event.point.height - base.point.height)) := by
  obtain ⟨hidle, hcount, -⟩ := hinv.log.truncating event htrunc
  have hindex : (store.publishTruncate event).index = store.index.take (event.point.height - base.point.height) := by
    rw [← hinv.durable.basePoint]
    rfl
  have hbefore : queued store blocks = [] := List.drop_eq_nil_of_le hcount.ge
  have hafter : queued (store.publishTruncate event) (blocks.take (event.point.height - base.point.height)) = [] := by
    rw [queued, hindex, List.length_take]
    refine List.drop_eq_nil_of_le ?_
    rw [List.length_take, hcount]
  refine ⟨h.items, ?_, ?_, ?_, ?_, h.room⟩
  · intro height prepared hprepared block hblock
    exact h.ready height prepared hprepared block (List.mem_of_mem_take hblock)
  · intro j prepared block hprepared
    have hprepared : store.writer.batch[j]? = some prepared := hprepared
    rw [hidle] at hprepared
    cases hprepared
  · rw [hafter, ← hbefore]
    exact h.count
  · rw [hafter, ← hbefore]
    exact h.bytes

/-! ## Every run -/

theorem Counted.step (h : Counted config store blocks) (hinv : Inv config base store blocks) (hvalid : config.Valid)
    {action : Action H} (hadmits : Admits blocks action) (hstep : step config store action = some store') :
    Counted config store' (archived store blocks action) := by
  cases action with
  | enqueue block =>
    have hnext := hinv.step hvalid hadmits hstep
    simp only [Archive.step] at hstep
    split at hstep
    · rename_i result hresult
      rw [hstep] at hresult
      exact h.enqueue hinv hnext hresult
    · cases hstep
  | requestFlush height =>
    simp only [Archive.step, ProofStore.requestFlush] at hstep
    split_ifs at hstep
    cases hstep
    exact h.frame (fun _ hitem => hitem) rfl rfl rfl rfl rfl
  | takeInput =>
    simp only [Archive.step, ProofStore.takeInput] at hstep
    split at hstep
    · cases hstep
    · split at hstep
      · cases hstep
      · rename_i item rest hinput
        cases hstep
        refine h.frame ?_ rfl rfl rfl rfl rfl
        intro other hother
        simp only [ProofStore.items, hinput, List.mem_append, List.mem_cons] at hother ⊢
        tauto
  | finishSerializing i => exact h.finishSerializing hinv hstep
  | collect timedOut => exact h.collect hinv hstep
  | writeData =>
    simp only [Archive.step, ProofStore.writeData] at hstep
    split at hstep
    · rename_i batch hphase
      split at hstep
      · cases hstep
      · cases hstep
        exact h.frame (fun _ hitem => hitem) rfl (by rw [hphase]; rfl) rfl rfl rfl
    · cases hstep
  | writeWal =>
    simp only [Archive.step, ProofStore.writeWal] at hstep
    split at hstep
    · rename_i batch events hphase
      split at hstep
      · cases hstep
      · cases hstep
        exact h.frame (fun _ hitem => hitem) rfl (by rw [hphase]; rfl) rfl rfl rfl
    · cases hstep
  | finishCommit => exact h.finishCommit hinv hvalid hstep
  | beginTruncate point =>
    simp only [Archive.step, ProofStore.beginTruncate] at hstep
    split at hstep
    · cases hstep
    · split at hstep
      · split at hstep
        · cases hstep
        · cases hstep
          exact h.frame (fun _ hitem => hitem) rfl rfl rfl rfl rfl
      · cases hstep
  | finishTruncate =>
    simp only [Archive.step, ProofStore.finishTruncate] at hstep
    obtain ⟨event, htrunc, rfl⟩ := Option.map_eq_some_iff.mp hstep
    unfold archived
    simp only [htrunc, hinv.durable.basePoint]
    exact h.finishTruncate hinv htrunc

theorem Runs.counted (hfits : base.numLeaves < 2 ^ 64 ∧ base.point.height < 2 ^ 32)
    (h : Runs config base store blocks) : Counted config store blocks := by
  induction h with
  | create hcreate =>
    unfold Archive.create at hcreate
    simp only [bind, Except.bind, pure, Except.pure] at hcreate
    split_ifs at hcreate
    split at hcreate
    · cases hcreate
    · cases hcreate
      refine ⟨?_, ?_, ?_, rfl, rfl, Or.inl ⟨Nat.zero_le _, Nat.zero_le _⟩⟩
      · intro item hitem
        cases hitem
      · intro height prepared hprepared
        cases hprepared
      · intro j prepared block hprepared
        cases hprepared
  | step hruns action hadmits hstep ih =>
    obtain ⟨hvalid, hinv⟩ := hruns.inv hfits
    exact ih.step hinv hvalid hadmits hstep

theorem Inv.queued_eq (h : Inv config base store blocks) :
    queued store blocks = blocks.filter (store.durablePoint.height < ·.point.height) := by
  have hfirst : (blocks.take store.index.length).filter (store.durablePoint.height < ·.point.height) = [] := by
    refine List.filter_eq_nil_iff.mpr fun block hblock => ?_
    obtain ⟨i, hi⟩ := List.mem_iff_getElem?.mp hblock
    rw [List.getElem?_take] at hi
    split_ifs at hi with hlt
    have := (h.durable_iff hi).mpr hlt
    simpa using this
  have hrest : (blocks.drop store.index.length).filter (store.durablePoint.height < ·.point.height) =
      blocks.drop store.index.length := by
    refine List.filter_eq_self.mpr fun block hblock => ?_
    obtain ⟨i, hi⟩ := List.mem_iff_getElem?.mp hblock
    rw [List.getElem?_drop] at hi
    have := (h.durable_iff hi).not.mpr (by omega)
    simpa using this
  conv_rhs => rw [← List.take_append_drop store.index.length blocks, List.filter_append, hfirst, hrest]
  rfl

/-- **Admission.** In every run, whatever the interleaving: the counters are those of the blocks above the durable
point, what a commit takes off them is there, the limits hold unless one oversized block is queued alone, and every
block that `Enqueue` takes, with leaves as `CompactLeaf` makes them, is serialized into a record of a valid size. -/
theorem admission (hfits : base.numLeaves < 2 ^ 64 ∧ base.point.height < 2 ^ 32) (h : Runs config base store blocks) :
    let pending := blocks.filter (store.durablePoint.height < ·.point.height)
    (store.queuedBlocks = pending.length ∧ store.queuedBytes = (pending.map accountedBytes).sum ∧
      store.writer.batch.length ≤ store.queuedBlocks ∧
      (store.writer.batch.map (·.accountedBytes)).sum ≤ store.queuedBytes ∧
      ((store.queuedBlocks ≤ config.maxQueuedBlocks ∧ store.queuedBytes ≤ config.maxQueuedBytes) ∨
        ∃ block, pending = [block] ∧ config.maxQueuedBytes < accountedBytes block)) ∧
    ∀ (block : ArchiveBlock H) (store' : ProofStore H), store.enqueue config block = .ok (some store') →
      block.state.numLeaves < 2 ^ 64 → block.point.height < 2 ^ 32 → block.proofLeaves.length ≤ maxInputsPerBlock →
      (∀ leaf ∈ block.proofLeaves, ∃ data : LeafData H, data.output.scriptPubkey.length ≤ maxScriptBytes ∧
        leaf = compactLeaf data) →
      ∃ prepared, prepareProof ⟨block, accountedBytes block⟩ config.maxRecordBytes = .ok prepared ∧
        validProofRecordSize prepared.record.length config.maxRecordBytes = true := by
  obtain ⟨hvalid, hinv⟩ := h.inv hfits
  have hcounted := h.counted hfits
  obtain ⟨hbatch, hbytes⟩ := hcounted.batch_le hinv
  have hcount := hcounted.count
  have hsum := hcounted.bytes
  rw [hinv.queued_eq] at hcount hsum
  refine ⟨⟨hcount, hsum, hbatch, hbytes, ?_⟩, ?_⟩
  · rcases hcounted.room with hroom | ⟨hone, hover⟩
    · exact Or.inl hroom
    · obtain ⟨block, hblock⟩ := List.length_eq_one_iff.mp (hcount.symm.trans hone)
      rw [hsum, hblock, List.map_singleton, List.sum_singleton] at hover
      exact Or.inr ⟨block, hblock, hover⟩
  · intro block store' henqueue hnumLeaves hheight hleaves hcompact
    refine prepareProof_admitted hvalid henqueue hleaves ?_ hnumLeaves hheight
    intro leaf hleaf
    obtain ⟨data, hscript, rfl⟩ := hcompact leaf hleaf
    exact known_compactLeaf hscript

end Counted

def queuedStore : ProofStore RawHash :=
  { createdStore with
    enqueuedPoint := firstBlock.point
    input := [⟨firstBlock, accountedBytes firstBlock⟩]
    queuedBlocks := 1
    queuedBytes := accountedBytes firstBlock }

theorem runs_queuedStore : Runs twoWorkers emptyBase queuedStore [firstBlock] :=
  (runs_createdStore (by decide)).step (.enqueue firstBlock) (by decide) rfl

/-- Behind the first block the second one is admitted, and its target, its hash and its leaf are serialized. -/
theorem admission_secondBlock :
    queuedStore.queuedBlocks = 1 ∧ queuedStore.queuedBytes = accountedBytes firstBlock ∧
      ∃ prepared, prepareProof ⟨secondBlock, accountedBytes secondBlock⟩ twoWorkers.maxRecordBytes = .ok prepared ∧
        validProofRecordSize prepared.record.length twoWorkers.maxRecordBytes = true := by
  obtain ⟨⟨hcount, hbytes, -⟩, hadmitted⟩ := admission ⟨by decide, by decide⟩ runs_queuedStore
  refine ⟨hcount, hbytes, hadmitted secondBlock _ rfl (by decide) (by decide) (by decide) ?_⟩
  intro leaf hleaf
  exact ⟨spentLeaf, by decide, List.mem_singleton.mp hleaf⟩

end UtreexoBridge.Archive
