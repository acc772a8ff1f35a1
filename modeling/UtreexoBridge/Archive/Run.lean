import UtreexoBridge.Archive.Pipeline

/-!
# Runs of the archive

One invariant for every step: which blocks are durable, which are on their way,
and what the files hold meanwhile.
-/

namespace UtreexoBridge.Archive

open Bytes

variable {H : Type} [ArchiveHash H] [DecidableEq H]

/-! ## What the files hold -/

/-- The WAL records that are written and not yet published. -/
def ProofStore.inflight (store : ProofStore H) : List (WalEvent H) :=
  match store.writer with
  | .walWritten _ events => events
  | _ => store.truncating.toList

structure Log (config : ProofStoreConfig) (base : AccumulatorState H) (store : ProofStore H)
    (blocks : List (ArchiveBlock H)) : Prop where
  data_length : store.files.data.length = store.dataEnd + (store.writer.written.map (·.record.length)).sum
  data_max : store.files.data.length ≤ maxOffset
  written : Located store.files.data store.dataEnd (store.writer.written.flatMap (·.record))
  events : ∀ batch events, (store.writer = .dataWritten batch events ∨ store.writer = .walWritten batch events) →
    events = connectEvents store.dataEnd batch
  truncating : ∀ event, store.truncating = some event →
    store.writer = .idle ∧ store.index.length = blocks.length ∧ Truncates base.point blocks store.durablePoint event
  committed : ∃ events : List (WalEvent H),
    store.files.wal = (baseEvent base :: events).flatMap serializeWal ++ store.inflight.flatMap serializeWal ∧
    ((baseEvent base :: events).flatMap serializeWal).length = store.walEnd ∧
    Replays config.maxRecordBytes store.files.data .empty ((baseEvent base :: events).flatMap serializeWal) store.view ∧
    Ordered base.point.height base.point events store.durablePoint

structure Inv (config : ProofStoreConfig) (base : AccumulatorState H) (store : ProofStore H)
    (blocks : List (ArchiveBlock H)) : Prop where
  fits : StateFits base
  chain : Chain base.point blocks
  durable : Durable config base store blocks
  enqueued : store.enqueuedPoint = tip base.point blocks
  pipeline : Pipeline config.maxRecordBytes store blocks
  log : Log config base store blocks

section Steps

variable {config : ProofStoreConfig} {base : AccumulatorState H} {store store' : ProofStore H}
  {blocks : List (ArchiveBlock H)}

theorem Durable.frame (h : Durable config base store blocks) (more : List UInt8)
    (hdata : store'.files.data = store.files.data ++ more) (hbase : store'.basePoint = store.basePoint)
    (hstate : store'.baseState = store.baseState) (hsize : store'.baseDataSize = store.baseDataSize)
    (hdigest : store'.baseDataDigest = store.baseDataDigest) (hindex : store'.index = store.index)
    (hdurable : store'.durablePoint = store.durablePoint) (hpresent : store'.statePresent = store.statePresent)
    (hhashes : store'.hashToHeight = store.hashToHeight) : Durable config base store' blocks where
  basePoint := hbase.trans h.basePoint
  baseState := hstate.trans h.baseState
  baseDataSize := hsize.trans h.baseDataSize
  baseDataDigest := hdigest.trans h.baseDataDigest
  baseLocated := by
    rw [hdata]
    exact h.baseLocated.append more
  length_le := by
    rw [hindex]
    exact h.length_le
  durablePoint := by
    rw [hdurable, hindex]
    exact h.durablePoint
  entries i entry hentry := by
    rw [hindex] at hentry
    obtain ⟨block, hblock, hstored⟩ := h.entries i entry hentry
    exact ⟨block, hblock, by rw [hdata]; exact hstored.more more⟩
  statePresent := by
    rw [hpresent, hindex]
    exact h.statePresent
  hashes hash i := by
    rw [hhashes, hindex]
    exact h.hashes hash i

theorem Durable.concat (h : Durable config base store blocks) (block : ArchiveBlock H) :
    Durable config base store (blocks ++ [block]) where
  basePoint := h.basePoint
  baseState := h.baseState
  baseDataSize := h.baseDataSize
  baseDataDigest := h.baseDataDigest
  baseLocated := h.baseLocated
  length_le := by
    rw [List.length_append]
    exact Nat.le_add_right_of_le h.length_le
  durablePoint := by
    rw [List.take_append_of_le_length h.length_le]
    exact h.durablePoint
  entries i entry hentry := by
    obtain ⟨found, hfound, hstored⟩ := h.entries i entry hentry
    refine ⟨found, ?_, hstored⟩
    rw [List.getElem?_append_left (List.getElem?_eq_some_iff.mp hfound).1, hfound]
  statePresent := h.statePresent
  hashes hash i := by
    rw [h.hashes]
    refine and_congr_right fun hi => ?_
    rw [List.getElem?_append_left (lt_of_lt_of_le hi h.length_le)]

theorem Inv.taken_le (h : Inv config base store blocks) : store.taken ≤ blocks.length := by
  unfold ProofStore.taken
  rcases hbatch : store.writer.batch.length with _ | n
  · exact h.durable.length_le
  · have hlast : store.writer.batch[n]? = some store.writer.batch[n] := List.getElem?_eq_getElem (by omega)
    obtain ⟨block, hblock, -⟩ := h.pipeline.pending.prepares n _ hlast
    have := (List.getElem?_eq_some_iff.mp hblock).1
    omega

theorem Inv.enqueued_height (h : Inv config base store blocks) :
    store.enqueuedPoint.height = base.point.height + blocks.length := by
  have hlast := h.chain.tip_height (le_refl blocks.length)
  rwa [List.take_length, ← h.enqueued] at hlast

theorem Inv.height_lt (h : Inv config base store blocks) {n : Nat} (hn : n ≤ blocks.length) :
    base.point.height + n < 2 ^ 32 := by
  rcases n with _ | n
  · exact h.fits.height
  · have hblock : blocks[n]? = some blocks[n] := List.getElem?_eq_getElem hn
    have hheight := h.chain.height n _ hblock
    have hfit := (h.chain.fits _ (List.mem_of_getElem? hblock)).height
    omega

/-! ## Enqueueing and serializing -/

omit [ArchiveHash H] in
theorem enqueue_eq {block : ArchiveBlock H} (h : store.enqueue config block = .ok (some store')) :
    store.truncating = none ∧ block.state.point = block.point ∧
      block.state.roots.length = popcount block.state.numLeaves ∧
      block.point.height = add32 store.enqueuedPoint.height 1 ∧
      block.previousBlockHash = store.enqueuedPoint.blockHash ∧
      store' = { store with
        input := store.input ++ [⟨block, accountedBytes block⟩], queuedBlocks := store.queuedBlocks + 1,
        queuedBytes := store.queuedBytes + accountedBytes block, enqueuedPoint := block.point } := by
  unfold ProofStore.enqueue at h
  simp only [bind, Except.bind, pure, Except.pure, validateAccumulatorState] at h
  split at h
  · cases h
  · rename_i hfree
    split at h
    · cases h
    · split at h
      · cases h
      · rename_i hpoint
        split at h
        · cases h
        · rename_i hvalid
          split at h
          · cases h
          · split at h
            · cases h
            · split at h
              · cases h
              · split at h
                · cases h
                · rename_i hextends
                  split at h
                  · cases h
                  · simp only [not_or, not_not, ne_eq] at hextends hpoint
                    refine ⟨by simpa using hfree, hpoint, ?_, hextends.1, hextends.2, (Option.some.inj (Except.ok.inj h)).symm⟩
                    split at hvalid
                    · cases hvalid
                    · rename_i hroots
                      exact not_not.mp hroots

theorem Inv.enqueue (h : Inv config base store blocks) {block : ArchiveBlock H}
    (hstep : store.enqueue config block = .ok (some store')) (hfits : block.Fits)
    (hnew : block.point.blockHash ∉ blocks.map (·.point.blockHash)) : Inv config base store' (blocks ++ [block]) := by
  obtain ⟨hfree, hpoint, hroots, hheight, hprevious, rfl⟩ := enqueue_eq hstep
  have hlast := h.enqueued_height
  have hbound := h.height_lt (le_refl blocks.length)
  -- a height that wrapped around would be 0
  have hnext : block.point.height = base.point.height + 1 + blocks.length := by
    have hpos := hfits.height_pos
    rw [hheight, add32, hlast] at hpos ⊢
    omega
  have hstate : StateFits block.state ∧ block.state.point = block.point :=
    ⟨⟨hfits.numLeaves, by rw [hpoint]; exact hfits.height, hroots⟩, hpoint⟩
  have hchain := h.chain.concat hnext (by rw [hprevious, h.enqueued]) hfits hstate hnew
  refine ⟨h.fits, hchain, ?_, ?_, ?_, ?_⟩
  · exact (h.durable.concat block).frame [] (List.append_nil _).symm rfl rfl rfl rfl rfl rfl rfl rfl
  · rw [tip_concat]
  · have hpipe : Chain base.point (blocks ++ [(⟨block, accountedBytes block⟩ : WorkItem H).block]) := hchain
    exact h.pipeline.enqueue hpipe h.taken_le _ _
  · refine ⟨h.log.data_length, h.log.data_max, h.log.written, h.log.events, ?_, h.log.committed⟩
    intro event hevent
    rw [show _ = store.truncating from rfl, hfree] at hevent
    cases hevent

theorem Inv.moved (h : Inv config base store blocks) {input serializing : List (WorkItem H)}
    {ready : Nat → Option (PreparedProof H)} {failure : Option String} {flushHeight : Option Nat}
    (hpipe : Pipeline config.maxRecordBytes
      { store with input := input, serializing := serializing, ready := ready, failure := failure, flushHeight := flushHeight }
      blocks) :
    Inv config base
      { store with input := input, serializing := serializing, ready := ready, failure := failure, flushHeight := flushHeight }
      blocks :=
  ⟨h.fits, h.chain, h.durable.frame [] (List.append_nil _).symm rfl rfl rfl rfl rfl rfl rfl rfl, h.enqueued, hpipe,
    ⟨h.log.data_length, h.log.data_max, h.log.written, h.log.events, h.log.truncating, h.log.committed⟩⟩

theorem Inv.requestFlush (h : Inv config base store blocks) {height : Nat} (hstep : store.requestFlush height = some store') :
    Inv config base store' blocks := by
  unfold ProofStore.requestFlush at hstep
  split at hstep
  · cases hstep
    exact h.moved ⟨h.pipeline.pending, h.pipeline.busy, h.pipeline.ready, h.pipeline.items, h.pipeline.unready,
      h.pipeline.nodup, h.pipeline.kept⟩
  · cases hstep

theorem Inv.takeInput (h : Inv config base store blocks) (hstep : store.takeInput config = some store') :
    Inv config base store' blocks := by
  unfold ProofStore.takeInput at hstep
  split at hstep
  · cases hstep
  · split at hstep
    · cases hstep
    · rename_i item rest hinput
      cases hstep
      have hperm : (rest ++ (store.serializing ++ [item])).Perm store.items := by
        rw [ProofStore.items, hinput, ← List.append_assoc, List.cons_append]
        exact List.perm_append_singleton _ _
      exact h.moved (h.pipeline.perm hperm)

theorem Inv.finishSerializing (h : Inv config base store blocks) {i : Nat}
    (hstep : store.finishSerializing config i = some store') : Inv config base store' blocks := by
  unfold ProofStore.finishSerializing at hstep
  split at hstep
  · cases hstep
  · rename_i item hitem
    obtain ⟨hi, rfl⟩ := List.getElem?_eq_some_iff.mp hitem
    have hperm : (store.serializing[i] :: (store.input ++ store.serializing.eraseIdx i)).Perm store.items :=
      List.perm_middle.symm.trans ((List.getElem_cons_eraseIdx_perm hi).append_left store.input)
    have hunready := h.pipeline.unready _ (hperm.subset List.mem_cons_self)
    split at hstep
    · -- the proof cannot be serialized, and the store fails
      cases hstep
      unfold ProofStore.setFailure
      split
      · rename_i hfailed
        exact h.moved (h.pipeline.failed hperm (Option.isSome_iff_ne_none.mp hfailed))
      · exact h.moved (h.pipeline.failed hperm (Option.some_ne_none _))
    · rename_i prepared hprepared
      have hprepares := prepares_of_prepareProof hprepared
      have hpoint : prepared.point = store.serializing[i].block.point := hprepares.choose_spec.2.1
      cases hstep
      split
      · rename_i hfailed
        exact h.moved (h.pipeline.failed hperm (Option.isSome_iff_ne_none.mp hfailed))
      · unfold ProofStore.emplaceReady
        rw [if_neg (by rw [hpoint]; simp [hunready])]
        exact h.moved (h.pipeline.emplace hperm hprepares)

/-! ## Committing -/

theorem Inv.ready_lt (h : Inv config base store blocks) {k : Nat} (hk : (store.ready k).isSome = true) :
    store.taken < blocks.length := by
  obtain ⟨prepared, hprepared⟩ := Option.isSome_iff_exists.mp hk
  obtain ⟨i, block, hi, hblock, -, -⟩ := h.pipeline.ready k prepared hprepared
  exact lt_of_le_of_lt hi (List.getElem?_eq_some_iff.mp hblock).1

theorem Inv.collect (h : Inv config base store blocks) (hvalid : config.Valid) {timedOut : Bool}
    (hstep : store.collect config timedOut = some store') : Inv config base store' blocks := by
  unfold ProofStore.collect at hstep
  split at hstep
  · rename_i hidle
    simp only at hstep
    split at hstep
    · cases hstep
    · rename_i hgo
      simp only [not_or, Option.isNone_iff_eq_none] at hgo
      have hready : (store.ready (add32 store.durablePoint.height 1)).isSome = true :=
        Option.isSome_iff_ne_none.mpr hgo.2.1
      have hlt := h.ready_lt hready
      have htaken : store.taken = store.index.length := by
        rw [ProofStore.taken, hidle]
        rfl
      have hfirst : add32 store.durablePoint.height 1 = base.point.height + 1 + store.index.length := by
        have hbound := h.height_lt (by omega : store.index.length + 1 ≤ blocks.length)
        rw [h.durable.height h.chain, add32, Nat.mod_eq_of_lt (by omega)]
        omega
      have hcount : store.contiguousReady config.groupCommitBlocks (add32 store.durablePoint.height 1) ≠ 0 := by
        obtain ⟨limit, hlimit⟩ := Nat.exists_eq_succ_of_ne_zero hvalid.2.2.1
        rw [hlimit, ProofStore.contiguousReady, if_pos hready]
        exact Nat.succ_ne_zero _
      have hpipe := h.pipeline.collect h.chain hidle hcount hfirst hready
      have hfree : store.truncating = none := by
        rcases htrunc : store.truncating with _ | event
        · rfl
        · have := (h.log.truncating event htrunc).2.1
          omega
      cases hstep
      refine ⟨h.fits, h.chain, h.durable.frame [] (List.append_nil _).symm rfl rfl rfl rfl rfl rfl rfl rfl, h.enqueued,
        hpipe, ?_⟩
      have hlength := h.log.data_length
      have hwritten := h.log.written
      obtain ⟨events, hwal, hend, hreplay, horder⟩ := h.log.committed
      rw [hidle] at hlength hwritten
      refine ⟨hlength, h.log.data_max, hwritten, ?_, ?_, events, ?_, hend, hreplay, horder⟩
      · rintro batch events (hphase | hphase) <;> cases hphase
      · intro event hevent
        have hevent : store.truncating = some event := hevent
        rw [hfree] at hevent
        cases hevent
      · rw [ProofStore.inflight, hidle] at hwal
        exact hwal
  · cases hstep

theorem Inv.not_truncating (h : Inv config base store blocks) (hbusy : store.writer ≠ .idle) : store.truncating = none := by
  rcases htrunc : store.truncating with _ | event
  · rfl
  · exact absurd (h.log.truncating event htrunc).1 hbusy

theorem Inv.writeData (h : Inv config base store blocks) (hstep : store.writeData = some store') :
    Inv config base store' blocks := by
  unfold ProofStore.writeData at hstep
  split at hstep
  · rename_i batch hphase
    have hfree := h.not_truncating (by rw [hphase]; intro hidle; cases hidle)
    split at hstep
    · cases hstep
    · rename_i data events hwrite
      cases hstep
      have hlength : store.files.data.length = store.dataEnd := by
        rw [h.log.data_length, hphase]
        rfl
      obtain ⟨rfl, rfl, hmax⟩ := writeRecords_end hwrite hlength.symm h.log.data_max
      obtain ⟨events, hwal, hend, hreplay, horder⟩ := h.log.committed
      have hpending := h.pipeline.pending
      have hbusy := h.pipeline.busy
      have hready := h.pipeline.ready
      have hitems := h.pipeline.items
      have hkept := h.pipeline.kept
      rw [hphase] at hpending hbusy
      simp only [ProofStore.taken, hphase] at hready hitems hkept
      refine ⟨h.fits, h.chain, h.durable.frame (batch.flatMap (·.record)) rfl rfl rfl rfl rfl rfl rfl rfl rfl, h.enqueued,
        ⟨hpending, fun _ => hbusy (by intro hidle; cases hidle), hready, hitems, h.pipeline.unready, h.pipeline.nodup, hkept⟩,
        ?_⟩
      refine ⟨?_, hmax, ?_, ?_, ?_, events, ?_, hend, hreplay.more _, horder⟩
      · rw [List.length_append, length_records, hlength]
        rfl
      · exact ⟨store.files.data, [], by rw [List.append_nil]; rfl, hlength⟩
      · rintro batch' events' (hnow | hnow) <;> cases hnow
        rfl
      · intro event hevent
        have hevent : store.truncating = some event := hevent
        rw [hfree] at hevent
        cases hevent
      · rw [ProofStore.inflight, hphase] at hwal
        exact hwal
  · cases hstep

theorem Inv.writeWal (h : Inv config base store blocks) (hstep : store.writeWal = some store') :
    Inv config base store' blocks := by
  unfold ProofStore.writeWal at hstep
  split at hstep
  · rename_i batch events hphase
    have hfree := h.not_truncating (by rw [hphase]; intro hidle; cases hidle)
    split at hstep
    · cases hstep
    · rename_i wal hwrite
      cases hstep
      have hlength := h.log.data_length
      have hwritten := h.log.written
      obtain ⟨old, hwal, hend, hreplay, horder⟩ := h.log.committed
      have hold : store.files.wal = (baseEvent base :: old).flatMap serializeWal := by
        rw [hwal, ProofStore.inflight, hphase, hfree]
        exact List.append_nil _
      obtain ⟨rfl, -⟩ := pwriteAll_end hwrite (by rw [hold, hend])
      have hpending := h.pipeline.pending
      have hbusy := h.pipeline.busy
      have hready := h.pipeline.ready
      have hitems := h.pipeline.items
      have hkept := h.pipeline.kept
      rw [hphase] at hpending hbusy hlength hwritten
      simp only [ProofStore.taken, hphase] at hready hitems hkept
      refine ⟨h.fits, h.chain, h.durable.frame [] (List.append_nil _).symm rfl rfl rfl rfl rfl rfl rfl rfl, h.enqueued,
        ⟨hpending, fun _ => hbusy (by intro hidle; cases hidle), hready, hitems, h.pipeline.unready, h.pipeline.nodup, hkept⟩,
        ?_⟩
      refine ⟨hlength, h.log.data_max, hwritten, ?_, ?_, old, ?_, hend, hreplay, horder⟩
      · rintro batch' events' (hnow | hnow) <;> cases hnow
        exact h.log.events _ _ (Or.inl hphase)
      · intro event hevent
        have hevent : store.truncating = some event := hevent
        rw [hfree] at hevent
        cases hevent
      · show store.files.wal ++ events.flatMap serializeWal = _ ++ events.flatMap serializeWal
        rw [hold]
  · cases hstep

theorem publish_frame (store : ProofStore H) (batch : List (PreparedProof H)) (events : List (WalEvent H)) :
    ∃ index hashToHeight statePresent durablePoint queuedBlocks queuedBytes flushHeight, store.publish batch events =
      { store with
        index := index, hashToHeight := hashToHeight, statePresent := statePresent, durablePoint := durablePoint,
        queuedBlocks := queuedBlocks, queuedBytes := queuedBytes, flushHeight := flushHeight, writer := .idle
        dataEnd := store.dataEnd + (batch.map (·.record.length)).sum
        walEnd := store.walEnd + (events.flatMap serializeWal).length } := by
  obtain ⟨index, hashToHeight, statePresent, durablePoint, queuedBlocks, queuedBytes, hframe⟩ := publishEvents_frame
    { store with
      dataEnd := store.dataEnd + (batch.map (·.record.length)).sum
      walEnd := store.walEnd + (events.flatMap serializeWal).length } (events.zip batch)
  refine ⟨index, hashToHeight, statePresent, durablePoint, queuedBlocks, queuedBytes,
    store.flushHeight.filter (durablePoint.height < ·), ?_⟩
  rw [ProofStore.publish, hframe]

theorem Inv.publish (h : Inv config base store blocks) (hvalid : config.Valid) {batch : List (PreparedProof H)}
    {events : List (WalEvent H)} (hphase : store.writer = .walWritten batch events) :
    Durable config base (store.publish batch events) blocks ∧
      (store.publish batch events).index.length = store.index.length + batch.length ∧
      Replays config.maxRecordBytes store.files.data store.view (events.flatMap serializeWal)
        (store.publish batch events).view ∧
      Ordered base.point.height store.durablePoint events (store.publish batch events).durablePoint := by
  have hmax : config.maxRecordBytes < 2 ^ 32 := hvalid.2.2.2.2.2.2.2.2
  have hpending := h.pipeline.pending
  have hwritten := h.log.written
  have hevents := h.log.events _ _ (Or.inr hphase)
  rw [hphase] at hpending hwritten
  have hends : Durable config base
      { store with
        dataEnd := store.dataEnd + (batch.map (·.record.length)).sum
        walEnd := store.walEnd + (events.flatMap serializeWal).length } blocks :=
    h.durable.frame [] (List.append_nil _).symm rfl rfl rfl rfl rfl rfl rfl rfl
  obtain ⟨hdurable, hcount, hreplay, horder⟩ :=
    Durable.publishEvents h.chain hmax batch _ store.dataEnd hends hpending hwritten h.log.data_max
  rw [← hevents] at hdurable hcount hreplay horder
  obtain ⟨_, _, _, _, _, _, hframe⟩ := publishEvents_frame
    { store with
      dataEnd := store.dataEnd + (batch.map (·.record.length)).sum
      walEnd := store.walEnd + (events.flatMap serializeWal).length } (events.zip batch)
  refine ⟨?_, hcount, ?_, horder⟩
  · exact hdurable.frame [] (List.append_nil _).symm rfl rfl rfl rfl rfl rfl rfl rfl
  · have hview : (store.publish batch events).view = { (ProofStore.publishEvents
        { store with
          dataEnd := store.dataEnd + (batch.map (·.record.length)).sum
          walEnd := store.walEnd + (events.flatMap serializeWal).length } (events.zip batch)).view with
        dataEnd := store.dataEnd + (batch.map (·.record.length)).sum } := by
      rw [ProofStore.publish, hframe]
      rfl
    rw [hview]
    exact hreplay

theorem Inv.finishCommit (h : Inv config base store blocks) (hvalid : config.Valid)
    (hstep : store.finishCommit = some store') : Inv config base store' blocks := by
  unfold ProofStore.finishCommit at hstep
  split at hstep
  · rename_i batch events hphase
    cases hstep
    have hfree := h.not_truncating (by rw [hphase]; intro hidle; cases hidle)
    obtain ⟨hdurable, hcount, hreplay, horder⟩ := h.publish hvalid hphase
    have hlength := h.log.data_length
    obtain ⟨old, hwal, hend, hold, hbefore⟩ := h.log.committed
    have hready := h.pipeline.ready
    have hitems := h.pipeline.items
    have hkept := h.pipeline.kept
    simp only [ProofStore.taken, hphase, WriterPhase.batch] at hready hitems hkept
    rw [hphase] at hlength
    rw [ProofStore.inflight, hphase] at hwal
    obtain ⟨_, _, _, _, _, _, _, hframe⟩ := publish_frame store batch events
    rw [hframe] at hdurable hcount hreplay horder ⊢
    have htaken : ∀ s : ProofStore H, s.index.length = store.index.length + batch.length → s.writer = .idle →
        s.taken = store.index.length + batch.length := by
      intro s hindex hidle
      rw [ProofStore.taken, hindex, hidle]
      rfl
    refine ⟨h.fits, h.chain, hdurable, h.enqueued,
      ⟨⟨?_⟩, fun hno => absurd rfl hno, ?_, ?_, h.pipeline.unready, h.pipeline.nodup, ?_⟩, ?_⟩
    · intro j prepared hj
      cases hj
    · rw [htaken _ hcount rfl]
      exact hready
    · rw [htaken _ hcount rfl]
      exact hitems
    · rw [htaken _ hcount rfl]
      exact hkept
    · refine ⟨?_, h.log.data_max, ?_, ?_, ?_, old ++ events, ?_, ?_, ?_, hbefore.append horder⟩
      · show store.files.data.length = store.dataEnd + (batch.map (·.record.length)).sum + 0
        rw [Nat.add_zero]
        exact hlength
      · refine ⟨store.files.data, [], ?_, hlength⟩
        show store.files.data = store.files.data ++ ([] ++ [])
        rw [List.append_nil, List.append_nil]
      · rintro batch' events' (hnow | hnow) <;> cases hnow
      · intro event hevent
        have hevent : store.truncating = some event := hevent
        rw [hfree] at hevent
        cases hevent
      · show store.files.wal = _ ++ (store.truncating.toList).flatMap serializeWal
        rw [hfree, hwal, ← List.cons_append, List.flatMap_append]
        exact (List.append_nil _).symm
      · rw [← List.cons_append, List.flatMap_append, List.length_append, hend]
      · rw [← List.cons_append, List.flatMap_append]
        exact hold.append hreplay
  · cases hstep

/-! ## Truncating -/

theorem Inv.hashAt (h : Inv config base store blocks) {height : Nat} {hash : H} (hhash : store.hashAt height = some hash)
    (hlow : base.point.height ≤ height) (hhigh : height ≤ store.durablePoint.height) :
    tip base.point (blocks.take (height - base.point.height)) = ⟨height, hash⟩ := by
  have hdurable := h.durable.height h.chain
  unfold ProofStore.hashAt at hhash
  rw [h.durable.basePoint] at hhash
  split at hhash
  · rename_i heq
    cases hhash
    rw [heq, Nat.sub_self, List.take_zero]
    rfl
  · rename_i hne
    rw [if_neg (by omega)] at hhash
    simp only at hhash
    split at hhash
    · have hi : height - base.point.height - 1 < store.index.length := by omega
      obtain ⟨block, hblock, -, hstored⟩ := h.durable.entry hi
      have hstate := (h.chain.states block (List.mem_of_getElem? hblock)).2
      have hheight := h.chain.height _ _ hblock
      have htake : height - base.point.height = height - base.point.height - 1 + 1 := by omega
      rw [htake, tip_take_succ hblock]
      cases hhash
      rw [hstored.blockHash, hstate]
      rcases hpoint : block.point with ⟨blockHeight, blockHash⟩
      rw [hpoint] at hheight
      have hheight : blockHeight = base.point.height + 1 + (height - base.point.height - 1) := hheight
      simp only [ChainPoint.mk.injEq, and_true]
      omega
    · cases hhash

theorem Inv.truncateEvent (h : Inv config base store blocks) {point : ChainPoint H} {event : WalEvent H}
    (hevent : store.truncateEvent point = .ok (some event)) : Truncates base.point blocks store.durablePoint event := by
  unfold ProofStore.truncateEvent at hevent
  rw [h.durable.basePoint] at hevent
  split at hevent
  · cases hevent
  · rename_i hrange
    split at hevent
    · cases hevent
    · rename_i hhash
      split at hevent
      · cases hevent
      · rename_i hne
        cases hevent
        have htip := h.hashAt (not_not.mp hhash) (by omega) (by omega)
        refine ⟨rfl, rfl, by show base.point.height ≤ point.height; omega, ?_, htip.symm, rfl, rfl, rfl, rfl⟩
        show point.height < store.durablePoint.height
        refine lt_of_le_of_ne (by omega) fun heq => hne ?_
        have hdurable := h.durable.durablePoint
        have hcount : point.height - base.point.height = store.index.length := by
          have := h.durable.height h.chain
          omega
        rw [hcount, ← hdurable] at htip
        exact htip.symm

omit [DecidableEq H] in
theorem Truncates.fits {durable : ChainPoint H} {event : WalEvent H} (h : Truncates base.point blocks durable event)
    (hdurable : durable.height < 2 ^ 32) : event.Fits := by
  have hlt := h.lt_durable
  refine ⟨?_, by omega, ?_, ?_⟩
  · rw [h.version]
    exact ⟨by decide, le_refl _⟩
  · rw [h.dataOffset]
    decide
  · rw [h.dataSize]
    decide

theorem Inv.drained (h : Inv config base store blocks) (hdrained : ¬store.enqueuedPoint.height > store.durablePoint.height) :
    store.index.length = blocks.length ∧ store.writer = .idle := by
  have henqueued := h.enqueued_height
  have hdurable := h.durable.height h.chain
  have htaken := h.taken_le
  have hlength := h.durable.length_le
  refine ⟨by omega, ?_⟩
  by_contra hbusy
  have hbatch := List.length_pos_iff.mpr (h.pipeline.busy hbusy)
  rw [ProofStore.taken] at htaken
  omega

theorem Inv.beginTruncate (h : Inv config base store blocks) {point : ChainPoint H}
    (hstep : store.beginTruncate point = some store') : Inv config base store' blocks := by
  unfold ProofStore.beginTruncate at hstep
  split at hstep
  · cases hstep
  · rename_i hready
    simp only [not_or] at hready
    obtain ⟨hfree, -, hdrained⟩ := hready
    have hfree : store.truncating = none := by simpa using hfree
    obtain ⟨hcount, hidle⟩ := h.drained hdrained
    split at hstep
    · rename_i event hevent
      split at hstep
      · cases hstep
      · rename_i wal hwrite
        cases hstep
        obtain ⟨old, hwal, hend, hreplay, horder⟩ := h.log.committed
        have hold : store.files.wal = (baseEvent base :: old).flatMap serializeWal := by
          rw [hwal, ProofStore.inflight, hidle, hfree]
          exact List.append_nil _
        obtain ⟨rfl, -⟩ := pwriteAll_end hwrite (by rw [hold, hend])
        refine ⟨h.fits, h.chain, h.durable.frame [] (List.append_nil _).symm rfl rfl rfl rfl rfl rfl rfl rfl, h.enqueued,
          ⟨h.pipeline.pending, h.pipeline.busy, h.pipeline.ready, h.pipeline.items, h.pipeline.unready, h.pipeline.nodup,
            h.pipeline.kept⟩, ?_⟩
        refine ⟨h.log.data_length, h.log.data_max, h.log.written, h.log.events, ?_, old, ?_, hend, hreplay, horder⟩
        · intro found hfound
          cases hfound
          exact ⟨hidle, hcount, h.truncateEvent hevent⟩
        · rw [ProofStore.inflight, hidle]
          show store.files.wal ++ serializeWal event = _ ++ [event].flatMap serializeWal
          rw [hold, List.flatMap_singleton]
    · cases hstep

theorem Inv.finishTruncate (h : Inv config base store blocks) {event : WalEvent H} (htrunc : store.truncating = some event) :
    Inv config base (store.publishTruncate event) (blocks.take (event.point.height - base.point.height)) := by
  obtain ⟨hidle, hcount, hevent⟩ := h.log.truncating event htrunc
  obtain ⟨hdurable, hindex⟩ := h.durable.publishTruncate h.chain hevent
  have htaken : store.taken = blocks.length := by
    rw [ProofStore.taken, hidle, ← hcount]
    rfl
  -- the archive is drained
  have hnone : ∀ {i : Nat} {block : ArchiveBlock H}, store.taken ≤ i → blocks[i]? ≠ some block := by
    intro i block hi hblock
    have := (List.getElem?_eq_some_iff.mp hblock).1
    omega
  have hitems : ∀ item, item ∉ store.items := by
    intro item hitem
    obtain ⟨i, hi, hblock⟩ := h.pipeline.items item hitem
    exact hnone hi hblock
  have hready : ∀ k, store.ready k = none := by
    intro k
    rcases hk : store.ready k with _ | prepared
    · rfl
    · obtain ⟨i, block, hi, hblock, -⟩ := h.pipeline.ready k prepared hk
      exact absurd hblock (hnone hi)
  have hheight := h.durable.height h.chain
  have hkeep : event.point.height - base.point.height < store.index.length := by
    have := hevent.lt_durable
    have := hevent.base_le
    omega
  have hfits : event.Fits := hevent.fits (by rw [hheight]; exact h.height_lt h.durable.length_le)
  have hlength := h.log.data_length
  have hwritten := h.log.written
  obtain ⟨old, hwal, hend, hreplay, horder⟩ := h.log.committed
  rw [ProofStore.inflight, hidle, htrunc] at hwal
  have hwal : store.files.wal = (baseEvent base :: old).flatMap serializeWal ++ serializeWal event := by
    rw [hwal]
    simp only [Option.toList_some, List.flatMap_cons, List.flatMap_nil, List.append_nil]
  have hall : (baseEvent base :: (old ++ [event])).flatMap serializeWal =
      (baseEvent base :: old).flatMap serializeWal ++ serializeWal event := by
    rw [← List.cons_append, List.flatMap_append, List.flatMap_singleton]
  refine ⟨h.fits, h.chain.take _, hdurable, hevent.point, ?_, ?_⟩
  · refine ⟨⟨?_⟩, fun hbusy => absurd hidle hbusy, ?_, fun item hitem => absurd hitem (hitems item),
      fun item hitem => absurd hitem (hitems item), h.pipeline.nodup, ?_⟩
    · intro j prepared hj
      have hj : store.writer.batch[j]? = some prepared := hj
      rw [hidle] at hj
      cases hj
    · intro k prepared hk
      have hk : store.ready k = some prepared := hk
      rw [hready] at hk
      cases hk
    · intro hok i block hi hblock
      have hi : (store.publishTruncate event).index.length + store.writer.batch.length ≤ i := hi
      have hlt := (List.getElem?_eq_some_iff.mp hblock).1
      rw [hindex, List.length_take] at hi
      rw [List.length_take] at hlt
      omega
  · refine ⟨hlength, h.log.data_max, hwritten, h.log.events, ?_, old ++ [event], ?_, ?_, ?_, ?_⟩
    · intro found hfound
      cases hfound
    · rw [ProofStore.inflight]
      show store.files.wal = _ ++ List.flatMap serializeWal (match store.writer with
        | .walWritten _ events => events
        | _ => [])
      rw [hidle, hall]
      exact hwal.trans (List.append_nil _).symm
    · rw [hall, List.length_append, hend]
      rfl
    · rw [hall]
      exact hreplay.append (Replays.event hfits (h.durable.applyTruncate h.chain hevent store.files.data))
    · exact horder.append (.truncate hevent.kind hevent.base_le hevent.lt_durable hevent.previous (.nil _))

end Steps

/-! ## Runs -/

/-- What the callers, the serializers and the writer do. -/
inductive Action (H : Type)
  | enqueue (block : ArchiveBlock H)
  | requestFlush (height : Nat)
  | takeInput
  | finishSerializing (i : Nat)
  | collect (timedOut : Bool)
  | writeData
  | writeWal
  | finishCommit
  | beginTruncate (point : ChainPoint H)
  | finishTruncate

def step (config : ProofStoreConfig) (store : ProofStore H) : Action H → Option (ProofStore H)
  | .enqueue block =>
    match store.enqueue config block with
    | .ok store => store
    | .error _ => none
  | .requestFlush height => store.requestFlush height
  | .takeInput => store.takeInput config
  | .finishSerializing i => store.finishSerializing config i
  | .collect timedOut => store.collect config timedOut
  | .writeData => store.writeData
  | .writeWal => store.writeWal
  | .finishCommit => store.finishCommit
  | .beginTruncate point => store.beginTruncate point
  | .finishTruncate => store.finishTruncate

/-- The abstract archive: the blocks that were enqueued and not truncated. -/
def archived (store : ProofStore H) (blocks : List (ArchiveBlock H)) : Action H → List (ArchiveBlock H)
  | .enqueue block => blocks ++ [block]
  | .finishTruncate =>
    match store.truncating with
    | some event => blocks.take (event.point.height - store.basePoint.height)
    | none => blocks
  | _ => blocks

/-- Enqueued blocks are well formed, and their hashes are new. -/
def Admits (blocks : List (ArchiveBlock H)) : Action H → Prop
  | .enqueue block => block.Fits ∧ block.point.blockHash ∉ blocks.map (·.point.blockHash)
  | _ => True

/-- The runs of an archive that was created on a base. -/
inductive Runs (config : ProofStoreConfig) (base : AccumulatorState H) : ProofStore H → List (ArchiveBlock H) → Prop
  | create {store : ProofStore H} (h : create config base = .ok store) : Runs config base store []
  | step {store store' : ProofStore H} {blocks : List (ArchiveBlock H)} (h : Runs config base store blocks)
      (action : Action H) (hadmits : Admits blocks action) (hstep : step config store action = some store') :
      Runs config base store' (archived store blocks action)

variable {config : ProofStoreConfig} {base : AccumulatorState H} {store store' : ProofStore H}
  {blocks : List (ArchiveBlock H)} {maxRecordBytes : Nat}

theorem Inv.step (h : Inv config base store blocks) (hvalid : config.Valid) {action : Action H}
    (hadmits : Admits blocks action) (hstep : step config store action = some store') :
    Inv config base store' (archived store blocks action) := by
  cases action with
  | enqueue block =>
    obtain ⟨hfits, hnew⟩ := hadmits
    simp only [Archive.step] at hstep
    split at hstep
    · rename_i result hresult
      rw [hstep] at hresult
      exact h.enqueue hresult hfits hnew
    · cases hstep
  | requestFlush height => exact h.requestFlush hstep
  | takeInput => exact h.takeInput hstep
  | finishSerializing i => exact h.finishSerializing hstep
  | collect timedOut => exact h.collect hvalid hstep
  | writeData => exact h.writeData hstep
  | writeWal => exact h.writeWal hstep
  | finishCommit => exact h.finishCommit hvalid hstep
  | beginTruncate point => exact h.beginTruncate hstep
  | finishTruncate =>
    simp only [Archive.step, ProofStore.finishTruncate] at hstep
    obtain ⟨event, htrunc, rfl⟩ := Option.map_eq_some_iff.mp hstep
    unfold archived
    simp only [htrunc, h.durable.basePoint]
    exact h.finishTruncate htrunc

theorem applyEvent_base (hfits : StateFits base) :
    applyEvent maxRecordBytes (baseRecord base).1 true .empty (baseEvent base) =
      .ok (.ok ⟨true, base.point, base.point, some base, (baseRecord base).1.length, (baseRecord base).2, [], [],
        (baseRecord base).1.length⟩) := by
  have hlength : (baseRecord base).1.length = _ := length_dataRecord base.point ForestHash.null base []
  have hdesc : Describes (baseEvent base) ForestHash.null base [] := ⟨rfl, rfl, rfl, rfl, rfl⟩
  have hlocated : Located (baseRecord base).1 (baseEvent base).dataOffset (dataRecord base.point ForestHash.null base []).1 :=
    ⟨[], [], (List.append_nil _).symm, rfl⟩
  have hvalidate := validateDataEnvelope_base hfits hdesc hlocated
  unfold applyEvent
  rw [if_pos (by rfl)]
  unfold applyBase
  simp only [hvalidate]
  rw [if_neg (by
    simp only [baseEvent, ne_eq, not_true_eq_false, false_or, not_or, not_and, not_lt]
    refine ⟨fun hlegacy => by simp [storeFormat, legacyStoreFormat] at hlegacy, fun _ => ⟨by omega, le_refl _⟩⟩)]
  rw [if_neg (by simp [baseEvent, storeFormat, legacyStoreFormat])]
  rfl

theorem Inv.create (hfits : base.numLeaves < 2 ^ 64 ∧ base.point.height < 2 ^ 32) (h : create config base = .ok store) :
    config.Valid ∧ Inv config base store [] := by
  unfold Archive.create at h
  split at h
  · cases h
  · rename_i hvalid
    simp only [bind, Except.bind, pure, Except.pure, validateAccumulatorState] at h
    split at h
    · cases h
    · rename_i hroots
      have hstate : StateFits base := by
        refine ⟨hfits.1, hfits.2, ?_⟩
        split at hroots
        · cases hroots
        · rename_i heq
          exact not_not.mp heq
      cases h
      have hsize : (baseRecord base).1.length ≤ maxOffset := by
        have hlength : (baseRecord base).1.length = _ := length_dataRecord base.point ForestHash.null base []
        have hle := hstate.roots_le
        have hmax : maxOffset = 2 ^ 63 - 1 := rfl
        have hheader : dataHeaderSize = 88 := rfl
        have hfooter : dataFooterSize = 40 := rfl
        have hdigest : stateDigestSize = 32 := rfl
        have hfixed : statePrefixSize = 16 := rfl
        have hnil : ([] : List UInt8).length = 0 := rfl
        omega
      have hbaseFits : (baseEvent base).Fits := by
        have hmax : maxOffset < 2 ^ 64 := by decide
        exact ⟨⟨(by decide : legacyStoreFormat ≤ storeFormat), le_refl _⟩, hfits.2, (by decide : 0 < 2 ^ 64),
          lt_of_le_of_lt hsize hmax⟩
      refine ⟨not_not.mp hvalid, hstate, ?_, ?_, rfl, ?_, ?_⟩
      · exact Chain.nil base.point
      · refine ⟨rfl, rfl, rfl, rfl, ⟨[], [], (List.append_nil _).symm, rfl⟩, le_refl _, rfl, ?_, rfl, ?_⟩
        · intro i entry hentry
          cases hentry
        · intro hash i
          constructor
          · intro hfound
            cases hfound
          · rintro ⟨hlt, -⟩
            cases hlt
      · refine ⟨⟨?_⟩, fun hbusy => absurd rfl hbusy, ?_, ?_, ?_, List.nodup_nil, ?_⟩
        · intro j prepared hj
          cases hj
        · intro k prepared hk
          cases hk
        · intro item hitem
          cases hitem
        · intro item hitem
          cases hitem
        · intro _ i block _ hblock
          cases hblock
      · refine ⟨rfl, hsize, ⟨_, [], (List.append_nil _).symm, rfl⟩, ?_, ?_, [], ?_, ?_, ?_, .nil _⟩
        · rintro batch events (hnow | hnow) <;> cases hnow
        · intro event hevent
          cases hevent
        · show serializeWal (baseEvent base) = _ ++ []
          rw [List.append_nil, List.flatMap_singleton]
        · rw [List.flatMap_singleton]
        · rw [List.flatMap_singleton]
          exact Replays.event hbaseFits (applyEvent_base hstate)

theorem Runs.inv (hfits : base.numLeaves < 2 ^ 64 ∧ base.point.height < 2 ^ 32) (h : Runs config base store blocks) :
    config.Valid ∧ Inv config base store blocks := by
  induction h with
  | create hcreate => exact Inv.create hfits hcreate
  | step _ action hadmits hstep ih => exact ⟨ih.1, ih.2.step ih.1 hadmits hstep⟩

end UtreexoBridge.Archive
