import UtreexoBridge.Archive.Serve

/-!
# The recovery window (`main.cpp`)

The main loop applies a block to the online forest, queues its proof in the
archive and lets the archive fall behind by a bounded number of blocks. A sealed
delta is never ahead of the archive.
-/

namespace UtreexoBridge

open Archive

structure OnlineConfig where
  maxDirtyBytes : Nat
  undoDepth : Nat
  syncWal : Bool

/-- The part of an online forest that decides when it is written and what a restart finds of it. -/
structure OnlineForest (H : Type) where
  point : ChainPoint H
  chainHashes : List H
  dirtyNodes : Nat
  redoWalBytes : Nat
  baseLsn : Nat
  currentLsn : Nat
  /-- The chain of the last sealed delta. -/
  sealedHashes : List H

def maxRedoWalBytes : Nat := 1024 * 1024 * 1024

namespace OnlineForest

variable {H : Type} (config : OnlineConfig) (forest : OnlineForest H)

def dirtyBytes : Nat := forest.dirtyNodes * 80

def unpublished : Bool := forest.dirtyNodes ≠ 0 ∨ forest.baseLsn ≠ forest.currentLsn

def limitReached : Bool :=
  forest.dirtyBytes ≥ config.maxDirtyBytes ∨ (config.syncWal ∧ forest.redoWalBytes ≥ maxRedoWalBytes)

def flushOnline : OnlineForest H :=
  if !forest.unpublished then forest
  else
    { forest with
      dirtyNodes := 0, redoWalBytes := 0, baseLsn := forest.currentLsn, sealedHashes := forest.chainHashes }

/-- `ModifyBlock` of a block that leaves so many dirty nodes, with a WAL record of so many bytes. -/
def modifyBlock (point : ChainPoint H) (dirtyNodes walBytes : Nat) : Except String (OnlineForest H) :=
  if point.height ≠ add32 forest.point.height 1 then .error "online block height does not extend the durable tip"
  else
    let forest := if forest.limitReached config then forest.flushOnline else forest
    if point.height ≠ forest.chainHashes.length then .error "WAL transaction does not extend the online chain"
    else
      .ok { forest with
        point := point
        chainHashes := forest.chainHashes ++ [point.blockHash]
        dirtyNodes := dirtyNodes
        redoWalBytes := if config.syncWal then forest.redoWalBytes + walBytes else forest.redoWalBytes
        currentLsn := forest.currentLsn + 1 }

/-- The chain that a restart finds: up to the last WAL record, or up to the last sealed delta. -/
def recoveredHashes : List H := if config.syncWal then forest.chainHashes else forest.sealedHashes

end OnlineForest

namespace Window

variable {H : Type} [ArchiveHash H] [DecidableEq H]

inductive MainPhase (H : Type)
  | top
  /-- In `seal_online_delta`, waiting for the archive. -/
  | sealing (force : Bool)
  | process
  /-- The forest has the block, the archive does not. -/
  | modified (point : ChainPoint H) (previousHash : H)
  | queued (height : Nat)
  | waiting (height : Nat)

structure Bridge (H : Type) where
  forest : OnlineForest H
  store : ProofStore H
  phase : MainPhase H

inductive BridgeAction (H : Type)
  /-- A step of the archive's threads. -/
  | archive (action : Action H)
  | startSeal (force : Bool)
  | finishSeal
  | skipSeal
  | modifyBlock (point : ChainPoint H) (dirtyNodes walBytes : Nat)
  /-- `Enqueue`, while syncing or while following the tip. -/
  | enqueue (block : ArchiveBlock H) (following : Bool)
  | enforceWindow
  | finishWait

/-- The steps that are not the main loop's. -/
def background : Action H → Bool
  | .enqueue _ | .beginTruncate _ | .finishTruncate => false
  | _ => true

/-- `EnforceRecoveryWindow` up to its wait: whether it has to wait. -/
def mustWait (store : ProofStore H) (stateHeight maxLag : Nat) : Except String Bool :=
  if maxLag = 0 then .error "proof recovery window must be nonzero"
  else
    match store.failure with
    | some message => .error message
    | none =>
      if stateHeight ≤ store.durablePoint.height then .ok false
      else if stateHeight > store.enqueuedPoint.height then
        .error "durable forest state is ahead of the enqueued proof archive"
      else .ok (¬(stateHeight - store.durablePoint.height < maxLag))

def bridgeStep (archive : ProofStoreConfig) (config : OnlineConfig) (bridge : Bridge H) :
    BridgeAction H → Option (Bridge H)
  | .archive action =>
    if background action then (step archive bridge.store action).map fun store => { bridge with store := store } else none
  | .startSeal force =>
    match bridge.phase with
    | .top =>
      if bridge.forest.unpublished ∧ (force ∨ bridge.forest.limitReached config) then
        some { bridge with phase := .sealing force }
      else none
    | _ => none
  | .finishSeal =>
    match bridge.phase with
    | .sealing force =>
      if bridge.forest.point.height ≤ bridge.store.durablePoint.height then
        some { bridge with forest := bridge.forest.flushOnline, phase := if force then .top else .process }
      else none
    | _ => none
  | .skipSeal =>
    match bridge.phase with
    | .top =>
      if bridge.forest.unpublished ∧ bridge.forest.limitReached config then none
      else some { bridge with phase := .process }
    | _ => none
  | .modifyBlock point dirtyNodes walBytes =>
    match bridge.phase with
    | .process =>
      match bridge.forest.modifyBlock config point dirtyNodes walBytes with
      | .ok forest => some { bridge with forest := forest, phase := .modified point bridge.forest.point.blockHash }
      | .error _ => none
    | _ => none
  | .enqueue block following =>
    match bridge.phase with
    | .modified point previousHash =>
      if block.point = point ∧ block.previousBlockHash = previousHash then
        (step archive bridge.store (.enqueue block)).map fun store =>
          { bridge with store := store, phase := if following then .waiting point.height else .queued point.height }
      else none
    | _ => none
  | .enforceWindow =>
    match bridge.phase with
    | .queued height =>
      match mustWait bridge.store height config.undoDepth with
      | .ok wait => some { bridge with phase := if wait then .waiting height else .top }
      | .error _ => none
    | _ => none
  | .finishWait =>
    match bridge.phase with
    | .waiting height =>
      if height ≤ bridge.store.durablePoint.height then some { bridge with phase := .top } else none
    | _ => none

/-! ## Runs -/

def archivedBy (blocks : List (ArchiveBlock H)) : BridgeAction H → List (ArchiveBlock H)
  | .enqueue block _ => blocks ++ [block]
  | _ => blocks

def AdmitsBlock (blocks : List (ArchiveBlock H)) : BridgeAction H → Prop
  | .enqueue block _ => block.Fits ∧ block.point.blockHash ∉ blocks.map (·.point.blockHash)
  | _ => True

/-- The hashes are those of the archive's blocks, at their heights. -/
structure Follows (hashes : List H) (base : ChainPoint H) (blocks : List (ArchiveBlock H)) : Prop where
  atBase : hashes[base.height]? = some base.blockHash
  atBlock : ∀ (i : Nat) (block : ArchiveBlock H), blocks[i]? = some block →
    hashes[base.height + 1 + i]? = some block.point.blockHash

/-- The two stores end at the same block, everything queued is durable, and the last sealed delta is the forest's chain or,
with a WAL, a part of it. -/
structure Aligned (config : OnlineConfig) (bridge : Bridge H) (base : AccumulatorState H)
    (blocks : List (ArchiveBlock H)) : Prop where
  phase : bridge.phase = .top
  truncating : bridge.store.truncating = none
  durable : bridge.store.durablePoint = tip base.point blocks
  point : bridge.forest.point = tip base.point blocks
  length : bridge.forest.chainHashes.length = bridge.forest.point.height + 1
  follows : Follows bridge.forest.chainHashes base.point blocks
  sealed_part : bridge.forest.sealedHashes <+: bridge.forest.chainHashes
  sealed_all : config.syncWal = false → bridge.forest.sealedHashes = bridge.forest.chainHashes

inductive BridgeRuns (archive : ProofStoreConfig) (config : OnlineConfig) (base : AccumulatorState H) :
    Bridge H → List (ArchiveBlock H) → Prop
  | start {bridge : Bridge H} {blocks : List (ArchiveBlock H)} (hruns : Runs archive base bridge.store blocks)
      (haligned : Aligned config bridge base blocks) : BridgeRuns archive config base bridge blocks
  | step {bridge bridge' : Bridge H} {blocks : List (ArchiveBlock H)} (h : BridgeRuns archive config base bridge blocks)
      (action : BridgeAction H) (hadmits : AdmitsBlock blocks action)
      (hstep : bridgeStep archive config bridge action = some bridge') :
      BridgeRuns archive config base bridge' (archivedBy blocks action)

variable {archive : ProofStoreConfig} {config : OnlineConfig} {base : AccumulatorState H} {bridge bridge' : Bridge H}
  {store store' : ProofStore H} {blocks : List (ArchiveBlock H)}

omit [ArchiveHash H] [DecidableEq H] in
theorem Follows.concat_hash {hashes : List H} {base : ChainPoint H} (h : Follows hashes base blocks) (hash : H) :
    Follows (hashes ++ [hash]) base blocks where
  atBase := by
    rw [List.getElem?_append_left (List.getElem?_eq_some_iff.mp h.atBase).1, h.atBase]
  atBlock i block hblock := by
    have hfound := h.atBlock i block hblock
    rw [List.getElem?_append_left (List.getElem?_eq_some_iff.mp hfound).1, hfound]

omit [ArchiveHash H] [DecidableEq H] in
theorem Follows.concat_block {hashes : List H} {base : ChainPoint H} (h : Follows hashes base blocks)
    {block : ArchiveBlock H} (hblock : hashes[base.height + 1 + blocks.length]? = some block.point.blockHash) :
    Follows hashes base (blocks ++ [block]) where
  atBase := h.atBase
  atBlock i found hfound := by
    rcases getElem?_concat_some hfound with hold | ⟨rfl, rfl⟩
    · exact h.atBlock i found hold
    · exact hblock

theorem background_step (hinv : Inv archive base store blocks) (hvalid : archive.Valid) {action : Action H}
    (hback : background action = true) (hstep : step archive store action = some store') :
    Inv archive base store' blocks ∧ store'.truncating = store.truncating ∧ store'.enqueuedPoint = store.enqueuedPoint ∧
      store.durablePoint.height ≤ store'.durablePoint.height := by
  have hadmits : Admits blocks action := by
    cases action with
    | enqueue block => cases hback
    | _ => trivial
  have hnext := hinv.step hvalid hadmits hstep
  have hsame : archived store blocks action = blocks := by
    cases action with
    | enqueue block => cases hback
    | finishTruncate => cases hback
    | _ => rfl
  rw [hsame] at hnext
  have hheight := hinv.durable.height hinv.chain
  have hheight' := hnext.durable.height hnext.chain
  suffices hframe : store'.truncating = store.truncating ∧ store'.enqueuedPoint = store.enqueuedPoint ∧
      store.index.length ≤ store'.index.length from ⟨hnext, hframe.1, hframe.2.1, by omega⟩
  cases action with
  | enqueue block => cases hback
  | beginTruncate point => cases hback
  | finishTruncate => cases hback
  | requestFlush height =>
    simp only [step, ProofStore.requestFlush] at hstep
    split at hstep
    · cases hstep
      exact ⟨rfl, rfl, le_refl _⟩
    · cases hstep
  | takeInput =>
    simp only [step, ProofStore.takeInput] at hstep
    split at hstep
    · cases hstep
    · split at hstep
      · cases hstep
      · cases hstep
        exact ⟨rfl, rfl, le_refl _⟩
  | finishSerializing i =>
    simp only [step, ProofStore.finishSerializing] at hstep
    split at hstep
    · cases hstep
    · split at hstep
      · cases hstep
        unfold ProofStore.setFailure
        split <;> exact ⟨rfl, rfl, le_refl _⟩
      · cases hstep
        unfold ProofStore.emplaceReady
        split
        · exact ⟨rfl, rfl, le_refl _⟩
        · split <;> exact ⟨rfl, rfl, le_refl _⟩
  | collect timedOut =>
    simp only [step, ProofStore.collect] at hstep
    split at hstep
    · split at hstep
      · cases hstep
      · cases hstep
        exact ⟨rfl, rfl, le_refl _⟩
    · cases hstep
  | writeData =>
    simp only [step, ProofStore.writeData] at hstep
    split at hstep
    · split at hstep
      · cases hstep
      · cases hstep
        exact ⟨rfl, rfl, le_refl _⟩
    · cases hstep
  | writeWal =>
    simp only [step, ProofStore.writeWal] at hstep
    split at hstep
    · split at hstep
      · cases hstep
      · cases hstep
        exact ⟨rfl, rfl, le_refl _⟩
    · cases hstep
  | finishCommit =>
    simp only [step, ProofStore.finishCommit] at hstep
    split at hstep
    · rename_i batch events hphase
      cases hstep
      obtain ⟨-, hcount, -, -⟩ := hinv.publish hvalid hphase
      obtain ⟨_, _, _, _, _, _, _, hframe⟩ := publish_frame store batch events
      refine ⟨?_, ?_, by rw [hcount]; omega⟩
      · rw [hframe]
      · rw [hframe]
    · cases hstep

/-! ## The invariant -/

/-- How far the forest is ahead of the archive at each place of the loop. -/
def PhaseInv (config : OnlineConfig) (bridge : Bridge H) : Prop :=
  match bridge.phase with
  | .top | .sealing _ =>
    bridge.forest.point.height = bridge.store.enqueuedPoint.height ∧
      bridge.forest.point.height < bridge.store.durablePoint.height + config.undoDepth
  | .process =>
    bridge.forest.point.height = bridge.store.enqueuedPoint.height ∧
      bridge.forest.point.height < bridge.store.durablePoint.height + config.undoDepth ∧
      (bridge.forest.limitReached config = true → bridge.forest.unpublished = false)
  | .modified point _ =>
    bridge.forest.point = point ∧ point.height = bridge.store.enqueuedPoint.height + 1 ∧
      point.height ≤ bridge.store.durablePoint.height + config.undoDepth ∧
      bridge.forest.chainHashes[point.height]? = some point.blockHash
  | .queued height | .waiting height =>
    bridge.forest.point.height = height ∧ height = bridge.store.enqueuedPoint.height ∧
      height ≤ bridge.store.durablePoint.height + config.undoDepth

structure WindowInv (archive : ProofStoreConfig) (config : OnlineConfig) (base : AccumulatorState H) (bridge : Bridge H)
    (blocks : List (ArchiveBlock H)) : Prop where
  inv : Inv archive base bridge.store blocks
  free : bridge.store.truncating = none
  length : bridge.forest.chainHashes.length = bridge.forest.point.height + 1
  follows : Follows bridge.forest.chainHashes base.point blocks
  sealed_part : bridge.forest.sealedHashes <+: bridge.forest.chainHashes
  sealed_le : bridge.forest.sealedHashes.length ≤ bridge.store.durablePoint.height + 1
  phase : PhaseInv config bridge

omit [ArchiveHash H] [DecidableEq H] in
theorem PhaseInv.background (h : PhaseInv config bridge) (henqueued : store'.enqueuedPoint = bridge.store.enqueuedPoint)
    (hdurable : bridge.store.durablePoint.height ≤ store'.durablePoint.height) :
    PhaseInv config { bridge with store := store' } := by
  unfold PhaseInv at h ⊢
  simp only [henqueued]
  split at h
  · exact ⟨h.1, by omega⟩
  · exact ⟨h.1, by omega⟩
  · exact ⟨h.1, by omega, h.2.2⟩
  · exact ⟨h.1, h.2.1, by omega, h.2.2.2⟩
  · exact ⟨h.1, h.2.1, by omega⟩
  · exact ⟨h.1, h.2.1, by omega⟩

omit [ArchiveHash H] [DecidableEq H] in
theorem flushOnline_clean (forest : OnlineForest H) (hmax : 0 < config.maxDirtyBytes)
    (h : forest.flushOnline.limitReached config = true) : forest.flushOnline.unpublished = false := by
  unfold OnlineForest.flushOnline at h ⊢
  split at h
  · rename_i hclean
    rw [if_pos hclean]
    simpa using hclean
  · have hredo : ¬(0 ≥ maxRedoWalBytes) := by decide
    simp only [OnlineForest.limitReached, OnlineForest.dirtyBytes, Nat.zero_mul, decide_eq_true_eq] at h
    rcases h with hdirty | ⟨-, hbytes⟩
    · omega
    · exact absurd hbytes hredo

theorem WindowInv.step (h : WindowInv archive config base bridge blocks) (hvalid : archive.Valid)
    (hmax : 0 < config.maxDirtyBytes) (hundo : 0 < config.undoDepth) {action : BridgeAction H}
    (hadmits : AdmitsBlock blocks action) (hstep : bridgeStep archive config bridge action = some bridge') :
    WindowInv archive config base bridge' (archivedBy blocks action) := by
  have hphase := h.phase
  have hlength := h.length
  cases action with
  | archive action =>
    simp only [bridgeStep] at hstep
    split at hstep
    · rename_i hback
      obtain ⟨store', hstore, rfl⟩ := Option.map_eq_some_iff.mp hstep
      obtain ⟨hinv, htrunc, henqueued, hdurable⟩ := background_step h.inv hvalid hback hstore
      exact ⟨hinv, htrunc.trans h.free, h.length, h.follows, h.sealed_part, le_trans h.sealed_le (by simpa using hdurable),
        hphase.background henqueued hdurable⟩
    · cases hstep
  | startSeal force =>
    simp only [bridgeStep] at hstep
    split at hstep
    · rename_i htop
      split at hstep
      · cases hstep
        rw [PhaseInv, htop] at hphase
        exact ⟨h.inv, h.free, h.length, h.follows, h.sealed_part, h.sealed_le, hphase⟩
      · cases hstep
    · cases hstep
  | finishSeal =>
    simp only [bridgeStep] at hstep
    split at hstep
    · rename_i force hsealing
      split at hstep
      · rename_i hdurable
        cases hstep
        rw [PhaseInv, hsealing] at hphase
        have hchain : bridge.forest.flushOnline.chainHashes = bridge.forest.chainHashes ∧
            bridge.forest.flushOnline.point = bridge.forest.point ∧
            (bridge.forest.flushOnline.sealedHashes = bridge.forest.sealedHashes ∨
              bridge.forest.flushOnline.sealedHashes = bridge.forest.chainHashes) := by
          unfold OnlineForest.flushOnline
          split
          · exact ⟨rfl, rfl, Or.inl rfl⟩
          · exact ⟨rfl, rfl, Or.inr rfl⟩
        obtain ⟨hhashes, hpoint, hsealed⟩ := hchain
        refine ⟨h.inv, h.free, ?_, ?_, ?_, ?_, ?_⟩
        · show bridge.forest.flushOnline.chainHashes.length = bridge.forest.flushOnline.point.height + 1
          rw [hhashes, hpoint]
          exact h.length
        · show Follows bridge.forest.flushOnline.chainHashes base.point blocks
          rw [hhashes]
          exact h.follows
        · show bridge.forest.flushOnline.sealedHashes <+: bridge.forest.flushOnline.chainHashes
          rw [hhashes]
          rcases hsealed with hsealed | hsealed
          · rw [hsealed]
            exact h.sealed_part
          · rw [hsealed]
        · show bridge.forest.flushOnline.sealedHashes.length ≤ bridge.store.durablePoint.height + 1
          rcases hsealed with hsealed | hsealed
          · rw [hsealed]
            exact h.sealed_le
          · rw [hsealed]
            omega
        · unfold PhaseInv
          cases force with
          | true =>
            simp only [if_true, hpoint]
            exact hphase
          | false =>
            simp only [Bool.false_eq_true, if_false, hpoint]
            exact ⟨hphase.1, hphase.2, flushOnline_clean bridge.forest hmax⟩
      · cases hstep
    · cases hstep
  | skipSeal =>
    simp only [bridgeStep] at hstep
    split at hstep
    · rename_i htop
      split at hstep
      · cases hstep
      · rename_i hskip
        cases hstep
        rw [PhaseInv, htop] at hphase
        refine ⟨h.inv, h.free, h.length, h.follows, h.sealed_part, h.sealed_le, ?_⟩
        refine ⟨hphase.1, hphase.2, fun hlimit => ?_⟩
        by_contra hdirty
        exact hskip ⟨by simpa using hdirty, hlimit⟩
    · cases hstep
  | modifyBlock point dirtyNodes walBytes =>
    simp only [bridgeStep] at hstep
    split at hstep
    · rename_i hprocess
      rw [PhaseInv, hprocess] at hphase
      obtain ⟨hheight, hwindow, hclean⟩ := hphase
      split at hstep
      · rename_i forest hmodify
        cases hstep
        -- the flush inside finds nothing to write
        have hflush : (if bridge.forest.limitReached config then bridge.forest.flushOnline else bridge.forest) =
            bridge.forest := by
          split
          · rename_i hlimit
            rw [OnlineForest.flushOnline, if_pos (by simp [hclean hlimit])]
          · rfl
        unfold OnlineForest.modifyBlock at hmodify
        simp only [hflush] at hmodify
        split at hmodify
        · cases hmodify
        · split at hmodify
          · cases hmodify
          · rename_i hnext
            cases hmodify
            have hpoint : point.height = bridge.forest.chainHashes.length := not_not.mp hnext
            refine ⟨h.inv, h.free, ?_, h.follows.concat_hash _, ?_, h.sealed_le, ?_⟩
            · show (bridge.forest.chainHashes ++ [point.blockHash]).length = point.height + 1
              rw [List.length_append, List.length_singleton, hpoint]
            · exact h.sealed_part.trans (List.prefix_append _ _)
            · have hlower : point.height = bridge.store.enqueuedPoint.height + 1 := by rw [hpoint, hlength, hheight]
              have hupper : point.height ≤ bridge.store.durablePoint.height + config.undoDepth := by omega
              refine ⟨rfl, hlower, hupper, ?_⟩
              show (bridge.forest.chainHashes ++ [point.blockHash])[point.height]? = some point.blockHash
              rw [hpoint, List.getElem?_append_right (le_refl _), Nat.sub_self]
              rfl
      · cases hstep
    · cases hstep
  | enqueue block following =>
    simp only [bridgeStep] at hstep
    split at hstep
    · rename_i point previousHash hmodified
      rw [PhaseInv, hmodified] at hphase
      obtain ⟨hpoint, hheight, hwindow, hhash⟩ := hphase
      split at hstep
      · rename_i hblock
        obtain ⟨rfl, -⟩ := hblock
        obtain ⟨store', hstore, rfl⟩ := Option.map_eq_some_iff.mp hstep
        have hadmitted : Admits blocks (.enqueue block) := hadmits
        have hinv := h.inv.step hvalid hadmitted hstore
        have henqueued := h.inv.enqueued_height
        have hsome : bridge.store.enqueue archive block = .ok (some store') := by
          simp only [step] at hstore
          split at hstore
          · rename_i result hresult
            rw [hresult, hstore]
          · cases hstore
        obtain ⟨-, -, -, -, -, rfl⟩ := enqueue_eq hsome
        refine ⟨hinv, h.free, h.length, ?_, h.sealed_part, h.sealed_le, ?_⟩
        · refine h.follows.concat_block ?_
          rw [← hhash]
          congr 1
          omega
        · unfold PhaseInv
          cases following with
          | true => exact ⟨by rw [hpoint], rfl, hwindow⟩
          | false => exact ⟨by rw [hpoint], rfl, hwindow⟩
      · cases hstep
    · cases hstep
  | enforceWindow =>
    simp only [bridgeStep] at hstep
    split at hstep
    · rename_i height hqueued
      rw [PhaseInv, hqueued] at hphase
      obtain ⟨hpoint, hheight, hwindow⟩ := hphase
      split at hstep
      · rename_i wait hwait
        cases hstep
        refine ⟨h.inv, h.free, h.length, h.follows, h.sealed_part, h.sealed_le, ?_⟩
        unfold PhaseInv
        cases wait with
        | true =>
          simp only [if_true]
          exact ⟨hpoint, hheight, hwindow⟩
        | false =>
          simp only [Bool.false_eq_true, if_false]
          refine ⟨by omega, ?_⟩
          unfold mustWait at hwait
          split at hwait
          · cases hwait
          · split at hwait
            · cases hwait
            · split at hwait
              · omega
              · split at hwait
                · cases hwait
                · have hopen := Except.ok.inj hwait
                  simp only [decide_eq_false_iff_not, not_not] at hopen
                  omega
      · cases hstep
    · cases hstep
  | finishWait =>
    simp only [bridgeStep] at hstep
    split at hstep
    · rename_i height hwaiting
      rw [PhaseInv, hwaiting] at hphase
      split at hstep
      · rename_i hdurable
        cases hstep
        refine ⟨h.inv, h.free, h.length, h.follows, h.sealed_part, h.sealed_le, ?_⟩
        have hlower : bridge.forest.point.height = bridge.store.enqueuedPoint.height := by omega
        have hupper : bridge.forest.point.height < bridge.store.durablePoint.height + config.undoDepth := by omega
        exact ⟨hlower, hupper⟩
      · cases hstep
    · cases hstep

theorem WindowInv.start (hfits : base.numLeaves < 2 ^ 64 ∧ base.point.height < 2 ^ 32) (hundo : 0 < config.undoDepth)
    (hruns : Runs archive base bridge.store blocks) (haligned : Aligned config bridge base blocks) :
    WindowInv archive config base bridge blocks := by
  obtain ⟨-, hinv⟩ := hruns.inv hfits
  have hpoint : bridge.forest.point = bridge.store.enqueuedPoint := by rw [haligned.point, hinv.enqueued]
  have hdurable : bridge.store.durablePoint = bridge.forest.point := by rw [haligned.point, haligned.durable]
  refine ⟨hinv, haligned.truncating, haligned.length, haligned.follows, haligned.sealed_part, ?_, ?_⟩
  · rw [hdurable, ← haligned.length]
    exact haligned.sealed_part.length_le
  · rw [PhaseInv, haligned.phase]
    exact ⟨by rw [hpoint], by rw [hdurable]; omega⟩

theorem BridgeRuns.inv (hfits : base.numLeaves < 2 ^ 64 ∧ base.point.height < 2 ^ 32) (hmax : 0 < config.maxDirtyBytes)
    (hundo : 0 < config.undoDepth) (h : BridgeRuns archive config base bridge blocks) :
    archive.Valid ∧ WindowInv archive config base bridge blocks := by
  induction h with
  | start hruns haligned => exact ⟨(hruns.inv hfits).1, WindowInv.start hfits hundo hruns haligned⟩
  | step _ action hadmits hstep ih => exact ⟨ih.1, ih.2.step ih.1 hmax hundo hadmits hstep⟩

/-! ## After a crash -/

omit [ArchiveHash H] [DecidableEq H] in
theorem PhaseInv.behind (h : PhaseInv config bridge) :
    bridge.forest.point.height ≤ bridge.store.durablePoint.height + config.undoDepth := by
  unfold PhaseInv at h
  split at h
  · omega
  · omega
  · omega
  · rw [h.1]
    exact h.2.2.1
  · omega
  · omega

omit [ArchiveHash H] [DecidableEq H] in
theorem recoveredHashes_part (config : OnlineConfig) {forest : OnlineForest H}
    (h : forest.sealedHashes <+: forest.chainHashes) : forest.recoveredHashes config <+: forest.chainHashes := by
  unfold OnlineForest.recoveredHashes
  split
  · exact List.prefix_rfl
  · exact h

omit [ArchiveHash H] [DecidableEq H] in
theorem getElem?_of_part {values all : List H} (h : values <+: all) {i : Nat} {value : H} (hi : values[i]? = some value) :
    all[i]? = some value := by
  obtain ⟨rest, rfl⟩ := h
  rw [List.getElem?_append_left (List.getElem?_eq_some_iff.mp hi).1, hi]

/-- In every state of every run: the forest that a restart finds is not ahead of the archive that it finds, or with a WAL
by no more than the undo depth, and both have the same block at every height that both have. -/
theorem recovery_window (hfits : base.numLeaves < 2 ^ 64 ∧ base.point.height < 2 ^ 32) (hmax : 0 < config.maxDirtyBytes)
    (hundo : 0 < config.undoDepth) (h : BridgeRuns archive config base bridge blocks) :
    ∃ (recovered : Recovered H) (files : Files),
      recoverWal archive.maxRecordBytes bridge.store.files true = .ok (.ok (recovered, files)) ∧
      (config.syncWal = false →
        (bridge.forest.recoveredHashes config).length ≤ recovered.durablePoint.height + 1) ∧
      (config.syncWal = true →
        (bridge.forest.recoveredHashes config).length ≤ recovered.durablePoint.height + config.undoDepth + 1) ∧
      recovered.durablePoint.height = recovered.basePoint.height + recovered.index.length ∧
      (∀ hash, (bridge.forest.recoveredHashes config)[recovered.basePoint.height]? = some hash →
        hash = recovered.basePoint.blockHash) ∧
      ∀ (i : Nat) (entry : DiskIndexEntry H) (hash : H), recovered.index[i]? = some entry →
        (bridge.forest.recoveredHashes config)[recovered.basePoint.height + 1 + i]? = some hash →
        hash = entry.blockHash := by
  obtain ⟨hvalid, hinv⟩ := h.inv hfits hmax hundo
  obtain ⟨hsettled, hmore⟩ := hinv.inv.settled_durable hvalid hinv.free
  have hheight := hinv.inv.durable.height hinv.inv.chain
  have hheight' := hsettled.height hinv.inv.chain
  have hbase : bridge.store.settled.view.basePoint = base.point := hsettled.basePoint
  have hpoint : bridge.store.settled.view.durablePoint = bridge.store.settled.durablePoint := rfl
  have hbehind := hinv.phase.behind
  have hlength := hinv.length
  have hsealed := hinv.sealed_le
  have hpart := recoveredHashes_part config hinv.sealed_part
  refine ⟨bridge.store.settled.view, _, hinv.inv.recoverWal hvalid, ?_, ?_, ?_, ?_, ?_⟩
  · intro hwal
    rw [OnlineForest.recoveredHashes, hwal, if_neg Bool.false_ne_true, hpoint]
    omega
  · intro hwal
    rw [OnlineForest.recoveredHashes, hwal, if_pos rfl, hpoint]
    omega
  · rw [hbase, hpoint]
    exact hheight'
  · intro hash hhash
    rw [hbase] at hhash ⊢
    have hfound := getElem?_of_part hpart hhash
    rw [hinv.follows.atBase] at hfound
    exact (Option.some.inj hfound).symm
  · intro i entry hash hentry hhash
    rw [hbase] at hhash
    obtain ⟨block, hblock, hstored⟩ := hsettled.entries i entry hentry
    have hfound := getElem?_of_part hpart hhash
    rw [hinv.follows.atBlock i block hblock] at hfound
    rw [hstored.blockHash, (hinv.inv.chain.states block (List.mem_of_getElem? hblock)).2]
    exact (Option.some.inj hfound).symm

def oneBlockBack : OnlineConfig := ⟨65536, 1, true⟩

def genesisForest : OnlineForest RawHash := ⟨emptyBase.point, [zeroHash], 0, 0, 0, 0, [zeroHash]⟩

def queuedBridge : Bridge RawHash where
  forest := ⟨firstBlock.point, [zeroHash, filledHash 1], 1, 100, 0, 1, [zeroHash]⟩
  store := { createdStore with
    enqueuedPoint := firstBlock.point
    input := [⟨firstBlock, accountedBytes firstBlock⟩]
    queuedBlocks := 1
    queuedBytes := accountedBytes firstBlock }
  phase := .queued 1

theorem runs_queuedBridge : BridgeRuns twoWorkers oneBlockBack emptyBase queuedBridge [firstBlock] := by
  have haligned : Aligned oneBlockBack ⟨genesisForest, createdStore, .top⟩ emptyBase [] :=
    ⟨rfl, rfl, rfl, rfl, rfl, ⟨rfl, fun i block hblock => by cases hblock⟩, List.prefix_rfl, fun _ => rfl⟩
  have hstart : BridgeRuns twoWorkers oneBlockBack emptyBase ⟨genesisForest, createdStore, .top⟩ [] :=
    .start (runs_createdStore (by decide)) haligned
  have hprocess := hstart.step .skipSeal trivial rfl
  have hmodified := hprocess.step (.modifyBlock firstBlock.point 1 100) trivial rfl
  exact hmodified.step (.enqueue firstBlock false) ⟨firstBlock.fits_iff.mpr (by decide), List.not_mem_nil⟩ rfl

/-- The forest is one block ahead. -/
theorem recovery_window_queued :
    (queuedBridge.forest.recoveredHashes oneBlockBack).length = 2 ∧
    ∃ (recovered : Recovered RawHash) (files : Files),
      recoverWal twoWorkers.maxRecordBytes queuedBridge.store.files true = .ok (.ok (recovered, files)) ∧
      (queuedBridge.forest.recoveredHashes oneBlockBack).length ≤
        recovered.durablePoint.height + oneBlockBack.undoDepth + 1 := by
  obtain ⟨recovered, files, hopen, -, hahead, -⟩ :=
    recovery_window ⟨by decide, by decide⟩ (by decide) (by decide) runs_queuedBridge
  exact ⟨rfl, recovered, files, hopen, hahead rfl⟩

end Window

end UtreexoBridge
