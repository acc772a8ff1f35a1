import UtreexoBridge.Online.Enable
import UtreexoBridge.Online.Sync

/-!
# Runs of `SequentialSync` over an online forest

Any calls in any order. The hashes and the point of the adapter stay those of the
forest, and every block lies on the one that it names.
-/

namespace UtreexoBridge

section Runs

variable {H : Type} [StoredHash H] [DecidableEq H]

/-! ## Calls and the blocks they connect -/

inductive SyncCall (H : Type)
  | processNext (fetched : Except String (SourceBlock H)) (io : BlockIo H)
  | reconcileCurrentPoint (blockHash : Nat → Nat → Except String H) (io : Nat → BlockIo H)
  | rollbackTo (target : ChainPoint H) (io : Nat → BlockIo H)
  | setProofGeneration (enabled : Bool)
  | setProofGenerationPolicy (policy : Option (BlockDelta H → Except String Bool))

/-- The block that a call has connected, if it has, and the adapter behind it. -/
def SyncCall.perform (s : OpenSync H) : SyncCall H → Except Fault (Option (BlockDelta H) × OpenSync H)
  | .processNext fetched io =>
    (s.processNext fetched io).map fun result => (result.1.toOption.map (·.delta), result.2)
  | .reconcileCurrentPoint blockHash io => (s.reconcileCurrentPoint blockHash io).map fun result => (none, result.2)
  | .rollbackTo target io => (s.rollbackTo target io).map fun result => (none, result.2)
  | .setProofGeneration enabled => .ok (none, { s with generateProofs := enabled })
  | .setProofGenerationPolicy policy => .ok (none, { s with proofPolicy := policy })

/-- `blocks` has the block of every hash, as far as it is known. -/
structure Linked (chainHashes : List H) (blocks : List (Option (BlockDelta H))) : Prop where
  length : blocks.length = chainHashes.length
  point : ∀ i (delta : BlockDelta H), blocks[i]? = some (some delta) →
    delta.point.height = i ∧ chainHashes[i]? = some delta.point.blockHash
  previous : ∀ i (delta : BlockDelta H), blocks[i + 1]? = some (some delta) → chainHashes[i]? = some delta.previousBlockHash

/-- The blocks of a chain of `length` hashes behind a call. -/
def blocksAfter (blocks : List (Option (BlockDelta H))) (connected : Option (BlockDelta H)) (length : Nat) :
    List (Option (BlockDelta H)) :=
  match connected with
  | none => blocks.take length
  | some delta => blocks ++ [some delta]

/-- Calls that return, one after the other, and the blocks they have connected. `known` are those of before. -/
inductive SyncRun (start : OpenSync H) (known : List (Option (BlockDelta H))) :
    OpenSync H → List (Option (BlockDelta H)) → Prop
  | start : SyncRun start known start known
  | call {s s' : OpenSync H} {blocks : List (Option (BlockDelta H))} {call : SyncCall H}
      {connected : Option (BlockDelta H)} (run : SyncRun start known s blocks)
      (perform : call.perform s = .ok (connected, s')) :
      SyncRun start known s' (blocksAfter blocks connected s'.chainHashes.length)

section Blocks

variable {chainHashes chainHashes' : List H} {blocks : List (Option (BlockDelta H))} {delta : BlockDelta H}

omit [StoredHash H] [DecidableEq H] in
/-- Nothing needs to be known of the blocks that a run starts with. -/
theorem Linked.unknown (chainHashes : List H) : Linked chainHashes (List.replicate chainHashes.length none) := by
  refine ⟨List.length_replicate, fun i delta hblock => ?_, fun i delta hblock => ?_⟩
  all_goals
    rw [List.getElem?_replicate] at hblock
    split_ifs at hblock
    cases hblock

omit [StoredHash H] [DecidableEq H] in
theorem Linked.take (h : Linked chainHashes blocks) (hfront : chainHashes' <+: chainHashes) :
    Linked chainHashes' (blocks.take chainHashes'.length) := by
  have hchain : chainHashes' = chainHashes.take chainHashes'.length := List.prefix_iff_eq_take.mp hfront
  have hlength := hfront.length_le
  have hblocks : ∀ i block, (blocks.take chainHashes'.length)[i]? = some block →
      i < chainHashes'.length ∧ blocks[i]? = some block := by
    intro i block hblock
    rw [List.getElem?_take] at hblock
    split_ifs at hblock with hi
    exact ⟨hi, hblock⟩
  have hhashes : ∀ i < chainHashes'.length, chainHashes'[i]? = chainHashes[i]? := by
    intro i hi
    rw [hchain, List.getElem?_take, if_pos hi]
  refine ⟨?_, fun i delta hblock => ?_, fun i delta hblock => ?_⟩
  · rw [List.length_take, h.length]
    exact min_eq_left hlength
  · obtain ⟨hi, hblock⟩ := hblocks i _ hblock
    rw [hhashes i hi]
    exact h.point i delta hblock
  · obtain ⟨hi, hblock⟩ := hblocks (i + 1) _ hblock
    rw [hhashes i (by omega)]
    exact h.previous i delta hblock

omit [StoredHash H] [DecidableEq H] in
theorem Linked.push (h : Linked chainHashes blocks) (hheight : delta.point.height = chainHashes.length)
    (hprevious : chainHashes.getLast? = some delta.previousBlockHash) :
    Linked (chainHashes ++ [delta.point.blockHash]) (blocks ++ [some delta]) := by
  have hlength := h.length
  refine ⟨by simp [hlength], fun i other hblock => ?_, fun i other hblock => ?_⟩
  · rcases getElem?_concat_some hblock with hblock | ⟨rfl, hnew⟩
    · have hi := (List.getElem?_eq_some_iff.mp hblock).1
      rw [List.getElem?_append_left (hlength ▸ hi)]
      exact h.point i other hblock
    · cases hnew
      rw [hlength]
      exact ⟨hheight, List.getElem?_concat_length⟩
  · rcases getElem?_concat_some hblock with hblock | ⟨hi, hnew⟩
    · have hi := (List.getElem?_eq_some_iff.mp hblock).1
      rw [List.getElem?_append_left (by omega)]
      exact h.previous i other hblock
    · cases hnew
      rw [List.getElem?_append_left (by omega), ← hprevious, List.getLast?_eq_getElem?, ← hlength, ← hi,
        Nat.add_sub_cancel]

end Blocks

variable {start s s' : OpenSync H} {point : ChainPoint H} {known blocks : List (Option (BlockDelta H))}

/-! ## What a call keeps -/

theorem OpenSync.InStep.perform (h : s.InStep point) {call : SyncCall H} {connected : Option (BlockDelta H)}
    (hrun : call.perform s = .ok (connected, s')) :
    connected = none ∧ s.TakenBack s' ∨
      ∃ delta, connected = some delta ∧ s.Connects delta s' ∧ s'.InStep delta.point := by
  cases call with
  | processNext fetched io =>
    cases hcall : s.processNext fetched io with
    | error fault =>
      rw [SyncCall.perform, hcall] at hrun
      cases hrun
    | ok result =>
      obtain ⟨answer, s1⟩ := result
      rw [SyncCall.perform, hcall] at hrun
      cases hrun
      rcases h.processNext hcall with ⟨⟨message, rfl⟩, hchain, hstep⟩ | ⟨block, rfl, hconnects, hstep⟩
      · exact Or.inl ⟨rfl, point, hstep, hchain ▸ List.prefix_refl _⟩
      · exact Or.inr ⟨block.delta, rfl, hconnects, hstep⟩
  | reconcileCurrentPoint blockHash io =>
    cases hcall : s.reconcileCurrentPoint blockHash io with
    | error fault =>
      rw [SyncCall.perform, hcall] at hrun
      cases hrun
    | ok result =>
      rw [SyncCall.perform, hcall] at hrun
      cases hrun
      exact Or.inl ⟨rfl, h.reconcile hcall⟩
  | rollbackTo target io =>
    cases hcall : s.rollbackTo target io with
    | error fault =>
      rw [SyncCall.perform, hcall] at hrun
      cases hrun
    | ok result =>
      rw [SyncCall.perform, hcall] at hrun
      cases hrun
      exact Or.inl ⟨rfl, h.rollbackTo hcall⟩
  | setProofGeneration enabled =>
    cases hrun
    exact Or.inl ⟨rfl, point, ⟨h.online, h.tip, h.height⟩, List.prefix_refl _⟩
  | setProofGenerationPolicy policy =>
    cases hrun
    exact Or.inl ⟨rfl, point, ⟨h.online, h.tip, h.height⟩, List.prefix_refl _⟩

structure OpenSync.Tracked (start : OpenSync H) (known : List (Option (BlockDelta H))) (s : OpenSync H)
    (blocks : List (Option (BlockDelta H))) : Prop where
  inStep : ∃ point, s.InStep point
  linked : Linked s.chainHashes blocks
  unseen : ∀ i : Nat, blocks[i]? = some none → known[i]? = some none ∧ s.chainHashes[i]? = start.chainHashes[i]?

theorem OpenSync.Tracked.call (h : start.Tracked known s blocks) {call : SyncCall H}
    {connected : Option (BlockDelta H)} (hrun : call.perform s = .ok (connected, s')) :
    start.Tracked known s' (blocksAfter blocks connected s'.chainHashes.length) := by
  obtain ⟨⟨point, hstep⟩, hlinked, hunseen⟩ := h
  have hlength := hlinked.length
  rcases hstep.perform hrun with ⟨rfl, point', hstep', hfront⟩ | ⟨delta, rfl, hconnects, hstep'⟩
  · refine ⟨⟨point', hstep'⟩, hlinked.take hfront, fun i hnone => ?_⟩
    unfold blocksAfter at hnone
    dsimp only at hnone
    rw [List.getElem?_take] at hnone
    split_ifs at hnone with hi
    rw [List.prefix_iff_eq_take.mp hfront, List.getElem?_take, if_pos hi]
    exact hunseen i hnone
  · refine ⟨⟨delta.point, hstep'⟩, ?_, fun i hnone => ?_⟩
    · rw [hconnects.chainHashes]
      exact hlinked.push hconnects.height hconnects.previous
    · unfold blocksAfter at hnone
      dsimp only at hnone
      rcases getElem?_concat_some hnone with hnone | ⟨-, hnew⟩
      · have hi := (List.getElem?_eq_some_iff.mp hnone).1
        rw [hconnects.chainHashes, List.getElem?_append_left (hlength ▸ hi)]
        exact hunseen i hnone
      · cases hnew

theorem enableOnline_chain {f g : PackedForest.Impl H} {chainHashes : List H} {config : OnlineForestConfig}
    {cache : ValidatedCache H} (h : f.enableOnline point chainHashes config = .ok (g, cache)) (path : String) :
    (g.opened path).ChainAt point chainHashes ∧ ChainMatches point chainHashes := by
  obtain ⟨hmatches, hpublished⟩ := enableOnline_published h
  rw [mapPublished_eq_ok hpublished]
  exact ⟨⟨_, rfl, rfl, rfl⟩, hmatches⟩

theorem readForestOnline_chain {bytes : List UInt8} {g : PackedForest.Impl H} {chainHashes : List H}
    {config : OnlineForestConfig} {cache : ValidatedCache H}
    (h : readForestOnline bytes point chainHashes config = .ok (.ok (g, cache))) (path : String) :
    (g.opened path).ChainAt point chainHashes ∧ ChainMatches point chainHashes := by
  unfold readForestOnline at h
  split_ifs at h with _ hmatches
  · cases h
  · split at h
    · cases h
    · dsimp only at h
      split at h
      · cases h
      · cases h
      · split_ifs at h
        · cases h
        · split at h
          · cases h
          · cases h
            exact ⟨⟨_, rfl, rfl, rfl⟩, hmatches⟩
  · cases h

theorem SyncRun.tracked (h : start.Tracked known start known) (hrun : SyncRun start known s blocks) :
    start.Tracked known s blocks := by
  induction hrun with
  | start => exact h
  | call _ perform ih => exact ih.call perform

omit [StoredHash H] [DecidableEq H] in
def OpenForest.onlinePoint (f : OpenForest H) : Option (ChainPoint H) := f.online.map (·.point)

/-- **Chain index and forest.** Behind every call that returns, the hashes of the adapter are those of the online forest
and its point is the forest's. The blocks connected so far sit where their deltas say, each above the block that it
names. The others are those of the start. -/
theorem chain_index_follows_forest {start s : OpenSync H} {store : OpenStore H}
    {known blocks : List (Option (BlockDelta H))} (honline : start.forest.online = some store)
    (hchain : start.chainHashes = store.chainHashes) (htip : ChainMatches store.point store.chainHashes)
    (hheight : store.point.height < 2 ^ 32) (hknown : Linked start.chainHashes known)
    (hrun : SyncRun start known s blocks) :
    s.forest.online.map (·.chainHashes) = some s.chainHashes ∧ s.forest.onlinePoint = s.currentPoint ∧
      s.currentPoint.isSome ∧ Linked s.chainHashes blocks ∧
        ∀ i : Nat, blocks[i]? = some none → known[i]? = some none ∧ s.chainHashes[i]? = start.chainHashes[i]? := by
  have hstart : start.InStep store.point := ⟨⟨store, honline, rfl, hchain.symm⟩, hchain ▸ htip, hheight⟩
  obtain ⟨⟨point, hstep⟩, hlinked, hunseen⟩ :=
    hrun.tracked ⟨⟨store.point, hstart⟩, hknown, fun i hnone => ⟨hnone, rfl⟩⟩
  obtain ⟨store', hstore', hpoint, hhashes⟩ := hstep.online
  refine ⟨?_, ?_, ?_, hlinked, hunseen⟩
  · rw [hstore', Option.map_some, hhashes]
  · unfold OpenForest.onlinePoint
    rw [hstep.currentPoint, hstore', Option.map_some, hpoint]
  · rw [hstep.currentPoint]
    rfl

end Runs

/-! ## A block whose record is torn -/

deriving instance DecidableEq for BlockDelta

def tornSync : OpenSync ByteHash := ⟨tornForest, [.zero], false, none⟩

def emptyDelta (height : Nat) (previous : ByteHash) : BlockDelta ByteHash :=
  ⟨⟨height, leafHash height⟩, previous, [], []⟩

def processEmpty (height : Nat) (previous : ByteHash) (writeError : Option (Nat × String)) : SyncCall ByteHash :=
  .processNext (.ok ⟨height, leafHash height, fun _ => .ok (emptyDelta height previous)⟩) {
    flush := ⟨⟨.ok (), .ok ()⟩, ⟨.ok (), .ok ()⟩, fun _ => .ok (), .ok (), ⟨fun _ => true, .ok (), .ok ()⟩⟩
    append := ⟨.ok (), true, .ok (), writeError, .ok ()⟩
    scratch := .ok ()
    left := tornForest.toPackedForest }

def OpenSync.afterwards (s : OpenSync ByteHash) (call : SyncCall ByteHash) : OpenSync ByteHash :=
  match call.perform s with
  | .ok (_, s') => s'
  | .error _ => s

theorem OpenSync.perform_eq {s : OpenSync ByteHash} {call : SyncCall ByteHash} {connected : Option (BlockDelta ByteHash)}
    (h : (call.perform s).toOption.map Prod.fst = some connected) :
    call.perform s = .ok (connected, s.afterwards call) := by
  unfold OpenSync.afterwards
  cases hrun : call.perform s with
  | error fault =>
    rw [hrun] at h
    cases h
  | ok result =>
    rw [hrun] at h
    rw [← Option.some.inj h]

/-- The first block goes on, and the write of the second stops after 20 bytes. -/
theorem chain_index_follows_forest_torn : ∃ s, SyncRun tornSync [none] s [none, some (emptyDelta 1 .zero)] ∧
    s.forest.online.map (·.chainHashes) = some s.chainHashes ∧ s.forest.onlinePoint = s.currentPoint ∧
      s.currentPoint.isSome ∧ Linked s.chainHashes [none, some (emptyDelta 1 .zero)] ∧
        ∀ i : Nat, [none, some (emptyDelta 1 .zero)][i]? = some none →
          ([none] : List (Option (BlockDelta ByteHash)))[i]? = some none ∧ s.chainHashes[i]? = tornSync.chainHashes[i]? := by
  set whole := processEmpty 1 .zero none
  set torn := processEmpty 2 (leafHash 1) (some (20, "write: No space left on device"))
  set s1 := tornSync.afterwards whole
  have hfirst : whole.perform tornSync = .ok (some (emptyDelta 1 .zero), s1) := OpenSync.perform_eq (by decide +kernel)
  have hsecond : torn.perform s1 = .ok (none, s1.afterwards torn) := OpenSync.perform_eq (by decide +kernel)
  have hlength : (s1.afterwards torn).chainHashes.length = 2 := by decide +kernel
  have hstart : SyncRun tornSync [none] tornSync [none] := .start
  have hrun := (hstart.call hfirst).call hsecond
  rw [hlength] at hrun
  have hknown : Linked tornSync.chainHashes [none] := Linked.unknown tornSync.chainHashes
  exact ⟨_, hrun, chain_index_follows_forest rfl rfl ⟨rfl, rfl⟩ (by decide) hknown hrun⟩

end UtreexoBridge
