import UtreexoBridge.Online.Abandon
import UtreexoBridge.Online.History
import UtreexoBridge.Sync.Spec

/-!
# `SequentialSync` over an online forest

It keeps a copy of the hashes of the online chain. Blocks are connected on both
and taken back on both, and no exit of a call leaves the two apart.
-/

namespace UtreexoBridge

/-! ## The calls -/

/-- A fetched block, with `ParseVerboseBlockJson` on it: a function of the hashes that it may look up. -/
structure SourceBlock (H : Type) where
  height : Nat
  hash : H
  parse : (Nat → Except String H) → Except String (BlockDelta H)

structure ProcessedBlock (H : Type) where
  delta : BlockDelta H
  proof : Option (Proof H)

structure OpenSync (H : Type) where
  forest : OpenForest H
  chainHashes : List H
  generateProofs : Bool
  proofPolicy : Option (BlockDelta H → Except String Bool)

namespace OpenSync

variable {H : Type}

def currentPoint (s : OpenSync H) : Option (ChainPoint H) :=
  s.chainHashes.getLast?.map fun hash => ⟨(s.chainHashes.length - 1) % 2 ^ 32, hash⟩

/-- The resolver that `ProcessNext` hands to the parser. -/
def creationHash (s : OpenSync H) (creationHeight : Nat) : Except String H :=
  match s.chainHashes[creationHeight]? with
  | none => .error "creation height is not in the processed chain-hash index"
  | some hash => .ok hash

/-- The adapter, as if its forest were not online. -/
def packed (s : OpenSync H) : SequentialSync H :=
  ⟨s.forest.toPackedForest, s.chainHashes, s.generateProofs, s.proofPolicy⟩

variable [StoredHash H] [DecidableEq H]

/-- The end of `ProcessNext`. The hashes grow before the forest does, and shrink again if it does not. -/
def applyBlock (s : OpenSync H) (hash : H) (delta : BlockDelta H) (proof : Option (Proof H)) (io : BlockIo H) :
    Except Fault (Except String (ProcessedBlock H) × OpenSync H) :=
  let grown := { s with chainHashes := s.chainHashes ++ [hash] }
  match grown.forest.modifyBlock delta.additions delta.deletions delta.point io with
  | .error fault => .error fault
  | .ok (.error message, forest) =>
    .ok (.error ("could not apply block transition: " ++ message),
      { grown with forest, chainHashes := grown.chainHashes.dropLast })
  | .ok (.ok (), forest) => .ok (.ok ⟨delta, proof⟩, { grown with forest })

def processNext (s : OpenSync H) (fetched : Except String (SourceBlock H)) (io : BlockIo H) :
    Except Fault (Except String (ProcessedBlock H) × OpenSync H) :=
  let height := s.chainHashes.length
  if height > 2 ^ 32 - 1 then .ok (.error "chain height exceeds the sidecar format", s)
  else
    match fetched with
    | .error message => .ok (.error message, s)
    | .ok fetched =>
      if fetched.height ≠ height then
        .ok (.error "fetched block height does not match the requested height", s)
      else
        match fetched.parse s.creationHash with
        | .error message => .ok (.error message, s)
        | .ok delta =>
          if delta.point.height ≠ height ∨ delta.point.blockHash ≠ fetched.hash then
            .ok (.error "getblock result does not match the requested active-chain block", s)
          else if height > 0 ∧ s.chainHashes.getLast? ≠ some delta.previousBlockHash then
            .ok (.error "block does not connect to the sidecar chain tip", s)
          else
            match s.packed.generates delta with
            | .error message => .ok (.error message, s)
            | .ok false => s.applyBlock fetched.hash delta none io
            | .ok true =>
              match SequentialSync.preBlockProof s.forest.toPackedForest delta.deletions with
              | .error fault => .error fault
              | .ok (.error message) => .ok (.error message, s)
              | .ok (.ok proof) => s.applyBlock fetched.hash delta (some proof) io

/-- One turn of either rollback loop, at the point `previous`. -/
def disconnectTip (s : OpenSync H) (previous : Option (ChainPoint H)) (io : BlockIo H) :
    Except Fault (Res × OpenSync H) :=
  match s.forest.rollbackOnlineBlock io with
  | .error fault => .error fault
  | .ok (.error message, forest) => .ok (.error message, { s with forest })
  | .ok (.ok rolledBack, forest) =>
    let s := { s with forest }
    if previous.map (·.height) ≠ some (add32 rolledBack.height 1) ∨ s.chainHashes.length < 2 then
      .ok (.error "online rollback returned a non-contiguous chain point", s)
    else
      match s.chainHashes[rolledBack.height]? with
      | none => .error .outOfBounds
      | some hash =>
        if hash ≠ rolledBack.blockHash then .ok (.error "online rollback returned a non-contiguous chain point", s)
        else .ok (.ok (), { s with chainHashes := s.chainHashes.dropLast })

theorem disconnectTip_shorter {s s' : OpenSync H} {previous : Option (ChainPoint H)} {io : BlockIo H}
    (h : s.disconnectTip previous io = .ok (.ok (), s')) : s'.chainHashes.length < s.chainHashes.length := by
  unfold disconnectTip at h
  split at h
  · cases h
  · cases h
  · dsimp only at h
    split_ifs at h with hcontiguous
    · cases h
    · split at h
      · cases h
      · split_ifs at h
        · cases h
        · cases h
          have hlength := not_lt.mp (not_or.mp hcontiguous).2
          show s.chainHashes.dropLast.length < s.chainHashes.length
          rw [List.length_dropLast]
          omega

/-- The loop of `ReconcileCurrentPoint`. `blockHash` answers for a height when some blocks are disconnected. -/
def reconcile (s : OpenSync H) (blockHash : Nat → Nat → Except String H) (io : Nat → BlockIo H)
    (disconnected : Nat) : Except Fault (Except String Nat × OpenSync H) :=
  match s.currentPoint with
  | none => .ok (.error "cannot reconcile an empty chain point", s)
  | some point =>
    match blockHash disconnected point.height with
    | .error message => .ok (.error message, s)
    | .ok active =>
      if active = point.blockHash then .ok (.ok disconnected, s)
      else if s.forest.online.isNone then
        .ok (.error "active-chain reorganization requires online WAL before-images or checkpoint restore", s)
      else
        match hturn : s.disconnectTip (some point) (io disconnected) with
        | .error fault => .error fault
        | .ok (.error message, s') => .ok (.error message, s')
        | .ok (.ok (), s') => s'.reconcile blockHash io (disconnected + 1)
termination_by s.chainHashes.length
decreasing_by exact disconnectTip_shorter hturn

def reconcileCurrentPoint (s : OpenSync H) (blockHash : Nat → Nat → Except String H) (io : Nat → BlockIo H) :
    Except Fault (Except String Nat × OpenSync H) := s.reconcile blockHash io 0

/-- The loop of `RollbackTo`. The length of no hashes, less one, is above every height. -/
def rollback (s : OpenSync H) (height : Nat) (io : Nat → BlockIo H) (disconnected : Nat) :
    Except Fault (Except String Nat × OpenSync H) :=
  if s.chainHashes = [] ∨ s.chainHashes.length - 1 > height then
    match hturn : s.disconnectTip s.currentPoint (io disconnected) with
    | .error fault => .error fault
    | .ok (.error message, s') => .ok (.error message, s')
    | .ok (.ok (), s') => s'.rollback height io (disconnected + 1)
  else .ok (.ok disconnected, s)
termination_by s.chainHashes.length
decreasing_by exact disconnectTip_shorter hturn

def rollbackTo (s : OpenSync H) (target : ChainPoint H) (io : Nat → BlockIo H) :
    Except Fault (Except String Nat × OpenSync H) :=
  match s.currentPoint with
  | none => .ok (.error "cannot roll back an empty chain point", s)
  | some current =>
    if target.height > current.height then .ok (.error "rollback target is above the current point", s)
    else if s.forest.online.isNone ∧ target ≠ current then
      .ok (.error "explicit rollback requires online WAL before-images", s)
    else
      match s.rollback target.height io 0 with
      | .error fault => .error fault
      | .ok (.error message, s') => .ok (.error message, s')
      | .ok (.ok disconnected, s') =>
        if s'.currentPoint ≠ some target then
          .ok (.error "rollback target hash is not in the retained online chain", s')
        else .ok (.ok disconnected, s')

end OpenSync

/-! ## Without online storage -/

section Offline

variable {H : Type} [StoredHash H] [DecidableEq H] {s : OpenSync H}

theorem modifyBlock_offline {f : OpenForest H} (h : f.online = none) (additions deletions : List H)
    (point : ChainPoint H) (io : BlockIo H) :
    f.modifyBlock additions deletions point io = (f.toPackedForest.modify additions deletions).map fun result =>
      (result.1, { f with toPackedForest := result.2 }) := by
  unfold OpenForest.modifyBlock
  rw [h]
  dsimp only
  rcases f.toPackedForest.modify additions deletions with fault | ⟨res, modified⟩
  · rfl
  · rfl

theorem OpenSync.applyBlock_offline (h : s.forest.online = none) (hash : H) (delta : BlockDelta H)
    (proof : Option (Proof H)) (io : BlockIo H) :
    (s.applyBlock hash delta proof io).map (fun result => (result.1.map (·.proof), result.2.packed)) =
      s.packed.applyBlock hash delta proof := by
  unfold OpenSync.applyBlock SequentialSync.applyBlock
  dsimp only
  rw [modifyBlock_offline h, show s.packed.forest = s.forest.toPackedForest from rfl]
  rcases s.forest.toPackedForest.modify delta.additions delta.deletions with fault | ⟨message | u, modified⟩
  · rfl
  · dsimp only [Except.map]
    rw [List.dropLast_concat]
    rfl
  · rfl

/-- A forest that is not online: the call is that of the plain adapter. -/
theorem OpenSync.processNext_offline (h : s.forest.online = none) (fetched : Except String (SourceBlock H))
    (io : BlockIo H) :
    (s.processNext fetched io).map (fun result => (result.1.map (·.proof), result.2.packed)) =
      s.packed.processNext (fetched.map fun block => ⟨block.height, block.hash, block.parse s.creationHash⟩) := by
  unfold OpenSync.processNext SequentialSync.processNext
  dsimp only
  rw [show s.packed.chainHashes = s.chainHashes from rfl, show s.packed.forest = s.forest.toPackedForest from rfl]
  split_ifs
  · rfl
  · rcases fetched with message | block
    · rfl
    · dsimp only [Except.map]
      split_ifs
      · rfl
      · rcases block.parse s.creationHash with message | delta
        · rfl
        · dsimp only
          split_ifs
          · rfl
          · rfl
          · rcases s.packed.generates delta with message | _ | _
            · rfl
            · exact OpenSync.applyBlock_offline h block.hash delta none io
            · rcases SequentialSync.preBlockProof s.forest.toPackedForest delta.deletions with fault | message | proof
              · rfl
              · rfl
              · exact OpenSync.applyBlock_offline h block.hash delta (some proof) io

end Offline

section Proofs

variable {H : Type} {point next : ChainPoint H} {chainHashes : List H}

/-! ## A chain and its tip -/

theorem ChainMatches.push (h : next.height = chainHashes.length) :
    ChainMatches next (chainHashes ++ [next.blockHash]) := by
  refine ⟨?_, List.getLast?_concat⟩
  rw [List.length_append, List.length_singleton, h]

theorem ChainMatches.pop (hlength : chainHashes.length = next.height + 2)
    (hstored : chainHashes[next.height]? = some next.blockHash) : ChainMatches next chainHashes.dropLast := by
  have hdropped : chainHashes.dropLast.length = next.height + 1 := by
    rw [List.length_dropLast, hlength]
    rfl
  refine ⟨hdropped, ?_⟩
  rw [List.getLast?_eq_getElem?, hdropped, Nat.add_sub_cancel, List.getElem?_dropLast, if_pos (by omega), hstored]

theorem ChainMatches.currentPoint {s : OpenSync H} (h : ChainMatches point s.chainHashes)
    (hheight : point.height < 2 ^ 32) : s.currentPoint = some point := by
  unfold OpenSync.currentPoint
  rw [h.1, h.2, Nat.add_sub_cancel, Nat.mod_eq_of_lt hheight]
  rfl

/-! ## The forest's side -/

variable [StoredHash H] [DecidableEq H] {f f' : OpenForest H} {store store' : OpenStore H}

omit [StoredHash H] [DecidableEq H] in
def OpenForest.ChainAt (f : OpenForest H) (point : ChainPoint H) (chainHashes : List H) : Prop :=
  ∃ store, f.online = some store ∧ store.point = point ∧ store.chainHashes = chainHashes

theorem OfferLeft.chain_cases {io : AppendIo} {offer : Option (WalTransaction H)} {ok : Bool}
    (h : OfferLeft store io offer ok store') :
    ok = false ∧ store'.point = store.point ∧ store'.chainHashes = store.chainHashes ∨
      ∃ t, offer = some t ∧ ok = true ∧ store.chainValid t = true ∧ store'.point = t.point ∧
        store'.chainHashes = (store.advance t).chainHashes := by
  cases h with
  | nothing => exact Or.inl ⟨rfl, rfl, rfl⟩
  | appended t =>
    rcases append_cases store t io with ⟨message, s', happend, hsame⟩ | ⟨s', happend, hsame, hvalid⟩
    · rw [happend]
      exact Or.inl ⟨rfl, hsame.point, hsame.chainHashes⟩
    · rw [happend]
      refine Or.inr ⟨t, rfl, rfl, hvalid, rfl, ?_⟩
      unfold OpenStore.advance
      rw [hsame.chainHashes]

theorem connectOffer_eq_some {additions deletions : List H} {t : WalTransaction H}
    (h : f.connectOffer store additions deletions point = some t) : t.kind = .connect ∧ t.point = point := by
  unfold OpenForest.connectOffer at h
  split at h
  · cases h
  · dsimp only at h
    split at h
    · cases h
      exact ⟨rfl, rfl⟩
    · cases h

theorem disconnectOffer_eq_some {rollback t : WalTransaction H} (h : f.disconnectOffer rollback = some t) :
    t = rollback := by
  unfold OpenForest.disconnectOffer at h
  split at h
  · cases h
  · split at h
    · cases h
      rfl
    · cases h

theorem disconnectBlock_ok {rollback : WalTransaction H} {io : BlockIo H}
    (h : f.disconnectBlock store rollback io = .ok (.ok point, f')) : point = rollback.point := by
  unfold OpenForest.disconnectBlock at h
  split at h
  · cases h
  · split at h
    · cases h
    · cases (abandonRollback_online h).1
    · dsimp only at h
      split at h
      · cases (abandonRollback_online h).1
      · cases h
        rfl

theorem connectBlock_chain {additions deletions : List H} {io : BlockIo H} {res : Res} (hstore : f.online = some store)
    (hrun : f.connectBlock store additions deletions next io = .ok (res, f')) :
    (∃ message, res = .error message) ∧ f'.ChainAt store.point store.chainHashes ∨
      res = .ok () ∧ f'.ChainAt next (store.chainHashes ++ [next.blockHash]) ∧
        next.height = store.chainHashes.length ∧ next.height < 2 ^ 32 := by
  obtain ⟨store', hstore', hleft⟩ := connectBlock_left hstore hrun
  rcases hleft.chain_cases with ⟨hres, hpoint, hchain⟩ | ⟨t, hoffer, hres, hvalid, hpoint, hchain⟩
  · cases res with
    | ok u => cases hres
    | error message => exact Or.inl ⟨⟨message, rfl⟩, store', hstore', hpoint, hchain⟩
  · obtain ⟨hkind, rfl⟩ := connectOffer_eq_some hoffer
    unfold OpenStore.chainValid at hvalid
    unfold OpenStore.advance at hchain
    rw [hkind] at hvalid hchain
    obtain ⟨-, hheight, hadd⟩ : t.previous = store.point ∧ t.point.height = store.chainHashes.length ∧
        add32 t.previous.height 1 = t.point.height := by simpa using hvalid
    have hlt : t.point.height < 2 ^ 32 := by
      rw [← hadd]
      exact Nat.mod_lt _ (by decide)
    cases res with
    | ok u => exact Or.inr ⟨rfl, ⟨store', hstore', hpoint, hchain⟩, hheight, hlt⟩
    | error message => cases hres

theorem sealBeforeBlock_chain (h : f.ChainAt point chainHashes) (io : FlushIo) :
    (f.sealBeforeBlock store io).2.ChainAt point chainHashes := by
  obtain ⟨store0, hstore0, hpoint, hchain⟩ := h
  unfold OpenForest.sealBeforeBlock
  split_ifs
  · obtain ⟨store1, hstore1, hsame⟩ := flushOnline_sameChain hstore0 io
    have hkept : (f.flushOnline io).2.ChainAt point chainHashes :=
      ⟨store1, hstore1, hsame.point.trans hpoint, hsame.chainHashes.trans hchain⟩
    generalize f.flushOnline io = flushed at hkept
    obtain ⟨message | u, f1⟩ := flushed
    · exact hkept
    · exact hkept
  · exact ⟨store0, hstore0, hpoint, hchain⟩

theorem modifyBlock_chain (h : f.ChainAt point chainHashes) {additions deletions : List H} {io : BlockIo H} {res : Res}
    (hrun : f.modifyBlock additions deletions next io = .ok (res, f')) :
    (∃ message, res = .error message) ∧ f'.ChainAt point chainHashes ∨
      res = .ok () ∧ f'.ChainAt next (chainHashes ++ [next.blockHash]) ∧ next.height = chainHashes.length ∧
        next.height < 2 ^ 32 := by
  obtain ⟨store, hstore, hpoint, hchain⟩ := id h
  unfold OpenForest.modifyBlock at hrun
  rw [hstore] at hrun
  dsimp only at hrun
  split_ifs at hrun
  · cases hrun
    exact Or.inl ⟨⟨_, rfl⟩, h⟩
  · cases hrun
    exact Or.inl ⟨⟨_, rfl⟩, h⟩
  · have hseal : (f.sealBeforeBlock store io.flush).2.ChainAt point chainHashes := sealBeforeBlock_chain h io.flush
    generalize f.sealBeforeBlock store io.flush = sealed at hrun hseal
    obtain ⟨message | u, f1⟩ := sealed
    · cases hrun
      exact Or.inl ⟨⟨_, rfl⟩, hseal⟩
    · obtain ⟨store1, hstore1, rfl, rfl⟩ := hseal
      dsimp only at hrun hstore1
      rw [hstore1] at hrun
      exact connectBlock_chain hstore1 hrun

theorem disconnectBlock_chain {rollback : WalTransaction H} {io : BlockIo H} {res : Except String (ChainPoint H)}
    (hstore : f.online = some store) (hkind : rollback.kind = .disconnect) (hprevious : rollback.previous = store.point)
    (hrun : f.disconnectBlock store rollback io = .ok (res, f')) :
    (∃ message, res = .error message) ∧ f'.ChainAt store.point store.chainHashes ∨
      ∃ next, res = .ok next ∧ f'.ChainAt next store.chainHashes.dropLast ∧
        store.chainHashes.length = store.point.height + 1 ∧ store.point.height = add32 next.height 1 ∧
          store.chainHashes[next.height]? = some next.blockHash := by
  obtain ⟨store', hstore', hleft⟩ := disconnectBlock_left hstore hrun
  rcases hleft.chain_cases with ⟨hres, hpoint, hchain⟩ | ⟨t, hoffer, hres, hvalid, hpoint, hchain⟩
  · cases res with
    | ok next => cases hres
    | error message => exact Or.inl ⟨⟨message, rfl⟩, store', hstore', hpoint, hchain⟩
  · obtain rfl := disconnectOffer_eq_some hoffer
    unfold OpenStore.chainValid at hvalid
    unfold OpenStore.advance at hchain
    rw [hkind, hprevious] at hvalid
    rw [hkind] at hchain
    obtain ⟨hlength, hheight, -, hstored⟩ : store.chainHashes.length = store.point.height + 1 ∧
        store.point.height = add32 t.point.height 1 ∧ 2 ≤ store.chainHashes.length ∧
          store.chainHashes[t.point.height]? = some t.point.blockHash := by simpa using hvalid
    cases res with
    | ok next =>
      obtain rfl := disconnectBlock_ok hrun
      exact Or.inr ⟨t.point, rfl, ⟨store', hstore', hpoint, hchain⟩, hlength, hheight, hstored⟩
    | error message => cases hres

theorem rollbackOnlineBlock_chain (h : f.ChainAt point chainHashes) {io : BlockIo H}
    {res : Except String (ChainPoint H)} (hrun : f.rollbackOnlineBlock io = .ok (res, f')) :
    (∃ message, res = .error message) ∧ f'.ChainAt point chainHashes ∨
      ∃ next, res = .ok next ∧ f'.ChainAt next chainHashes.dropLast ∧ point.height ≠ 0 ∧
        point.height = add32 next.height 1 ∧ chainHashes[next.height]? = some next.blockHash := by
  obtain ⟨store, hstore, rfl, rfl⟩ := id h
  unfold OpenForest.rollbackOnlineBlock at hrun
  rw [hstore] at hrun
  dsimp only at hrun
  split_ifs at hrun with _ _ hgenesis
  · cases hrun
    exact Or.inl ⟨⟨_, rfl⟩, h⟩
  · cases hrun
    exact Or.inl ⟨⟨_, rfl⟩, h⟩
  · cases hrun
    exact Or.inl ⟨⟨_, rfl⟩, h⟩
  · split at hrun
    · cases hrun
      exact Or.inl ⟨⟨_, rfl⟩, h⟩
    · split_ifs at hrun
      · cases hrun
        exact Or.inl ⟨⟨_, rfl⟩, h⟩
      · rcases disconnectBlock_chain hstore rfl rfl hrun with hkept | ⟨next, hres, hchain, -, hheight, hstored⟩
        · exact Or.inl hkept
        · exact Or.inr ⟨next, hres, hchain, hgenesis, hheight, hstored⟩

/-! ## Both sides -/

/-- The hashes of the adapter are those of the forest, whose tip is `point`. -/
structure OpenSync.InStep (s : OpenSync H) (point : ChainPoint H) : Prop where
  online : s.forest.ChainAt point s.chainHashes
  tip : ChainMatches point s.chainHashes
  height : point.height < 2 ^ 32

structure OpenSync.Connects (s : OpenSync H) (delta : BlockDelta H) (s' : OpenSync H) : Prop where
  chainHashes : s'.chainHashes = s.chainHashes ++ [delta.point.blockHash]
  height : delta.point.height = s.chainHashes.length
  previous : s.chainHashes.getLast? = some delta.previousBlockHash

def OpenSync.TakenBack (s s' : OpenSync H) : Prop := ∃ point, s'.InStep point ∧ s'.chainHashes <+: s.chainHashes

omit [StoredHash H] [DecidableEq H] in
theorem OpenSync.TakenBack.refl {s : OpenSync H} (h : s.InStep point) : s.TakenBack s :=
  ⟨point, h, List.prefix_refl _⟩

omit [StoredHash H] [DecidableEq H] in
theorem OpenSync.TakenBack.trans {s s' s'' : OpenSync H} (hfront : s'.chainHashes <+: s.chainHashes)
    (h : s'.TakenBack s'') : s.TakenBack s'' := by
  obtain ⟨point, hstep, hfront'⟩ := h
  exact ⟨point, hstep, hfront'.trans hfront⟩

namespace OpenSync.InStep

variable {s s' : OpenSync H}

omit [StoredHash H] [DecidableEq H] in
theorem currentPoint (h : s.InStep point) : s.currentPoint = some point := h.tip.currentPoint h.height

theorem applyBlock (h : s.InStep point) {delta : BlockDelta H} {proof : Option (Proof H)} {io : BlockIo H}
    {answer : Except String (ProcessedBlock H)} (hprevious : s.chainHashes.getLast? = some delta.previousBlockHash)
    (hrun : s.applyBlock delta.point.blockHash delta proof io = .ok (answer, s')) :
    (∃ message, answer = .error message) ∧ s'.chainHashes = s.chainHashes ∧ s'.InStep point ∨
      ∃ block, answer = .ok block ∧ s.Connects block.delta s' ∧ s'.InStep block.delta.point := by
  unfold OpenSync.applyBlock at hrun
  dsimp only at hrun
  cases hcall : s.forest.modifyBlock delta.additions delta.deletions delta.point io with
  | error fault =>
    rw [hcall] at hrun
    cases hrun
  | ok result =>
    obtain ⟨res, forest⟩ := result
    rw [hcall] at hrun
    rcases modifyBlock_chain h.online hcall with ⟨⟨message, rfl⟩, hchain⟩ | ⟨rfl, hchain, hheight, hlt⟩
    · cases hrun
      have hback : (s.chainHashes ++ [delta.point.blockHash]).dropLast = s.chainHashes := List.dropLast_concat
      rw [← hback] at hchain
      refine Or.inl ⟨⟨_, rfl⟩, hback, hchain, ?_, h.height⟩
      show ChainMatches point (s.chainHashes ++ [delta.point.blockHash]).dropLast
      rw [hback]
      exact h.tip
    · cases hrun
      exact Or.inr ⟨_, rfl, ⟨rfl, hheight, hprevious⟩, hchain, .push hheight, hlt⟩

/-- Every exit before the mutation leaves the adapter alone, and the last two are those of `applyBlock`. -/
theorem processNext (h : s.InStep point) {fetched : Except String (SourceBlock H)} {io : BlockIo H}
    {answer : Except String (ProcessedBlock H)} (hrun : s.processNext fetched io = .ok (answer, s')) :
    (∃ message, answer = .error message) ∧ s'.chainHashes = s.chainHashes ∧ s'.InStep point ∨
      ∃ block, answer = .ok block ∧ s.Connects block.delta s' ∧ s'.InStep block.delta.point := by
  have hstays : ∀ message, (Except.ok (.error message, s) :
      Except Fault (Except String (ProcessedBlock H) × OpenSync H)) = .ok (answer, s') →
      (∃ message, answer = .error message) ∧ s'.chainHashes = s.chainHashes ∧ s'.InStep point := by
    intro message heq
    cases heq
    exact ⟨⟨message, rfl⟩, rfl, h⟩
  have hpos : s.chainHashes.length > 0 := by
    rw [h.tip.1]
    exact Nat.succ_pos _
  unfold OpenSync.processNext at hrun
  dsimp only at hrun
  split_ifs at hrun
  · exact Or.inl (hstays _ hrun)
  · split at hrun
    · exact Or.inl (hstays _ hrun)
    · split_ifs at hrun
      · exact Or.inl (hstays _ hrun)
      · split at hrun
        · exact Or.inl (hstays _ hrun)
        · rename_i fetched _ _ delta _
          split_ifs at hrun with hblock hconnects
          · exact Or.inl (hstays _ hrun)
          · exact Or.inl (hstays _ hrun)
          · have hprevious : s.chainHashes.getLast? = some delta.previousBlockHash := by
              by_contra hother
              exact hconnects ⟨hpos, hother⟩
            have hhash : delta.point.blockHash = fetched.hash := not_not.mp (not_or.mp hblock).2
            rw [← hhash] at hrun
            split at hrun
            · exact Or.inl (hstays _ hrun)
            · exact h.applyBlock hprevious hrun
            · split at hrun
              · cases hrun
              · exact Or.inl (hstays _ hrun)
              · exact h.applyBlock hprevious hrun

theorem below (h : s.InStep point) {chainHashes' : List H} {forest : OpenForest H} {io : BlockIo H}
    (hrun : s.forest.rollbackOnlineBlock io = .ok (.ok next, forest)) (hchain : chainHashes' = s.chainHashes.dropLast) :
    point.height = next.height + 1 ∧ s.chainHashes[next.height]? = some next.blockHash ∧
      ({ s with forest, chainHashes := chainHashes' } : OpenSync H).InStep next := by
  rcases rollbackOnlineBlock_chain h.online hrun with ⟨⟨_, herror⟩, -⟩ | ⟨_, hnext, hat, hgenesis, hheight, hstored⟩
  · cases herror
  · cases hnext
    have hlength := h.tip.1
    have hbound : next.height < s.chainHashes.length := List.getElem?_eq_some_iff.mp hstored |>.1
    have hpoint := h.height
    -- a sum that wraps is zero, the height of the genesis block
    have hbelow : point.height = next.height + 1 := by
      unfold add32 at hheight
      omega
    subst hchain
    exact ⟨hbelow, hstored, hat, .pop (by omega) hstored, by omega⟩

/-- A turn of the loops never gets to the message about a non-contiguous point, and reads no hash that is not there. -/
theorem disconnectTip_eq (h : s.InStep point) (io : BlockIo H) :
    s.disconnectTip (some point) io =
      match s.forest.rollbackOnlineBlock io with
      | .error fault => .error fault
      | .ok (.error message, forest) => .ok (.error message, { s with forest })
      | .ok (.ok _, forest) => .ok (.ok (), { s with forest, chainHashes := s.chainHashes.dropLast }) := by
  unfold OpenSync.disconnectTip
  cases hcall : s.forest.rollbackOnlineBlock io with
  | error fault => rfl
  | ok result =>
    obtain ⟨message | next, forest⟩ := result
    · rfl
    · obtain ⟨hbelow, hstored, -⟩ := h.below hcall rfl
      have hlength := h.tip.1
      have hpoint := h.height
      have hadd : add32 next.height 1 = point.height := by
        rw [hbelow, add32]
        exact Nat.mod_eq_of_lt (by omega)
      dsimp only
      rw [if_neg, hstored]
      · dsimp only
        rw [if_neg (not_not.mpr rfl)]
      · rw [hadd]
        refine not_or.mpr ⟨not_not.mpr rfl, ?_⟩
        show ¬s.chainHashes.length < 2
        omega

theorem disconnectTip (h : s.InStep point) {io : BlockIo H} {res : Res}
    (hrun : s.disconnectTip (some point) io = .ok (res, s')) : s.TakenBack s' := by
  rw [h.disconnectTip_eq io] at hrun
  cases hcall : s.forest.rollbackOnlineBlock io with
  | error fault =>
    rw [hcall] at hrun
    cases hrun
  | ok result =>
    obtain ⟨message | next, forest⟩ := result
    · rw [hcall] at hrun
      cases hrun
      rcases rollbackOnlineBlock_chain h.online hcall with ⟨-, hat⟩ | ⟨_, hnext, -⟩
      · exact ⟨point, ⟨hat, h.tip, h.height⟩, List.prefix_refl _⟩
      · cases hnext
    · rw [hcall] at hrun
      cases hrun
      exact ⟨next, (h.below hcall rfl).2.2, List.dropLast_prefix _⟩

theorem reconcile (h : s.InStep point) {blockHash : Nat → Nat → Except String H} {io : Nat → BlockIo H}
    {disconnected : Nat} {answer : Except String Nat}
    (hrun : s.reconcile blockHash io disconnected = .ok (answer, s')) : s.TakenBack s' := by
  fun_induction OpenSync.reconcile s blockHash io disconnected generalizing point with
  | case1 | case2 | case3 | case4 =>
    cases hrun
    exact .refl h
  | case5 => cases hrun
  | case6 s disconnected tip htip _ _ _ _ message s1 hturn =>
    cases hrun
    cases htip.symm.trans h.currentPoint
    exact h.disconnectTip hturn
  | case7 s disconnected tip htip _ _ _ _ s1 hturn ih =>
    cases htip.symm.trans h.currentPoint
    obtain ⟨point1, h1, hfront⟩ := h.disconnectTip hturn
    exact .trans hfront (ih h1 hrun)

theorem rollback (h : s.InStep point) {height : Nat} {io : Nat → BlockIo H} {disconnected : Nat}
    {answer : Except String Nat} (hrun : s.rollback height io disconnected = .ok (answer, s')) : s.TakenBack s' := by
  fun_induction OpenSync.rollback s height io disconnected generalizing point with
  | case1 => cases hrun
  | case2 s disconnected _ message s1 hturn =>
    cases hrun
    rw [h.currentPoint] at hturn
    exact h.disconnectTip hturn
  | case3 s disconnected _ s1 hturn ih =>
    rw [h.currentPoint] at hturn
    obtain ⟨point1, h1, hfront⟩ := h.disconnectTip hturn
    exact .trans hfront (ih h1 hrun)
  | case4 =>
    cases hrun
    exact .refl h

theorem rollbackTo (h : s.InStep point) {target : ChainPoint H} {io : Nat → BlockIo H} {answer : Except String Nat}
    (hrun : s.rollbackTo target io = .ok (answer, s')) : s.TakenBack s' := by
  unfold OpenSync.rollbackTo at hrun
  rw [h.currentPoint] at hrun
  dsimp only at hrun
  split_ifs at hrun
  · cases hrun
    exact .refl h
  · cases hrun
    exact .refl h
  · split at hrun
    · cases hrun
    · rename_i hloop
      cases hrun
      exact h.rollback hloop
    · rename_i hloop
      split_ifs at hrun
      all_goals
        cases hrun
        exact h.rollback hloop

end OpenSync.InStep

end Proofs

end UtreexoBridge
