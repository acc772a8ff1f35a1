import UtreexoBridge.Online.Retention

/-!
# Runs with the log

Blocks are connected and rolled back, and flushes prune the log. The records
of the blocks that can still be rolled back are found again at any time.
-/

namespace UtreexoBridge

open Bytes

section Requests

variable {H : Type} [StoredHash H] [DecidableEq H]

/-! ## Requests -/

inductive Request (H : Type)
  | modifyBlock (additions deletions : List H) (point : ChainPoint H) (io : BlockIo H)
  | rollbackOnlineBlock (io : BlockIo H)
  | flushOnline (io : FlushIo)

def Request.perform (f : OpenForest H) : Request H → Except Fault (Bool × OpenForest H)
  | .modifyBlock additions deletions point io =>
    (f.modifyBlock additions deletions point io).map fun result => (result.1.isOk, result.2)
  | .rollbackOnlineBlock io => (f.rollbackOnlineBlock io).map fun result => (result.1.isOk, result.2)
  | .flushOnline io => .ok ((f.flushOnline io).1.isOk, (f.flushOnline io).2)

namespace OpenForest

omit [StoredHash H] [DecidableEq H] in
/-- The height of the tip at which a flush seals. Zero if it refuses or has nothing to do. -/
def flushHeight (f : OpenForest H) : Nat :=
  match f.online with
  | none => 0
  | some store =>
    if store.pending ∨ f.arena.dirty.size = 0 ∧ store.durableLsn = store.currentLsn then 0 else store.point.height

/-- What `connectBlock` hands to `Append`. -/
def connectOffer (f : OpenForest H) (store : OpenStore H) (additions deletions : List H) (point : ChainPoint H) :
    Option (WalTransaction H) :=
  match f.arena.beginTransaction with
  | .error _ => none
  | .ok arena =>
    let begun : OpenForest H := { f with arena }
    match begun.toPackedForest.modify additions deletions with
    | .ok (.ok (), modified) => some (blockTransaction begun { begun with toPackedForest := modified } store point)
    | _ => none

def disconnectOffer (f : OpenForest H) (rollback : WalTransaction H) : Option (WalTransaction H) :=
  match f.arena.beginTransaction with
  | .error _ => none
  | .ok arena =>
    match { f.toPackedForest with arena }.applyPhysicalChanges rollback.changes true rollback.afterNext with
    | .ok (.ok (), _) => some rollback
    | _ => none

end OpenForest

/-- The store and the transaction that a request hands to `Append`, if it gets there. -/
def Request.offer (f : OpenForest H) : Request H → Option (OpenStore H × WalTransaction H)
  | .modifyBlock additions deletions point io =>
    match f.online with
    | none => none
    | some store =>
      if store.pending ∨ point.height ≠ add32 store.point.height 1 then none
      else
        match f.sealBeforeBlock store io.flush with
        | (.error _, _) => none
        | (.ok (), f) => f.online.bind fun store => (f.connectOffer store additions deletions point).map (store, ·)
  | .rollbackOnlineBlock _ =>
    match f.online with
    | none => none
    | some store =>
      if store.pending ∨ store.config.syncWal = false ∨ store.point.height = 0 then none
      else
        match store.readConnectTransaction store.point with
        | .error _ => none
        | .ok original =>
          if original.point ≠ store.point then none
          else (f.disconnectOffer (original.rollback store.point)).map (store, ·)
  | .flushOnline _ => none

def Request.sealHeight (f : OpenForest H) : Request H → Nat
  | .modifyBlock _ _ point _ =>
    match f.online with
    | none => 0
    | some store =>
      if store.pending ∨ point.height ≠ add32 store.point.height 1 then 0
      else if f.sealDue store then f.flushHeight
      else 0
  | .rollbackOnlineBlock _ => 0
  | .flushOnline _ => f.flushHeight

/-! ## What a request leaves -/

section Step

variable {f f' : OpenForest H} {store : OpenStore H} {files : List (WalFile H)} {log : List (WalTransaction H)}
  {highest : Nat}

/-- A store whose log retains what it should. -/
def OpenForest.RetainsLog (f : OpenForest H) (log : List (WalTransaction H)) (highest : Nat) : Prop :=
  ∃ store files, f.online = some store ∧ Retains store files log highest

theorem flushOnline_retains (h : f.RetainsLog log highest) (io : FlushIo) :
    (f.flushOnline io).2.RetainsLog log (max highest f.flushHeight) := by
  obtain ⟨store, files, hstore, hretains⟩ := h
  have hsame : f.RetainsLog log (max highest 0) := ⟨store, files, hstore, hretains.mono (le_max_left _ _)⟩
  unfold OpenForest.flushOnline OpenForest.flushHeight
  rw [hstore]
  dsimp only
  by_cases hpending : store.pending = true
  · rw [if_pos hpending, if_pos (Or.inl hpending)]
    exact hsame
  · rw [if_neg hpending]
    by_cases hclean : f.arena.dirty.size = 0 ∧ store.durableLsn = store.currentLsn
    · rw [if_pos hclean, if_pos (Or.inr hclean)]
      exact hsame
    · rw [if_neg hclean, if_neg (not_or.mpr ⟨hpending, hclean⟩)]
      obtain ⟨files', hretains'⟩ := hretains.sealDelta (a := f.arena) io
      exact ⟨_, files', rfl, hretains'⟩

theorem abandonBlock_online {before : OpenForest H} {message : String} {io : BlockIo H} {res : Res}
    (h : f.abandonBlock before message io = .ok (res, f')) : res.isOk = false ∧ f'.online = f.online := by
  unfold OpenForest.abandonBlock at h
  dsimp only at h
  split at h
  · cases h
    exact ⟨rfl, rfl⟩
  · split at h
    · cases h
    · cases h
      exact ⟨rfl, rfl⟩
    · cases h
      exact ⟨rfl, rfl⟩

theorem abandonRollback_online {rollback : WalTransaction H} {message : String} {io : BlockIo H}
    {res : Except String (ChainPoint H)} (h : f.abandonRollback rollback message io = .ok (res, f')) :
    res.isOk = false ∧ f'.online = f.online := by
  unfold OpenForest.abandonRollback at h
  dsimp only at h
  split at h
  · cases h
    exact ⟨rfl, rfl⟩
  · split at h
    · cases h
    · cases h
      exact ⟨rfl, rfl⟩
    · cases h
      exact ⟨rfl, rfl⟩

/-- What is left of a store behind a call that may append `offer`: `ok` says whether it did. -/
inductive OfferLeft (store : OpenStore H) (io : AppendIo) : Option (WalTransaction H) → Bool → OpenStore H → Prop
  | nothing : OfferLeft store io none false store
  | appended (t : WalTransaction H) : OfferLeft store io (some t) (store.append t io).1.isOk (store.append t io).2

theorem connectBlock_left {additions deletions : List H} {point : ChainPoint H} {io : BlockIo H} {res : Res}
    (hstore : f.online = some store) (h : f.connectBlock store additions deletions point io = .ok (res, f')) :
    ∃ store', f'.online = some store' ∧
      OfferLeft store io.append (f.connectOffer store additions deletions point) res.isOk store' := by
  unfold OpenForest.connectBlock at h
  unfold OpenForest.connectOffer
  cases hbegin : f.arena.beginTransaction with
  | error what =>
    rw [hbegin] at h
    cases h
  | ok arena =>
    rw [hbegin] at h
    dsimp only at h ⊢
    generalize ({ f with arena } : OpenForest H).toPackedForest.modify additions deletions = modified at h ⊢
    rcases modified with fault | ⟨message | u, modified⟩
    · cases h
    · obtain ⟨hres, honline⟩ := abandonBlock_online h
      rw [hres]
      exact ⟨store, honline.trans hstore, .nothing⟩
    · dsimp only at h ⊢
      set t := OpenForest.blockTransaction ({ f with arena } : OpenForest H) { f with toPackedForest := modified } store point with ht
      have hleft : OfferLeft store io.append (some t) (store.append t io.append).1.isOk (store.append t io.append).2 :=
        .appended t
      generalize store.append t io.append = appended at h hleft
      rcases appended with ⟨message | u, store'⟩
      · obtain ⟨hres, honline⟩ := abandonBlock_online h
        rw [hres]
        exact ⟨store', honline, hleft⟩
      · cases h
        exact ⟨store', rfl, hleft⟩

theorem disconnectBlock_left {rollback : WalTransaction H} {io : BlockIo H} {res : Except String (ChainPoint H)}
    (hstore : f.online = some store) (h : f.disconnectBlock store rollback io = .ok (res, f')) :
    ∃ store', f'.online = some store' ∧ OfferLeft store io.append (f.disconnectOffer rollback) res.isOk store' := by
  unfold OpenForest.disconnectBlock at h
  unfold OpenForest.disconnectOffer
  cases hbegin : f.arena.beginTransaction with
  | error what =>
    rw [hbegin] at h
    cases h
  | ok arena =>
    rw [hbegin] at h
    dsimp only at h ⊢
    generalize ({ f.toPackedForest with arena } : PackedForest H).applyPhysicalChanges rollback.changes true
      rollback.afterNext = applied at h ⊢
    rcases applied with fault | ⟨message | u, applied⟩
    · cases h
    · obtain ⟨hres, honline⟩ := abandonRollback_online h
      rw [hres]
      exact ⟨store, honline.trans hstore, .nothing⟩
    · dsimp only at h ⊢
      have hleft : OfferLeft store io.append (some rollback) (store.append rollback io.append).1.isOk
          (store.append rollback io.append).2 := .appended rollback
      generalize store.append rollback io.append = appended at h hleft
      rcases appended with ⟨message | u, store'⟩
      · obtain ⟨hres, honline⟩ := abandonRollback_online h
        rw [hres]
        exact ⟨store', honline, hleft⟩
      · cases h
        exact ⟨store', rfl, hleft⟩

def logAfter (log : List (WalTransaction H)) (ok : Bool) (offer : Option (OpenStore H × WalTransaction H)) :
    List (WalTransaction H) :=
  if ok then log ++ (offer.map fun offered => offered.1.numbered offered.2).toList else log

theorem OfferLeft.retains {io : AppendIo} {offer : Option (WalTransaction H)} {ok : Bool} {store' : OpenStore H}
    (h : OfferLeft store io offer ok store') (hretains : Retains store files log highest)
    (hoffer : ∀ t, offer = some t → store.Appendable t) :
    ∃ files', Retains store' files' (logAfter log ok (offer.map (store, ·))) highest := by
  cases h with
  | nothing => exact ⟨files, hretains⟩
  | appended t =>
    rcases hretains.append (hoffer t rfl) io with ⟨files', hok, hafter⟩ | ⟨files', message, herror, hafter⟩
    · rw [hok]
      exact ⟨files', hafter⟩
    · rw [herror]
      exact ⟨files', hafter⟩

theorem sealBeforeBlock_retains (h : f.RetainsLog log highest) (io : FlushIo) :
    (f.sealBeforeBlock store io).2.RetainsLog log (max highest (if f.sealDue store then f.flushHeight else 0)) := by
  unfold OpenForest.sealBeforeBlock
  by_cases hdue : f.sealDue store = true
  · rw [if_pos hdue, if_pos hdue]
    have hflush := flushOnline_retains h io
    generalize f.flushOnline io = r at hflush
    obtain ⟨message | u, f'⟩ := r
    · exact hflush
    · exact hflush
  · rw [if_neg hdue, if_neg hdue]
    obtain ⟨store, files, hstore, hretains⟩ := h
    exact ⟨store, files, hstore, hretains.mono (le_max_left _ _)⟩

theorem modifyBlock_retains (h : f.RetainsLog log highest) {additions deletions : List H} {point : ChainPoint H}
    {io : BlockIo H} {res : Res} (hrun : f.modifyBlock additions deletions point io = .ok (res, f'))
    (hoffer : ∀ s t, (Request.modifyBlock additions deletions point io).offer f = some (s, t) → s.Appendable t) :
    f'.RetainsLog (logAfter log res.isOk ((Request.modifyBlock additions deletions point io).offer f))
      (max highest ((Request.modifyBlock additions deletions point io).sealHeight f)) := by
  obtain ⟨store, files, hstore, hretains⟩ := h
  have hsame : f.RetainsLog log (max highest 0) := ⟨store, files, hstore, hretains.mono (le_max_left _ _)⟩
  unfold OpenForest.modifyBlock at hrun
  unfold Request.offer Request.sealHeight at *
  rw [hstore] at hrun hoffer ⊢
  dsimp only at hrun hoffer ⊢
  by_cases hpending : store.pending = true
  · rw [if_pos hpending] at hrun
    rw [if_pos (Or.inl hpending), if_pos (Or.inl hpending)]
    cases hrun
    exact hsame
  · rw [if_neg hpending] at hrun
    by_cases hheight : point.height ≠ add32 store.point.height 1
    · rw [if_pos hheight] at hrun
      rw [if_pos (Or.inr hheight), if_pos (Or.inr hheight)]
      cases hrun
      exact hsame
    · have hgo : ¬(store.pending = true ∨ point.height ≠ add32 store.point.height 1) := not_or.mpr ⟨hpending, hheight⟩
      rw [if_neg hheight] at hrun
      rw [if_neg hgo] at hoffer
      rw [if_neg hgo, if_neg hgo]
      have hseal : (f.sealBeforeBlock store io.flush).2.RetainsLog log
          (max highest (if f.sealDue store then f.flushHeight else 0)) :=
        sealBeforeBlock_retains ⟨store, files, hstore, hretains⟩ io.flush
      generalize f.sealBeforeBlock store io.flush = sealed at hrun hoffer hseal ⊢
      obtain ⟨message | u, f1⟩ := sealed
      · cases hrun
        exact hseal
      · obtain ⟨store1, files1, hstore1, hretains1⟩ := hseal
        dsimp only at hrun hoffer hstore1 ⊢
        rw [hstore1] at hrun hoffer ⊢
        obtain ⟨store', hstore', hleft⟩ := connectBlock_left hstore1 hrun
        obtain ⟨files', hretains'⟩ := hleft.retains hretains1 fun t ht => hoffer store1 t (by rw [Option.bind_some, ht]; rfl)
        exact ⟨store', files', hstore', hretains'⟩

theorem rollbackOnlineBlock_retains (h : f.RetainsLog log highest) {io : BlockIo H} {res : Except String (ChainPoint H)}
    (hrun : f.rollbackOnlineBlock io = .ok (res, f'))
    (hoffer : ∀ s t, (Request.rollbackOnlineBlock io).offer f = some (s, t) → s.Appendable t) :
    f'.RetainsLog (logAfter log res.isOk ((Request.rollbackOnlineBlock io).offer f)) highest := by
  obtain ⟨store, files, hstore, hretains⟩ := h
  have hsame : f.RetainsLog log highest := ⟨store, files, hstore, hretains⟩
  unfold OpenForest.rollbackOnlineBlock at hrun
  unfold Request.offer at *
  rw [hstore] at hrun hoffer ⊢
  dsimp only at hrun hoffer ⊢
  have hsync := hretains.sync
  by_cases hpending : store.pending = true
  · rw [if_pos hpending] at hrun
    rw [if_pos (Or.inl hpending)]
    cases hrun
    exact hsame
  · rw [if_neg hpending, if_neg (by rw [hsync]; decide)] at hrun
    by_cases hheight : store.point.height = 0
    · rw [if_pos hheight] at hrun
      rw [if_pos (Or.inr (Or.inr hheight))]
      cases hrun
      exact hsame
    · have hgo : ¬(store.pending = true ∨ store.config.syncWal = false ∨ store.point.height = 0) := by
        rw [hsync]
        exact not_or.mpr ⟨hpending, not_or.mpr ⟨by decide, hheight⟩⟩
      rw [if_neg hheight] at hrun
      rw [if_neg hgo] at hoffer ⊢
      cases hread : store.readConnectTransaction store.point with
      | error message =>
        rw [hread] at hrun
        cases hrun
        exact hsame
      | ok original =>
        rw [hread] at hrun hoffer
        dsimp only at hrun hoffer ⊢
        by_cases hpoint : original.point ≠ store.point
        · rw [if_pos hpoint] at hrun
          rw [if_pos hpoint]
          cases hrun
          exact hsame
        · rw [if_neg hpoint] at hrun hoffer ⊢
          obtain ⟨store', hstore', hleft⟩ := disconnectBlock_left hstore hrun
          obtain ⟨files', hretains'⟩ := hleft.retains hretains fun t ht => hoffer store t (by rw [ht]; rfl)
          exact ⟨store', files', hstore', hretains'⟩

theorem Request.perform_retains (h : f.RetainsLog log highest) {request : Request H} {ok : Bool}
    (hrun : request.perform f = .ok (ok, f')) (hoffer : ∀ s t, request.offer f = some (s, t) → s.Appendable t) :
    f'.RetainsLog (logAfter log ok (request.offer f)) (max highest (request.sealHeight f)) := by
  cases request with
  | modifyBlock additions deletions point io =>
    cases hcall : f.modifyBlock additions deletions point io with
    | error fault =>
      rw [Request.perform, hcall] at hrun
      cases hrun
    | ok result =>
      rw [Request.perform, hcall] at hrun
      cases hrun
      exact modifyBlock_retains h hcall hoffer
  | rollbackOnlineBlock io =>
    cases hcall : f.rollbackOnlineBlock io with
    | error fault =>
      rw [Request.perform, hcall] at hrun
      cases hrun
    | ok result =>
      rw [Request.perform, hcall] at hrun
      cases hrun
      obtain ⟨store, files, hstore, hretains⟩ := rollbackOnlineBlock_retains h hcall hoffer
      exact ⟨store, files, hstore, hretains.mono (le_max_left _ _)⟩
  | flushOnline io =>
    cases hrun
    have hflush := flushOnline_retains h io
    unfold logAfter Request.offer
    cases (f.flushOnline io).1.isOk with
    | true =>
      show (f.flushOnline io).2.RetainsLog (log ++ []) (max highest f.flushHeight)
      rw [List.append_nil]
      exact hflush
    | false => exact hflush

end Step

/-! ## Runs -/

/-- A store that has just gone online, with the log enabled. -/
def OpenForest.Fresh (f : OpenForest H) : Prop :=
  ∃ store, f.online = some store ∧ store.config.syncWal = true ∧ store.directory.segments = [] ∧ store.walFd = none

/-- Requests one after the other, where every append meets `Allowed`: the forest, what was appended, and the highest tip
at which a flush ran. -/
inductive Run (Allowed : OpenStore H → WalTransaction H → Prop) (start : OpenForest H) :
    OpenForest H → List (WalTransaction H) → Nat → Prop
  | start : Run Allowed start start [] 0
  | request {f f' : OpenForest H} {log : List (WalTransaction H)} {highest : Nat} {request : Request H} {ok : Bool}
      (run : Run Allowed start f log highest) (allowed : ∀ s t, request.offer f = some (s, t) → Allowed s t)
      (perform : request.perform f = .ok (ok, f')) :
      Run Allowed start f' (logAfter log ok (request.offer f)) (max highest (request.sealHeight f))

theorem Run.retains {start f : OpenForest H} {log : List (WalTransaction H)} {highest : Nat} (hstart : start.Fresh)
    (h : Run OpenStore.Appendable start f log highest) : f.RetainsLog log highest := by
  induction h with
  | start =>
    obtain ⟨store, hstore, hsync, hsegments, hfd⟩ := hstart
    refine ⟨store, [], hstore, hsync, ⟨hsegments, .nil, ?_, ?_, ?_⟩, ?_⟩
    · rintro file ⟨⟩
    · rintro file ⟨⟩
    · intro start hopen
      rw [hfd] at hopen
      cases hopen
    · intro point t _ _ hlog
      exact hlog
  | request run allowed perform ih => exact Request.perform_retains ih perform allowed

/-- **Retention.** Pruning takes no record above the durable number. If no append goes behind the bytes of one that failed,
the record of the last time that a block was connected is found as long as the block may be rolled back. -/
theorem wal_retention (H : Type) [StoredHash H] [DecidableEq H] :
    (∀ (store : OpenStore H) io, ∀ segment ∈ store.directory.segments,
      segment ∉ (store.pruneWal io).2.directory.segments → ∀ (records : List (WalTransaction H)) tail,
        (∀ t ∈ records, t.Storable) → segment.2 = records.flatMap serializeWal ++ tail →
          ∀ t ∈ records, t.lsn ≤ store.durableLsn) ∧
    ∀ (start f : OpenForest H) log highest, start.Fresh → Run OpenStore.Appendable start f log highest →
      ∃ store, f.online = some store ∧ ∀ (point : ChainPoint H) t,
        store.chainHashes[point.height]? = some point.blockHash →
          highest ≤ point.height + store.config.undoDepth → latestConnect point log = some t →
            store.readConnectTransaction point = .ok t.stored := by
  refine ⟨fun store io segment hmem hgone records tail hstorable hbytes =>
    lsn_le_of_pruned hmem hgone hstorable hbytes, fun start f log highest hstart hrun => ?_⟩
  obtain ⟨store, files, hstore, hretains⟩ := hrun.retains hstart
  exact ⟨store, hstore, fun point t hactive hdepth hlog => hretains.read hactive hdepth hlog⟩

end Requests

/-! ## From an empty forest -/

def tornForest : OpenForest ByteHash where
  arena := { NodeArena.new with mapped := true }
  index := .new
  roots := .replicate 64 noNode
  numLeaves := 0
  online := some {
    config := ⟨1024, 2 ^ 20, 6, true, false, 2, 4, 50⟩
    base := ⟨1, 1, 0, ⟨0, .zero⟩, 0, 0, 0, 1024, 1, .replicate 64 noNode⟩
    point := ⟨0, .zero⟩
    chainHashes := [.zero]
    currentLsn := 0
    durableLsn := 0
    durableLiveNodes := 0
    directory := ⟨"online", [], []⟩
    pending := false
    deltaGeneration := 0
    walFd := none
    walSegmentSize := 0
    redoWalBytes := 0 }

def workingIo : BlockIo ByteHash where
  flush := ⟨⟨.ok (), .ok ()⟩, ⟨.ok (), .ok ()⟩, fun _ => .ok (), .ok (), ⟨fun _ => true, .ok (), .ok ()⟩⟩
  append := ⟨.ok (), true, .ok (), none, .ok ()⟩
  scratch := .ok ()
  left := tornForest.toPackedForest

def blockOne : ChainPoint ByteHash := ⟨1, leafHash 1⟩

def OpenForest.afterwards (f : OpenForest ByteHash) (request : Request ByteHash) : OpenForest ByteHash :=
  match request.perform f with
  | .ok (_, f') => f'
  | .error _ => f

theorem OpenForest.perform_eq {f : OpenForest ByteHash} {request : Request ByteHash} {ok : Bool}
    (h : (request.perform f).toOption.map Prod.fst = some ok) : request.perform f = .ok (ok, f.afterwards request) := by
  unfold OpenForest.afterwards
  cases hrun : request.perform f with
  | error fault =>
    rw [hrun] at h
    cases h
  | ok result =>
    rw [hrun] at h
    rw [← Option.some.inj h]

theorem Run.answers {f : OpenForest ByteHash} {log : List (WalTransaction ByteHash)} {highest : Nat}
    (run : Run OpenStore.Appendable tornForest f log highest) (request : Request ByteHash) (ok : Bool)
    (hoffer : (request.offer f).all (fun offered => offered.1.Appendable offered.2) = true)
    (hperform : (request.perform f).toOption.map Prod.fst = some ok) :
    Run OpenStore.Appendable tornForest (f.afterwards request) (logAfter log ok (request.offer f))
      (max highest (request.sealHeight f)) := by
  refine run.request (fun s t hsome => ?_) (OpenForest.perform_eq hperform)
  rw [hsome] at hoffer
  exact of_decide_eq_true hoffer

/-- A block creates two leaves, the next one spends the first of them. A flush comes behind both, and the second block is
taken back: the record of the first one is still there. -/
theorem wal_retention_rolledBack : ∃ f log highest store t, Run OpenStore.Appendable tornForest f log highest ∧
    f.online = some store ∧ store.point = blockOne ∧ latestConnect blockOne log = some t ∧ t.changes ≠ [] ∧
      store.readConnectTransaction blockOne = .ok t.stored := by
  set first : Request ByteHash := .modifyBlock [leafHash 5, leafHash 6] [] blockOne workingIo
  set second : Request ByteHash := .modifyBlock [] [leafHash 5] ⟨2, leafHash 2⟩ workingIo
  set flush : Request ByteHash := .flushOnline workingIo.flush
  set rollback : Request ByteHash := .rollbackOnlineBlock workingIo
  set f1 := tornForest.afterwards first
  set f2 := f1.afterwards second
  set f3 := f2.afterwards flush
  have hfirst := Run.start.answers first true (by decide +kernel) (by decide +kernel)
  have hsecond := hfirst.answers second true (by decide +kernel) (by decide +kernel)
  have hflush := hsecond.answers flush true (by decide +kernel) (by decide +kernel)
  have hrun := hflush.answers rollback true (by decide +kernel) (by decide +kernel)
  obtain ⟨store, hstore, hretained⟩ := (wal_retention ByteHash).2 _ _ _ _ ⟨_, rfl, rfl, rfl, rfl⟩ hrun
  have hat : (f3.afterwards rollback).online.all (fun store => decide (store.point = blockOne ∧
      store.chainHashes[blockOne.height]? = some blockOne.blockHash ∧
        max (max (max (max 0 (first.sealHeight tornForest)) (second.sealHeight f1)) (flush.sealHeight f2))
          (rollback.sealHeight f3) ≤ blockOne.height + store.config.undoDepth)) = true := by
    decide +kernel
  have hlog : (latestConnect blockOne (logAfter (logAfter (logAfter (logAfter [] true (first.offer tornForest)) true
      (second.offer f1)) true (flush.offer f2)) true (rollback.offer f3))).any (fun t => decide (¬t.changes.isEmpty)) := by
    decide +kernel
  rw [hstore] at hat
  obtain ⟨hpoint, hactive, hdepth⟩ := of_decide_eq_true hat
  obtain ⟨t, ht, hchanges⟩ := (Option.any_eq_true _ _).mp hlog
  exact ⟨_, _, _, store, t, hrun, hstore, hpoint, ht, fun hnil => of_decide_eq_true hchanges (List.isEmpty_iff.mpr hnil),
    hretained blockOne t hactive hdepth ht⟩


/-! ## An append behind the bytes of one that failed -/

/-- The first block, without leaves. Everything works but for the write. -/
def connectFirst (writeError : Option (Nat × String)) : Request ByteHash :=
  .modifyBlock [] [] blockOne { workingIo with append := ⟨.ok (), true, .ok (), writeError, .ok ()⟩ }

/-- A write that stops after 20 bytes, and the same block again: its record is not found. -/
theorem torn_append_hides : tornForest.Fresh ∧ ∃ f log highest store t,
    Run (fun _ _ => True) tornForest f log highest ∧ f.online = some store ∧
      store.chainHashes[blockOne.height]? = some blockOne.blockHash ∧
        highest ≤ blockOne.height + store.config.undoDepth ∧ latestConnect blockOne log = some t ∧
          (store.readConnectTransaction blockOne).isOk = false := by
  set torn := connectFirst (some (20, "write: No space left on device"))
  set whole := connectFirst none
  set f1 := tornForest.afterwards torn
  have hfirst : torn.perform tornForest = .ok (false, f1) :=
    OpenForest.perform_eq (by decide +kernel)
  have hsecond : whole.perform f1 = .ok (true, f1.afterwards whole) :=
    OpenForest.perform_eq (by decide +kernel)
  have hstart : Run (fun (_ : OpenStore ByteHash) _ => True) tornForest tornForest [] 0 := .start
  have hrun := (hstart.request (fun _ _ _ => trivial) hfirst).request (fun _ _ _ => trivial) hsecond
  have hstore : (f1.afterwards whole).online.any (fun store =>
      decide (store.chainHashes[blockOne.height]? = some blockOne.blockHash ∧
        max (max 0 (torn.sealHeight tornForest)) (whole.sealHeight f1) ≤ blockOne.height + store.config.undoDepth ∧
          (store.readConnectTransaction blockOne).isOk = false)) = true := by
    decide +kernel
  have hlog : (latestConnect blockOne (logAfter (logAfter [] false (torn.offer tornForest)) true
      (whole.offer f1))).isSome := by
    decide +kernel
  obtain ⟨store, hsome, hfacts⟩ := (Option.any_eq_true _ _).mp hstore
  obtain ⟨hactive, hdepth, hread⟩ := of_decide_eq_true hfacts
  obtain ⟨t, ht⟩ := Option.isSome_iff_exists.mp hlog
  exact ⟨⟨_, rfl, rfl, rfl, rfl⟩, _, _, _, store, t, hrun, hsome, hactive, hdepth, ht, hread⟩

end UtreexoBridge
