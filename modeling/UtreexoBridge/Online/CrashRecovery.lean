import UtreexoBridge.Online.CrashRun
import UtreexoBridge.Online.Enable

/-!
# Crash recovery

An online forest takes blocks, takes them back and flushes, and goes down in the
middle of a call. Opening its directory finds the forest that was acknowledged,
or the one behind the record that was being written.
-/

namespace UtreexoBridge

open Bytes

/-! ## Opening again -/

section Reopen

variable {H : Type} [StoredHash H] [DecidableEq H] {base : OnlineBase H} {config : OnlineForestConfig} {highest : Nat}
  {d : Directory H} {runs : List (DeltaRun H)} {generation durable : Nat} {files : List (WalFile H)} {v : ForestView H}
  {f : OpenForest H}

theorem rebooked_validate {s : OpenStore H} {g g' : PackedForest H} {cache : Option (ValidatedCache H)}
    (hok : s.validate g cache = .ok (.ok g')) : g.Rebooked g' := by
  unfold OpenStore.validate at hok
  dsimp only at hok
  split at hok
  · rename_i hhit
    cases hok
    obtain ⟨hload, -⟩ := Option.filter_eq_some_iff.mp hhit
    obtain ⟨_, -, hload⟩ := Option.bind_eq_some_iff.mp hload
    exact rebooked_loadValidatedStartupCache hload
  · split at hok
    · cases hok
    · cases hok
    rename_i hrebuild
    split at hok
    · cases hok
    · cases hok
      exact rebooked_rebuildIndexAndValidate hrebuild

theorem Durable.reopen (h : Durable base config.undoDepth highest d runs generation durable files v) (hbase : base.Sound)
    {cache : Option (ValidatedCache H)} (hopen : openOnline base d cache config = .ok (.ok f)) :
    ∃ s, f.view s = v ∧ Recoverable base config highest f s (files.map WalFile.whole) := by
  obtain ⟨s, g, hrecover, hrecovered, hview⟩ := h.recover hbase config
  unfold openOnline at hopen
  rw [hrecover] at hopen
  dsimp only at hopen
  split at hopen
  · cases hopen
  split at hopen
  · cases hopen
  split at hopen
  · cases hopen
  split at hopen
  · cases hopen
  split at hopen
  · cases hopen
  · cases hopen
  rename_i g' hvalidate
  split at hopen
  · cases hopen
  cases hopen
  obtain ⟨freeStack, freeSet, live, index, rfl⟩ := rebooked_validate hvalidate
  refine ⟨s, hview, rfl, hrecovered.config, hrecovered.superblock, ?_, ?_, fun start hstart => ?_, ?_⟩
  · exact ⟨hrecovered.arena.mapped, hrecovered.arena.files, hrecovered.arena.capacity, hrecovered.arena.baseNext⟩
  · have hwhole := h.whole
    rw [← hrecovered.directory, ← hrecovered.deltaRuns, ← hrecovered.deltaGeneration, ← hrecovered.durableLsn,
      ← hview] at hwhole
    exact hwhole
  · rw [hrecovered.walFd] at hstart
    cases hstart
  · intro segment hsegment
    rw [hrecovered.directory] at hsegment
    obtain ⟨file, hfile, rfl⟩ := List.mem_map.mp hsegment
    obtain ⟨other, hother, rfl⟩ := List.mem_map.mp hfile
    exact ⟨other.records, (h.wellFormed other hother).storable, List.append_nil _⟩

theorem durable_empty (hbase : base.Sound) (depth : Nat) (path : String) :
    Durable base depth 0 ⟨path, [], []⟩ [] 0 base.superblock.baseLsn [] (base.sealedView []) := by
  refine ⟨⟨⟨[], rfl, rfl, ?_⟩, .nil, .base⟩, rfl, .nil, ?_, ?_, RedoLog.Machine.covers_self ?_, List.prefix_refl _,
    hbase.tip, hbase.height, hbase.next, ?_, fun _ => base.superblock.numLeaves, rfl, ?_⟩
  · rintro run ⟨⟩
  · rintro file ⟨⟩
  · rintro file ⟨⟩
  · rintro t ⟨⟩
  · rintro t ⟨⟩
  · rintro point t - - ⟨⟩

/-- What opening `d` finds, with any startup cache. -/
def OnlineBase.Finds (base : OnlineBase H) (config : OnlineForestConfig) (d : Directory H) (v : ForestView H) : Prop :=
  ∃ s g, base.recover config d = .ok (s, g) ∧ ForestView.of g s s.currentLsn = v ∧
    ∀ cache f, openOnline base d cache config = .ok (.ok f) → ∃ s, f.online = some s ∧ f.view s = v

theorem Durable.finds (h : Durable base config.undoDepth highest d runs generation durable files v) (hbase : base.Sound) :
    base.Finds config d v := by
  obtain ⟨s, g, hrecover, -, hview⟩ := h.recover hbase config
  refine ⟨s, g, hrecover, hview, fun cache f hopen => ?_⟩
  obtain ⟨s', hview', hrecoverable⟩ := h.reopen hbase hopen
  exact ⟨s', hrecoverable.online, hview'⟩

end Reopen

/-! ## Going online -/

section Published

variable {H : Type} [StoredHash H] [DecidableEq H] {base : OnlineBase H} {config : OnlineForestConfig}
  {point : ChainPoint H} {chainHashes : List H} {cache : ValidatedCache H}

/-- The files behind a forest that has just gone online. -/
def PackedForest.Impl.onlineBase {H : Type} (g : PackedForest.Impl H) : Option (OnlineBase H) :=
  g.online.map fun store => ⟨store.base, store.chainHashes, g.arena.files⟩

/-- An arena with its records in RAM. -/
structure NodeArena.InRam {H : Type} (a : NodeArena H) : Prop where
  mapped : a.mapped = false
  dirty : a.dirty = ∅
  deltaRuns : a.deltaRuns = []

structure PackedForest.Impl.Over (base : OnlineBase H) (config : OnlineForestConfig) (g : PackedForest.Impl H) : Prop where
  online : g.online = some (.new config base.superblock base.chainHashes)
  count : base.superblock.chainHashCount = base.chainHashes.length
  arena : g.arena.Over base
  dirty : g.arena.dirty = ∅
  deltaRuns : g.arena.deltaRuns = []
  next : g.arena.next = base.superblock.next
  roots : g.roots = base.superblock.roots
  numLeaves : g.numLeaves = base.superblock.numLeaves

theorem PackedForest.Impl.Over.recoverable {g : PackedForest.Impl H} (h : g.Over base config) (hbase : base.Sound)
    (path : String) : ∃ s, Recoverable base config 0 (g.opened path) s [] := by
  have hchain : base.chain = base.chainHashes := by
    rw [OnlineBase.chain, h.count, List.take_length]
  refine ⟨_, by rw [PackedForest.Impl.opened, h.online]; rfl, rfl, rfl, h.arena, ?_, fun start hstart => ?_, ?_⟩
  · have hview : base.sealedView [] = ForestView.of g.toPackedForest
        { OnlineStore.new config base.superblock base.chainHashes with
          directory := ⟨path, [], []⟩, pending := config.deferPublish, deltaGeneration := 0, walFd := none,
          walSegmentSize := 0, redoWalBytes := 0 } base.superblock.baseLsn := by
      unfold OnlineBase.sealedView ForestView.of
      rw [h.arena.read_eq (base.overlaid_over []) h.deltaRuns.symm h.dirty.symm, h.next, h.roots, h.numLeaves, hchain]
      rfl
    have hdurable := durable_empty hbase config.undoDepth path
    rw [hview] at hdurable
    rw [show (g.opened path).arena.deltaRuns = [] from h.deltaRuns]
    exact hdurable
  · cases hstart
  · rintro segment ⟨⟩

theorem over_enableOnline {f g : PackedForest.Impl H} (hram : f.arena.InRam)
    (hok : f.enableOnline point chainHashes config = .ok (g, cache)) (hwritten : g.onlineBase = some base) :
    g.Over base config := by
  obtain ⟨-, hpublished⟩ := enableOnline_published hok
  obtain rfl := mapPublished_eq_ok hpublished
  cases hwritten
  exact ⟨rfl, rfl, ⟨rfl, rfl, rfl, rfl⟩, hram.dirty, hram.deltaRuns, rfl, rfl, rfl⟩

theorem over_readForestOnline {bytes : List UInt8} {g : PackedForest.Impl H}
    (hok : readForestOnline bytes point chainHashes config = .ok (.ok (g, cache)))
    (hwritten : g.onlineBase = some base) : g.Over base config := by
  unfold readForestOnline at hok
  dsimp only at hok
  split at hok
  · cases hok
  split at hok
  · cases hok
  split at hok
  · cases hok
  split at hok
  · cases hok
  · cases hok
  rename_i hrebuild
  split at hok
  · cases hok
  split at hok
  · cases hok
  cases hok
  obtain ⟨freeStack, freeSet, live, index, rfl⟩ := rebooked_rebuildIndexAndValidate hrebuild
  cases hwritten
  exact ⟨rfl, rfl, ⟨rfl, rfl, rfl, rfl⟩, rfl, rfl, rfl, rfl, rfl⟩

end Published

/-! ## Lives -/

section Lives

variable {H : Type} [StoredHash H] [DecidableEq H] {base : OnlineBase H} {config : OnlineForestConfig} {highest : Nat}
  {f f' : OpenForest H} {request : Request H} {ok : Bool}

/-- The forests that are opened over `base`, and the highest tip at which a flush ran. A call that fails ends in a crash,
and so may any other. The startup cache may be any. -/
inductive Lived (base : OnlineBase H) (config : OnlineForestConfig) : OpenForest H → Nat → Prop
  | enabled {path : String} {f g : PackedForest.Impl H} {point : ChainPoint H} {chainHashes : List H}
      {cache : ValidatedCache H} (ram : f.arena.InRam)
      (enabled : f.enableOnline point chainHashes config = .ok (g, cache)) (written : g.onlineBase = some base) :
      Lived base config (g.opened path) 0
  | imported {path : String} {bytes : List UInt8} {g : PackedForest.Impl H} {point : ChainPoint H} {chainHashes : List H}
      {cache : ValidatedCache H} (read : readForestOnline bytes point chainHashes config = .ok (.ok (g, cache)))
      (written : g.onlineBase = some base) : Lived base config (g.opened path) 0
  | opened {path : String} {f : OpenForest H} {cache : Option (ValidatedCache H)}
      (opened : openOnline base ⟨path, [], []⟩ cache config = .ok (.ok f)) : Lived base config f 0
  | acknowledged {f f' : OpenForest H} {highest : Nat} {request : Request H} (lived : Lived base config f highest)
      (admitted : request.Admitted highest f) (perform : request.perform f = .ok (true, f')) :
      Lived base config f' (max highest (request.sealHeight f))
  | crashed {f f' f'' : OpenForest H} {s : OpenStore H} {highest : Nat} {request : Request H} {ok : Bool}
      {cache : Option (ValidatedCache H)} (lived : Lived base config f highest) (admitted : request.Admitted highest f)
      (perform : request.perform f = .ok (ok, f')) (online : f'.online = some s)
      (opened : openOnline base s.directory cache config = .ok (.ok f'')) :
      Lived base config f'' (max highest (request.sealHeight f))
  | restarted {f f' : OpenForest H} {s : OpenStore H} {highest : Nat} {cache : Option (ValidatedCache H)}
      (lived : Lived base config f highest) (online : f.online = some s)
      (opened : openOnline base s.directory cache config = .ok (.ok f')) : Lived base config f' highest

theorem Lived.recoverable (hbase : base.Sound) (hsync : config.syncWal = true) (h : Lived base config f highest) :
    ∃ s files, Recoverable base config highest f s files := by
  induction h with
  | @enabled path f g point chainHashes cache ram enabled written =>
    obtain ⟨s, hrecoverable⟩ := (over_enableOnline ram enabled written).recoverable hbase path
    exact ⟨s, _, hrecoverable⟩
  | @imported path bytes g point chainHashes cache read written =>
    obtain ⟨s, hrecoverable⟩ := (over_readForestOnline read written).recoverable hbase path
    exact ⟨s, _, hrecoverable⟩
  | @opened path f cache opened =>
    obtain ⟨s, -, hrecoverable⟩ := (durable_empty hbase config.undoDepth path).reopen hbase opened
    exact ⟨s, _, hrecoverable⟩
  | acknowledged lived admitted perform ih =>
    obtain ⟨s, files, hrecoverable⟩ := ih
    obtain ⟨s', hleft⟩ := hrecoverable.perform hbase hsync admitted perform
    exact ⟨s', hleft.done rfl⟩
  | crashed lived admitted perform online opened ih =>
    obtain ⟨s, files, hrecoverable⟩ := ih
    obtain ⟨s', hleft⟩ := hrecoverable.perform hbase hsync admitted perform
    obtain rfl := Option.some.inj (hleft.online.symm.trans online)
    obtain ⟨_, _, _, _, v, hdurable, -⟩ := hleft.stands
    obtain ⟨s'', -, hrecoverable'⟩ := hdurable.reopen hbase opened
    exact ⟨s'', _, hrecoverable'⟩
  | restarted lived online opened ih =>
    obtain ⟨s, files, hrecoverable⟩ := ih
    obtain rfl := Option.some.inj (hrecoverable.online.symm.trans online)
    obtain ⟨s', -, hrecoverable'⟩ := hrecoverable.durable.reopen hbase opened
    exact ⟨s', _, hrecoverable'⟩

/-- **Crash recovery.** Whatever was called and however often the forest went down before, the directory that a call leaves
is opened at the forest in front of the call or behind its record. After success it is the forest in memory. -/
theorem crash_recovery (hbase : base.Sound) (hsync : config.syncWal = true) (hlived : Lived base config f highest)
    (hadmitted : request.Admitted highest f) (hrun : request.perform f = .ok (ok, f')) :
    ∃ s s' v, f.online = some s ∧ f'.online = some s' ∧ request.LeadsTo f s v ∧ (ok = true → v = f'.view s') ∧
      base.Finds config s'.directory v := by
  obtain ⟨s, files, hrecoverable⟩ := hlived.recoverable hbase hsync
  obtain ⟨s', hleft⟩ := hrecoverable.perform hbase hsync hadmitted hrun
  obtain ⟨_, _, _, _, v, hdurable, hleads⟩ := hleft.stands
  refine ⟨s, s', v, hrecoverable.online, hleft.online, hleads, fun hok => ?_, hdurable.finds hbase⟩
  -- the directory is opened at one view only
  obtain ⟨files', hrecoverable'⟩ := hleft.done hok
  obtain ⟨_, _, hfound, -, hview⟩ := hdurable.recover hbase config
  obtain ⟨_, _, hfound', -, hview'⟩ := hrecoverable'.durable.recover hbase config
  cases hfound.symm.trans hfound'
  exact hview.symm.trans hview'

end Lives

/-! ## A block that is lost -/

def bareConfig : OnlineForestConfig := ⟨1024, 2 ^ 20, 6, true, false, 2, 4, 50⟩

def bareBase : OnlineBase ByteHash where
  superblock := PackedForest.new.superblock ⟨0, .zero⟩ [.zero]
  chainHashes := [.zero]
  files := (PackedForest.new (H := ByteHash)).arena.writeNative

def bareOnline : Except String (PackedForest.Impl ByteHash × ValidatedCache ByteHash) :=
  PackedForest.Impl.enableOnline ⟨.new, none⟩ ⟨0, .zero⟩ [.zero] bareConfig

def bareForest : OpenForest ByteHash :=
  match bareOnline with
  | .ok (g, _) => g.opened "online"
  | .error _ => tornForest

def bareCache : Option (ValidatedCache ByteHash) := bareOnline.toOption.map (·.2)

def firstStore : Option (OpenStore ByteHash) := (bareForest.afterwards (connectFirst none)).online

def firstReopened : OpenForest ByteHash :=
  match firstStore.map fun s => openOnline bareBase s.directory bareCache bareConfig with
  | some (.ok (.ok f)) => f
  | _ => tornForest

/-- The second block, as far as the first 20 bytes of its record. -/
def connectSecond : Request ByteHash :=
  .modifyBlock [] [] ⟨2, leafHash 2⟩
    { workingIo with append := ⟨.ok (), true, .ok (), some (20, "write: No space left on device"), .ok ()⟩ }

theorem lived_bareForest : Lived bareBase bareConfig bareForest 0 := by
  have hok : bareOnline.isOk = true := by decide +kernel
  unfold bareForest
  cases honline : bareOnline with
  | error message =>
    rw [honline] at hok
    cases hok
  | ok result =>
    refine Lived.enabled ⟨rfl, rfl, rfl⟩ honline ?_
    obtain ⟨-, hpublished⟩ := enableOnline_published honline
    rw [mapPublished_eq_ok hpublished]
    rfl

theorem openOnline_first : ∃ s, firstStore = some s ∧
    openOnline bareBase s.directory bareCache bareConfig = .ok (.ok firstReopened) := by
  have hok : (firstStore.bind fun s =>
      (openOnline bareBase s.directory bareCache bareConfig).toOption.map (·.isOk)) = some true := by decide +kernel
  obtain ⟨s, hs, hopen⟩ := Option.bind_eq_some_iff.mp hok
  refine ⟨s, hs, ?_⟩
  unfold firstReopened
  rw [hs, Option.map_some]
  generalize openOnline bareBase s.directory bareCache bareConfig = result at hopen ⊢
  rcases result with fault | ⟨message | f⟩
  · cases hopen
  · cases hopen
  · rfl

theorem Request.admitted_of {f : OpenForest ByteHash} {request : Request ByteHash} {highest : Nat}
    (hoffer : (request.offer f).all (fun offered => offered.1.Offers offered.2) = true)
    (hseals : request.seals f = false) (hrolls : request.rollsBack = false) : request.Admitted highest f := by
  refine ⟨fun s t hsome => ?_, fun h => ?_, fun h => ?_⟩
  · rw [hsome] at hoffer
    exact of_decide_eq_true hoffer
  · rw [hrolls] at h
    cases h
  · rw [hseals] at h
    cases h

/-- The first block stands, the forest is opened from its cache, and the second block is in the log in part. -/
theorem crash_recovery_torn : ∃ f highest f' s s' v, Lived bareBase bareConfig f highest ∧
    connectSecond.perform f = .ok (false, f') ∧ f.online = some s ∧ f'.online = some s' ∧
      connectSecond.LeadsTo f s v ∧ bareBase.Finds bareConfig s'.directory v := by
  set first := connectFirst none
  have hsound : bareBase.Sound := ⟨by decide, by decide, by decide, by decide⟩
  have hfirst : first.perform bareForest = .ok (true, bareForest.afterwards first) :=
    OpenForest.perform_eq (by decide +kernel)
  have hsecond : connectSecond.perform firstReopened = .ok (false, firstReopened.afterwards connectSecond) :=
    OpenForest.perform_eq (by decide +kernel)
  have hadmitted : first.Admitted 0 bareForest :=
    Request.admitted_of (by decide +kernel) (by decide +kernel) rfl
  obtain ⟨_, hstore, hopened⟩ := openOnline_first
  have hlived := (lived_bareForest.acknowledged hadmitted hfirst).restarted hstore hopened
  obtain ⟨s, s', v, hs, hs', hleads, -, hfinds⟩ := crash_recovery hsound rfl hlived
    (Request.admitted_of (by decide +kernel) (by decide +kernel) rfl) hsecond
  exact ⟨firstReopened, _, _, s, s', v, hlived, hsecond, hs, hs', hleads, hfinds⟩

end UtreexoBridge
