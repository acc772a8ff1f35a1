import UtreexoBridge.Online.Recovery
import UtreexoBridge.Online.Segments
import UtreexoBridge.RedoLog

/-!
# Replaying the log

What a crash must not lose is one value, the view of a forest. A record of the
log takes one view to the next, and the recovery applies them one by one.
-/

namespace UtreexoBridge

open Bytes

/-! ## Views -/

/-- What the files of an online forest stand for. -/
@[ext] structure ForestView (H : Type) where
  read : Nat → NodeRecord H
  next : Nat
  roots : Vector Nat 64
  numLeaves : Nat
  point : ChainPoint H
  chainHashes : List H
  lsn : Nat

namespace ForestView

variable {H : Type}

def of [ForestHash H] (f : PackedForest H) (s : OpenStore H) (lsn : Nat) : ForestView H :=
  ⟨f.arena.read, f.arena.next, f.roots, f.numLeaves, s.point, s.chainHashes, lsn⟩

/-- The same up to what stands in free slots. -/
structure Same (v v' : ForestView H) : Prop where
  next : v'.next = v.next
  roots : v'.roots = v.roots
  numLeaves : v'.numLeaves = v.numLeaves
  point : v'.point = v.point
  chainHashes : v'.chainHashes = v.chainHashes
  lsn : v'.lsn = v.lsn
  read : ∀ id < v.next, v'.read id = v.read id ∨ (v'.read id).type = .free ∧ (v.read id).type = .free

theorem Same.refl (v : ForestView H) : v.Same v := ⟨rfl, rfl, rfl, rfl, rfl, rfl, fun _ _ => Or.inl rfl⟩

def apply (v : ForestView H) (t : WalTransaction H) : ForestView H where
  read := t.changes.foldl (fun read change => Function.update read change.id change.after) v.read
  next := t.afterNext
  roots := t.afterRoots
  numLeaves := t.afterNumLeaves
  point := t.point
  chainHashes := t.chainAfter v.chainHashes
  lsn := t.lsn

variable [DecidableEq H]

/-- The transaction belongs on top of the view. -/
def accepts (v : ForestView H) (t : WalTransaction H) : Bool :=
  decide (t.lsn = v.lsn + 1) && (t.extendsChain v.point v.chainHashes && decide (t.beforeNumLeaves = v.numLeaves))

theorem accepts_iff {v : ForestView H} {t : WalTransaction H} : v.accepts t = true ↔
    t.lsn = v.lsn + 1 ∧ t.extendsChain v.point v.chainHashes = true ∧ t.beforeNumLeaves = v.numLeaves := by
  rw [accepts, Bool.and_eq_true, Bool.and_eq_true, decide_eq_true_eq, decide_eq_true_eq]

/-- The transactions of the log as the steps of a machine. -/
def redo (H : Type) [DecidableEq H] : RedoLog.Machine (ForestView H) (WalTransaction H) where
  number t := t.lsn
  reached v := v.lsn
  accepts v t := v.accepts t
  apply v t := v.apply t
  number_eq _ _ h := (accepts_iff.mp h).1
  reached_apply _ _ _ := rfl

end ForestView

section Replay

variable {H : Type} [StoredHash H] [DecidableEq H]

omit [StoredHash H] [DecidableEq H] in
/-- The flags that a record does not store play no part. -/
theorem ForestView.apply_stored (v : ForestView H) (t : WalTransaction H) : v.apply t.stored = v.apply t := by
  unfold ForestView.apply WalTransaction.stored
  dsimp only
  rw [List.foldl_map]
  rfl

/-! ## Records -/

omit [DecidableEq H] in
theorem NodeArena.read_applyRecovered {a : NodeArena H} (h : a.mapped = true) (id : Nat) (record : NodeRecord H) :
    (a.applyRecovered id record).read = Function.update a.read id record := by
  funext j
  have hrun : (a.applyRecovered id record).findDeltaRecord j = a.findDeltaRecord j := rfl
  have hbase : (a.applyRecovered id record).readPhysicalBase j = a.readPhysicalBase j := rfl
  have hmapped : (a.applyRecovered id record).mapped = true := h
  rw [NodeArena.read, if_pos hmapped, hrun, hbase, Function.update_apply, NodeArena.read, if_pos h]
  unfold NodeArena.applyRecovered
  dsimp only
  rw [Std.ExtTreeMap.getElem?_insert]
  by_cases hid : j = id
  · rw [if_pos hid, if_pos (Nat.compare_eq_eq.mpr hid.symm)]
  · rw [if_neg hid, if_neg (fun heq => hid (Nat.compare_eq_eq.mp heq).symm)]

namespace WalScan

variable {scan scan' scan'' : WalScan H}

def view (scan : WalScan H) : ForestView H := .of scan.forest scan.store scan.lastSeenLsn

omit [DecidableEq H] in
structure Kept (scan scan' : WalScan H) : Prop where
  store : ∃ point chainHashes redoWalBytes,
    scan'.store = { scan.store with point := point, chainHashes := chainHashes, redoWalBytes := redoWalBytes }
  arena : ∃ dirty next, scan'.forest.arena = { scan.forest.arena with dirty := dirty, next := next }
  index : scan'.forest.index = scan.forest.index

omit [DecidableEq H] [StoredHash H] in
theorem Kept.refl (scan : WalScan H) : scan.Kept scan := ⟨⟨_, _, _, rfl⟩, ⟨_, _, rfl⟩, rfl⟩

omit [DecidableEq H] [StoredHash H] in
theorem Kept.trans (h : scan.Kept scan') (h' : scan'.Kept scan'') : scan.Kept scan'' := by
  obtain ⟨_, _, _, hstore⟩ := h.store
  obtain ⟨_, _, harena⟩ := h.arena
  obtain ⟨_, _, _, hstore'⟩ := h'.store
  obtain ⟨_, _, harena'⟩ := h'.arena
  rw [hstore] at hstore'
  rw [harena] at harena'
  exact ⟨⟨_, _, _, hstore'⟩, ⟨_, _, harena'⟩, h'.index.trans h.index⟩

omit [DecidableEq H] [StoredHash H] in
theorem Kept.durableLsn (h : scan.Kept scan') : scan'.store.durableLsn = scan.store.durableLsn := by
  obtain ⟨_, _, _, hstore⟩ := h.store
  rw [hstore]

omit [DecidableEq H] [StoredHash H] in
theorem Kept.mapped (h : scan.Kept scan') : scan'.forest.arena.mapped = scan.forest.arena.mapped := by
  obtain ⟨_, _, harena⟩ := h.arena
  rw [harena]

omit [DecidableEq H] in
theorem foldl_applyRecovered {a : NodeArena H} (h : a.mapped = true) (changes : List (NodeChange H)) :
    (∃ dirty next, changes.foldl (fun a change => a.applyRecovered change.id change.after) a =
      { a with dirty := dirty, next := next }) ∧
    (changes.foldl (fun a change => a.applyRecovered change.id change.after) a).read =
      changes.foldl (fun read change => Function.update read change.id change.after) a.read := by
  induction changes generalizing a with
  | nil => exact ⟨⟨_, _, rfl⟩, rfl⟩
  | cons change changes ih =>
    obtain ⟨⟨dirty, next, heq⟩, hread⟩ := @ih (a.applyRecovered change.id change.after) h
    rw [List.foldl_cons, List.foldl_cons]
    refine ⟨⟨dirty, next, heq⟩, ?_⟩
    rw [hread, NodeArena.read_applyRecovered h]

omit [DecidableEq H] in
theorem apply_view (h : scan.forest.arena.mapped = true) (t : WalTransaction H) (size : Nat) :
    scan.Kept (scan.apply t size) ∧ (scan.apply t size).view = scan.view.apply t := by
  obtain ⟨⟨dirty, next, heq⟩, hread⟩ := foldl_applyRecovered h t.changes
  refine ⟨⟨⟨_, _, _, rfl⟩, ⟨dirty, t.afterNext, ?_⟩, rfl⟩, ?_⟩
  · show (t.changes.foldl _ scan.forest.arena).setRecoveredNext t.afterNext = _
    rw [heq]
    rfl
  · unfold view ForestView.of ForestView.apply
    ext1
    · exact hread
    all_goals rfl

theorem replay_view (h : scan.forest.arena.mapped = true) {t : WalTransaction H} (ht : t.lsn < 2 ^ 64) (size : Nat)
    {v : ForestView H} (hreplay : (ForestView.redo H).replay scan.store.durableLsn [t] scan.view = some v) :
    ∃ scan', scan.replay t.stored size = .ok scan' ∧ scan.Kept scan' ∧ scan'.view = v := by
  have hlsn : t.stored.lsn = t.lsn := rfl
  rw [RedoLog.Machine.replay] at hreplay
  unfold replay
  rw [hlsn]
  by_cases hold : t.lsn ≤ scan.store.durableLsn
  · rw [if_pos (show (ForestView.redo H).number t ≤ _ from hold)] at hreplay
    rw [if_neg (by omega)]
    exact ⟨scan, rfl, .refl scan, Option.some.inj hreplay⟩
  · rw [if_neg (show ¬(ForestView.redo H).number t ≤ _ from hold)] at hreplay
    rw [if_pos (by omega)]
    by_cases haccepts : scan.view.accepts t = true
    swap
    · rw [if_neg (show ¬(ForestView.redo H).accepts scan.view t = true from haccepts)] at hreplay
      cases hreplay
    rw [if_pos (show (ForestView.redo H).accepts scan.view t = true from haccepts)] at hreplay
    obtain ⟨hnext, hchain, hleaves⟩ := ForestView.accepts_iff.mp haccepts
    have hnext' : t.lsn = scan.lastSeenLsn + 1 := hnext
    have hextends : t.stored.extendsChain scan.store.point scan.store.chainHashes = true := hchain
    rw [if_neg (by rw [word, Nat.mod_eq_of_lt (by omega)]; omega), if_neg]
    · obtain ⟨hkept, hview⟩ := apply_view h t.stored size
      refine ⟨_, rfl, hkept, ?_⟩
      rw [hview, ForestView.apply_stored]
      exact Option.some.inj hreplay
    · rw [hextends]
      rintro (hbad | hbad)
      · cases hbad
      · exact hbad hleaves

end WalScan

/-! ## Segments -/

variable {scan : WalScan H}

/-- The records of a segment. What stands behind them is not valid. -/
theorem recoverRecords_file (path : String) {file : WalFile H} (hfile : file.WellFormed) {fuel : Nat}
    (hfuel : file.records.length < fuel) (validSize : Nat) (h : scan.forest.arena.mapped = true) {v : ForestView H}
    (hreplay : (ForestView.redo H).replay scan.store.durableLsn file.records scan.view = some v) :
    ∃ scan', recoverRecords path fuel file.bytes validSize scan =
        .ok (scan', validSize + (file.records.flatMap serializeWal).length) ∧ scan.Kept scan' ∧ scan'.view = v := by
  obtain ⟨start, records, cut⟩ := file
  obtain ⟨hstorable, hcut⟩ := hfile
  unfold WalFile.bytes
  dsimp only at hstorable hcut hfuel hreplay ⊢
  induction records generalizing fuel validSize scan with
  | nil =>
    cases fuel with
    | zero => cases hfuel
    | succ fuel =>
      cases hreplay
      refine ⟨scan, ?_, .refl scan, rfl⟩
      rw [recoverRecords, List.flatMap_nil, List.nil_append]
      rcases hcut with hnil | hshort | hincomplete
      · rw [if_pos hnil]
        rfl
      · rw [hshort]
        split_ifs
        all_goals rfl
      · rw [hincomplete]
        split_ifs
        all_goals rfl
  | cons t records ih =>
    cases fuel with
    | zero => cases hfuel
    | succ fuel =>
      have hnonempty : (t :: records).flatMap serializeWal ++ cut ≠ [] := by
        rw [List.flatMap_cons, List.append_assoc]
        exact List.append_ne_nil_of_left_ne_nil (serializeWal_ne_nil t) _
      have ht := hstorable t List.mem_cons_self
      rw [← List.singleton_append, RedoLog.Machine.replay_append] at hreplay
      obtain ⟨v1, hfirst, hrest⟩ := Option.bind_eq_some_iff.mp hreplay
      obtain ⟨scan1, hscan1, hkept, hview⟩ := scan.replay_view h ht.fits.lsn (serializeWal t).length hfirst
      rw [← hkept.durableLsn, ← hview] at hrest
      obtain ⟨scan', hscan', hkept', hview'⟩ := ih (validSize + (serializeWal t).length) (hkept.mapped.trans h)
        (Nat.lt_of_succ_lt_succ hfuel) hrest fun u hu => hstorable u (List.mem_cons_of_mem _ hu)
      refine ⟨scan', ?_, hkept.trans hkept', hview'⟩
      rw [recoverRecords, if_neg hnonempty, List.flatMap_cons, List.append_assoc, nextRecord_serializeWal ht]
      dsimp only
      rw [hscan1]
      dsimp only
      rw [List.drop_left, hscan', List.length_append, Nat.add_assoc]

def WalFile.whole (file : WalFile H) : WalFile H := { file with cut := [] }

omit [StoredHash H] [DecidableEq H] in
theorem allRecords_whole (files : List (WalFile H)) : allRecords (files.map WalFile.whole) = allRecords files := by
  rw [allRecords, List.flatMap_map]
  rfl

theorem recoverSegments_files {files : List (WalFile H)} (hfiles : ∀ file ∈ files, file.WellFormed)
    (h : scan.forest.arena.mapped = true) {v : ForestView H}
    (hreplay : (ForestView.redo H).replay scan.store.durableLsn (allRecords files) scan.view = some v) :
    ∃ scan', recoverSegments (files.map fun file => (file.start, file.bytes)) scan =
        .ok (scan', (files.map WalFile.whole).map fun file => (file.start, file.bytes)) ∧
      scan.Kept scan' ∧ scan'.view = v := by
  induction files generalizing scan with
  | nil =>
    cases hreplay
    exact ⟨scan, rfl, .refl scan, rfl⟩
  | cons file files ih =>
    have hfuel : file.records.length < file.bytes.length + 1 := by
      have := length_records_le file.records file.cut
      unfold WalFile.bytes
      omega
    have hcons : allRecords (file :: files) = file.records ++ allRecords files := List.flatMap_cons
    rw [hcons, RedoLog.Machine.replay_append] at hreplay
    obtain ⟨v1, hfirst, hrest⟩ := Option.bind_eq_some_iff.mp hreplay
    obtain ⟨scan1, hscan1, hkept, hview⟩ := recoverRecords_file (scan.store.directory.segmentPath file.start)
      (hfiles file List.mem_cons_self) hfuel 0 h hfirst
    rw [← hkept.durableLsn, ← hview] at hrest
    obtain ⟨scan', hscan', hkept', hview'⟩ := ih (fun other hother => hfiles other (List.mem_cons_of_mem _ hother))
      (hkept.mapped.trans h) hrest
    refine ⟨scan', ?_, hkept.trans hkept', hview'⟩
    have hwhole : file.bytes.take (file.records.flatMap serializeWal).length = file.whole.bytes := by
      rw [WalFile.bytes, List.take_left]
      exact (List.append_nil _).symm
    rw [List.map_cons, recoverSegments]
    dsimp only
    rw [hscan1]
    dsimp only
    rw [hscan', Nat.zero_add, hwhole]
    rfl

structure LogKept (s : OpenStore H) (f : PackedForest H) (s' : OpenStore H) (f' : PackedForest H)
    (files : List (WalFile H)) : Prop where
  store : ∃ point chainHashes redoWalBytes currentLsn,
    s' = { s with
      point := point
      chainHashes := chainHashes
      redoWalBytes := redoWalBytes
      currentLsn := currentLsn
      directory := { s.directory with segments := files.map fun file => (file.start, file.bytes) } }
  arena : ∃ dirty next, f'.arena = { f.arena with dirty := dirty, next := next }
  index : f'.index = f.index

theorem recoverLog_files {s : OpenStore H} {f : PackedForest H} {files : List (WalFile H)}
    (hsegments : s.directory.segments = files.map fun file => (file.start, file.bytes))
    (hfiles : ∀ file ∈ files, file.WellFormed) (h : f.arena.mapped = true) {v : ForestView H}
    (hcovers : (ForestView.redo H).Covers (.of f s s.durableLsn) (allRecords files) v) :
    ∃ s' f', recoverLog s f = .ok (s', f') ∧ LogKept s f s' f' (files.map WalFile.whole) ∧
      ForestView.of f' s' s'.currentLsn = v := by
  obtain ⟨scan', hscan', hkept, hview⟩ :=
    @recoverSegments_files _ _ _ ⟨s, f, s.durableLsn⟩ _ hfiles h _ hcovers.replay_eq
  have hreached : s.durableLsn ≤ v.lsn := hcovers.reached_le
  have hlsn : max scan'.store.durableLsn scan'.lastSeenLsn = v.lsn := by
    have hlast : scan'.lastSeenLsn = v.lsn := congrArg ForestView.lsn hview
    rw [hkept.durableLsn, hlast]
    exact max_eq_right hreached
  obtain ⟨point, chainHashes, redoWalBytes, hstore⟩ := hkept.store
  obtain ⟨dirty, next, harena⟩ := hkept.arena
  refine ⟨{ scan'.store with
    directory := { scan'.store.directory with
      segments := (files.map WalFile.whole).map fun file => (file.start, file.bytes) }
    currentLsn := v.lsn }, scan'.forest, ?_, ⟨⟨point, chainHashes, redoWalBytes, v.lsn, ?_⟩, ⟨dirty, next, harena⟩,
      hkept.index⟩, ?_⟩
  · rw [recoverLog, hsegments, hscan']
    dsimp only
    rw [hlsn]
  · rw [hstore]
  · rw [← hview]
    rfl

end Replay

end UtreexoBridge
