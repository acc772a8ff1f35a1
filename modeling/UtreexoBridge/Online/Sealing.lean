import UtreexoBridge.Online.Durable

/-!
# Seals, snapshots and pruning in the directory

A run is published or it is not, an obsolete one is there or it is not. Either
way the directory stands for the same forest.
-/

namespace UtreexoBridge

open Bytes

section Sealing

variable {H : Type} [StoredHash H] [DecidableEq H] {base : OnlineBase H} {depth highest : Nat} {d : Directory H}
  {runs : List (DeltaRun H)} {run : DeltaRun H} {generation durable : Nat} {files : List (WalFile H)} {v : ForestView H}

/-! ## Publishing a run -/

structure DeltaRun.Describes (run : DeltaRun H) (base : OnlineBase H) (v : ForestView H) : Prop where
  next : run.state.next = v.next
  roots : run.state.roots = v.roots
  numLeaves : run.state.numLeaves = v.numLeaves
  point : run.state.point = v.point
  chainHashes : base.chain ++ run.chainSuffix = v.chainHashes
  endLsn : run.state.endLsn = v.lsn

omit [DecidableEq H] in
theorem DeltaRun.Describes.same (h : run.Describes base v)
    (hread : ∀ id < v.next, (base.overlaid (runs ++ [run])).read id = v.read id ∨
      ((base.overlaid (runs ++ [run])).read id).type = .free ∧ (v.read id).type = .free) : v.Same (base.sealedView (runs ++ [run])) := by
  rw [sealedView_last]
  exact ⟨h.next, h.roots, h.numLeaves, h.point, h.chainHashes, h.endLsn, hread⟩

theorem Durable.sealed (h : Durable base depth highest d runs generation durable files v)
    {deltas : List (Nat × DeltaRun H)} {front : List (DeltaRun H)}
    (hstacked : Stacked base deltas (front ++ [run]) run.state.generation run.state.endLsn)
    (hrun : run.Describes base v) :
    Durable base depth highest { d with deltas } (front ++ [run]) run.state.generation run.state.endLsn files
      (base.sealedView (front ++ [run])) := by
  have hlsn : (base.sealedView (front ++ [run])).lsn = v.lsn := by
    rw [sealedView_last]
    exact hrun.endLsn
  have hchain : (base.sealedView (front ++ [run])).chainHashes = v.chainHashes := by
    rw [sealedView_last]
    exact hrun.chainHashes
  have hpoint : (base.sealedView (front ++ [run])).point = v.point := by
    rw [sealedView_last]
    exact hrun.point
  have hleaves : (base.sealedView (front ++ [run])).numLeaves = v.numLeaves := by
    rw [sealedView_last]
    exact hrun.numLeaves
  have hnext : (base.sealedView (front ++ [run])).next = v.next := by
    rw [sealedView_last]
    exact hrun.next
  refine ⟨hstacked, h.segments, h.sorted, ?_, h.wellFormed, ?_, ?_, ?_, ?_, ?_, h.connects, ?_⟩
  · rw [hlsn]
    exact h.starts
  · refine RedoLog.Machine.covers_self fun t ht => ?_
    show t.lsn ≤ (base.sealedView (front ++ [run])).lsn
    rw [hlsn]
    exact h.covers.number_le t ht
  · rw [hchain]
    exact h.chain
  · rw [hchain, hpoint]
    exact h.tip
  · rw [hpoint]
    exact h.height
  · rw [hnext]
    exact h.next
  · obtain ⟨counts, hnow, hcounts⟩ := h.counted
    refine ⟨counts, by rw [hpoint, hleaves]; exact hnow, fun point t hactive => ?_⟩
    rw [hchain] at hactive
    exact hcounts point t hactive

/-- What `WriteDeltaRun` leaves: nothing, or the run, whether it is confirmed or not. -/
inductive WriteLeft (directory : Directory H) (state : DeltaState H) (chainHashes : List H)
    (records : List (Nat × NodeRecord H)) : Except String (DeltaRun H) × Directory H → Prop
  | refused (message : String) : WriteLeft directory state chainHashes records (.error message, directory)
  | published {run : DeltaRun H} {result : Except String (DeltaRun H)} (hstate : run.state = state)
      (hrecords : run.records = records) (suffix : run.chainSuffix = chainHashes.drop state.baseChainCount)
      (last : chainHashes.getLast? = some state.point.blockHash)
      (confirmed : (∃ message, result = .error message) ∨ result = .ok run ∧ state.parseError records = none) :
      WriteLeft directory state chainHashes records
        (result, { directory with deltas := OrderedMap.assign directory.deltas state.generation run })

omit [StoredHash H] in
theorem writeDeltaRun_left (directory : Directory H) (state : DeltaState H) (chainHashes : List H)
    (records : List (Nat × NodeRecord H)) (io : DeltaIo) :
    WriteLeft directory state chainHashes records (writeDeltaRun directory state chainHashes records io) := by
  unfold writeDeltaRun
  split_ifs with hstate hexists hsorted houtside hcount
  · exact .refused _
  · exact .refused _
  · exact .refused _
  · exact .refused _
  · have hlast : chainHashes.getLast? = some state.point.blockHash := by
      by_contra hne
      exact hstate (Or.inr (Or.inr (Or.inr (Or.inr (Or.inr hne)))))
    split
    · exact .refused _
    · dsimp only
      split
      · exact .published rfl rfl rfl hlast (Or.inl ⟨_, rfl⟩)
      · split
        · exact .published rfl rfl rfl hlast (Or.inl ⟨_, rfl⟩)
        · rename_i hparses
          exact .published rfl rfl rfl hlast (Or.inr ⟨rfl, hparses⟩)
  · exact .refused _

/-! ## Pruning the log -/

omit [StoredHash H] [DecidableEq H] in
theorem allRecords_filter {keep : WalFile H → Bool} {p : WalTransaction H → Bool}
    (h : ∀ file ∈ files, keep file = false → ∀ t ∈ file.records, p t = false) :
    (allRecords (files.filter keep)).filter p = (allRecords files).filter p := by
  induction files with
  | nil => rfl
  | cons file files ih =>
    have hrest := ih fun other hother => h other (List.mem_cons_of_mem _ hother)
    cases hkeep : keep file with
    | true =>
      rw [List.filter_cons_of_pos hkeep, allRecords, allRecords, List.flatMap_cons, List.flatMap_cons,
        List.filter_append, List.filter_append]
      exact congrArg _ hrest
    | false =>
      have hnone : file.records.filter p = [] :=
        List.filter_eq_nil_iff.mpr fun t ht => by rw [h file List.mem_cons_self hkeep t ht]; decide
      rw [List.filter_cons_of_neg (by rw [hkeep]; decide), allRecords, allRecords, List.flatMap_cons,
        List.filter_append, hnone, List.nil_append]
      exact hrest

/-- Pruning keeps what the runs do not have, and what can still be rolled back. -/
theorem Durable.prune {s : OpenStore H}
    (h : Durable base s.config.undoDepth highest s.directory runs generation s.durableLsn files v)
    (hsync : s.config.syncWal = true) (io : PruneIo) :
    ∃ keep : WalFile H → Bool, (∀ file ∈ files, s.walFd = some file.start → keep file = true) ∧
      Durable base s.config.undoDepth (max highest s.point.height) (s.pruneWal io).2.directory runs generation
        s.durableLsn (files.filter keep) v := by
  obtain ⟨hsegments, -⟩ := pruneWal_log (s := s) io
  have hdeltas : (s.pruneWal io).2.directory.deltas = s.directory.deltas := by
    unfold OpenStore.pruneWal
    dsimp only
    split
    · rfl
    · split_ifs
      all_goals rfl
  set keep : WalFile H → Bool := fun file =>
    !(s.obsoleteSegment (file.start, file.bytes) && io.removable file.start) with hkeep
  have hobsolete : ∀ file ∈ files, keep file = false → s.obsoleteSegment (file.start, file.bytes) = true := by
    intro file _ hgone
    rw [hkeep] at hgone
    dsimp only at hgone
    rw [Bool.not_eq_false', Bool.and_eq_true] at hgone
    exact hgone.1
  have hgone : ∀ file ∈ files, keep file = false → ∀ t ∈ file.records,
      t.lsn ≤ s.durableLsn ∧ t.point.height < s.point.height - s.config.undoDepth := by
    intro file hfile hfalse t ht
    obtain ⟨-, maxHeight, maxLsn, hscan, hdurable, hfloor⟩ := obsoleteSegment_iff (hobsolete file hfile hfalse)
    obtain ⟨hheight, hlsn⟩ := scanSegment_bounds (h.wellFormed file hfile).storable hscan t ht
    exact ⟨Nat.le_trans hlsn hdurable, Nat.lt_of_le_of_lt hheight (hfloor hsync)⟩
  have hmem : ∀ file ∈ files.filter keep, file ∈ files := fun file hfile => (List.mem_filter.mp hfile).1
  refine ⟨keep, fun file hfile hopen => ?_, ?_, ?_, h.sorted.filter _, fun file hfile => h.starts file (hmem file hfile),
    fun file hfile => h.wellFormed file (hmem file hfile), ?_, h.chain, h.tip, h.height, h.next, ?_, ?_⟩
  · by_contra hfalse
    exact (obsoleteSegment_iff (hobsolete file hfile (eq_false_of_ne_true hfalse))).1 hopen
  · rw [hdeltas]
    exact h.stacked
  · rw [hsegments, h.segments, List.filter_map]
    rfl
  · refine h.covers.prune (allRecords_filter fun file hfile hfalse t ht => ?_)
    have hold := (hgone file hfile hfalse t ht).1
    rw [← h.stacked.chained.lsn_eq] at hold
    exact decide_eq_false (Nat.not_lt_of_le hold)
  · intro t ht
    obtain ⟨file, hfile, ht⟩ := List.mem_flatMap.mp ht
    exact h.connects t (List.mem_flatMap.mpr ⟨file, hmem file hfile, ht⟩)
  · obtain ⟨counts, hnow, hcounts⟩ := h.counted
    refine ⟨counts, hnow, fun point t hactive hdepth hlatest => ?_⟩
    rw [latestConnect_filter] at hlatest
    · exact hcounts point t hactive (le_trans (le_max_left _ _) hdepth) hlatest
    · intro file hfile hfalse u hu
      have hlow := (hgone file hfile hfalse u hu).2
      refine Bool.eq_false_iff.mpr fun hconnects => ?_
      obtain ⟨-, rfl⟩ := connects_iff.mp hconnects
      -- the record is at or above the floor, and the segment is below it
      have htip := le_trans (le_max_right highest s.point.height) hdepth
      omega

theorem Durable.mono (h : Durable base depth highest d runs generation durable files v) {highest' : Nat}
    (hle : highest ≤ highest') : Durable base depth highest' d runs generation durable files v := by
  obtain ⟨counts, hnow, hcounts⟩ := h.counted
  exact ⟨h.stacked, h.segments, h.sorted, h.starts, h.wellFormed, h.covers, h.chain, h.tip, h.height, h.next, h.connects,
    counts, hnow, fun point t hactive hdepth => hcounts point t hactive (le_trans hle hdepth)⟩

end Sealing

end UtreexoBridge
