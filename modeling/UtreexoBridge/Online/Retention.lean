import UtreexoBridge.Bytes.ByteHash
import UtreexoBridge.Online.Flush
import UtreexoBridge.Online.Segments

/-!
# What the log retains

Appends go to the last segment, and pruning takes whole segments away. What
rollback and recovery need stays, through any reorganization.
-/

namespace UtreexoBridge

open Bytes

section Layout

variable {H : Type} [StoredHash H] {s s' : OpenStore H} {files : List (WalFile H)}

/-! ## The log of a store -/

/-- The segments are `files`, in order. Only the last one is ever open. -/
structure Laid (s : OpenStore H) (files : List (WalFile H)) : Prop where
  segments : s.directory.segments = files.map fun file => (file.start, file.bytes)
  sorted : files.Pairwise fun x y => x.start < y.start
  starts : ∀ file ∈ files, file.start ≤ s.currentLsn + 1
  wellFormed : ∀ file ∈ files, file.WellFormed
  opened : ∀ start, s.walFd = some start → ∃ front file, files = front ++ [file] ∧ file.start = start

theorem Laid.congr (h : Laid s files) (hsegments : s'.directory.segments = s.directory.segments)
    (hlsn : s.currentLsn ≤ s'.currentLsn) (hfd : ∀ start, s'.walFd = some start → s.walFd = some start) :
    Laid s' files := by
  refine ⟨hsegments.trans h.segments, h.sorted, fun file hfile => ?_, h.wellFormed, fun start hstart => ?_⟩
  · have := h.starts file hfile
    omega
  · exact h.opened start (hfd start hstart)

omit [StoredHash H] in
theorem allRecords_append (files more : List (WalFile H)) :
    allRecords (files ++ more) = allRecords files ++ allRecords more := List.flatMap_append

omit [StoredHash H] in
theorem start_lt_of_sorted {front : List (WalFile H)} {file : WalFile H}
    (h : (front ++ [file]).Pairwise fun x y => x.start < y.start) : ∀ other ∈ front, other.start < file.start := by
  intro other hother
  exact (List.pairwise_append.mp h).2.2 other hother file (List.mem_singleton.mpr rfl)

omit [StoredHash H] in
theorem sorted_back {front : List (WalFile H)} {file file' : WalFile H}
    (h : (front ++ [file]).Pairwise fun x y => x.start < y.start) (hstart : file'.start = file.start) :
    (front ++ [file']).Pairwise fun x y => x.start < y.start := by
  obtain ⟨hfront, -, hlast⟩ := List.pairwise_append.mp h
  refine List.pairwise_append.mpr ⟨hfront, List.pairwise_singleton _ _, fun x hx y hy => ?_⟩
  rw [List.mem_singleton.mp hy, hstart]
  exact hlast x hx file (List.mem_singleton.mpr rfl)

/-! ## Opening a segment -/

/-- The segment that an append of `recordSize` bytes writes to. -/
def OpenStore.appendTarget (s : OpenStore H) (recordSize : Nat) : Nat :=
  match s.walFd with
  | none => word (s.currentLsn + 1)
  | some start =>
    if s.walSegmentSize = 0 ∨ s.walSegmentSize + recordSize ≤ s.config.walSegmentBytes then start
    else word (s.currentLsn + 1)

/-- What stands in the segment that an append of `recordSize` bytes writes to are whole records. -/
def OpenStore.EndsWhole (s : OpenStore H) (recordSize : Nat) : Prop :=
  ∀ segment ∈ s.directory.segments, segment.1 = s.appendTarget recordSize →
    (OpenStore.scanSegment (H := H) (segment.2.length + 1) segment.2 0 0).isSome

theorem Laid.cut_eq_nil (h : Laid s files) {recordSize : Nat} (hwhole : s.EndsWhole recordSize) {file : WalFile H}
    (hfile : file ∈ files) (htarget : file.start = s.appendTarget recordSize) : file.cut = [] := by
  have hsegment : (file.start, file.bytes) ∈ s.directory.segments := by
    rw [h.segments]
    exact List.mem_map.mpr ⟨file, hfile, rfl⟩
  exact cut_eq_nil_of_scan (h.wellFormed file hfile) (hwhole _ hsegment htarget)

theorem Laid.next_file (h : Laid s files) :
    ∃ front file, (files = front ++ [file] ∨ files = front ∧ file.bytes = []) ∧ file.start = s.currentLsn + 1 ∧
      (front ++ [file]).Pairwise (fun x y => x.start < y.start) ∧ (∀ other ∈ front ++ [file], other.WellFormed) ∧
      allRecords (front ++ [file]) = allRecords files := by
  by_cases hlast : ∃ front file, files = front ++ [file] ∧ file.start = s.currentLsn + 1
  · obtain ⟨front, file, rfl, hstart⟩ := hlast
    exact ⟨front, file, Or.inl rfl, hstart, h.sorted, h.wellFormed, rfl⟩
  · refine ⟨files, ⟨s.currentLsn + 1, [], []⟩, Or.inr ⟨rfl, rfl⟩, rfl, ?_, ?_, ?_⟩
    · refine List.pairwise_append.mpr ⟨h.sorted, List.pairwise_singleton _ _, fun x hx y hy => ?_⟩
      rw [List.mem_singleton.mp hy]
      refine lt_of_le_of_ne (h.starts x hx) fun heq => ?_
      -- a file with that number would be the last one
      rcases List.eq_nil_or_concat files with hnil | ⟨front, file, hfiles⟩
      · rw [hnil] at hx
        cases hx
      · have hback : files = front ++ [file] := by rw [hfiles, List.concat_eq_append]
        refine hlast ⟨front, file, hback, ?_⟩
        have hle := h.starts file (by rw [hback]; exact List.mem_append_right _ (List.mem_singleton.mpr rfl))
        have hsorted := h.sorted
        rw [hback] at hx hsorted
        rcases List.mem_append.mp hx with hfront | hfile
        · have hlt := start_lt_of_sorted hsorted x hfront
          dsimp only at heq
          omega
        · rw [← List.mem_singleton.mp hfile]
          exact heq
    · intro other hother
      rcases List.mem_append.mp hother with hmem | hnew
      · exact h.wellFormed other hmem
      · rw [List.mem_singleton.mp hnew]
        refine ⟨?_, Or.inl rfl⟩
        rintro t ⟨⟩
    · rw [allRecords_append]
      exact List.append_nil _

theorem Laid.of_last {front : List (WalFile H)} {file : WalFile H}
    (hsegments : s.directory.segments = (front ++ [file]).map fun file => (file.start, file.bytes))
    (hsorted : (front ++ [file]).Pairwise fun x y => x.start < y.start) (hstart : file.start ≤ s.currentLsn + 1)
    (hfiles : ∀ other ∈ front ++ [file], other.WellFormed)
    (hfd : ∀ start, s.walFd = some start → start = file.start) : Laid s (front ++ [file]) := by
  refine ⟨hsegments, hsorted, fun other hother => ?_, hfiles, fun start hopen => ⟨front, file, rfl, (hfd start hopen).symm⟩⟩
  rcases List.mem_append.mp hother with hfront | hfile
  · exact le_trans (le_of_lt (start_lt_of_sorted hsorted other hfront)) hstart
  · rw [List.mem_singleton.mp hfile]
    exact hstart

/-- Opening a segment adds no record. An open one ends in a whole record. -/
theorem openAppendSegment_laid (h : Laid s files) (hlsn : s.currentLsn + 1 < 2 ^ 64) {recordSize : Nat}
    (hwhole : s.EndsWhole recordSize) (io : AppendIo) :
    s.SameChain (s.openAppendSegment recordSize io).2 ∧ ∃ files', Laid (s.openAppendSegment recordSize io).2 files' ∧
      allRecords files' = allRecords files ∧ ((s.openAppendSegment recordSize io).1 = .ok () → ∃ front file,
        files' = front ++ [file] ∧ (s.openAppendSegment recordSize io).2.walFd = some file.start ∧ file.cut = []) := by
  unfold OpenStore.openAppendSegment
  by_cases hopen : s.walFd.isSome ∧ (s.walSegmentSize = 0 ∨ s.walSegmentSize + recordSize ≤ s.config.walSegmentBytes)
  · -- the segment stays open
    rw [if_pos hopen]
    refine ⟨.refl s, files, h, rfl, fun _ => ?_⟩
    obtain ⟨hfd, hroom⟩ := hopen
    obtain ⟨start, hstart⟩ := Option.isSome_iff_exists.mp hfd
    obtain ⟨front, file, hfiles, rfl⟩ := h.opened start hstart
    refine ⟨front, file, hfiles, hstart, h.cut_eq_nil hwhole ?_ ?_⟩
    · rw [hfiles]
      exact List.mem_append_right _ (List.mem_singleton.mpr rfl)
    · rw [OpenStore.appendTarget, hstart]
      exact (if_pos hroom).symm
  · rw [if_neg hopen]
    have hnext : word (s.currentLsn + 1) = s.currentLsn + 1 := Nat.mod_eq_of_lt hlsn
    have htarget : s.appendTarget recordSize = s.currentLsn + 1 := by
      unfold OpenStore.appendTarget
      cases hfd : s.walFd with
      | none => exact hnext
      | some start =>
        dsimp only
        rw [if_neg fun hroom => hopen ⟨by rw [hfd]; rfl, hroom⟩, hnext]
    obtain ⟨front, file, hwhere, hstart, hsorted, hfiles, hrecords⟩ := h.next_file
    have hfront : ∀ p ∈ front.map (fun file => (file.start, file.bytes)), p.1 < s.currentLsn + 1 := by
      intro p hp
      obtain ⟨other, hother, rfl⟩ := List.mem_map.mp hp
      rw [← hstart]
      exact start_lt_of_sorted hsorted other hother
    have hbytes : (OrderedMap.lookup s.directory.segments (s.currentLsn + 1)).getD [] = file.bytes := by
      rw [h.segments]
      rcases hwhere with rfl | ⟨rfl, hempty⟩
      · rw [List.map_append, List.map_singleton, hstart, OrderedMap.lookup_last hfront]
        rfl
      · rw [OrderedMap.lookup_back hfront, hempty]
        rfl
    have hassign : OrderedMap.assign s.directory.segments (s.currentLsn + 1) file.bytes =
        (front ++ [file]).map fun file => (file.start, file.bytes) := by
      rw [List.map_append, List.map_singleton, hstart, h.segments]
      rcases hwhere with rfl | ⟨rfl, -⟩
      · rw [List.map_append, List.map_singleton, hstart, OrderedMap.assign_last hfront]
      · rw [OrderedMap.assign_back hfront]
    have hcut : file.cut = [] := by
      rcases hwhere with hmem | ⟨-, hempty⟩
      · refine h.cut_eq_nil hwhole ?_ (hstart.trans htarget.symm)
        rw [hmem]
        exact List.mem_append_right _ (List.mem_singleton.mpr rfl)
      · exact (List.append_eq_nil_iff.mp hempty).2
    dsimp only
    rw [hnext, hbytes, hassign]
    cases io.opened with
    | error message =>
      dsimp only
      split_ifs
      · refine ⟨⟨rfl, rfl, rfl, rfl, rfl, rfl⟩, front ++ [file], ?_, hrecords, fun hok => nomatch hok⟩
        exact .of_last rfl hsorted (le_of_eq hstart) hfiles fun start hfd => nomatch hfd
      · exact ⟨⟨rfl, rfl, rfl, rfl, rfl, rfl⟩, files, h.congr rfl (le_refl _) (fun start hfd => nomatch hfd),
          rfl, fun hok => nomatch hok⟩
    | ok u =>
      dsimp only
      split_ifs with hempty
      · cases io.directorySynced with
        | error message =>
          refine ⟨⟨rfl, rfl, rfl, rfl, rfl, rfl⟩, front ++ [file], ?_, hrecords, fun hok => nomatch hok⟩
          exact .of_last rfl hsorted (le_of_eq hstart) hfiles fun start hfd => nomatch hfd
        | ok u =>
          refine ⟨⟨rfl, rfl, rfl, rfl, rfl, rfl⟩, front ++ [file], ?_, hrecords, fun _ =>
            ⟨front, file, rfl, congrArg some hstart.symm, hcut⟩⟩
          exact .of_last rfl hsorted (le_of_eq hstart) hfiles fun start hfd =>
            (Option.some.inj hfd).symm.trans hstart.symm
      · refine ⟨⟨rfl, rfl, rfl, rfl, rfl, rfl⟩, front ++ [file], ?_, hrecords, fun _ =>
          ⟨front, file, rfl, congrArg some hstart.symm, hcut⟩⟩
        exact .of_last rfl hsorted (le_of_eq hstart) hfiles fun start hfd =>
          (Option.some.inj hfd).symm.trans hstart.symm

/-! ## Writing a record -/

theorem writeSegment_last {front : List (WalFile H)} {file : WalFile H} (h : Laid s (front ++ [file]))
    (hfd : s.walFd = some file.start) (bytes : List UInt8) :
    s.writeSegment bytes = { s with directory := { s.directory with
      segments := front.map (fun file => (file.start, file.bytes)) ++ [(file.start, file.bytes ++ bytes)] } } := by
  have hfront : ∀ p ∈ front.map (fun file => (file.start, file.bytes)), p.1 < file.start := by
    intro p hp
    obtain ⟨other, hother, rfl⟩ := List.mem_map.mp hp
    exact start_lt_of_sorted h.sorted other hother
  unfold OpenStore.writeSegment
  rw [hfd]
  dsimp only
  rw [h.segments, List.map_append, List.map_singleton, OrderedMap.lookup_last hfront, OrderedMap.assign_last hfront]
  rfl

theorem Laid.write {front : List (WalFile H)} {file file' : WalFile H} (h : Laid s (front ++ [file]))
    (hfd : s.walFd = some file.start) {bytes : List UInt8} (hfile : file'.WellFormed)
    (hbytes : file'.bytes = file.bytes ++ bytes) (hstart : file'.start = file.start) :
    Laid (s.writeSegment bytes) (front ++ [file']) ∧ s.SameChain (s.writeSegment bytes) := by
  rw [writeSegment_last h hfd]
  refine ⟨.of_last ?_ (sorted_back h.sorted hstart) ?_ ?_ ?_, ⟨rfl, rfl, rfl, rfl, rfl, rfl⟩⟩
  · rw [List.map_append, List.map_singleton, hstart, hbytes]
  · rw [hstart]
    exact h.starts file (List.mem_append_right _ (List.mem_singleton.mpr rfl))
  · intro other hother
    rcases List.mem_append.mp hother with hfront | hlast
    · exact h.wellFormed other (List.mem_append_left _ hfront)
    · rw [List.mem_singleton.mp hlast]
      exact hfile
  · intro start hopen
    exact (Option.some.inj (hopen.symm.trans hfd)).trans hstart.symm

def OpenStore.numbered (s : OpenStore H) (t : WalTransaction H) : WalTransaction H :=
  { t with lsn := word (s.currentLsn + 1) }

/-- The fields have the widths of their types, the ids leave `NO_NODE` out, numbers are left, and no bytes of a failed
append stand where the record goes. -/
structure OpenStore.Appendable (s : OpenStore H) (t : WalTransaction H) : Prop where
  fits : (s.numbered t).Fits
  afterNext : t.afterNext < noNode
  lsn : s.currentLsn + 1 < 2 ^ 64
  whole : s.EndsWhole (serializeWal (s.numbered t)).length

instance OpenStore.decidableAppendable (s : OpenStore H) (t : WalTransaction H) : Decidable (s.Appendable t) :=
  decidable_of_iff ((s.numbered t).Fits ∧ t.afterNext < noNode ∧ s.currentLsn + 1 < 2 ^ 64 ∧
    ∀ segment ∈ s.directory.segments, segment.1 = s.appendTarget (serializeWal (s.numbered t)).length →
      (OpenStore.scanSegment (H := H) (segment.2.length + 1) segment.2 0 0).isSome)
    ⟨fun ⟨h1, h2, h3, h4⟩ => ⟨h1, h2, h3, h4⟩, fun ⟨h1, h2, h3, h4⟩ => ⟨h1, h2, h3, h4⟩⟩

theorem WalFile.WellFormed.push {file : WalFile H} (h : file.WellFormed) (hcut : file.cut = [])
    {t : WalTransaction H} (ht : t.Storable) :
    ({ file with records := file.records ++ [t] } : WalFile H).WellFormed ∧
      ({ file with records := file.records ++ [t] } : WalFile H).bytes = file.bytes ++ serializeWal t := by
  refine ⟨⟨fun u hu => ?_, h.cut⟩, ?_⟩
  · rcases List.mem_append.mp hu with hu | hu
    · exact h.storable u hu
    · rw [List.mem_singleton.mp hu]
      exact ht
  · simp only [WalFile.bytes, hcut, List.append_nil, List.flatMap_append, List.flatMap_singleton]

theorem WalFile.WellFormed.tear {file : WalFile H} (h : file.WellFormed) (hcut : file.cut = [])
    {t : WalTransaction H} (ht : t.Fits) {count : Nat} (hcount : count < (serializeWal t).length) :
    ({ file with cut := (serializeWal t).take count } : WalFile H).WellFormed ∧
      ({ file with cut := (serializeWal t).take count } : WalFile H).bytes = file.bytes ++ (serializeWal t).take count := by
  refine ⟨⟨h.storable, Or.inr (nextRecord_cut ht (List.take_prefix _ _) fun heq => ?_)⟩, ?_⟩
  · have hlength := congrArg List.length heq
    rw [List.length_take, Nat.min_eq_left (le_of_lt hcount)] at hlength
    omega
  · simp only [WalFile.bytes, hcut, List.append_nil]

section Append

variable [DecidableEq H] {t : WalTransaction H}

omit [StoredHash H] in
theorem OpenStore.chainValid_heightValid (h : s.chainValid t = true) : t.heightValid = true := by
  unfold OpenStore.chainValid at h
  unfold WalTransaction.heightValid
  cases hkind : t.kind with
  | connect =>
    rw [hkind] at h
    simp only [Bool.and_eq_true, decide_eq_true_eq] at h
    exact decide_eq_true h.2.2.symm
  | disconnect =>
    rw [hkind] at h
    simp only [Bool.and_eq_true, decide_eq_true_eq] at h
    exact decide_eq_true h.2.2.1

/-- What an append leaves: the record stands in the log and counts, or the chain is what it was and there is at most
a record that does not count. -/
inductive AppendLeft (s : OpenStore H) (t : WalTransaction H) (files : List (WalFile H)) :
    Res × OpenStore H → List (WalFile H) → Prop
  | done {s' : OpenStore H} {files' : List (WalFile H)} (laid : Laid s' files')
      (records : allRecords files' = allRecords files ++ [s.numbered t]) (valid : s.chainValid t = true)
      (config : s'.config = s.config) (chain : s'.chainHashes = (s.advance t).chainHashes) :
      AppendLeft s t files (.ok (), s') files'
  | failed {s' : OpenStore H} {files' : List (WalFile H)} (message : String) (laid : Laid s' files')
      (same : s.SameChain s') (records : allRecords files' = allRecords files ∨
        s.chainValid t = true ∧ allRecords files' = allRecords files ++ [s.numbered t]) :
      AppendLeft s t files (.error message, s') files'

theorem append_left (h : Laid s files) (hsync : s.config.syncWal = true) (happend : s.Appendable t) (io : AppendIo) :
    ∃ files', AppendLeft s t files (s.append t io) files' := by
  unfold OpenStore.append
  by_cases hchain : s.chainValid t = true
  · rw [if_neg (by rw [hchain]; decide)]
    dsimp only
    rw [if_pos hsync]
    have ht : (s.numbered t).Storable :=
      ⟨happend.fits, OpenStore.chainValid_heightValid hchain, happend.afterNext⟩
    have hopened := openAppendSegment_laid h happend.lsn happend.whole io
    have hnumbered : ({ t with lsn := word (s.currentLsn + 1) } : WalTransaction H) = s.numbered t := rfl
    rw [hnumbered]
    generalize s.openAppendSegment (serializeWal (s.numbered t)).length io = r at hopened ⊢
    obtain ⟨res, s1⟩ := r
    obtain ⟨hsame, files1, hlaid, hrecords, hlast⟩ := hopened
    cases res with
    | error message => exact ⟨files1, .failed message hlaid hsame (Or.inl hrecords)⟩
    | ok u =>
      obtain ⟨front, file, rfl, hfd, hcut⟩ := hlast rfl
      have hfile : file.WellFormed := hlaid.wellFormed file (List.mem_append_right _ (List.mem_singleton.mpr rfl))
      obtain ⟨hpushed, hpushedBytes⟩ := hfile.push hcut ht
      obtain ⟨hwritten, hwrittenChain⟩ := hlaid.write hfd hpushed hpushedBytes rfl
      have hmore : allRecords (front ++ [{ file with records := file.records ++ [s.numbered t] }]) =
          allRecords files ++ [s.numbered t] := by
        rw [← hrecords]
        simp only [allRecords, List.flatMap_append, List.flatMap_singleton, List.append_assoc]
      dsimp only
      cases io.writeError with
      | some failure =>
        obtain ⟨count, message⟩ := failure
        dsimp only
        rcases Nat.lt_or_ge count (serializeWal (s.numbered t)).length with hcount | hcount
        · obtain ⟨htorn, htornBytes⟩ := hfile.tear hcut happend.fits hcount
          obtain ⟨hlaid', hsame'⟩ := hlaid.write hfd htorn htornBytes rfl
          refine ⟨_, .failed message hlaid' (hsame.trans hsame') (Or.inl ?_)⟩
          rw [← hrecords, allRecords_append, allRecords_append]
          rfl
        · rw [List.take_of_length_le hcount]
          exact ⟨_, .failed message hwritten (hsame.trans hwrittenChain) (Or.inr ⟨hchain, hmore⟩)⟩
      | none =>
        dsimp only
        cases io.synced with
        | error message =>
          exact ⟨_, .failed message hwritten (hsame.trans hwrittenChain) (Or.inr ⟨hchain, hmore⟩)⟩
        | ok u =>
          have hsame' := hsame.trans hwrittenChain
          refine ⟨_, .done (hwritten.congr rfl ?_ fun start hfd => hfd) hmore hchain hsame'.config ?_⟩
          · have hlsn := hsame'.currentLsn
            show _ ≤ word (s.currentLsn + 1)
            rw [hlsn, word, Nat.mod_eq_of_lt happend.lsn]
            exact Nat.le_succ _
          · have hhashes : (s1.writeSegment (serializeWal (s.numbered t))).chainHashes = s.chainHashes :=
              hsame'.chainHashes
            unfold OpenStore.advance
            dsimp only
            rw [hhashes]
            rfl
  · rw [if_pos (by simpa using hchain)]
    exact ⟨files, .failed _ h (.refl s) (Or.inl rfl)⟩

end Append

/-! ## What stays -/

section Retains

variable [DecidableEq H] {t : WalTransaction H} {point : ChainPoint H} {log : List (WalTransaction H)} {highest : Nat}

/-- `log` is what was appended, and no flush ran at a tip above `highest`. For the blocks that may still be rolled back,
the last record in the files is the last one of `log`. -/
structure Retains (s : OpenStore H) (files : List (WalFile H)) (log : List (WalTransaction H)) (highest : Nat) : Prop where
  sync : s.config.syncWal = true
  laid : Laid s files
  latest : ∀ (point : ChainPoint H) t, s.chainHashes[point.height]? = some point.blockHash →
    highest ≤ point.height + s.config.undoDepth → latestConnect point log = some t →
      latestConnect point (allRecords files) = some t

theorem Retains.read (h : Retains s files log highest) (hactive : s.chainHashes[point.height]? = some point.blockHash)
    (hdepth : highest ≤ point.height + s.config.undoDepth) (hlog : latestConnect point log = some t) :
    s.readConnectTransaction point = .ok t.stored := by
  rw [OpenStore.readConnectTransaction, h.laid.segments, readSegments_files h.laid.wellFormed,
    h.latest point t hactive hdepth hlog]
  rfl

theorem Retains.congr (h : Retains s files log highest) (hsame : s.SameChain s')
    (hsegments : s'.directory.segments = s.directory.segments) (hfd : s'.walFd = s.walFd) :
    Retains s' files log highest := by
  refine ⟨?_, h.laid.congr hsegments (le_of_eq hsame.currentLsn.symm) fun start hstart => hfd ▸ hstart, ?_⟩
  · rw [hsame.config]
    exact h.sync
  · rw [hsame.config, hsame.chainHashes]
    exact h.latest

theorem Retains.mono (h : Retains s files log highest) {highest' : Nat} (hle : highest ≤ highest') :
    Retains s files log highest' :=
  ⟨h.sync, h.laid, fun point t hactive hdepth hlog => h.latest point t hactive (le_trans hle hdepth) hlog⟩

omit [StoredHash H] in
theorem connects_iff : t.connects point = true ↔ t.kind = .connect ∧ t.point = point := by
  rw [WalTransaction.connects, Bool.and_eq_true, decide_eq_true_eq, decide_eq_true_eq]

omit [StoredHash H] in
theorem not_connects_of_active (hvalid : s.chainValid t = true)
    (hactive : s.chainHashes[point.height]? = some point.blockHash) : t.connects point = false := by
  by_contra hconnects
  obtain ⟨hkind, rfl⟩ := connects_iff.mp (eq_true_of_ne_false hconnects)
  unfold OpenStore.chainValid at hvalid
  rw [hkind] at hvalid
  simp only [Bool.and_eq_true, decide_eq_true_eq] at hvalid
  rw [hvalid.2.1, List.getElem?_eq_none (le_refl _)] at hactive
  cases hactive

omit [StoredHash H] in
/-- A block of the chain that the transaction did not connect was there before. -/
theorem active_of_advance (hvalid : s.chainValid t = true) (hconnects : t.connects point = false)
    (hactive : (s.advance t).chainHashes[point.height]? = some point.blockHash) :
    s.chainHashes[point.height]? = some point.blockHash := by
  unfold OpenStore.chainValid at hvalid
  unfold OpenStore.advance at hactive
  cases hkind : t.kind with
  | connect =>
    rw [hkind] at hvalid hactive
    simp only [Bool.and_eq_true, decide_eq_true_eq] at hvalid
    dsimp only at hactive
    rcases Nat.lt_or_ge point.height s.chainHashes.length with hlt | hge
    · rwa [List.getElem?_append_left hlt] at hactive
    · -- the last block of the chain is the one that was connected
      obtain ⟨hlast, hhash⟩ := List.getElem?_eq_some_iff.mp hactive
      rw [List.length_append, List.length_singleton] at hlast
      have hheight : point.height = s.chainHashes.length := by omega
      rw [List.getElem?_append_right hge, hheight, Nat.sub_self, List.getElem?_cons_zero] at hactive
      have hpoint : t.point = point := by
        cases hp : point
        rw [hp] at hheight hactive
        cases ht : t.point
        rw [ht] at hvalid hactive
        dsimp only at hvalid hheight hactive
        rw [hvalid.2.1, hheight, Option.some.inj hactive]
      rw [connects_iff.mpr ⟨hkind, hpoint⟩] at hconnects
      cases hconnects
  | disconnect =>
    rw [hkind] at hactive
    dsimp only at hactive
    rw [List.getElem?_dropLast] at hactive
    split_ifs at hactive
    exact hactive

omit [StoredHash H] in
theorem latestConnect_push_of_not (hconnects : t.connects point = false) :
    latestConnect point (log ++ [t]) = latestConnect point log := by
  rw [latestConnect_append, latestConnect_singleton, if_neg (by rw [hconnects]; decide)]
  rfl

omit [StoredHash H] in
theorem latestConnect_push_of (hconnects : t.connects point = true) : latestConnect point (log ++ [t]) = some t := by
  rw [latestConnect_append, latestConnect_singleton, if_pos hconnects]
  rfl

theorem Retains.append (h : Retains s files log highest) (happend : s.Appendable t) (io : AppendIo) :
    (∃ files', (s.append t io).1 = .ok () ∧ Retains (s.append t io).2 files' (log ++ [s.numbered t]) highest) ∨
      ∃ files' message, (s.append t io).1 = .error message ∧ Retains (s.append t io).2 files' log highest := by
  obtain ⟨files', hleft⟩ := append_left h.laid h.sync happend io
  generalize s.append t io = r at hleft ⊢
  cases hleft with
  | done laid records valid config chain =>
    left
    refine ⟨files', rfl, by rw [config]; exact h.sync, laid, fun point u hactive hdepth hlog => ?_⟩
    rw [config] at hdepth
    rw [chain] at hactive
    rw [records]
    cases hconnects : (s.numbered t).connects point with
    | true =>
      rw [latestConnect_push_of hconnects] at hlog ⊢
      exact hlog
    | false =>
      rw [latestConnect_push_of_not hconnects] at hlog ⊢
      exact h.latest point u (active_of_advance valid hconnects hactive) hdepth hlog
  | failed message laid same records =>
    right
    refine ⟨files', message, rfl, by rw [same.config]; exact h.sync, laid, fun point u hactive hdepth hlog => ?_⟩
    rw [same.config] at hdepth
    rw [same.chainHashes] at hactive
    have hold := h.latest point u hactive hdepth hlog
    rcases records with hnone | ⟨hvalid, hone⟩
    · rw [hnone]
      exact hold
    · have hnot : (s.numbered t).connects point = false := not_connects_of_active hvalid hactive
      rw [hone, latestConnect_push_of_not hnot]
      exact hold

/-! ## Flushing -/

omit [DecidableEq H] in
theorem pruneWal_log (io : PruneIo) : (s.pruneWal io).2.directory.segments =
    s.directory.segments.filter (fun segment => !(s.obsoleteSegment segment && io.removable segment.1)) ∧
      (s.pruneWal io).2.walFd = s.walFd := by
  unfold OpenStore.pruneWal
  dsimp only
  split
  · exact ⟨rfl, rfl⟩
  · split_ifs
    all_goals exact ⟨rfl, rfl⟩

omit [DecidableEq H] in
theorem obsoleteSegment_iff {segment : Nat × List UInt8} (h : s.obsoleteSegment segment = true) :
    s.walFd ≠ some segment.1 ∧ ∃ maxHeight maxLsn,
      OpenStore.scanSegment (H := H) (segment.2.length + 1) segment.2 0 0 = some (maxHeight, maxLsn) ∧
        maxLsn ≤ s.durableLsn ∧ (s.config.syncWal = true → maxHeight < s.point.height - s.config.undoDepth) := by
  unfold OpenStore.obsoleteSegment at h
  dsimp only at h
  cases hscan : OpenStore.scanSegment (H := H) (segment.2.length + 1) segment.2 0 0 with
  | none =>
    rw [hscan] at h
    simp at h
  | some found =>
    obtain ⟨maxHeight, maxLsn⟩ := found
    rw [hscan] at h
    simp only [Bool.and_eq_true, Bool.or_eq_true, decide_eq_true_eq, Bool.not_eq_true'] at h
    obtain ⟨⟨hfd, -⟩, hheight, hlsn⟩ := h
    refine ⟨hfd, maxHeight, maxLsn, rfl, hlsn, fun hsync => ?_⟩
    rcases hheight with hoff | hlow
    · rw [hsync] at hoff
      cases hoff
    · split_ifs at hlow
      · exact hlow
      · exact absurd hlow (Nat.not_lt_zero _)

omit [DecidableEq H] in
/-- A segment that goes has no record above the durable number. -/
theorem lsn_le_of_pruned {io : PruneIo} {segment : Nat × List UInt8} (hmem : segment ∈ s.directory.segments)
    (hgone : segment ∉ (s.pruneWal io).2.directory.segments) {records : List (WalTransaction H)} {tail : List UInt8}
    (hstorable : ∀ t ∈ records, t.Storable) (hbytes : segment.2 = records.flatMap serializeWal ++ tail) :
    ∀ t ∈ records, t.lsn ≤ s.durableLsn := by
  rw [(pruneWal_log io).1, List.mem_filter] at hgone
  have hobsolete : s.obsoleteSegment segment = true := by
    by_contra hkept
    refine hgone ⟨hmem, ?_⟩
    rw [eq_false_of_ne_true hkept]
    rfl
  obtain ⟨-, maxHeight, maxLsn, hscan, hdurable, -⟩ := obsoleteSegment_iff hobsolete
  rw [hbytes] at hscan
  intro t ht
  exact le_trans (scanSegment_bounds hstorable hscan t ht).2 hdurable

omit [StoredHash H] in
theorem latestConnect_filter {keep : WalFile H → Bool}
    (h : ∀ file ∈ files, keep file = false → ∀ t ∈ file.records, t.connects point = false) :
    latestConnect point (allRecords (files.filter keep)) = latestConnect point (allRecords files) := by
  unfold latestConnect
  congr 1
  induction files with
  | nil => rfl
  | cons file files ih =>
    have hrest := ih fun other hother => h other (List.mem_cons_of_mem _ hother)
    cases hkeep : keep file with
    | true =>
      rw [List.filter_cons_of_pos hkeep, allRecords, allRecords, List.flatMap_cons, List.flatMap_cons, List.filter_append,
        List.filter_append]
      exact congrArg _ hrest
    | false =>
      have hnone : file.records.filter (·.connects point) = [] :=
        List.filter_eq_nil_iff.mpr fun t ht => by rw [h file List.mem_cons_self hkeep t ht]; decide
      rw [List.filter_cons_of_neg (by rw [hkeep]; decide), allRecords, allRecords, List.flatMap_cons, List.filter_append,
        hnone, List.nil_append]
      exact hrest

theorem Retains.prune (h : Retains s files log highest) (io : PruneIo) :
    ∃ files', Retains (s.pruneWal io).2 files' log (max highest s.point.height) := by
  have hsame : s.SameChain (s.pruneWal io).2 := pruneWal_sameChain io
  obtain ⟨hsegments, hfd⟩ := pruneWal_log (s := s) io
  set keep : WalFile H → Bool := fun file =>
    !(s.obsoleteSegment (file.start, file.bytes) && io.removable file.start) with hkeep
  have hobsolete : ∀ file ∈ files, keep file = false → s.obsoleteSegment (file.start, file.bytes) = true := by
    intro file _ hgone
    rw [hkeep] at hgone
    dsimp only at hgone
    rw [Bool.not_eq_false', Bool.and_eq_true] at hgone
    exact hgone.1
  refine ⟨files.filter keep, ?_, ⟨?_, h.laid.sorted.filter _, ?_, ?_, ?_⟩, ?_⟩
  · rw [hsame.config]
    exact h.sync
  · rw [hsegments, h.laid.segments, List.filter_map]
    rfl
  · intro file hfile
    rw [hsame.currentLsn]
    exact h.laid.starts file (List.mem_filter.mp hfile).1
  · exact fun file hfile => h.laid.wellFormed file (List.mem_filter.mp hfile).1
  · intro start hstart
    rw [hfd] at hstart
    obtain ⟨front, file, rfl, rfl⟩ := h.laid.opened start hstart
    have hkept : keep file = true := by
      by_contra hgone
      have hback : file ∈ front ++ [file] := List.mem_append_right _ (List.mem_singleton.mpr rfl)
      exact (obsoleteSegment_iff (hobsolete file hback (eq_false_of_ne_true hgone))).1 hstart
    exact ⟨front.filter keep, file, by rw [List.filter_append, List.filter_cons_of_pos hkept, List.filter_nil], rfl⟩
  · intro point t hactive hdepth hlog
    rw [hsame.config] at hdepth
    rw [hsame.chainHashes] at hactive
    rw [latestConnect_filter, h.latest point t hactive (le_trans (le_max_left _ _) hdepth) hlog]
    intro file hfile hgone u hu
    obtain ⟨-, maxHeight, maxLsn, hscan, -, hfloor⟩ := obsoleteSegment_iff (hobsolete file hfile hgone)
    have hlow := (scanSegment_bounds (h.laid.wellFormed file hfile).storable hscan u hu).1
    by_contra hconnects
    obtain ⟨-, rfl⟩ := connects_iff.mp (eq_true_of_ne_false hconnects)
    -- the record is at or above the floor, and the segment is below it
    have hfloor' := hfloor h.sync
    have htip := le_trans (le_max_right highest s.point.height) hdepth
    omega

omit [StoredHash H] [DecidableEq H] in
theorem removeRuns_log (unlinked : Nat → Res) (generations : List Nat) (removed : Bool) :
    (s.removeRuns unlinked generations removed).2.directory.segments = s.directory.segments ∧
      (s.removeRuns unlinked generations removed).2.walFd = s.walFd := by
  induction generations generalizing s removed with
  | nil => exact ⟨rfl, rfl⟩
  | cons generation generations ih =>
    rw [OpenStore.removeRuns]
    split
    · exact ⟨rfl, rfl⟩
    · obtain ⟨hsegments, hfd⟩ := @ih { s with directory := { s.directory with
        deltas := s.directory.deltas.filter fun run => run.1 ≠ generation } } true
      exact ⟨hsegments, hfd⟩

omit [StoredHash H] in
theorem writeDeltaRun_segments (directory : Directory H) (state : DeltaState H) (chainHashes : List H)
    (records : List (Nat × NodeRecord H)) (io : DeltaIo) :
    (writeDeltaRun directory state chainHashes records io).2.segments = directory.segments := by
  unfold writeDeltaRun
  split_ifs
  · rfl
  · rfl
  · rfl
  · rfl
  · split
    · rfl
    · dsimp only
      split
      · rfl
      · split <;> rfl
  · rfl

structure OpenStore.SameLog (s s' : OpenStore H) : Prop where
  chain : s.SameChain s'
  segments : s'.directory.segments = s.directory.segments
  walFd : s'.walFd = s.walFd

omit [StoredHash H] [DecidableEq H] in
theorem OpenStore.SameLog.trans {s'' : OpenStore H} (h : s.SameLog s') (h' : s'.SameLog s'') : s.SameLog s'' :=
  ⟨h.chain.trans h'.chain, h'.segments.trans h.segments, h'.walFd.trans h.walFd⟩

omit [StoredHash H] [DecidableEq H] in
theorem OpenStore.SameLog.refl (s : OpenStore H) : s.SameLog s := ⟨.refl s, rfl, rfl⟩

section Seal

variable {a : NodeArena H} {roots : Vector Nat 64} {numLeaves : Nat}

theorem sealDirty_sameLog (io : DeltaIo) : s.SameLog (s.sealDirty a roots numLeaves io).2.1 := by
  unfold OpenStore.sealDirty
  split
  · exact .refl s
  · dsimp only
    split
    all_goals
      rename_i hwrite
      have hsegments := congrArg (fun written => written.2.segments) hwrite
      rw [writeDeltaRun_segments] at hsegments
      exact ⟨⟨rfl, rfl, rfl, rfl, rfl, rfl⟩, hsegments.symm, rfl⟩

theorem compactDeltas_sameLog (io : FlushIo) : s.SameLog (s.compactDeltas a roots numLeaves io).2.1 := by
  unfold OpenStore.compactDeltas
  split
  · exact .refl s
  · dsimp only
    split
    · rename_i hwrite
      have hsegments := congrArg (fun written => written.2.segments) hwrite
      rw [writeDeltaRun_segments] at hsegments
      exact ⟨⟨rfl, rfl, rfl, rfl, rfl, rfl⟩, hsegments.symm, rfl⟩
    · rename_i run directory hwrite
      have hsegments := congrArg (fun written => written.2.segments) hwrite
      rw [writeDeltaRun_segments] at hsegments
      split
      all_goals
        rename_i hremove
        have hstore := congrArg Prod.snd hremove
        dsimp only at hstore ⊢
        rw [← hstore]
        obtain ⟨hkept, hfd⟩ := @removeRuns_log H { s with
          directory, deltaGeneration := (s.deltaState true s.durableLsn a.compactRecords.length _ a roots
            numLeaves).generation } io.unlinked (a.deltaRuns.map (·.state.generation)) false
        refine .trans ?_ ⟨removeRuns_sameChain _ _ _, hkept, hfd⟩
        exact ⟨⟨rfl, rfl, rfl, rfl, rfl, rfl⟩, hsegments.symm, rfl⟩

theorem compactIfDue_sameLog (io : FlushIo) : s.SameLog (s.compactIfDue a roots numLeaves io).2.1 := by
  unfold OpenStore.compactIfDue
  split_ifs
  · exact compactDeltas_sameLog io
  · exact .refl s

theorem sealDelta_log (io : FlushIo) : ∃ sealed, s.SameLog sealed ∧
    ((s.sealDelta a roots numLeaves io).2.1 = sealed ∨
      (s.sealDelta a roots numLeaves io).2.1 = (sealed.pruneWal io.pruned).2) := by
  have hseal : s.SameLog (s.sealDirty a roots numLeaves io.sealed).2.1 := sealDirty_sameLog io.sealed
  unfold OpenStore.sealDelta
  split
  · rename_i hrun
    rw [hrun] at hseal
    exact ⟨_, hseal, Or.inl rfl⟩
  · rename_i s1 a1 hrun
    rw [hrun] at hseal
    have hcompact : s1.SameLog (s1.compactIfDue a1 roots numLeaves io).2.1 := compactIfDue_sameLog io
    split
    all_goals
      rename_i hrun2
      rw [hrun2] at hcompact
    · exact ⟨_, hseal.trans hcompact, Or.inl rfl⟩
    · exact ⟨_, hseal.trans hcompact, Or.inr rfl⟩

theorem Retains.sealDelta (h : Retains s files log highest) (io : FlushIo) :
    ∃ files', Retains (s.sealDelta a roots numLeaves io).2.1 files' log (max highest s.point.height) := by
  obtain ⟨sealed, hsame, hresult⟩ := @sealDelta_log H _ s _ a roots numLeaves io
  have hsealed : Retains sealed files log highest := h.congr hsame.chain hsame.segments hsame.walFd
  rcases hresult with hresult | hresult
  · rw [hresult]
    exact ⟨files, hsealed.mono (le_max_left _ _)⟩
  · rw [hresult, ← hsame.chain.point]
    exact hsealed.prune io.pruned

end Seal

end Retains

end Layout

end UtreexoBridge
