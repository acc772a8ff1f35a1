import UtreexoBridge.Online.Retention
import UtreexoBridge.Online.Stacked
import UtreexoBridge.Online.Sync

/-!
# Directories that stand for a forest

The sealed runs and the log of a directory lead to one view. Opening the
directory finds it, and the appends and seals keep it so.
-/

namespace UtreexoBridge

open Bytes

section Over

variable {H : Type} [StoredHash H] {base : OnlineBase H} {a a' : NodeArena H}

/-! ## Arenas over a base -/

structure NodeArena.Over (base : OnlineBase H) (a : NodeArena H) : Prop where
  mapped : a.mapped = true
  files : a.files = base.files
  capacity : a.capacity = base.superblock.capacitySlots
  baseNext : a.baseNext = base.superblock.next

theorem OnlineBase.overlaid_over (base : OnlineBase H) (runs : List (DeltaRun H)) : (base.overlaid runs).Over base :=
  ⟨rfl, rfl, rfl, rfl⟩

theorem NodeArena.Over.read_eq (h : a.Over base) (h' : a'.Over base) (hruns : a'.deltaRuns = a.deltaRuns)
    (hdirty : a'.dirty = a.dirty) : a'.read = a.read := by
  funext id
  unfold NodeArena.read NodeArena.findDeltaRecord NodeArena.readPhysicalBase
  rw [h.mapped, h'.mapped, h.files, h'.files, h.capacity, h'.capacity, h.baseNext, h'.baseNext, hruns, hdirty,
    if_pos rfl, if_pos rfl]

theorem NodeArena.Over.fingerprint (h : a.Over base) (state : OnlineSuperblock H) :
    onlineBaseFingerprint state a = onlineBaseFingerprint state base.forest.arena := by
  have hrecord : a.baseRecord = base.forest.arena.baseRecord := by
    funext id
    unfold NodeArena.baseRecord
    rw [h.mapped, h.baseNext, h.files]
    rfl
  unfold onlineBaseFingerprint
  rw [hrecord]

end Over

section Durable

variable {H : Type} [StoredHash H] [DecidableEq H] {base : OnlineBase H} {depth highest : Nat} {d : Directory H}
  {runs : List (DeltaRun H)} {generation durable : Nat} {files : List (WalFile H)} {v : ForestView H}
  {t : WalTransaction H}

/-! ## What a directory stands for -/

/-- A base that was written as a whole. -/
structure OnlineBase.Sound (base : OnlineBase H) : Prop where
  count : base.superblock.chainHashCount ≤ base.chainHashes.length
  tip : ChainMatches base.superblock.point base.chain
  height : base.superblock.point.height + 1 < 2 ^ 32
  next : base.superblock.next ≤ noNode

omit [StoredHash H] [DecidableEq H] in
theorem OnlineBase.Sound.length_chain (h : base.Sound) : base.chain.length = base.superblock.chainHashCount := by
  rw [OnlineBase.chain, List.length_take, Nat.min_eq_left h.count]

/-- What the blocks left in the way of leaves, by their heights. The records that connected them say the same, as far back
as `depth` below the highest tip at which a flush ran. -/
def LeavesCounted (depth highest : Nat) (records : List (WalTransaction H)) (v : ForestView H) : Prop :=
  ∃ counts : Nat → Nat, counts v.point.height = v.numLeaves ∧ ∀ (point : ChainPoint H) t,
    v.chainHashes[point.height]? = some point.blockHash → highest ≤ point.height + depth →
      latestConnect point records = some t →
        t.afterNumLeaves = counts point.height ∧ t.beforeNumLeaves = counts (point.height - 1)

/-- The runs and the segments of `d` lead from the base to `v`. -/
structure Durable (base : OnlineBase H) (depth highest : Nat) (d : Directory H) (runs : List (DeltaRun H))
    (generation durable : Nat) (files : List (WalFile H)) (v : ForestView H) : Prop where
  stacked : Stacked base d.deltas runs generation durable
  segments : d.segments = files.map fun file => (file.start, file.bytes)
  sorted : files.Pairwise fun x y => x.start < y.start
  starts : ∀ file ∈ files, file.start ≤ v.lsn + 1
  wellFormed : ∀ file ∈ files, file.WellFormed
  covers : (ForestView.redo H).Covers (base.sealedView runs) (allRecords files) v
  chain : base.chain <+: v.chainHashes
  tip : ChainMatches v.point v.chainHashes
  height : v.point.height + 1 < 2 ^ 32
  next : v.next ≤ noNode
  connects : ∀ t ∈ allRecords files, t.kind = .connect → base.superblock.chainHashCount ≤ t.point.height
  counted : LeavesCounted depth highest (allRecords files) v

structure Reopened (base : OnlineBase H) (config : OnlineForestConfig) (d : Directory H) (runs : List (DeltaRun H))
    (generation durable : Nat) (files : List (WalFile H)) (s : OpenStore H) (f : PackedForest H) : Prop where
  config : s.config = config
  superblock : s.base = base.superblock
  directory : s.directory = { d with segments := (files.map WalFile.whole).map fun file => (file.start, file.bytes) }
  walFd : s.walFd = none
  pending : s.pending = false
  deltaGeneration : s.deltaGeneration = generation
  durableLsn : s.durableLsn = durable
  arena : f.arena.Over base
  deltaRuns : f.arena.deltaRuns = runs

/-- **Opening finds the view.** -/
theorem Durable.recover (h : Durable base depth highest d runs generation durable files v) (hbase : base.Sound)
    (config : OnlineForestConfig) :
    ∃ s f, base.recover config d = .ok (s, f) ∧ Reopened base config d runs generation durable files s f ∧
      ForestView.of f s s.currentLsn = v := by
  obtain ⟨s, f, hdeltas, ⟨point, chainHashes, durableLiveNodes, rfl⟩, ⟨next, roots, numLeaves, rfl⟩, hview⟩ :=
    recoverDeltas_stacked h.stacked hbase.count config
  have hcovers := h.covers
  rw [← hview] at hcovers
  obtain ⟨s', f', hlog, hkept, hview'⟩ := recoverLog_files h.segments h.wellFormed rfl hcovers
  obtain ⟨point', chainHashes', redoWalBytes, currentLsn, rfl⟩ := hkept.store
  obtain ⟨dirty, next', harena⟩ := hkept.arena
  refine ⟨_, f', ?_, ⟨rfl, rfl, rfl, rfl, rfl, rfl, rfl, ?_, ?_⟩, hview'⟩
  · rw [OnlineBase.recover, hdeltas]
    exact hlog
  · rw [harena]
    exact ⟨rfl, rfl, rfl, rfl⟩
  · rw [harena]

theorem Durable.relaid (h : Durable base depth highest d runs generation durable files v) {d' : Directory H}
    {files' : List (WalFile H)} (hdeltas : d'.deltas = d.deltas)
    (hsegments : d'.segments = files'.map fun file => (file.start, file.bytes))
    (hsorted : files'.Pairwise fun x y => x.start < y.start) (hstarts : ∀ file ∈ files', file.start ≤ v.lsn + 1)
    (hfiles : ∀ file ∈ files', file.WellFormed) (hrecords : allRecords files' = allRecords files) :
    Durable base depth highest d' runs generation durable files' v := by
  refine ⟨by rw [hdeltas]; exact h.stacked, hsegments, hsorted, hstarts, hfiles, ?_, h.chain, h.tip, h.height, h.next,
    ?_, ?_⟩
  all_goals rw [hrecords]
  · exact h.covers
  · exact h.connects
  · exact h.counted

theorem Durable.whole (h : Durable base depth highest d runs generation durable files v) :
    Durable base depth highest
      { d with segments := (files.map WalFile.whole).map fun file => (file.start, file.bytes) } runs generation durable
      (files.map WalFile.whole) v := by
  refine h.relaid rfl rfl (List.pairwise_map.mpr h.sorted) (fun file hfile => ?_) (fun file hfile => ?_)
    (allRecords_whole files)
  · obtain ⟨other, hother, rfl⟩ := List.mem_map.mp hfile
    exact h.starts other hother
  · obtain ⟨other, hother, rfl⟩ := List.mem_map.mp hfile
    exact ⟨(h.wellFormed other hother).storable, Or.inl rfl⟩

/-! ## Another record -/

/-- A transaction that goes on top of `v`. A connected block comes behind the base, and its record tells the leaves that
it left. A disconnected one is not of the base. -/
structure ForestView.Extends (base : OnlineBase H) (v : ForestView H) (t : WalTransaction H) : Prop where
  accepted : v.accepts t = true
  height : t.point.height + 1 < 2 ^ 32
  next : t.afterNext ≤ noNode
  kept : t.kind = .disconnect → base.superblock.chainHashCount < v.chainHashes.length

omit [StoredHash H] in
theorem ForestView.Extends.tip (h : v.Extends base t) (htip : ChainMatches v.point v.chainHashes) :
    ChainMatches t.point (v.apply t).chainHashes := by
  obtain ⟨-, hextends, -⟩ := ForestView.accepts_iff.mp h.accepted
  unfold WalTransaction.extendsChain at hextends
  show ChainMatches t.point (t.chainAfter v.chainHashes)
  unfold WalTransaction.chainAfter
  cases hkind : t.kind with
  | connect =>
    rw [hkind, Bool.and_eq_true, decide_eq_true_eq, decide_eq_true_eq] at hextends
    exact .push hextends.2
  | disconnect =>
    rw [hkind, Bool.and_eq_true, decide_eq_true_eq, decide_eq_true_eq] at hextends
    obtain ⟨hprevious, -, -, hheight, hstored⟩ := hextends
    have hadd : add32 t.point.height 1 = t.point.height + 1 := Nat.mod_eq_of_lt h.height
    refine .pop ?_ hstored
    rw [htip.1, ← hprevious, ← hheight, hadd]

omit [StoredHash H] in
theorem ForestView.Extends.chain (h : v.Extends base t) (hbase : base.Sound) (hchain : base.chain <+: v.chainHashes) :
    base.chain <+: (v.apply t).chainHashes := by
  show base.chain <+: t.chainAfter v.chainHashes
  unfold WalTransaction.chainAfter
  cases hkind : t.kind with
  | connect => exact hchain.trans (List.prefix_append _ _)
  | disconnect =>
    have hlt := h.kept hkind
    rw [← hbase.length_chain] at hlt
    refine List.prefix_of_prefix_length_le hchain (List.dropLast_prefix _) ?_
    rw [List.length_dropLast]
    omega

omit [StoredHash H] in
/-- A block of the new chain is the one that was connected, or of the old chain. -/
theorem active_of_connect {chainHashes : List H} {point : ChainPoint H} (hkind : t.kind = .connect)
    (hheight : t.point.height = chainHashes.length)
    (hactive : (chainHashes ++ [t.point.blockHash])[point.height]? = some point.blockHash) :
    t.connects point = true ∨ t.connects point = false ∧ point.height < t.point.height ∧
      chainHashes[point.height]? = some point.blockHash := by
  rcases Nat.lt_or_ge point.height chainHashes.length with hlt | hge
  · rw [List.getElem?_append_left hlt] at hactive
    refine Or.inr ⟨Bool.eq_false_iff.mpr fun hconnects => ?_, hheight ▸ hlt, hactive⟩
    rw [← (connects_iff.mp hconnects).2] at hlt
    omega
  · left
    obtain ⟨hlast, -⟩ := List.getElem?_eq_some_iff.mp hactive
    rw [List.length_append, List.length_singleton] at hlast
    have hlength : point.height = chainHashes.length := by omega
    rw [List.getElem?_append_right hge, hlength, Nat.sub_self, List.getElem?_cons_zero] at hactive
    have hpoint : t.point = point := by
      cases hp : point
      rw [hp] at hlength hactive
      cases ht : t.point
      rw [ht] at hheight hactive
      dsimp only at hheight hlength hactive
      rw [hheight, hlength, Option.some.inj hactive]
    exact connects_iff.mpr ⟨hkind, hpoint⟩

omit [StoredHash H] in
theorem LeavesCounted.append {records : List (WalTransaction H)} (h : LeavesCounted depth highest records v)
    (ht : v.Extends base t) (htip : ChainMatches v.point v.chainHashes)
    (hback : t.kind = .disconnect → highest ≤ v.point.height + depth ∧
      ∃ original, latestConnect v.point records = some original ∧ original.beforeNumLeaves = t.afterNumLeaves) :
    LeavesCounted depth highest (records ++ [t]) (v.apply t) := by
  obtain ⟨counts, hnow, hcounts⟩ := h
  obtain ⟨-, hextends, hbefore⟩ := ForestView.accepts_iff.mp ht.accepted
  unfold WalTransaction.extendsChain at hextends
  cases hkind : t.kind with
  | connect =>
    rw [hkind, Bool.and_eq_true, decide_eq_true_eq, decide_eq_true_eq] at hextends
    have hnew : t.point.height = v.point.height + 1 := hextends.2.trans htip.1
    refine ⟨Function.update counts t.point.height t.afterNumLeaves, Function.update_self _ _ _, ?_⟩
    intro point u hactive hdepth hlatest
    have hchain : (v.apply t).chainHashes = v.chainHashes ++ [t.point.blockHash] := by
      show t.chainAfter v.chainHashes = _
      rw [WalTransaction.chainAfter, hkind]
    rw [hchain] at hactive
    rcases active_of_connect hkind hextends.2 hactive with hconnects | ⟨hconnects, hlt, hold⟩
    · rw [latestConnect_push_of hconnects] at hlatest
      obtain rfl := Option.some.inj hlatest
      rw [← (connects_iff.mp hconnects).2, Function.update_self, Function.update_of_ne (by omega), hnew,
        Nat.add_sub_cancel, hnow]
      exact ⟨rfl, hbefore⟩
    · rw [latestConnect_push_of_not hconnects] at hlatest
      rw [Function.update_of_ne (by omega), Function.update_of_ne (by omega)]
      exact hcounts point u hold hdepth hlatest
  | disconnect =>
    rw [hkind, Bool.and_eq_true, decide_eq_true_eq, decide_eq_true_eq] at hextends
    obtain ⟨hprevious, -, -, hheight, -⟩ := hextends
    have hadd : add32 t.point.height 1 = t.point.height + 1 := Nat.mod_eq_of_lt ht.height
    rw [hadd, hprevious] at hheight
    obtain ⟨hdepth, original, horiginal, hleaves⟩ := hback hkind
    have hactive : v.chainHashes[v.point.height]? = some v.point.blockHash := by
      rw [← htip.2, List.getLast?_eq_getElem?, htip.1, Nat.add_sub_cancel]
    refine ⟨counts, ?_, fun point u hactive' hdepth' hlatest => ?_⟩
    · show counts t.point.height = t.afterNumLeaves
      rw [← hleaves, (hcounts v.point original hactive hdepth horiginal).2, ← hheight, Nat.add_sub_cancel]
    · have hchain : (v.apply t).chainHashes = v.chainHashes.dropLast := by
        show t.chainAfter v.chainHashes = _
        rw [WalTransaction.chainAfter, hkind]
      rw [hchain, List.getElem?_dropLast] at hactive'
      split_ifs at hactive' with hlt
      refine hcounts point u hactive' hdepth' ?_
      rwa [latestConnect_push_of_not] at hlatest
      exact Bool.eq_false_iff.mpr fun hconnects => by
        rw [(connects_iff.mp hconnects).1] at hkind
        cases hkind

theorem Durable.append (h : Durable base depth highest d runs generation durable files v) (hbase : base.Sound)
    (ht : v.Extends base t)
    (hback : t.kind = .disconnect → highest ≤ v.point.height + depth ∧
      ∃ original, latestConnect v.point (allRecords files) = some original ∧
        original.beforeNumLeaves = t.afterNumLeaves)
    {d' : Directory H} {files' : List (WalFile H)} (hdeltas : d'.deltas = d.deltas)
    (hsegments : d'.segments = files'.map fun file => (file.start, file.bytes))
    (hsorted : files'.Pairwise fun x y => x.start < y.start) (hstarts : ∀ file ∈ files', file.start ≤ t.lsn + 1)
    (hfiles : ∀ file ∈ files', file.WellFormed) (hrecords : allRecords files' = allRecords files ++ [t]) :
    Durable base depth highest d' runs generation durable files' (v.apply t) := by
  refine ⟨by rw [hdeltas]; exact h.stacked, hsegments, hsorted, hstarts, hfiles, ?_, ht.chain hbase h.chain,
    ht.tip h.tip, ht.height, ht.next, ?_, ?_⟩
  all_goals rw [hrecords]
  · exact h.covers.append ht.accepted
  · intro u hu hkind
    rcases List.mem_append.mp hu with hmem | hlast
    · exact h.connects u hmem hkind
    · -- a connected block stands behind the chain of the base
      rw [List.mem_singleton.mp hlast] at hkind ⊢
      obtain ⟨-, hextends, -⟩ := ForestView.accepts_iff.mp ht.accepted
      unfold WalTransaction.extendsChain at hextends
      rw [hkind, Bool.and_eq_true, decide_eq_true_eq, decide_eq_true_eq] at hextends
      rw [hextends.2, ← hbase.length_chain]
      exact h.chain.length_le
  · exact h.counted.append ht h.tip hback

end Durable

end UtreexoBridge
