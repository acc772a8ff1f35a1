import UtreexoBridge.Online.FlushCrash

/-!
# A block that stops anywhere

The record of a block is in the log as a whole, in part or not at all. What was
written in part does not count.
-/

namespace UtreexoBridge

open Bytes

/-! ## The arena behind a transaction -/

section Arena

variable {H : Type} [ForestHash H] {a a' a0 : NodeArena H}

omit [ForestHash H] in
theorem foldl_update_eq {changes : List (NodeChange H)} {read : Nat → NodeRecord H}
    (h : ∀ change ∈ changes, change.after = read change.id) (old : Nat → NodeRecord H) (id : Nat) :
    changes.foldl (fun read change => Function.update read change.id change.after) old id =
      if id ∈ changes.map (·.id) then read id else old id := by
  induction changes generalizing old with
  | nil => rfl
  | cons change changes ih =>
    rw [List.foldl_cons, ih (fun c hc => h c (List.mem_cons_of_mem _ hc)), List.map_cons]
    by_cases hrest : id ∈ changes.map (·.id)
    · rw [if_pos hrest, if_pos (List.mem_cons_of_mem _ hrest)]
    · rw [if_neg hrest]
      by_cases hid : id = change.id
      · rw [hid, Function.update_self, if_pos List.mem_cons_self, h change List.mem_cons_self]
      · rw [Function.update_of_ne hid, if_neg (List.not_mem_cons_of_ne_of_not_mem hid hrest)]

theorem NodeArena.Undoable.read_changes (h : a0.Undoable a) (hmapped : a0.mapped = true) :
    a.read = a.transactionChanges.foldl (fun read change => Function.update read change.id change.after) a0.read := by
  obtain ⟨originals, htransaction, -, hrest⟩ := h.originals
  have hchanges : a.transactionChanges =
      originals.toList.map fun entry => ⟨entry.1, entry.2.record, a.read entry.1, entry.2.wasDirty⟩ := by
    unfold NodeArena.transactionChanges
    rw [htransaction]
  have hafter : ∀ change ∈ a.transactionChanges, change.after = a.read change.id := by
    rw [hchanges]
    intro change hchange
    obtain ⟨entry, -, rfl⟩ := List.mem_map.mp hchange
    rfl
  funext id
  rw [foldl_update_eq hafter]
  split_ifs with hmem
  · rfl
  · have hnone : originals[id]? = none := by
      cases horiginal : originals[id]? with
      | none => rfl
      | some original =>
        refine absurd ?_ hmem
        rw [hchanges, List.map_map]
        exact List.mem_map.mpr ⟨(id, original), Std.ExtTreeMap.mem_toList_iff_getElem?_eq_some.mpr horiginal, rfl⟩
    unfold NodeArena.read NodeArena.findDeltaRecord NodeArena.readPhysicalBase
    rw [h.mapped, hmapped, hrest id hnone, h.deltaRuns, h.files, h.capacity, h.baseNext, if_pos rfl, if_pos rfl]

omit [ForestHash H] in
theorem takeFree_next {id : Nat} (hok : a.takeFree = some (id, a')) : a'.next = a.next := by
  unfold NodeArena.takeFree NodeArena.noteFree at hok
  split at hok
  · cases hok
  · split_ifs at hok
    all_goals
      cases hok
      rfl

theorem stableAlloc_next : StableAlloc (H := H) fun a => a.next ≤ noNode where
  write h id record := by rw [NodeArena.write_next]; exact h
  free h id := by
    unfold NodeArena.free NodeArena.noteFree
    dsimp only
    split_ifs
    all_goals
      rw [NodeArena.write_next]
      exact h
  allocate {a} h type hash left right id a' hok := by
    rw [NodeArena.allocate] at hok
    dsimp only at hok
    by_cases hfree : if a.dropStale.mapped then a.dropStale.freeSet ≠ ∅ else a.dropStale.freeStack ≠ []
    · rw [if_pos hfree] at hok
      cases htake : a.dropStale.takeFree with
      | none =>
        rw [htake] at hok
        cases hok
      | some taken =>
        obtain ⟨id', a1⟩ := taken
        rw [htake] at hok
        cases hok
        show (a1.write _ _).next ≤ noNode
        rw [NodeArena.write_next, takeFree_next htake, NodeArena.dropStale_next]
        exact h
    · rw [if_neg hfree, NodeArena.dropStale_next] at hok
      split_ifs at hok with hlast
      cases hok
      show a.next + 1 ≤ noNode
      omega

theorem NodeArena.Undoable.write_booked (h : a0.Undoable a) (freeStack : List Nat) (freeSet : Finset Nat)
    (freeOperations : List (Bool × Nat)) (live id : Nat) (record : NodeRecord H) :
    a0.Undoable ({ a with freeStack, freeSet, freeOperations, live }.write id record) ∧
      ({ a with freeStack, freeSet, freeOperations, live }.write id record).read = Function.update a.read id record := by
  have hbooked : a0.Undoable { a with freeStack, freeSet, freeOperations, live } :=
    h.congr rfl rfl rfl rfl rfl rfl rfl rfl rfl rfl
  exact ⟨hbooked.write id record, NodeArena.read_write _ id record⟩

omit [ForestHash H] in
theorem noteFree_eq (a : NodeArena H) (freed : Bool) (id : Nat) :
    ∃ freeOperations, a.noteFree freed id = { a with freeOperations } := by
  unfold NodeArena.noteFree
  split_ifs
  · exact ⟨_, rfl⟩
  · exact ⟨a.freeOperations, rfl⟩

theorem applyRuntime_undoable (h : a0.Undoable a) {id : Nat} {record : NodeRecord H}
    (hok : a.applyRuntime id record = .ok a') :
    a0.Undoable a' ∧ a'.read = Function.update a.read id record := by
  unfold NodeArena.applyRuntime at hok
  rw [if_neg (by rw [h.mapped]; decide)] at hok
  split_ifs at hok
  · obtain ⟨freeOperations, heq⟩ := noteFree_eq { a with freeSet := a.freeSet.erase id, live := a.live + 1 } false id
    rw [heq] at hok
    cases hok
    exact h.write_booked _ _ _ _ id record
  · obtain ⟨freeOperations, heq⟩ := noteFree_eq { a with
      freeSet := insert id a.freeSet, freeStack := id :: a.freeStack, live := a.live - 1 } true id
    rw [heq] at hok
    cases hok
    exact h.write_booked _ _ _ _ id record
  · cases hok
    exact ⟨h.write id record, NodeArena.read_write a id record⟩

theorem applyChanges_undoable [DecidableEq H] {f f' : PackedForest H} {changes : List (NodeChange H)}
    (h : a0.Undoable f.arena) (hok : PackedForest.applyChanges true changes f = .ok (.ok (), f')) :
    a0.Undoable f'.arena ∧
      f'.arena.read = changes.foldl (fun read change => Function.update read change.id change.after) f.arena.read := by
  induction changes generalizing f with
  | nil =>
    cases hok
    exact ⟨h, rfl⟩
  | cons change changes ih =>
    rw [PackedForest.applyChanges] at hok
    rw [if_pos rfl, if_pos rfl] at hok
    by_cases hexpected : f.arena.read change.id ≠ change.before
    · rw [if_pos hexpected] at hok
      cases hok
    rw [if_neg hexpected] at hok
    split at hok
    · cases hok
    · cases hok
    · rename_i index hindex
      cases happly : f.arena.applyRuntime change.id change.after with
      | error what =>
        rw [happly] at hok
        cases hok
      | ok arena =>
        rw [happly] at hok
        dsimp only at hok
        obtain ⟨hundo, hread⟩ := applyRuntime_undoable h happly
        split at hok
        · cases hok
        · obtain ⟨hundo', hread'⟩ := ih hundo hok
          refine ⟨hundo', ?_⟩
          rw [hread', List.foldl_cons]
          exact congrArg (fun read => changes.foldl _ read) hread

end Arena

/-! ## The log behind an append -/

section Append

variable {H : Type} [StoredHash H] {s s' : OpenStore H} {t : WalTransaction H} {io : AppendIo}

omit [StoredHash H] in
/-- Only a flush changes these. -/
structure OpenStore.SameRuns (s s' : OpenStore H) : Prop where
  deltas : s'.directory.deltas = s.directory.deltas
  durableLsn : s'.durableLsn = s.durableLsn
  deltaGeneration : s'.deltaGeneration = s.deltaGeneration

omit [StoredHash H] in
theorem OpenStore.SameRuns.trans {s'' : OpenStore H} (h : s.SameRuns s') (h' : s'.SameRuns s'') : s.SameRuns s'' :=
  ⟨h'.deltas.trans h.deltas, h'.durableLsn.trans h.durableLsn, h'.deltaGeneration.trans h.deltaGeneration⟩

omit [StoredHash H] in
theorem openAppendSegment_sameRuns (size : Nat) : s.SameRuns (s.openAppendSegment size io).2 := by
  unfold OpenStore.openAppendSegment
  split
  · exact ⟨rfl, rfl, rfl⟩
  · dsimp only
    split
    · dsimp only
      split_ifs
      all_goals exact ⟨rfl, rfl, rfl⟩
    · split
      · split
        all_goals exact ⟨rfl, rfl, rfl⟩
      · exact ⟨rfl, rfl, rfl⟩

omit [StoredHash H] in
theorem writeSegment_sameRuns (bytes : List UInt8) : s.SameRuns (s.writeSegment bytes) := by
  unfold OpenStore.writeSegment
  split
  all_goals exact ⟨rfl, rfl, rfl⟩

theorem append_sameRuns [DecidableEq H] : s.SameRuns (s.append t io).2 := by
  unfold OpenStore.append
  split
  · exact ⟨rfl, rfl, rfl⟩
  · dsimp only
    split
    · generalize serializeWal { t with lsn := word (s.currentLsn + 1) } = bytes
      have hopen : s.SameRuns (s.openAppendSegment bytes.length io).2 := openAppendSegment_sameRuns _
      split
      · rename_i hopened
        rw [hopened] at hopen
        exact hopen
      · rename_i s1 hopened
        rw [hopened] at hopen
        split
        · exact hopen.trans (writeSegment_sameRuns _)
        · have hwrite := hopen.trans (writeSegment_sameRuns (s := s1) bytes)
          split
          · exact hwrite
          · exact ⟨hwrite.deltas, hwrite.durableLsn, hwrite.deltaGeneration⟩
    · exact ⟨rfl, rfl, rfl⟩

theorem wholeRecords_nil : WholeRecords H [] := ⟨[], fun _ ht => absurd ht List.not_mem_nil, rfl⟩

theorem WholeRecords.push {bytes : List UInt8} (h : WholeRecords H bytes) (ht : t.Storable) :
    WholeRecords H (bytes ++ serializeWal t) := by
  obtain ⟨records, hstorable, rfl⟩ := h
  refine ⟨records ++ [t], fun u hu => ?_, by rw [List.flatMap_append, List.flatMap_singleton]⟩
  rcases List.mem_append.mp hu with hmem | hlast
  · exact hstorable u hmem
  · rw [List.mem_singleton.mp hlast]
    exact ht

theorem wholeRecords_lookup (h : s.Whole) (start : Nat) :
    WholeRecords H ((OrderedMap.lookup s.directory.segments start).getD []) := by
  cases hlookup : OrderedMap.lookup s.directory.segments start with
  | none => exact wholeRecords_nil
  | some bytes => exact h _ (OrderedMap.mem_of_lookup hlookup)

theorem scanSegment_whole {records : List (WalTransaction H)} (h : ∀ t ∈ records, t.Storable) {fuel : Nat}
    (hfuel : records.length < fuel) (maxHeight maxLsn : Nat) :
    (OpenStore.scanSegment (H := H) fuel (records.flatMap serializeWal) maxHeight maxLsn).isSome := by
  induction records generalizing fuel maxHeight maxLsn with
  | nil =>
    cases fuel with
    | zero => cases hfuel
    | succ fuel =>
      rw [OpenStore.scanSegment, List.flatMap_nil, if_pos rfl]
      rfl
  | cons t records ih =>
    cases fuel with
    | zero => cases hfuel
    | succ fuel =>
      have hnonempty : (t :: records).flatMap serializeWal ≠ [] := by
        rw [List.flatMap_cons]
        exact List.append_ne_nil_of_left_ne_nil (serializeWal_ne_nil t) _
      rw [OpenStore.scanSegment, if_neg hnonempty, List.flatMap_cons, nextRecord_serializeWal (h t List.mem_cons_self)]
      dsimp only
      rw [List.drop_left]
      exact ih (fun u hu => h u (List.mem_cons_of_mem _ hu)) (Nat.lt_of_succ_lt_succ hfuel) _ _

theorem OpenStore.Whole.endsWhole (h : s.Whole) (recordSize : Nat) : s.EndsWhole recordSize := by
  intro segment hsegment _
  obtain ⟨records, hstorable, hbytes⟩ := h segment hsegment
  rw [hbytes]
  refine scanSegment_whole hstorable ?_ 0 0
  have := length_records_le records []
  rw [List.append_nil] at this
  omega

theorem OpenStore.Whole.openAppendSegment (h : s.Whole) (size : Nat) : (s.openAppendSegment size io).2.Whole := by
  have hcreated : ∀ segment ∈ OrderedMap.assign s.directory.segments (word (s.currentLsn + 1))
      ((OrderedMap.lookup s.directory.segments (word (s.currentLsn + 1))).getD []), WholeRecords H segment.2 := by
    intro segment hsegment
    rcases OrderedMap.mem_assign hsegment with rfl | hold
    · exact wholeRecords_lookup h _
    · exact h segment hold
  unfold OpenStore.openAppendSegment
  split
  · exact h
  · dsimp only
    split
    · dsimp only
      split_ifs
      · exact hcreated
      · exact h
    · split
      · split
        all_goals exact hcreated
      · exact hcreated

theorem OpenStore.Whole.writeSegment (h : s.Whole) (ht : t.Storable) : (s.writeSegment (serializeWal t)).Whole := by
  unfold OpenStore.writeSegment
  split
  · exact h
  · rename_i start _
    intro segment hsegment
    rcases OrderedMap.mem_assign hsegment with rfl | hold
    · exact (wholeRecords_lookup h start).push ht
    · exact h segment hold

theorem OpenStore.Whole.append [DecidableEq H] (h : s.Whole) (ht : (s.numbered t).Storable)
    (hok : (s.append t io).1 = .ok ()) : (s.append t io).2.Whole := by
  have hnumbered : ({ t with lsn := word (s.currentLsn + 1) } : WalTransaction H) = s.numbered t := rfl
  unfold OpenStore.append at hok ⊢
  by_cases hvalid : s.chainValid t = true
  swap
  · rw [if_pos (by simpa using hvalid)] at hok
    cases hok
  rw [if_neg (by simpa using hvalid)] at hok ⊢
  dsimp only at hok ⊢
  rw [hnumbered] at hok ⊢
  by_cases hsync : s.config.syncWal = true
  swap
  · rw [if_neg hsync]
    exact h
  rw [if_pos hsync] at hok ⊢
  have hopen : (s.openAppendSegment (serializeWal (s.numbered t)).length io).2.Whole := h.openAppendSegment _
  generalize s.openAppendSegment (serializeWal (s.numbered t)).length io = opened at hok hopen ⊢
  obtain ⟨message | u, s1⟩ := opened
  · cases hok
  · dsimp only at hok ⊢
    cases hwrite : io.writeError with
    | some failure =>
      rw [hwrite] at hok
      cases hok
    | none =>
      rw [hwrite] at hok
      dsimp only at hok ⊢
      cases hsynced : io.synced with
      | error message =>
        rw [hsynced] at hok
        cases hok
      | ok u => exact hopen.writeSegment ht

end Append

/-! ## The append and its directory -/

section Block

variable {H : Type} [StoredHash H] [DecidableEq H] {base : OnlineBase H} {config : OnlineForestConfig} {highest : Nat}
  {f f' : OpenForest H} {s s' : OpenStore H} {files : List (WalFile H)} {t : WalTransaction H} {io : AppendIo}

omit [DecidableEq H] in
/-- The fields have the widths of their types, and the ids, the numbers and the heights do not run out. -/
structure OpenStore.Offers (s : OpenStore H) (t : WalTransaction H) : Prop where
  fits : (s.numbered t).Fits
  afterNext : t.afterNext < noNode
  lsn : s.currentLsn + 1 < 2 ^ 64
  height : t.point.height + 1 < 2 ^ 32

omit [StoredHash H] [DecidableEq H] in
instance OpenStore.decidableOffers (s : OpenStore H) (t : WalTransaction H) : Decidable (s.Offers t) :=
  decidable_of_iff ((s.numbered t).Fits ∧ t.afterNext < noNode ∧ s.currentLsn + 1 < 2 ^ 64 ∧ t.point.height + 1 < 2 ^ 32)
    ⟨fun ⟨h1, h2, h3, h4⟩ => ⟨h1, h2, h3, h4⟩, fun ⟨h1, h2, h3, h4⟩ => ⟨h1, h2, h3, h4⟩⟩

theorem Recoverable.laid (h : Recoverable base config highest f s files) : Laid s files :=
  ⟨h.durable.segments, h.durable.sorted, h.durable.starts, h.durable.wellFormed, h.opened⟩

theorem Recoverable.appendable (h : Recoverable base config highest f s files) (ht : s.Offers t) : s.Appendable t :=
  ⟨ht.fits, ht.afterNext, ht.lsn, h.whole.endsWhole _⟩

/-- A disconnected block is the tip, and its record tells the leaves in front of it. -/
def TakesBack (depth highest : Nat) (files : List (WalFile H)) (v : ForestView H) (t : WalTransaction H) : Prop :=
  t.kind = .disconnect → highest ≤ v.point.height + depth ∧
    ∃ original, latestConnect v.point (allRecords files) = some original ∧ original.beforeNumLeaves = t.afterNumLeaves

theorem Recoverable.extends_of_valid (h : Recoverable base config highest f s files) (ht : s.Offers t)
    (hleaves : t.beforeNumLeaves = f.numLeaves) (hback : TakesBack config.undoDepth highest files (f.view s) t)
    (hvalid : s.chainValid t = true) : (f.view s).Extends base (s.numbered t) := by
  have hlsn : (s.numbered t).lsn = (f.view s).lsn + 1 := Nat.mod_eq_of_lt ht.lsn
  refine ⟨ForestView.accepts_iff.mpr ⟨hlsn, ?_, hleaves⟩, ht.height, Nat.le_of_lt ht.afterNext, fun hkind => ?_⟩
  · show t.extendsChain s.point s.chainHashes = true
    unfold OpenStore.chainValid at hvalid
    unfold WalTransaction.extendsChain
    cases hkind : t.kind with
    | connect =>
      rw [hkind, Bool.and_eq_true, decide_eq_true_eq, decide_eq_true_eq] at hvalid
      rw [Bool.and_eq_true, decide_eq_true_eq, decide_eq_true_eq]
      exact ⟨hvalid.1, hvalid.2.1⟩
    | disconnect =>
      rw [hkind, Bool.and_eq_true, decide_eq_true_eq, decide_eq_true_eq] at hvalid
      rw [Bool.and_eq_true, decide_eq_true_eq, decide_eq_true_eq]
      obtain ⟨hprevious, hlength, hheight, htwo, hstored⟩ := hvalid
      have htip : t.previous.height + 1 < 2 ^ 32 := by
        rw [hprevious]
        exact h.durable.height
      have hadd : add32 t.previous.height 1 = t.previous.height + 1 := Nat.mod_eq_of_lt htip
      exact ⟨hprevious, htwo, hadd.trans hlength.symm, hheight.symm, hstored⟩
  · obtain ⟨-, original, hlatest, -⟩ := hback hkind
    have hmem := List.mem_of_getLast? hlatest
    obtain ⟨hrecord, hconnects⟩ := List.mem_filter.mp hmem
    obtain ⟨hconnect, hpoint⟩ := connects_iff.mp hconnects
    have hbehind := h.durable.connects original hrecord hconnect
    rw [hpoint] at hbehind
    rw [h.durable.tip.1]
    exact Nat.lt_succ_of_le hbehind

structure Appended (s : OpenStore H) (t : WalTransaction H) (s' : OpenStore H) : Prop where
  config : s'.config = s.config
  base : s'.base = s.base
  pending : s'.pending = s.pending
  point : s'.point = t.point
  chainHashes : s'.chainHashes = t.chainAfter s.chainHashes
  currentLsn : s'.currentLsn = (s.numbered t).lsn

theorem append_appended (hok : (s.append t io).1 = .ok ()) : Appended s t (s.append t io).2 := by
  rcases append_cases s t io with ⟨message, s1, happend, -⟩ | ⟨s1, happend, hchain, -⟩
  · rw [happend] at hok
    cases hok
  · rw [happend]
    refine ⟨hchain.config, hchain.base, hchain.pending, rfl, ?_, rfl⟩
    rw [← hchain.chainHashes]
    rfl

/-- **An append.** The directory stands for the forest before the transaction or behind it. -/
theorem Recoverable.append (h : Recoverable base config highest f s files) (hbase : base.Sound)
    (hsync : config.syncWal = true) (ht : s.Offers t) (hleaves : t.beforeNumLeaves = f.numLeaves)
    (hback : TakesBack config.undoDepth highest files (f.view s) t) (io : AppendIo) :
    ∃ files' v, Durable base config.undoDepth highest (s.append t io).2.directory f.arena.deltaRuns s.deltaGeneration
        s.durableLsn files' v ∧
      (v = f.view s ∨ v = (f.view s).apply (s.numbered t)) ∧
      ((s.append t io).1 = .ok () → v = (f.view s).apply (s.numbered t) ∧ (s.append t io).2.Whole ∧
        ∀ start, (s.append t io).2.walFd = some start → ∃ front file, files' = front ++ [file] ∧ file.start = start) := by
  have happend := h.appendable ht
  have hruns : s.SameRuns (s.append t io).2 := append_sameRuns
  have hlsn : (s.numbered t).lsn = s.currentLsn + 1 := Nat.mod_eq_of_lt ht.lsn
  rw [← h.configured] at hsync
  obtain ⟨files', hleft⟩ := append_left h.laid hsync happend io
  have hwhole : (s.append t io).1 = .ok () → s.chainValid t = true → (s.append t io).2.Whole := fun hok hvalid =>
    h.whole.append ⟨ht.fits, OpenStore.chainValid_heightValid hvalid, ht.afterNext⟩ hok
  have hlast : (s.append t io).1 = .ok () → (s.append t io).2.currentLsn = s.currentLsn + 1 := fun hok =>
    (append_appended hok).currentLsn.trans hlsn
  generalize s.append t io = appended at hleft hruns hwhole hlast ⊢
  cases hleft with
  | @done s' files' laid records valid hconfig chain =>
    have hext := h.extends_of_valid ht hleaves hback valid
    refine ⟨files', _, ?_, Or.inr rfl, fun _ => ⟨rfl, hwhole rfl valid, laid.opened⟩⟩
    refine h.durable.append hbase hext hback hruns.deltas laid.segments laid.sorted (fun file hfile => ?_) laid.wellFormed
      records
    have hstart := laid.starts file hfile
    rw [show s'.currentLsn = s.currentLsn + 1 from hlast rfl] at hstart
    rw [hlsn]
    exact hstart
  | @failed s' files' message laid same records =>
    have hstarts : ∀ file ∈ files', file.start ≤ s.currentLsn + 1 := by
      intro file hfile
      rw [← same.currentLsn]
      exact laid.starts file hfile
    rcases records with hnone | ⟨hvalid, hone⟩
    · exact ⟨files', _, h.durable.relaid hruns.deltas laid.segments laid.sorted hstarts laid.wellFormed hnone, Or.inl rfl,
        fun hok => nomatch hok⟩
    · have hext := h.extends_of_valid ht hleaves hback hvalid
      refine ⟨files', _, h.durable.append hbase hext hback hruns.deltas laid.segments laid.sorted (fun file hfile => ?_)
        laid.wellFormed hone, Or.inr rfl, fun hok => nomatch hok⟩
      rw [hlsn]
      exact Nat.le_succ_of_le (hstarts file hfile)

end Block

end UtreexoBridge
