import UtreexoBridge.Arena.Undo
import UtreexoBridge.Forest.Effects
import UtreexoBridge.Online.Flush
import UtreexoBridge.Validate.Represented

/-!
# Abandoning a block

A block that fails leaves no trace. What the arena recorded takes its records
back, and a rebuild gives the free ids and the index again.
-/

namespace UtreexoBridge

/-! ## Observations -/

section Observations

variable {H : Type} [ForestHash H]

omit [ForestHash H] in
def NodeArena.freeList (a : NodeArena H) : Finset Nat := if a.mapped then a.freeSet else a.freeStack.toFinset

/-- What a failed block must not change. -/
structure OpenForest.SameState (f f' : OpenForest H) : Prop where
  roots : f'.roots = f.roots
  numLeaves : f'.numLeaves = f.numLeaves
  next : f'.arena.next = f.arena.next
  records : ∀ id ∈ f.arena.liveIds, f'.arena.read id = f.arena.read id
  freeIds : f'.arena.freeIds = f.arena.freeIds
  freeList : f'.arena.freeList = f.arena.freeList
  live : f'.arena.live = f.arena.live
  entries : f'.index.table.entries.toFinset = f.index.table.entries.toFinset
  point : f'.online.map (·.point) = f.online.map (·.point)

/-- The trees are whole, and the books tell of them. -/
structure OpenForest.Consistent (f : OpenForest H) : Prop where
  structured : ∃ trees, Structured f.toPackedForest trees
  mapped : ∀ store, f.online = some store → f.arena.Mapped
  chain : ∀ store, f.online = some store → store.chainHashes.length = store.point.height + 1

theorem OpenForest.SameState.refl (f : OpenForest H) : f.SameState f :=
  ⟨rfl, rfl, rfl, fun _ _ => rfl, rfl, rfl, rfl, rfl, rfl⟩

theorem OpenForest.SameState.trans {f f' f'' : OpenForest H} (h : f.SameState f') (h' : f'.SameState f'') :
    f.SameState f'' := by
  have hlive : ∀ id ∈ f.arena.liveIds, id ∈ f'.arena.liveIds := by
    intro id hid
    obtain ⟨hlt, hfree⟩ := NodeArena.mem_liveIds.mp hid
    exact NodeArena.mem_liveIds.mpr ⟨h.next ▸ hlt, by rwa [h.records id hid]⟩
  exact ⟨h'.roots.trans h.roots, h'.numLeaves.trans h.numLeaves, h'.next.trans h.next,
    fun id hid => (h'.records id (hlive id hid)).trans (h.records id hid), h'.freeIds.trans h.freeIds,
    h'.freeList.trans h.freeList, h'.live.trans h.live, h'.entries.trans h.entries, h'.point.trans h.point⟩

theorem NodeArena.Bookkeeping.freeList_eq {a : NodeArena H} (books : a.Bookkeeping) : a.freeList = a.freeIds := by
  have hfree := books.free_eq
  unfold FreeExact at hfree
  unfold freeList
  split_ifs at hfree ⊢ with hmapped
  · exact hfree.1
  · exact hfree.2

/-- The records decide what the books say. -/
theorem OpenForest.sameState_of_structured {f f' : OpenForest H} {trees trees' : Nat → Option (IdTree H)}
    (h : Structured f.toPackedForest trees) (h' : Structured f'.toPackedForest trees')
    (hroots : f'.roots = f.roots) (hnum : f'.numLeaves = f.numLeaves) (hnext : f'.arena.next = f.arena.next)
    (hread : f'.arena.read = f.arena.read) (hpoint : f'.online.map (·.point) = f.online.map (·.point)) :
    f.SameState f' := by
  have hfree : f'.arena.freeIds = f.arena.freeIds := by
    unfold NodeArena.freeIds
    rw [hread, hnext]
  have hlive : f'.arena.liveIds = f.arena.liveIds := by
    unfold NodeArena.liveIds
    rw [hread, hnext]
  have hleaf : f'.arena.leafIds = f.arena.leafIds := by
    unfold NodeArena.leafIds
    rw [hread, hnext]
  refine ⟨hroots, hnum, hnext, fun id _ => congrFun hread id, hfree, ?_, ?_, ?_, hpoint⟩
  · rw [h.books.freeList_eq, h'.books.freeList_eq, hfree]
  · rw [h.books.live_eq, h'.books.live_eq, hlive]
  · rw [h.index.holds.entries_toFinset, h'.index.holds.entries_toFinset, hleaf]

/-- Only the members of the transaction differ. -/
structure NodeArena.SameBut (a a' : NodeArena H) : Prop where
  eq : ∃ transaction operations next live,
    a' = { a with transaction := transaction, freeOperations := operations, transactionNext := next, transactionLive := live }

theorem Structured.sameBut {f : PackedForest H} {trees : Nat → Option (IdTree H)} (h : Structured f trees)
    {a : NodeArena H} (hsame : f.arena.SameBut a) : Structured { f with arena := a } trees := by
  obtain ⟨transaction, operations, next, live, rfl⟩ := hsame.eq
  exact ⟨⟨h.books.next_le, h.books.live_eq, h.books.free_eq⟩, h.shape, h.roots, h.bits, h.height,
    h.index.congr fun _ _ => rfl, h.bound⟩

omit [ForestHash H] in
theorem NodeArena.Mapped.sameBut {a a' : NodeArena H} (h : a.Mapped) (hsame : a.SameBut a') : a'.Mapped := by
  obtain ⟨transaction, operations, next, live, rfl⟩ := hsame.eq
  exact ⟨h.mapped, h.base_le, h.next_le⟩

end Observations

/-! ## Undoing a block -/

section Undo

variable {H : Type} [ForestHash H] {a a' a0 : NodeArena H}

omit [ForestHash H] in
theorem NodeArena.beginTransaction_eq (h : a.mapped = true) (hok : a.beginTransaction = .ok a0) :
    a.SameBut a0 ∧ a0.transaction = some ∅ ∧ a0.freeOperations = [] ∧ a0.transactionNext = a.next ∧
      a0.transactionLive = a.live := by
  unfold beginTransaction at hok
  rw [if_pos h] at hok
  split_ifs at hok
  cases hok
  exact ⟨⟨_, _, _, _, rfl⟩, rfl, rfl, rfl, rfl⟩

theorem stableAlloc_undoable (a0 : NodeArena H) : StableAlloc (NodeArena.Undoable a0) where
  write h id record := h.write id record
  free h id := h.free id
  allocate h _ _ _ _ _ _ hok := h.allocate hok

omit [ForestHash H] in
theorem NodeArena.rollback_begun (h : a.mapped = true) (hok : a.beginTransaction = .ok a0) :
    a.SameBut a0.rollbackTransaction := by
  obtain ⟨⟨transaction, operations, next, live, rfl⟩, htransaction, hoperations, hnext, hlive⟩ := beginTransaction_eq h hok
  dsimp only at htransaction hoperations hnext hlive
  subst htransaction hoperations hnext hlive
  exact ⟨_, _, _, _, rfl⟩

end Undo

section Abandon

variable {H : Type} [StoredHash H] [DecidableEq H] {f f' before : OpenForest H} {trees : Nat → Option (IdTree H)}
  {message : String} {io : BlockIo H} {res : Res}

def OpenForest.undone (f before : OpenForest H) : PackedForest H :=
  { f.toPackedForest with
    arena := f.arena.rollbackTransaction, roots := before.roots, numLeaves := before.numLeaves }

theorem abandonBlock_cases (hscratch : io.scratch = .ok ()) (hrun : f.abandonBlock before message io = .ok (res, f')) :
    (∃ g, (f.undone before).rebuildIndexAndValidate validationWindowSlots = .ok (.ok g) ∧ res = .error message ∧
        f' = { f with toPackedForest := g }) ∨
      ∃ what g, (f.undone before).rebuildIndexAndValidate validationWindowSlots = .ok (.error what) ∧
        res = .error (message ++ "; rollback failed: " ++ what) ∧ f' = { f with toPackedForest := g } ∧
        ((f.undone before).arena.next ≥ noNode → g = f.undone before) := by
  unfold OpenForest.abandonBlock at hrun
  rw [hscratch] at hrun
  unfold OpenForest.undone
  dsimp only at hrun ⊢
  split at hrun
  · cases hrun
  · rename_i g hrebuild
    cases hrun
    exact Or.inl ⟨g, hrebuild, rfl, rfl⟩
  · rename_i what hrebuild
    cases hrun
    exact Or.inr ⟨what, _, hrebuild, rfl, rfl, fun hlast => if_pos hlast⟩

theorem abandonBlock_restores (h : Structured before.toPackedForest trees) (hmapped : before.arena.Mapped)
    (hundo : before.arena.Undoable f.arena) (hnext : before.arena.next < noNode) (hscratch : io.scratch = .ok ())
    (hrun : f.abandonBlock before message io = .ok (res, f')) :
    res = .error message ∧ f'.online = f.online ∧ Structured f'.toPackedForest trees ∧ f'.arena.Mapped ∧
      f'.roots = before.roots ∧ f'.numLeaves = before.numLeaves ∧ f'.arena.next = before.arena.next ∧
      f'.arena.read = before.arena.read := by
  have hback : before.arena.Restored (f.undone before).arena := hundo.rollback hmapped.mapped
  have hmapped' : (f.undone before).arena.Mapped :=
    ⟨hback.mapped.trans hmapped.mapped, by rw [hback.baseNext, hback.capacity]; exact hmapped.base_le,
      by rw [hback.next]; exact hmapped.next_le⟩
  have hgood : (f.undone before).StructureOk := by
    unfold PackedForest.StructureOk
    rw [hback.next, hback.read]
    exact h.wellFormed
  have hslots : 0 < validationWindowSlots := by decide
  have hrebuilds : ∀ result, (f.undone before).rebuildIndexAndValidate validationWindowSlots = .ok result →
      ∃ g, result = .ok g ∧ (f.undone before).Rebuilt g := by
    intro result hresult
    by_cases hscan : (f.undone before).arena.Scannable validationWindowSlots
    · obtain ⟨_, hok, hdecides⟩ := PackedForest.rebuildIndexAndValidate_of_scannable hmapped'
        (hback.next.trans_lt hnext) hslots hscan
      rw [hresult] at hok
      cases hok
      exact hdecides.exists_ok hgood
    · -- such a scan leaves the arrays, and nothing is returned
      rw [PackedForest.rebuildIndexAndValidate_faults hmapped' hslots hgood hscan] at hresult
      cases hresult
  rcases abandonBlock_cases hscratch hrun with ⟨g, hrebuild, rfl, rfl⟩ | ⟨what, g, hrebuild, -⟩
  · obtain ⟨_, heq, hg⟩ := hrebuilds _ hrebuild
    cases heq
    have harena : g.arena = (f.undone before).arena.booked := congrArg PackedForest.arena hg.eq
    have hroots : g.roots = before.roots := by
      rw [hg.eq]
      rfl
    have hnum : g.numLeaves = before.numLeaves := by
      rw [hg.eq]
      rfl
    refine ⟨rfl, rfl, h.rebuilt hmapped' hback.read hback.next rfl rfl hg, ?_, hroots, hnum, ?_, ?_⟩
    · rw [harena]
      exact NodeArena.booked_mapped hmapped'
    · rw [harena]
      exact hback.next
    · rw [harena, NodeArena.booked_read]
      exact hback.read
  · obtain ⟨_, heq, -⟩ := hrebuilds _ hrebuild
    cases heq

/-- At the last node id the rebuild refuses. A forest that was only begun is as before all the same. -/
theorem abandonBlock_begun (h : Structured before.toPackedForest trees) (hmapped : before.arena.Mapped)
    {arena : NodeArena H} (hbegin : before.arena.beginTransaction = .ok arena) (hnext : before.arena.next ≥ noNode)
    (hscratch : io.scratch = .ok ())
    (hrun : ({ before with arena } : OpenForest H).abandonBlock { before with arena } message io = .ok (res, f')) :
    (∃ what, res = .error what) ∧ f'.online = before.online ∧ Structured f'.toPackedForest trees ∧ f'.arena.Mapped ∧
      f'.roots = before.roots ∧ f'.numLeaves = before.numLeaves ∧ f'.arena.next = before.arena.next ∧
      f'.arena.read = before.arena.read := by
  have hsame := NodeArena.rollback_begun hmapped.mapped hbegin
  have hstructured := h.sameBut hsame
  have hmapped' := hmapped.sameBut hsame
  obtain ⟨_, _, _, _, heq⟩ := hsame.eq
  have hlast : arena.rollbackTransaction.next ≥ noNode := by
    rw [heq]
    exact hnext
  rcases abandonBlock_cases hscratch hrun with ⟨g, hrebuild, -⟩ | ⟨what, g, -, rfl, rfl, hg⟩
  · exact absurd hrebuild (PackedForest.rebuildIndexAndValidate_next hlast g)
  · obtain rfl := hg hlast
    refine ⟨⟨_, rfl⟩, rfl, hstructured, hmapped', rfl, rfl, ?_, ?_⟩
    · show arena.rollbackTransaction.next = _
      rw [heq]
    · show arena.rollbackTransaction.read = _
      rw [heq]
      rfl

end Abandon

/-! ## The append of a block -/

section Append

variable {H : Type} [StoredHash H] [DecidableEq H] {s s' : OpenStore H} {t : WalTransaction H} {io : AppendIo}

/-- No step of an append fails. -/
def AppendIo.Clean (io : AppendIo) : Prop :=
  io.opened = .ok () ∧ io.directorySynced = .ok () ∧ io.writeError = none ∧ io.synced = .ok ()

/-- The next block has a height of 32 bits, and the log takes it. -/
def OpenStore.LogsNext (s : OpenStore H) (io : AppendIo) : Prop :=
  s.point.height + 1 < 2 ^ 32 ∧ (s.config.syncWal = true → io.Clean)

omit [StoredHash H] [DecidableEq H] in
theorem openAppendSegment_sameChain (size : Nat) : s.SameChain (s.openAppendSegment size io).2 := by
  unfold OpenStore.openAppendSegment
  split
  · exact .refl s
  · dsimp only
    split
    · dsimp only
      split_ifs
      all_goals exact ⟨rfl, rfl, rfl, rfl, rfl, rfl⟩
    · split
      · split
        all_goals exact ⟨rfl, rfl, rfl, rfl, rfl, rfl⟩
      · exact ⟨rfl, rfl, rfl, rfl, rfl, rfl⟩

omit [StoredHash H] [DecidableEq H] in
theorem openAppendSegment_clean (h : io.Clean) (size : Nat) :
    s.openAppendSegment size io = (.ok (), (s.openAppendSegment size io).2) := by
  obtain ⟨hopened, hsynced, -⟩ := h
  unfold OpenStore.openAppendSegment
  rw [hopened, hsynced]
  dsimp only
  split_ifs
  all_goals rfl

omit [StoredHash H] [DecidableEq H] in
theorem writeSegment_sameChain (bytes : List UInt8) : s.SameChain (s.writeSegment bytes) := by
  unfold OpenStore.writeSegment
  split
  all_goals exact ⟨rfl, rfl, rfl, rfl, rfl, rfl⟩

theorem append_cases (s : OpenStore H) (t : WalTransaction H) (io : AppendIo) :
    (∃ message s', s.append t io = (.error message, s') ∧ s.SameChain s') ∨
      ∃ s', s.append t io = (.ok (), s'.advance { t with lsn := word (s.currentLsn + 1) }) ∧ s.SameChain s' ∧
        s.chainValid t = true := by
  unfold OpenStore.append
  by_cases hvalid : s.chainValid t = true
  swap
  · rw [if_pos (by simpa using hvalid)]
    exact Or.inl ⟨_, _, rfl, .refl s⟩
  rw [if_neg (by simpa using hvalid)]
  dsimp only
  by_cases hsync : s.config.syncWal = true
  swap
  · rw [if_neg hsync]
    exact Or.inr ⟨s, rfl, .refl s, hvalid⟩
  rw [if_pos hsync]
  generalize hbytes : serializeWal { t with lsn := word (s.currentLsn + 1) } = bytes
  have hopen : s.SameChain (s.openAppendSegment bytes.length io).2 := openAppendSegment_sameChain _
  split
  · rename_i message s1 hopened
    rw [hopened] at hopen
    exact Or.inl ⟨_, _, rfl, hopen⟩
  · rename_i s1 hopened
    rw [hopened] at hopen
    split
    · exact Or.inl ⟨_, _, rfl, hopen.trans (writeSegment_sameChain _)⟩
    · have hwrite := hopen.trans (writeSegment_sameChain (s := s1) bytes)
      split
      · exact Or.inl ⟨_, _, rfl, hwrite⟩
      · exact Or.inr ⟨_, rfl, ⟨hwrite.config, hwrite.base, hwrite.point, hwrite.chainHashes, hwrite.currentLsn,
          hwrite.pending⟩, hvalid⟩

omit [StoredHash H] in
theorem chainValid_next (hbound : s.point.height + 1 < 2 ^ 32) (hchain : s.chainHashes.length = s.point.height + 1)
    (hkind : t.kind = .connect) (hprevious : t.previous = s.point) (hheight : t.point.height = add32 s.point.height 1) :
    s.chainValid t = true := by
  have hadd : add32 s.point.height 1 = s.point.height + 1 := by
    rw [add32]
    exact Nat.mod_eq_of_lt hbound
  unfold OpenStore.chainValid
  rw [hkind, hprevious, hheight, hadd, hchain]
  simp

theorem append_clean (hvalid : s.chainValid t = true) (hio : s.config.syncWal = true → io.Clean) :
    ∃ s', s.append t io = (.ok (), s') := by
  unfold OpenStore.append
  rw [if_neg (by simpa using hvalid)]
  dsimp only
  by_cases hsync : s.config.syncWal = true
  swap
  · rw [if_neg hsync]
    exact ⟨_, rfl⟩
  have hclean := hio hsync
  rw [if_pos hsync, openAppendSegment_clean hclean]
  dsimp only
  rw [hclean.2.2.1]
  dsimp only
  rw [hclean.2.2.2]
  exact ⟨_, rfl⟩

theorem append_refused (hvalid : s.chainValid t = true) (hsync : s.config.syncWal = true) (hfd : s.walFd = none)
    {message : String} (hopened : io.opened = .error message) : ∃ s', s.append t io = (.error message, s') := by
  unfold OpenStore.append
  rw [if_neg (by simpa using hvalid)]
  dsimp only
  rw [if_pos hsync]
  generalize (serializeWal { t with lsn := word (s.currentLsn + 1) }).length = size
  obtain ⟨s', hopen⟩ : ∃ s', s.openAppendSegment size io = (.error message, s') := by
    unfold OpenStore.openAppendSegment
    rw [hfd, hopened, if_neg fun hsome => nomatch hsome.1]
    exact ⟨_, rfl⟩
  rw [hopen]
  exact ⟨s', rfl⟩

end Append

end UtreexoBridge
