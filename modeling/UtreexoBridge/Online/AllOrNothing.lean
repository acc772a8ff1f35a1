import UtreexoBridge.Bytes.ByteHash
import UtreexoBridge.Forest.Reserve
import UtreexoBridge.Online.Abandon
import UtreexoBridge.Online.Rollback

/-!
# A block is taken as a whole or not at all

In every run, but for a failed append at the last node id.
-/

namespace UtreexoBridge

/-! ## One block -/

section Block

variable {H : Type} [StoredHash H] [DecidableEq H] {f f' : OpenForest H} {trees : Nat → Option (IdTree H)}
  {store store' : OpenStore H} {additions deletions : List H} {point : ChainPoint H} {io : BlockIo H} {res : Res}

omit [DecidableEq H] in
theorem consistent_of_restored (h : f.Consistent) (hstructured : Structured f.toPackedForest trees)
    (hs : f.online = some store) (hs' : f'.online = some store') (hchain : store.SameChain store')
    (hrestored : Structured f'.toPackedForest trees) (hmapped : f'.arena.Mapped) (hroots : f'.roots = f.roots)
    (hnum : f'.numLeaves = f.numLeaves) (hnext : f'.arena.next = f.arena.next) (hread : f'.arena.read = f.arena.read) :
    f'.Consistent ∧ f.SameState f' := by
  refine ⟨⟨⟨trees, hrestored⟩, fun _ _ => hmapped, fun s heq => ?_⟩,
    OpenForest.sameState_of_structured hstructured hrestored hroots hnum hnext hread ?_⟩
  · rw [hs'] at heq
    cases heq
    rw [hchain.chainHashes, hchain.point]
    exact h.chain store hs
  · rw [hs, hs', Option.map_some, Option.map_some, hchain.point]

/-- What the failure of a block needs: the scratch file, and an id to spare unless the log works. -/
def OpenForest.Recovers (f : OpenForest H) (io : BlockIo H) : Prop :=
  ∀ store, f.online = some store →
    io.scratch = .ok () ∧ (f.arena.next < noNode ∨ store.LogsNext io.append)

theorem connectBlock_atomic (h : f.Consistent) (hs : f.online = some store)
    (hheight : point.height = add32 store.point.height 1) (hio : f.Recovers io)
    (hrun : f.connectBlock store additions deletions point io = .ok (res, f')) :
    f'.Consistent ∧ ∀ message, res = .error message → f.SameState f' := by
  obtain ⟨trees, hstructured⟩ := h.structured
  have hmapped := h.mapped store hs
  obtain ⟨hscratch, hlast⟩ := hio store hs
  unfold OpenForest.connectBlock at hrun
  cases hbegin : f.arena.beginTransaction with
  | error what =>
    rw [hbegin] at hrun
    cases hrun
  | ok arena =>
    rw [hbegin] at hrun
    dsimp only at hrun
    have hsame := (NodeArena.beginTransaction_eq hmapped.mapped hbegin).1
    have hbegun : Structured ({ f with arena } : OpenForest H).toPackedForest trees := hstructured.sameBut hsame
    have hundo : arena.Undoable arena := NodeArena.undoable_begin hmapped.mapped hbegin
    have hmapped' := hmapped.sameBut hsame
    have hnext : arena.next = f.arena.next := by
      obtain ⟨_, _, _, _, rfl⟩ := hsame.eq
      rfl
    have hread : arena.read = f.arena.read := by
      obtain ⟨_, _, _, _, rfl⟩ := hsame.eq
      rfl
    rcases hbegun.modify additions deletions with ⟨fault, hmodify, -⟩ | ⟨message, hmodify⟩ |
      ⟨modified, trees', hmodify, hmodified⟩
    · rw [hmodify] at hrun
      cases hrun
    · -- nothing was changed
      rw [hmodify] at hrun
      dsimp only at hrun
      by_cases hlow : f.arena.next < noNode
      · obtain ⟨-, honline, hrestored, hm, hroots, hnum, hn, hr⟩ := abandonBlock_restores hbegun
          hmapped' hundo (hnext.trans_lt hlow) hscratch hrun
        obtain ⟨hconsistent, hstate⟩ := consistent_of_restored h hstructured hs (honline.trans hs) (.refl store) hrestored hm
          hroots hnum (hn.trans hnext) (hr.trans hread)
        exact ⟨hconsistent, fun _ _ => hstate⟩
      · obtain ⟨-, honline, hrestored, hm, hroots, hnum, hn, hr⟩ := abandonBlock_begun hstructured hmapped hbegin
          (not_lt.mp hlow) hscratch hrun
        obtain ⟨hconsistent, hstate⟩ := consistent_of_restored h hstructured hs (honline.trans hs) (.refl store) hrestored hm
          hroots hnum hn hr
        exact ⟨hconsistent, fun _ _ => hstate⟩
    · rw [hmodify] at hrun
      dsimp only at hrun
      have hundo' := modify_stable (stableAlloc_undoable arena) hundo hmodify
      rcases append_cases store (OpenForest.blockTransaction { f with arena } { f with toPackedForest := modified } store point)
        io.append with ⟨message, store', happend, hchain⟩ | ⟨store', happend, hchain, hvalid⟩
      · rw [happend] at hrun
        dsimp only at hrun
        have hlow : f.arena.next < noNode := by
          refine hlast.resolve_right fun hlogs => ?_
          obtain ⟨s', hok⟩ := append_clean (chainValid_next hlogs.1 (h.chain store hs) (t := OpenForest.blockTransaction
            { f with arena } { f with toPackedForest := modified } store point) rfl rfl hheight) hlogs.2
          rw [hok] at happend
          cases happend
        obtain ⟨-, honline, hrestored, hm, hroots, hnum, hn, hr⟩ := abandonBlock_restores hbegun
          hmapped' hundo' (hnext.trans_lt hlow) hscratch hrun
        obtain ⟨hconsistent, hstate⟩ := consistent_of_restored h hstructured hs honline hchain hrestored hm
          hroots hnum (hn.trans hnext) (hr.trans hread)
        exact ⟨hconsistent, fun _ _ => hstate⟩
      · rw [happend] at hrun
        cases hrun
        have hcommit : modified.arena.SameBut modified.arena.commitTransaction := ⟨_, _, _, _, rfl⟩
        have hbounds : modified.arena.Mapped := ⟨hundo'.mapped, by
          rw [hundo'.baseNext, hundo'.capacity]
          exact hmapped'.base_le, hmodified.books.next_le⟩
        refine ⟨⟨⟨trees', hmodified.sameBut hcommit⟩, fun _ _ => hbounds.sameBut hcommit, fun s heq => ?_⟩, nofun⟩
        cases heq
        obtain ⟨-, hvalid⟩ := Bool.and_eq_true_iff.mp hvalid
        have hlength : point.height = store.chainHashes.length := (of_decide_eq_true hvalid).1
        show (store'.chainHashes ++ [point.blockHash]).length = point.height + 1
        rw [List.length_append, hchain.chainHashes, hlength]
        rfl

/-! ## All calls -/

omit [DecidableEq H] in
theorem OpenForest.FlushKept.sameState (hkept : f.FlushKept f') (h : f.Consistent) : f'.Consistent ∧ f.SameState f' := by
  obtain ⟨trees, hstructured⟩ := h.structured
  have hview := hkept.arena
  have hstructured' : Structured f'.toPackedForest trees := by
    have hkeeps := hstructured.sameView hview
    rw [← hkept.index, ← hkept.roots, ← hkept.numLeaves] at hkeeps
    exact hkeeps
  have hfree : f'.arena.freeList = f.arena.freeList := by
    unfold NodeArena.freeList
    rw [hview.mapped, hview.freeSet, hview.freeStack]
  have hrecords : ∀ id ∈ f.arena.liveIds, f'.arena.read id = f.arena.read id := fun id hid =>
    hview.read_live (NodeArena.mem_liveIds.mp hid).1 (NodeArena.mem_liveIds.mp hid).2
  rcases hkept.online with ⟨hnone, hnone'⟩ | ⟨s, s', hs, hs', hchain⟩
  · refine ⟨⟨⟨trees, hstructured'⟩, fun _ hsome => ?_, fun _ hsome => ?_⟩,
      ⟨hkept.roots, hkept.numLeaves, hview.next, hrecords, hview.freeIds, hfree, hview.live, by rw [hkept.index],
        by rw [hnone, hnone']⟩⟩
    all_goals
      rw [hnone'] at hsome
      cases hsome
  · refine ⟨⟨⟨trees, hstructured'⟩, fun _ _ => ?_, fun store hsome => ?_⟩,
      ⟨hkept.roots, hkept.numLeaves, hview.next, hrecords, hview.freeIds, hfree, hview.live, by rw [hkept.index], ?_⟩⟩
    · have hmapped := h.mapped s hs
      exact ⟨hview.mapped.trans hmapped.mapped, by rw [hview.baseNext, hview.capacity]; exact hmapped.base_le,
        by rw [hview.next]; exact hmapped.next_le⟩
    · rw [hs'] at hsome
      cases hsome
      rw [hchain.chainHashes, hchain.point]
      exact h.chain s hs
    · rw [hs, hs', Option.map_some, Option.map_some, hchain.point]

theorem flushOnline_sameState (h : f.Consistent) (io : FlushIo) :
    (f.flushOnline io).2.Consistent ∧ f.SameState (f.flushOnline io).2 := by
  refine (flushOnline_kept (fun hsome => ?_) io).sameState h
  obtain ⟨store, hstore⟩ := Option.isSome_iff_exists.mp hsome
  exact (h.mapped store hstore).mapped

theorem sealBeforeBlock_kept (h : f.Consistent) (hs : f.online = some store) (io : FlushIo) :
    f.FlushKept (f.sealBeforeBlock store io).2 := by
  have hflush := flushOnline_kept (f := f) (fun _ => (h.mapped store hs).mapped) io
  unfold OpenForest.sealBeforeBlock
  split_ifs
  · split
    all_goals
      rename_i hrun
      rw [hrun] at hflush
      exact hflush
  · exact ⟨rfl, rfl, rfl, .refl _, Or.inr ⟨store, store, hs, hs, .refl store⟩⟩

omit [DecidableEq H] in
theorem OpenForest.FlushKept.recovers (hkept : f.FlushKept f') (hio : f.Recovers io) : f'.Recovers io := by
  intro store' hs'
  rcases hkept.online with ⟨-, hnone⟩ | ⟨s, s', hs, hsome, hchain⟩
  · rw [hnone] at hs'
    cases hs'
  · rw [hsome] at hs'
    cases hs'
    obtain ⟨hscratch, hlast⟩ := hio s hs
    rw [hkept.arena.next]
    refine ⟨hscratch, hlast.imp_right fun hlogs => ?_⟩
    unfold OpenStore.LogsNext at *
    rw [hchain.point, hchain.config]
    exact hlogs

/-- An offline forest: what fails was refused before the first change. -/
theorem offline_atomic (h : f.Consistent) (hs : f.online = none) {modified : PackedForest H}
    (hrun : f.toPackedForest.modify additions deletions = .ok (res, modified)) :
    ({ f with toPackedForest := modified } : OpenForest H).Consistent ∧
      ∀ message, res = .error message → f.SameState { f with toPackedForest := modified } := by
  obtain ⟨trees, hstructured⟩ := h.structured
  have hnone : ∀ P : OpenStore H → Prop, ∀ store, f.online = some store → P store := by
    intro P store hsome
    rw [hs] at hsome
    cases hsome
  rcases hstructured.modify additions deletions with ⟨fault, hmodify, -⟩ | ⟨message, hmodify⟩ |
    ⟨modified', trees', hmodify, hmodified⟩
  · rw [hmodify] at hrun
    cases hrun
  · rw [hmodify] at hrun
    cases hrun
    exact ⟨h, fun _ _ => .refl f⟩
  · rw [hmodify] at hrun
    cases hrun
    exact ⟨⟨⟨trees', hmodified⟩, hnone _, hnone _⟩, nofun⟩

theorem modify_atomic (h : f.Consistent) (hrun : f.modify additions deletions = .ok (res, f')) :
    f'.Consistent ∧ ∀ message, res = .error message → f.SameState f' := by
  unfold OpenForest.modify at hrun
  split_ifs at hrun with honline
  · cases hrun
    exact ⟨h, fun _ _ => .refl f⟩
  · split at hrun
    · cases hrun
    · rename_i modified hmodify
      cases hrun
      exact offline_atomic h (Option.not_isSome_iff_eq_none.mp honline) hmodify

theorem modifyBlock_atomic (h : f.Consistent) (hio : f.Recovers io)
    (hrun : f.modifyBlock additions deletions point io = .ok (res, f')) :
    f'.Consistent ∧ ∀ message, res = .error message → f.SameState f' := by
  unfold OpenForest.modifyBlock at hrun
  cases hs : f.online with
  | none =>
    rw [hs] at hrun
    dsimp only at hrun
    split at hrun
    · cases hrun
    · rename_i modified hmodify
      have hatomic := offline_atomic h hs hmodify
      rw [hs] at hatomic
      cases hrun
      exact hatomic
  | some store =>
    rw [hs] at hrun
    dsimp only at hrun
    split_ifs at hrun with hpending hheight
    · cases hrun
      exact ⟨h, fun _ _ => .refl f⟩
    · cases hrun
      exact ⟨h, fun _ _ => .refl f⟩
    · have hkept := sealBeforeBlock_kept h hs io.flush
      cases hseal : f.sealBeforeBlock store io.flush with
      | mk sealed f1 =>
        rw [hseal] at hrun hkept
        obtain ⟨hconsistent, hstate⟩ := hkept.sameState h
        cases sealed with
        | error message =>
          cases hrun
          exact ⟨hconsistent, fun _ _ => hstate⟩
        | ok _ =>
          dsimp only at hrun hconsistent hstate hkept
          rcases hkept.online with ⟨hnone, -⟩ | ⟨s, s', hsome, hsome', hchain⟩
          · rw [hs] at hnone
            cases hnone
          · rw [hs] at hsome
            cases hsome
            rw [hsome'] at hrun
            obtain ⟨hafter, hfails⟩ := connectBlock_atomic hconsistent hsome'
              (by rw [hchain.point]; exact not_not.mp hheight) (hkept.recovers hio) hrun
            exact ⟨hafter, fun message hmessage => hstate.trans (hfails message hmessage)⟩

/-! ## Runs -/

def OpenForest.BlockBase (f : OpenForest H) (io : BlockIo H) (g : PackedForest H) : Prop :=
  match f.online with
  | none => g = f.toPackedForest
  | some store => ∃ f1 arena, f.sealBeforeBlock store io.flush = (.ok (), f1) ∧
      f1.arena.beginTransaction = .ok arena ∧ g = { f1.toPackedForest with arena }

theorem blockBase_reserved (h : f.Consistent) {g : PackedForest H} (hbase : f.BlockBase io g) :
    g.Reserved additions deletions := by
  unfold OpenForest.BlockBase at hbase
  cases hs : f.online with
  | none =>
    rw [hs] at hbase
    obtain ⟨trees, hstructured⟩ := h.structured
    rw [hbase]
    exact hstructured.reserved additions deletions
  | some store =>
    rw [hs] at hbase
    obtain ⟨f1, arena, hseal, hbegin, rfl⟩ := hbase
    have hkept := sealBeforeBlock_kept h hs io.flush
    rw [hseal] at hkept
    obtain ⟨hconsistent, -⟩ := hkept.sameState h
    obtain ⟨trees, hstructured⟩ := hconsistent.structured
    have hmapped : f1.arena.mapped = true := hkept.arena.mapped.trans (h.mapped store hs).mapped
    exact (hstructured.sameBut (NodeArena.beginTransaction_eq hmapped hbegin).1).reserved additions deletions

/-- A block that fails changes nothing, and one that does not has all that it needs reserved. -/
structure OpenForest.AllOrNothing (f : OpenForest H) (additions deletions : List H) : Prop where
  modify : ∀ message f', f.modify additions deletions = .ok (.error message, f') → f.SameState f'
  modifyBlock : ∀ point io message f', f.Recovers io →
    f.modifyBlock additions deletions point io = .ok (.error message, f') → f.SameState f'
  reserved : ∀ io g, f.BlockBase io g → g.Reserved additions deletions

/-- The calls that return. After a rollback the books must be in order. -/
inductive Transition : OpenForest H → OpenForest H → Prop
  | modify {f f' : OpenForest H} {additions deletions : List H} {res : Res}
      (hrun : f.modify additions deletions = .ok (res, f')) : Transition f f'
  | modifyBlock {f f' : OpenForest H} {additions deletions : List H} {point : ChainPoint H} {io : BlockIo H} {res : Res}
      (hio : f.Recovers io) (hrun : f.modifyBlock additions deletions point io = .ok (res, f')) : Transition f f'
  | flushOnline {f : OpenForest H} (io : FlushIo) : Transition f (f.flushOnline io).2
  | rollbackOnlineBlock {f f' : OpenForest H} {io : BlockIo H} {res : Except String (ChainPoint H)}
      (hrun : f.rollbackOnlineBlock io = .ok (res, f')) (hbooks : f'.Consistent) : Transition f f'

theorem Transition.consistent (h : Transition f f') (hf : f.Consistent) : f'.Consistent := by
  cases h with
  | modify hrun => exact (modify_atomic hf hrun).1
  | modifyBlock hio hrun => exact (modifyBlock_atomic hf hio hrun).1
  | flushOnline io => exact (flushOnline_sameState hf io).1
  | rollbackOnlineBlock hrun hbooks => exact hbooks

theorem allOrNothing_of_consistent (h : f.Consistent) (additions deletions : List H) :
    f.AllOrNothing additions deletions where
  modify message _ hrun := (modify_atomic h hrun).2 message rfl
  modifyBlock _ _ message _ hio hrun := (modifyBlock_atomic h hio hrun).2 message rfl
  reserved _ _ hbase := blockBase_reserved h hbase

/-- **All or nothing.** In a run of calls whose blocks can recover, every forest takes the next block as a whole or stays as
it is. -/
theorem blocks_all_or_nothing {start : OpenForest H} (h : start.Consistent)
    (hrun : Relation.ReflTransGen Transition start f) (additions deletions : List H) :
    f.Consistent ∧ f.AllOrNothing additions deletions := by
  have hconsistent : f.Consistent := by
    induction hrun with
    | refl => exact h
    | tail _ hstep ih => exact hstep.consistent ih
  exact ⟨hconsistent, allOrNothing_of_consistent hconsistent additions deletions⟩

end Block

/-! ## At the last node id -/

section Last

variable {H : Type} [ForestHash H] [DecidableEq H]

/-- The allocator hands out the last id, and the rebuild refuses the arena behind it. -/
theorem rebuildIndexAndValidate_refuses {f : PackedForest H} {slots : Nat} (h : f.arena.Mapped) (hslots : 0 < slots)
    (hscan : f.arena.Scannable slots) (hnext : f.arena.next ≥ noNode) :
    ∃ what, f.rebuildIndexAndValidate slots = .ok (.error what) := by
  have hload : ∀ freeIds, f.arena.loadBookkeeping f.arena.next freeIds =
      .error "validated startup cache has invalid free-node bookkeeping" := by
    intro freeIds
    unfold NodeArena.loadBookkeeping
    rw [if_pos (Or.inr (Or.inl hnext))]
  unfold PackedForest.rebuildIndexAndValidate
  dsimp only
  rw [NodeArena.forEachWindow_range h hslots hscan]
  split
  · rename_i hrun
    cases hrun
  · exact ⟨_, rfl⟩
  · rw [hload]
    split_ifs
    all_goals exact ⟨_, rfl⟩

theorem Structured.modify_root {f : PackedForest H} {trees : Nat → Option (IdTree H)} (h : Structured f trees) {row x : Nat}
    {v : H} (ht : trees row = some (.leaf x v)) (hfind : f.index.find f.arena v = some x) :
    ∃ modified, f.modify [] [v] = .ok (.ok (), modified) ∧ Structured modified (Function.update trees row none) := by
  have hleaf : (x, v) ∈ leavesOf (rowTrees trees) := List.mem_flatMap.mpr ⟨_, h.mem_rows ht, List.mem_singleton_self _⟩
  obtain ⟨pos, hpos⟩ := h.positionOf_leaf hleaf
  have hresolve : f.resolveDeletions [] [v] = .ok (.ok [(pos, x)]) := by
    rw [PackedForest.resolveDeletions, if_neg List.not_mem_nil, hfind]
    dsimp only
    rw [hpos]
    rfl
  obtain ⟨index, hindex, hprepare, hprepared⟩ : ∃ index, f.index.prepareInsertions f.arena 0 = some index ∧
      f.prepareModify 0 = .ok { f with index } ∧ Structured { f with index } trees := by
    refine (h.prepareModify 0).resolve_left ?_
    rintro ⟨fault, herror, -⟩
    obtain ⟨index, hindex, -⟩ := h.index.prepareInsertions (fun x hx => NodeArena.isLeaf_eq_true.mpr hx) 0
    unfold PackedForest.prepareModify NodeArena.prepareAllocations at herror
    dsimp only at herror
    rw [hindex, List.range_zero, List.map_nil, List.sum_nil, if_pos (by omega)] at herror
    cases herror
  obtain ⟨modified, hdelete, hstructured, -⟩ := deleteId_root hprepared ht
  refine ⟨modified, ?_, hstructured⟩
  rw [PackedForest.modify, hresolve]
  dsimp only
  rw [List.length_nil, hprepare]
  dsimp only
  rw [show ([(pos, x)].insertionSort fun y z => y.1 ≤ z.1).map (·.2) = [x] from rfl, PackedForest.deleteAll, hdelete]
  rfl

end Last

section Failing

variable {H : Type} [StoredHash H] [DecidableEq H] {f : OpenForest H} {store store' : OpenStore H}
  {additions deletions : List H} {point : ChainPoint H} {io : BlockIo H}

/-- A block that was applied and not logged: its records are taken back, and its index stays. -/
theorem connectBlock_last (h : f.Consistent) (hs : f.online = some store) (hnext : f.arena.next ≥ noNode)
    (hscan : f.arena.Scannable validationWindowSlots) (hscratch : io.scratch = .ok ()) {arena : NodeArena H}
    {modified : PackedForest H} {message : String} (hbegin : f.arena.beginTransaction = .ok arena)
    (hmodify : { f.toPackedForest with arena }.modify additions deletions = .ok (.ok (), modified))
    (happend : store.append (OpenForest.blockTransaction { f with arena } { f with toPackedForest := modified } store point)
      io.append = (.error message, store')) :
    ∃ what g, f.connectBlock store additions deletions point io = .ok (.error what, g) ∧ g.index = modified.index := by
  have hmapped := h.mapped store hs
  have hundo := modify_stable (stableAlloc_undoable arena) (NodeArena.undoable_begin hmapped.mapped hbegin) hmodify
  obtain ⟨_, _, _, _, heq⟩ := (NodeArena.beginTransaction_eq hmapped.mapped hbegin).1.eq
  have hback : arena.Restored modified.arena.rollbackTransaction := hundo.rollback (by rw [heq]; exact hmapped.mapped)
  have hlast : modified.arena.rollbackTransaction.next ≥ noNode := by
    rw [hback.next, heq]
    exact hnext
  have hmapped' : modified.arena.rollbackTransaction.Mapped := by
    refine ⟨?_, ?_, ?_⟩
    · rw [hback.mapped, heq]
      exact hmapped.mapped
    · rw [hback.baseNext, hback.capacity, heq]
      exact hmapped.base_le
    · rw [hback.next, heq]
      exact hmapped.next_le
  have hscan' : modified.arena.rollbackTransaction.Scannable validationWindowSlots := by
    unfold NodeArena.Scannable
    rw [hback.deltaRuns, hback.next, heq]
    exact hscan
  obtain ⟨what, hrebuild⟩ := rebuildIndexAndValidate_refuses (f := { modified with
    arena := modified.arena.rollbackTransaction, roots := f.roots, numLeaves := f.numLeaves }) hmapped'
    (by decide : 0 < validationWindowSlots) hscan' hlast
  refine ⟨message ++ "; rollback failed: " ++ what, { f with
    toPackedForest := { modified with
      arena := modified.arena.rollbackTransaction, roots := f.roots, numLeaves := f.numLeaves }
    online := some store' }, ?_, rfl⟩
  unfold OpenForest.connectBlock
  rw [hbegin]
  dsimp only
  rw [hmodify]
  dsimp only
  rw [happend]
  dsimp only
  unfold OpenForest.abandonBlock
  rw [hscratch]
  dsimp only
  rw [hrebuild]
  dsimp only
  rw [if_pos hlast]

end Failing

section Example

def lastLeaf : NodeRecord ByteHash := ⟨leafHash 1, noNode, noNode, noNode, .leaf⟩

/-- Every id was handed out, and all but one were freed again. -/
def lastArena : NodeArena ByteHash :=
  { (NodeArena.new : NodeArena ByteHash) with
    mapped := true
    dirty := (∅ : Std.ExtTreeMap Nat (NodeRecord ByteHash)).insert 0 lastLeaf
    freeStack := List.range' 1 (noNode - 1)
    freeSet := Finset.Ico 1 noNode
    next := noNode
    live := 1 }

def lastStore : OpenStore ByteHash where
  config := ⟨1024, 2 ^ 20, 6, true, false, 2, 4, 50⟩
  base := ⟨1, 1, 0, ⟨0, .zero⟩, 0, 0, 0, 1024, 1, .replicate 64 noNode⟩
  point := ⟨2, leafHash 2⟩
  chainHashes := [.zero, leafHash 1, leafHash 2]
  currentLsn := 2
  durableLsn := 0
  durableLiveNodes := 0
  directory := ⟨"online", [], []⟩
  pending := false
  deltaGeneration := 0
  walFd := none
  walSegmentSize := 0
  redoWalBytes := 0

def lastForest : OpenForest ByteHash where
  arena := lastArena
  index := (KeylessLeafIndex.new.insert lastArena (leafHash 1) 0).getD .new
  roots := setRoot (.replicate 64 noNode) 31 0
  numLeaves := 2 ^ 31
  online := some lastStore

theorem lastArena_read (id : Nat) : lastArena.read id = if id = 0 then lastLeaf else .blank := by
  have hdirty : lastArena.dirty[id]? = if id = 0 then some lastLeaf else none := by
    show ((∅ : Std.ExtTreeMap Nat (NodeRecord ByteHash)).insert 0 lastLeaf)[id]? = _
    rw [Std.ExtTreeMap.getElem?_insert, Std.ExtTreeMap.getElem?_empty]
    refine if_congr ?_ rfl rfl
    rw [Nat.compare_eq_eq]
    exact eq_comm
  unfold NodeArena.read
  rw [if_pos (show lastArena.mapped = true from rfl), hdirty]
  split_ifs
  · rfl
  · show NodeArena.readPhysicalBase _ id = _
    unfold NodeArena.readPhysicalBase
    exact if_pos (Or.inl (Nat.zero_le id))

theorem lastArena_liveIds : lastArena.liveIds = {0} := by
  ext id
  rw [NodeArena.mem_liveIds, lastArena_read, Finset.mem_singleton]
  constructor
  · rintro ⟨-, hlive⟩
    by_contra hid
    rw [if_neg hid] at hlive
    exact hlive rfl
  · rintro rfl
    exact ⟨by decide, by decide⟩

theorem lastArena_freeIds : lastArena.freeIds = Finset.Ico 1 noNode := by
  ext id
  rw [NodeArena.mem_freeIds, lastArena_read, Finset.mem_Ico]
  constructor
  · rintro ⟨hlt, hfree⟩
    refine ⟨Nat.one_le_iff_ne_zero.mpr fun hid => ?_, hlt⟩
    rw [if_pos hid] at hfree
    cases hfree
  · rintro ⟨hpos, hlt⟩
    rw [if_neg (Nat.one_le_iff_ne_zero.mp hpos)]
    exact ⟨hlt, rfl⟩

theorem lastArena_leafIds : lastArena.leafIds = {0} := by
  ext id
  rw [NodeArena.mem_leafIds, lastArena_read, Finset.mem_singleton]
  constructor
  · rintro ⟨-, hleaf⟩
    by_contra hid
    rw [if_neg hid] at hleaf
    cases hleaf
  · rintro rfl
    exact ⟨by decide, rfl⟩

def lastTrees : Nat → Option (IdTree ByteHash) := Function.update (fun _ => none) 31 (some (.leaf 0 (leafHash 1)))

theorem lastForest_structured : Structured lastForest.toPackedForest lastTrees := by
  have htrees : rowTrees lastTrees = [.leaf 0 (leafHash 1)] := rfl
  refine ⟨⟨le_rfl, ?_, ?_⟩, ?_, ?_, ?_, ?_, ?_, by decide⟩
  · show 1 = lastArena.liveIds.card
    rw [lastArena_liveIds]
    rfl
  · show lastArena.FreeExact lastArena.freeIds
    unfold NodeArena.FreeExact
    rw [lastArena_freeIds, if_pos (show lastArena.mapped = true from rfl)]
    refine ⟨rfl, fun id hid => ?_⟩
    obtain ⟨hpos, hlt⟩ := Finset.mem_Ico.mp hid
    exact List.mem_range'_1.mpr ⟨hpos, by omega⟩
  · show Shape lastArena.read lastArena.liveIds (rowTrees lastTrees)
    rw [htrees, lastArena_liveIds]
    refine ⟨fun t ht => ?_, by decide, fun id => by simp [IdTree.ids]⟩
    rw [List.mem_singleton.mp ht]
    exact lastArena_read 0
  · decide
  · intro row t ht
    obtain rfl : row = 31 := by
      by_contra hrow
      rw [lastTrees, Function.update_of_ne hrow] at ht
      cases ht
    decide
  · intro row t ht
    obtain rfl : row = 31 := by
      by_contra hrow
      rw [lastTrees, Function.update_of_ne hrow] at ht
      cases ht
    rw [lastTrees, Function.update_self] at ht
    cases ht
    exact Nat.zero_le _
  · show KeylessLeafIndex.Indexes _ lastArena lastArena.leafIds
    obtain ⟨index, hinsert, hindex⟩ := (KeylessLeafIndex.indexes_new lastArena).insert
      (fun _ hid => absurd hid (Finset.notMem_empty _)) (Finset.notMem_empty 0)
    rw [lastArena_read, if_pos rfl] at hinsert
    rw [lastArena_leafIds]
    show ((KeylessLeafIndex.new.insert lastArena (leafHash 1) 0).getD .new).Indexes lastArena _
    rw [show KeylessLeafIndex.new.insert lastArena (leafHash 1) 0 = some index from hinsert]
    exact hindex

/-- The segment cannot be opened. -/
def lastIo : BlockIo ByteHash where
  flush := ⟨⟨.ok (), .ok ()⟩, ⟨.ok (), .ok ()⟩, fun _ => .ok (), .ok (), ⟨fun _ => true, .ok (), .ok ()⟩⟩
  append := ⟨.error "open: Too many open files", false, .ok (), none, .ok ()⟩
  scratch := .ok ()
  left := lastForest.toPackedForest

theorem lastForest_consistent : lastForest.Consistent := by
  refine ⟨⟨lastTrees, lastForest_structured⟩, fun _ _ => ⟨rfl, le_rfl, le_rfl⟩, fun store hs => ?_⟩
  cases hs
  rfl

theorem lastForest_find {arena : NodeArena ByteHash} (hsame : lastForest.arena.SameBut arena) :
    lastForest.index.find arena (leafHash 1) = some 0 := by
  have hindex := (lastForest_structured.sameBut hsame).index
  obtain ⟨_, _, _, _, heq⟩ := hsame.eq
  have hread : arena.read = lastArena.read := by
    rw [heq]
    rfl
  have hleaves : arena.leafIds = {0} := by
    rw [← lastArena_leafIds, heq]
    rfl
  have hzero : (0 : Nat) ∈ arena.leafIds := by
    rw [hleaves]
    exact Finset.mem_singleton_self 0
  have hfind := hindex.find_eq_some (fun id hid => NodeArena.isLeaf_eq_true.mpr hid) hzero fun j hj _ => by
    rw [hleaves] at hj
    exact Finset.mem_singleton.mp hj
  rwa [hread, lastArena_read, if_pos rfl] at hfind

theorem blocks_all_or_nothing_last : (lastForest.flushOnline lastIo.flush).2.Consistent ∧
    (lastForest.flushOnline lastIo.flush).2.AllOrNothing [leafHash 2] [leafHash 1] :=
  blocks_all_or_nothing lastForest_consistent (.single (.flushOnline lastIo.flush)) [leafHash 2] [leafHash 1]

/-- The block that deletes the last leaf fails, and the leaf is no longer in the index. -/
theorem failed_append_loses_leaf : lastForest.Consistent ∧ ∃ message f',
    lastForest.modifyBlock [] [leafHash 1] ⟨3, leafHash 3⟩ lastIo = .ok (.error message, f') ∧
      ¬lastForest.SameState f' := by
  obtain ⟨arena, hbegin⟩ : ∃ arena, lastForest.arena.beginTransaction = .ok arena := ⟨_, rfl⟩
  have hsame := (NodeArena.beginTransaction_eq (show lastForest.arena.mapped = true from rfl) hbegin).1
  obtain ⟨modified, hmodify, hmodified⟩ := (lastForest_structured.sameBut hsame).modify_root
    (show lastTrees 31 = some (.leaf 0 (leafHash 1)) from Function.update_self _ _ _) (lastForest_find hsame)
  have hvalid : lastStore.chainValid (OpenForest.blockTransaction { lastForest with arena }
      { lastForest with toPackedForest := modified } lastStore ⟨3, leafHash 3⟩) = true :=
    chainValid_next (by decide) rfl rfl rfl rfl
  obtain ⟨store', happend⟩ := append_refused hvalid rfl rfl
    (show lastIo.append.opened = .error "open: Too many open files" from rfl)
  have hscan : lastForest.arena.Scannable validationWindowSlots := fun run hrun => nomatch hrun
  obtain ⟨what, g, hrun, hindex⟩ := connectBlock_last lastForest_consistent rfl le_rfl hscan
    (show lastIo.scratch = .ok () from rfl) hbegin hmodify happend
  refine ⟨lastForest_consistent, what, g, ?_, fun hstate => ?_⟩
  · have honline : lastForest.online = some lastStore := rfl
    have hdue : lastForest.sealDue lastStore = false := by decide +kernel
    unfold OpenForest.modifyBlock OpenForest.sealBeforeBlock
    rw [honline]
    dsimp only
    rw [if_neg (by decide), if_neg (by decide), hdue, if_neg Bool.false_ne_true]
    dsimp only
    rw [honline]
    exact hrun
  · have hentries := hstate.entries
    rw [hindex, hmodified.index.holds.entries_toFinset, lastForest_structured.index.holds.entries_toFinset,
      show lastForest.arena.leafIds = {0} from lastArena_leafIds] at hentries
    have hleaf : 0 ∈ modified.arena.leafIds := by
      rw [hentries]
      exact Finset.mem_singleton_self 0
    obtain ⟨hlt, htype⟩ := NodeArena.mem_leafIds.mp hleaf
    have hlive := (hmodified.shape.live_iff 0).mp (NodeArena.mem_liveIds.mpr ⟨hlt, by rw [htype]; decide⟩)
    rw [show rowTrees (Function.update lastTrees 31 none) = [] from rfl] at hlive
    cases hlive

end Example

end UtreexoBridge
