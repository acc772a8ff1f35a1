import UtreexoBridge.Forest.Represents
import UtreexoBridge.Online.Store

/-!
# A flush keeps the forest

Wherever it stops, the records stay what they are. Only a free slot may take
another hash.
-/

namespace UtreexoBridge

/-! ## Arenas that look the same -/

section View

variable {H : Type} [ForestHash H] {a a' a'' : NodeArena H}

/-- The live records and the books of `a`. -/
structure NodeArena.SameView (a a' : NodeArena H) : Prop where
  mapped : a'.mapped = a.mapped
  baseNext : a'.baseNext = a.baseNext
  capacity : a'.capacity = a.capacity
  transaction : a'.transaction = a.transaction
  freeStack : a'.freeStack = a.freeStack
  freeSet : a'.freeSet = a.freeSet
  next : a'.next = a.next
  live : a'.live = a.live
  read : ∀ id < a.next, a'.read id = a.read id ∨ (a'.read id).type = .free ∧ (a.read id).type = .free

namespace NodeArena.SameView

theorem refl (a : NodeArena H) : a.SameView a := ⟨rfl, rfl, rfl, rfl, rfl, rfl, rfl, rfl, fun _ _ => Or.inl rfl⟩

theorem trans (h : a.SameView a') (h' : a'.SameView a'') : a.SameView a'' := by
  refine ⟨h'.mapped.trans h.mapped, h'.baseNext.trans h.baseNext, h'.capacity.trans h.capacity,
    h'.transaction.trans h.transaction, h'.freeStack.trans h.freeStack, h'.freeSet.trans h.freeSet,
    h'.next.trans h.next, h'.live.trans h.live, fun id hid => ?_⟩
  rcases h'.read id (by rwa [h.next]) with heq | ⟨hfree, hfree'⟩
  · rw [heq]
    exact h.read id hid
  · rcases h.read id hid with heq | ⟨-, hfree⟩
    · exact Or.inr ⟨‹_›, by rw [← heq]; exact hfree'⟩
    · exact Or.inr ⟨‹_›, hfree⟩

theorem type_free_iff (h : a.SameView a') {id : Nat} (hid : id < a.next) :
    (a'.read id).type = .free ↔ (a.read id).type = .free := by
  rcases h.read id hid with heq | ⟨hfree, hfree'⟩
  · rw [heq]
  · exact ⟨fun _ => hfree', fun _ => hfree⟩

theorem read_live (h : a.SameView a') {id : Nat} (hid : id < a.next) (hlive : (a.read id).type ≠ .free) :
    a'.read id = a.read id := (h.read id hid).resolve_right fun hfree => hlive hfree.2

theorem liveIds (h : a.SameView a') : a'.liveIds = a.liveIds := by
  ext id
  rw [mem_liveIds, mem_liveIds, h.next]
  exact and_congr_right fun hid => not_congr (h.type_free_iff hid)

theorem freeIds (h : a.SameView a') : a'.freeIds = a.freeIds := by
  ext id
  rw [mem_freeIds, mem_freeIds, h.next]
  exact and_congr_right fun hid => h.type_free_iff hid

theorem leafIds (h : a.SameView a') : a'.leafIds = a.leafIds := by
  ext id
  rw [mem_leafIds, mem_leafIds, h.next]
  refine and_congr_right fun hid => ?_
  rcases h.read id hid with heq | ⟨hfree, hfree'⟩
  · rw [heq]
  · rw [hfree, hfree']

theorem bookkeeping (h : a.SameView a') (books : a.Bookkeeping) : a'.Bookkeeping := by
  refine ⟨by rw [h.next]; exact books.next_le, by rw [h.live, h.liveIds]; exact books.live_eq, ?_⟩
  have hfree := books.free_eq
  unfold FreeExact at hfree ⊢
  rw [h.mapped, h.freeSet, h.freeStack, h.freeIds]
  exact hfree

end NodeArena.SameView

theorem Structured.sameView {f : PackedForest H} {trees : Nat → Option (IdTree H)} (h : Structured f trees)
    {a : NodeArena H} (hview : f.arena.SameView a) : Structured { f with arena := a } trees := by
  have hread : ∀ id ∈ f.arena.liveIds, a.read id = f.arena.read id := fun id hid =>
    hview.read_live (NodeArena.mem_liveIds.mp hid).1 (NodeArena.mem_liveIds.mp hid).2
  have hindex : f.index.Indexes a a.leafIds := by
    rw [hview.leafIds]
    refine h.index.congr fun id hid => ?_
    obtain ⟨hlt, htype⟩ := NodeArena.mem_leafIds.mp hid
    rw [hview.read_live hlt (by simp [htype])]
  refine ⟨hview.bookkeeping h.books, ⟨fun t ht => ?_, h.shape.nodup, fun id => ?_⟩, h.roots, h.bits, h.height, hindex,
    h.bound⟩
  · exact (h.shape.linked t ht).congr fun x hx => hread x (h.shape.mem_live ht hx)
  · show id ∈ a.liveIds ↔ _
    rw [hview.liveIds]
    exact h.shape.live_iff id

end View

/-! ## The steps of a flush -/

section Flush

variable {H : Type} [StoredHash H] [DecidableEq H] {a : NodeArena H} {s s' : OpenStore H} {roots : Vector Nat 64}
  {numLeaves : Nat}

omit [StoredHash H] in
theorem writeDeltaRun_records {directory directory' : Directory H} {state : DeltaState H} {chainHashes : List H}
    {records : List (Nat × NodeRecord H)} {io : DeltaIo} {run : DeltaRun H}
    (hok : writeDeltaRun directory state chainHashes records io = (.ok run, directory')) : run.records = records := by
  unfold writeDeltaRun at hok
  split_ifs at hok
  · cases hok
  · cases hok
  · cases hok
  · cases hok
  · split at hok
    · cases hok
    · dsimp only at hok
      split at hok
      · cases hok
      · split at hok
        · cases hok
        · cases hok
          rfl
  · cases hok

omit [DecidableEq H] in
theorem sameView_sealed (h : a.mapped = true) {run : DeltaRun H} (hrun : run.records = a.sealRecords) :
    a.SameView ((a.appendDeltaRun run).clearDirty) :=
  ⟨rfl, rfl, rfl, rfl, rfl, rfl, rfl, rfl, fun _ hid => Or.inl (NodeArena.read_sealed h hrun hid)⟩

theorem sameView_compacted (h : a.mapped = true) {run : DeltaRun H} (hrun : run.records = a.compactRecords) :
    a.SameView (a.replaceDeltaRuns run) :=
  ⟨rfl, rfl, rfl, rfl, rfl, rfl, rfl, rfl, fun _ hid => NodeArena.read_compacted h hrun hid⟩

/-- What no flush touches. -/
structure OpenStore.SameChain (s s' : OpenStore H) : Prop where
  config : s'.config = s.config
  base : s'.base = s.base
  point : s'.point = s.point
  chainHashes : s'.chainHashes = s.chainHashes
  currentLsn : s'.currentLsn = s.currentLsn
  pending : s'.pending = s.pending

omit [StoredHash H] [DecidableEq H] in
theorem OpenStore.SameChain.trans {s'' : OpenStore H} (h : s.SameChain s') (h' : s'.SameChain s'') : s.SameChain s'' :=
  ⟨h'.config.trans h.config, h'.base.trans h.base, h'.point.trans h.point, h'.chainHashes.trans h.chainHashes,
    h'.currentLsn.trans h.currentLsn, h'.pending.trans h.pending⟩

omit [StoredHash H] [DecidableEq H] in
theorem removeRuns_sameChain (unlinked : Nat → Res) (generations : List Nat) (removed : Bool) :
    s.SameChain (s.removeRuns unlinked generations removed).2 := by
  induction generations generalizing s removed with
  | nil => exact ⟨rfl, rfl, rfl, rfl, rfl, rfl⟩
  | cons generation generations ih =>
    rw [OpenStore.removeRuns]
    split
    · exact ⟨rfl, rfl, rfl, rfl, rfl, rfl⟩
    · obtain ⟨hconfig, hbase, hpoint, hchain, hlsn, hpending⟩ := @ih { s with directory := { s.directory with
        deltas := s.directory.deltas.filter fun run => run.1 ≠ generation } } true
      exact ⟨hconfig, hbase, hpoint, hchain, hlsn, hpending⟩

omit [StoredHash H] [DecidableEq H] in
theorem OpenStore.SameChain.refl (s : OpenStore H) : s.SameChain s := ⟨rfl, rfl, rfl, rfl, rfl, rfl⟩

theorem compactDeltas_sameChain (io : FlushIo) : s.SameChain (s.compactDeltas a roots numLeaves io).2.1 := by
  unfold OpenStore.compactDeltas
  split
  · exact .refl s
  · dsimp only
    split
    · exact ⟨rfl, rfl, rfl, rfl, rfl, rfl⟩
    · split
      all_goals
        rename_i hremove
        have hchain := congrArg Prod.snd hremove
        dsimp only at hchain ⊢
        rw [← hchain]
        refine .trans ?_ (removeRuns_sameChain _ _ _)
        exact ⟨rfl, rfl, rfl, rfl, rfl, rfl⟩

omit [DecidableEq H] in
theorem pruneWal_sameChain (io : PruneIo) : s.SameChain (s.pruneWal io).2 := by
  unfold OpenStore.pruneWal
  dsimp only
  split
  · exact ⟨rfl, rfl, rfl, rfl, rfl, rfl⟩
  · split_ifs
    all_goals exact ⟨rfl, rfl, rfl, rfl, rfl, rfl⟩

theorem sealDirty_sameChain (io : DeltaIo) : s.SameChain (s.sealDirty a roots numLeaves io).2.1 := by
  unfold OpenStore.sealDirty
  split
  · exact .refl s
  · dsimp only
    split
    all_goals exact ⟨rfl, rfl, rfl, rfl, rfl, rfl⟩

theorem compactIfDue_sameChain (io : FlushIo) : s.SameChain (s.compactIfDue a roots numLeaves io).2.1 := by
  unfold OpenStore.compactIfDue
  split_ifs
  · exact compactDeltas_sameChain io
  · exact .refl s

theorem sealDelta_sameChain (io : FlushIo) : s.SameChain (s.sealDelta a roots numLeaves io).2.1 := by
  have hseal : s.SameChain (s.sealDirty a roots numLeaves io.sealed).2.1 := sealDirty_sameChain io.sealed
  unfold OpenStore.sealDelta
  split
  · rename_i hrun
    rw [hrun] at hseal
    exact hseal
  · rename_i s1 a1 hrun
    rw [hrun] at hseal
    have hcompact : s1.SameChain (s1.compactIfDue a1 roots numLeaves io).2.1 := compactIfDue_sameChain io
    split
    all_goals
      rename_i hrun2
      rw [hrun2] at hcompact
    · exact hseal.trans hcompact
    · exact (hseal.trans hcompact).trans (pruneWal_sameChain _)

theorem compactDeltas_sameView (h : a.mapped = true) (io : FlushIo) :
    a.SameView (s.compactDeltas a roots numLeaves io).2.2 := by
  unfold OpenStore.compactDeltas
  split
  · exact .refl a
  · dsimp only
    split
    · exact .refl a
    · rename_i run directory hwrite
      have hview := sameView_compacted h (writeDeltaRun_records hwrite)
      split
      all_goals exact hview

theorem sealDirty_sameView (h : a.mapped = true) (io : DeltaIo) :
    a.SameView (s.sealDirty a roots numLeaves io).2.2 := by
  unfold OpenStore.sealDirty
  split
  · exact .refl a
  · dsimp only
    split
    · exact .refl a
    · rename_i run directory hwrite
      exact sameView_sealed h (writeDeltaRun_records hwrite)

theorem compactIfDue_sameView (h : a.mapped = true) (io : FlushIo) :
    a.SameView (s.compactIfDue a roots numLeaves io).2.2 := by
  unfold OpenStore.compactIfDue
  split_ifs
  · exact compactDeltas_sameView h io
  · exact .refl a

theorem sealDelta_sameView (h : a.mapped = true) (io : FlushIo) :
    a.SameView (s.sealDelta a roots numLeaves io).2.2 := by
  have hseal : a.SameView (s.sealDirty a roots numLeaves io.sealed).2.2 := sealDirty_sameView h io.sealed
  unfold OpenStore.sealDelta
  split
  · rename_i hrun
    rw [hrun] at hseal
    exact hseal
  · rename_i s1 a1 hrun
    rw [hrun] at hseal
    have hcompact : a1.SameView (s1.compactIfDue a1 roots numLeaves io).2.2 :=
      compactIfDue_sameView (hseal.mapped.trans h) io
    split
    all_goals
      rename_i hrun2
      rw [hrun2] at hcompact
      exact hseal.trans hcompact

/-- Whatever fails, the forest goes on as before. -/
structure OpenForest.FlushKept (f f' : OpenForest H) : Prop where
  index : f'.index = f.index
  roots : f'.roots = f.roots
  numLeaves : f'.numLeaves = f.numLeaves
  arena : f.arena.SameView f'.arena
  online : f.online = none ∧ f'.online = none ∨ ∃ s s', f.online = some s ∧ f'.online = some s' ∧ s.SameChain s'

theorem flushOnline_kept {f : OpenForest H} (h : f.online.isSome → f.arena.mapped = true) (io : FlushIo) :
    f.FlushKept (f.flushOnline io).2 := by
  unfold OpenForest.flushOnline
  cases hs : f.online with
  | none => exact ⟨rfl, rfl, rfl, .refl _, Or.inl ⟨hs, hs⟩⟩
  | some store =>
    have hsame : f.FlushKept f := ⟨rfl, rfl, rfl, .refl _, Or.inr ⟨store, store, hs, hs, .refl store⟩⟩
    dsimp only
    split_ifs
    · exact hsame
    · exact hsame
    · have hmapped : f.arena.mapped = true := h (by rw [hs]; rfl)
      exact ⟨rfl, rfl, rfl, sealDelta_sameView hmapped io, Or.inr ⟨store, _, hs, rfl, sealDelta_sameChain io⟩⟩

theorem flushOnline_sameChain {f : OpenForest H} (hs : f.online = some s) (io : FlushIo) :
    ∃ s', (f.flushOnline io).2.online = some s' ∧ s.SameChain s' := by
  unfold OpenForest.flushOnline
  rw [hs]
  dsimp only
  split_ifs
  · exact ⟨s, hs, .refl s⟩
  · exact ⟨s, hs, .refl s⟩
  · exact ⟨_, rfl, sealDelta_sameChain io⟩

end Flush

end UtreexoBridge
