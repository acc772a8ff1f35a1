import UtreexoBridge.Arena.Agree
import UtreexoBridge.Validate.WellFormed

/-!
# `RebuildIndexAndValidate` decides well-formedness

As long as the windowed scan reads what `Read` gives.
-/

namespace UtreexoBridge

variable {H : Type} [ForestHash H] {a : NodeArena H} {slots : Nat}

/-! ## Bookkeeping -/

namespace NodeArena

theorem forEachWindow_range {σ : Type} (h : a.Mapped) (hslots : 0 < slots) (hscannable : a.Scannable slots)
    (callback : σ → Nat → List (NodeRecord H) → Except String σ) (s : σ) :
    a.forEachWindow slots callback s = .ok ((List.range (windowCount slots a.next)).foldlM
      (fun s k => callback s (k * slots) (windowOf slots a.next a.read (k * slots))) s) := by
  rw [forEachWindow_spec h hslots hscannable, readWindows_eq a hslots, List.foldlM_map]

/-- The arena with the free ids that its records have. -/
def booked (a : NodeArena H) : NodeArena H :=
  let freeIds := (List.range a.next).filter fun id => (a.read id).type = .free
  { a with freeStack := freeIds.reverse, freeSet := freeIds.toFinset, live := a.next - freeIds.length }

theorem booked_read : a.booked.read = a.read := rfl

theorem booked_mapped (h : a.Mapped) : a.booked.Mapped := ⟨h.mapped, h.base_le, h.next_le⟩

theorem booked_freeSet : a.booked.freeSet = a.freeIds := by
  ext id
  rw [mem_freeIds]
  simp [booked]

theorem booked_bookkeeping (h : a.Mapped) : a.booked.Bookkeeping := by
  have hlength : ((List.range a.next).filter fun id => (a.read id).type = .free).length = a.freeIds.card := by
    have hset : a.freeIds = ((List.range a.next).filter fun id => (a.read id).type = .free).toFinset := by
      ext id
      simp [freeIds]
    rw [hset, List.toFinset_card_of_nodup (List.nodup_range.filter _)]
  have hsum := a.card_liveIds_add
  refine ⟨h.next_le, ?_, ?_⟩
  · show a.next - _ = a.liveIds.card
    rw [hlength]
    omega
  · unfold FreeExact
    rw [if_pos (booked_mapped h).mapped]
    refine ⟨booked_freeSet, fun id hid => ?_⟩
    have hfree := mem_freeIds.mp hid
    show id ∈ List.reverse _
    rw [List.mem_reverse, List.mem_filter, List.mem_range]
    exact ⟨hfree.1, decide_eq_true hfree.2⟩

theorem loadBookkeeping_eq (h : a.Mapped) (hnext : a.next < noNode) :
    a.loadBookkeeping a.next (scanned slots a.read a.next).freeIds = .ok a.booked := by
  have hsorted : (scanned slots a.read a.next).freeIds.Pairwise (· < ·) := List.pairwise_lt_range.filter _
  have hlast : ¬∃ id ∈ (scanned slots a.read a.next).freeIds.getLast?, id ≥ a.next := by
    rintro ⟨id, hid, hge⟩
    have hmem := List.mem_of_getLast? hid
    simp only [scanned, List.mem_filter, List.mem_range] at hmem
    omega
  unfold loadBookkeeping
  rw [if_neg]
  · rfl
  · rintro (hmapped | hge | hunsorted | hbad)
    · rw [h.mapped] at hmapped
      cases hmapped
    · omega
    · exact hunsorted hsorted
    · exact hlast hbad

theorem leafCount_eq : (scanned slots a.read a.next).leafCount = (leavesBelow a a.next).card := by
  have hset : leavesBelow a a.next = ((List.range a.next).filter fun id => (a.read id).type = .leaf).toFinset := by
    ext id
    simp [leavesBelow]
  rw [hset, List.toFinset_card_of_nodup (List.nodup_range.filter _)]
  rfl

end NodeArena

namespace PackedForest

variable [DecidableEq H] {f : PackedForest H}

/-- The predicate on the whole forest. -/
def StructureOk (f : PackedForest H) : Prop := WellFormed f.roots.toList f.arena.next f.arena.read

/-- What a rebuilt forest is: new bookkeeping and an index of the leaves. -/
structure Rebuilt (f f' : PackedForest H) : Prop where
  eq : f' = { f with arena := f.arena.booked, index := f'.index }
  indexes : f'.index.Indexes f.arena.booked f.arena.leafIds
  grown : f'.index.Grown (max 16 (bitCeil (max 16 ((f.arena.leafIds.card * 10 + 7) / 8))))

/-- A scannable arena: the call returns, and decides. -/
theorem rebuildIndexAndValidate_of_scannable (h : f.arena.Mapped) (hnext : f.arena.next < noNode) (hslots : 0 < slots)
    (hscannable : f.arena.Scannable slots) :
    ∃ result, f.rebuildIndexAndValidate slots = .ok result ∧ Decides result f.StructureOk (f.Rebuilt ·) := by
  have hpasses : Passes f.roots.toList slots f.arena.next f.arena.read ↔ _ := passes_iff_wellFormed hslots hnext.le
  have hfirst : Decides ((List.range (windowCount slots f.arena.next)).foldlM (fun s k => scanWindow f.roots.toList slots
    f.arena.next s (k * slots) (windowOf slots f.arena.next f.arena.read (k * slots))) .start) _ _ := decides_firstPass hslots
  unfold rebuildIndexAndValidate StructureOk
  dsimp only
  rw [← hpasses, NodeArena.forEachWindow_range h hslots hscannable]
  rcases hfirst with ⟨⟨hroots, hrecords⟩, s, hrun, rfl⟩ | ⟨hbad, message, hrun⟩
  · simp only [hrun]
    by_cases hrange : ∃ root ∈ f.roots.toList, root ≠ noNode ∧ root ≥ f.arena.next
    · rw [if_pos hrange]
      refine ⟨_, rfl, Decides.error fun hok => ?_⟩
      obtain ⟨root, hroot, hnone, hge⟩ := hrange
      have := (hok.listed root hroot hnone).1
      omega
    · have hlisted : ∀ root ∈ f.roots.toList, RootOk f.arena.next f.arena.read root := by
        intro root hroot hnone
        have hlt : root < f.arena.next := not_le.mp fun hge => hrange ⟨root, hroot, hnone, hge⟩
        exact hroots (by omega) root hroot hnone
      have hcount : (scanned slots f.arena.read f.arena.next).leafCount ≤ f.arena.next := by
        refine le_trans (List.length_filter_le _ _) ?_
        rw [List.length_range]
      have hrequired : ¬max 16 (((scanned slots f.arena.read f.arena.next).leafCount * 10 + 7) / 8) > 2 ^ 64 - 1 := by
        have : noNode = 2 ^ 32 - 1 := rfl
        omega
      have hstart : IndexedBelow f.arena.booked _ 0 (SecondPass.start (H := H)
          (max 16 (((scanned slots f.arena.read f.arena.next).leafCount * 10 + 7) / 8))).index :=
        ⟨_, rfl, KeylessLeafIndex.indexes_clear _ _, KeylessLeafIndex.grown_clear _⟩
      have hsecond := decides_secondPass hslots hstart (scanned slots f.arena.read f.arena.next).edges
      rw [if_neg hrange, NodeArena.loadBookkeeping_eq h hnext]
      simp only []
      rw [if_neg hrequired, NodeArena.forEachWindow_range (NodeArena.booked_mapped h) hslots hscannable]
      rcases hsecond with ⟨hwindows, ⟨_, w⟩, hrun2, index, rfl, hindex, hgrown⟩ | ⟨hbad, message, hrun2⟩
      · simp only [hrun2]
        have hsize : (scanned slots f.arena.read f.arena.next).leafCount = index.size :=
          NodeArena.leafCount_eq.trans hindex.size_eq.symm
        rw [if_neg (not_not.mpr hsize)]
        exact ⟨_, rfl, Decides.ok ⟨hlisted, hrecords, hwindows⟩ ⟨rfl, hindex, hgrown⟩⟩
      · simp only [hrun2]
        exact ⟨_, rfl, Decides.error fun hok => hbad hok.windows⟩
  · simp only [hrun]
    exact ⟨_, rfl, Decides.error fun hok => hbad ⟨fun _ => hok.listed, hok.records⟩⟩

theorem rebuildIndexAndValidate_next (hnext : f.arena.next ≥ noNode) (f' : PackedForest H) :
    f.rebuildIndexAndValidate slots ≠ .ok (.ok f') := by
  unfold rebuildIndexAndValidate
  dsimp only
  split
  · exact fun hok => nomatch hok
  · exact fun hok => nomatch hok
  · rename_i s _
    have hload : f.arena.loadBookkeeping f.arena.next s.freeIds =
        .error "validated startup cache has invalid free-node bookkeeping" := by
      unfold NodeArena.loadBookkeeping
      rw [if_pos (Or.inr (Or.inl hnext))]
    simp only [hload]
    split_ifs
    all_goals exact fun hok => nomatch hok

/-- A sound forest has nothing that would stop the scan before it leaves the arrays. -/
theorem rebuildIndexAndValidate_faults (h : f.arena.Mapped) (hslots : 0 < slots) (hgood : f.StructureOk)
    (hbad : ¬f.arena.Scannable slots) : f.rebuildIndexAndValidate slots = .error .outOfBounds := by
  have hpasses : Passes f.roots.toList slots f.arena.next f.arena.read :=
    (passes_iff_wellFormed hslots h.next_le).mpr hgood
  unfold rebuildIndexAndValidate
  dsimp only
  rcases NodeArena.forEachWindow_broken h hslots hbad (scanWindow f.roots.toList slots f.arena.next) .start with
    hscan | ⟨message, hfold, -⟩
  · simp only [hscan]
  · rw [readWindows_eq f.arena hslots, List.foldlM_map] at hfold
    obtain ⟨s, hok, -⟩ := (decides_firstPass hslots).exists_ok
      ⟨fun _ => hpasses.listed, hpasses.records⟩
    rw [hok] at hfold
    cases hfold

theorem rebuildIndexAndValidate_broken (h : f.arena.Mapped) (hslots : 0 < slots) (hbad : ¬f.arena.Scannable slots)
    (f' : PackedForest H) : f.rebuildIndexAndValidate slots ≠ .ok (.ok f') := by
  unfold rebuildIndexAndValidate
  dsimp only
  rcases NodeArena.forEachWindow_broken h hslots hbad (scanWindow f.roots.toList slots f.arena.next) .start with
    hscan | ⟨message, -, hscan⟩
  · simp only [hscan]
    intro hok
    cases hok
  · simp only [hscan]
    intro hok
    cases hok

/-- Success means well formed, with the leaves in the index and the free ids in the free set. -/
structure ValidatesStructure (f : PackedForest H) (slots : Nat) : Prop where
  ok_iff : (∃ f', f.rebuildIndexAndValidate slots = .ok (.ok f')) ↔ f.StructureOk
  entries : ∀ f', f.rebuildIndexAndValidate slots = .ok (.ok f') → f'.index.table.entries.Nodup ∧
    ∀ id, id ∈ f'.index.table.entries ↔ id < f.arena.next ∧ (f.arena.read id).type = .leaf
  freeSet : ∀ f', f.rebuildIndexAndValidate slots = .ok (.ok f') →
    ∀ id, id ∈ f'.arena.freeSet ↔ id < f.arena.next ∧ (f.arena.read id).type = .free

/-- The full validation decides the plain predicate exactly if every run of 128 records or more reaches
the last window, or the structure is broken anyway. Where the runs do, it always returns. -/
theorem validatesStructure_iff (h : f.arena.Mapped) (hnext : f.arena.next < noNode) (hslots : 0 < slots) :
    (f.ValidatesStructure slots ↔ (f.StructureOk → f.arena.Scannable slots)) ∧
      (f.arena.Scannable slots → ∃ result, f.rebuildIndexAndValidate slots = .ok result) := by
  refine ⟨⟨fun hvalid hgood => ?_, fun hreach => ?_⟩, fun hscannable => ?_⟩
  · by_contra hbad
    obtain ⟨f', hok⟩ := hvalid.ok_iff.mpr hgood
    exact rebuildIndexAndValidate_broken h hslots hbad f' hok
  · by_cases hscannable : f.arena.Scannable slots
    · obtain ⟨result, hrun, hdecides⟩ := rebuildIndexAndValidate_of_scannable h hnext hslots hscannable
      have hrebuilt : ∀ f', f.rebuildIndexAndValidate slots = .ok (.ok f') → f.Rebuilt f' := fun f' hok =>
        (hdecides.of_ok (Except.ok.inj (hrun.symm.trans hok))).2
      refine ⟨⟨?_, fun hgood => ?_⟩, fun f' hok => ?_, fun f' hok id => ?_⟩
      · rintro ⟨f', hok⟩
        exact (hdecides.of_ok (Except.ok.inj (hrun.symm.trans hok))).1
      · obtain ⟨f', hok, -⟩ := hdecides.exists_ok hgood
        exact ⟨f', by rw [hrun, hok]⟩
      · have hholds := (hrebuilt f' hok).indexes.holds
        refine ⟨hholds.entries_nodup, fun id => ?_⟩
        rw [← List.mem_toFinset, hholds.entries_toFinset, NodeArena.mem_leafIds]
      · rw [(hrebuilt f' hok).eq]
        show id ∈ f.arena.booked.freeSet ↔ _
        rw [NodeArena.booked_freeSet, NodeArena.mem_freeIds]
    · have hnever := rebuildIndexAndValidate_broken h hslots hscannable
      exact ⟨⟨fun ⟨f', hok⟩ => absurd hok (hnever f'), fun hgood => absurd (hreach hgood) hscannable⟩,
        fun f' hok => absurd hok (hnever f'), fun f' hok => absurd hok (hnever f')⟩
  · obtain ⟨result, hrun, -⟩ := rebuildIndexAndValidate_of_scannable h hnext hslots hscannable
    exact ⟨result, hrun⟩

/-! ## A well formed arena that is not validated -/

/-- A forest over a run of `count` free slots. -/
def freeRunForest (count next : Nat) : PackedForest TermHash where
  arena := { (NodeArena.new : NodeArena TermHash) with
    mapped := true
    deltaRuns := [{ leafRun count with
      records := (List.range count).map fun id => (id, .blank)
      sorted := List.pairwise_map.mpr List.pairwise_lt_range }]
    next := next }
  index := .new
  roots := .replicate 64 noNode
  numLeaves := 0

theorem freeRunForest_free (count next id : Nat) : ((freeRunForest count next).arena.read id).type = .free := by
  have hblank : ∀ r, (freeRunForest count next).arena.findDeltaRecord id = some r → r = .blank := by
    intro r hr
    obtain ⟨run, hrun, hfind⟩ := List.exists_of_findSome?_eq_some hr
    obtain rfl := List.mem_singleton.mp (List.mem_reverse.mp hrun)
    obtain ⟨_, -, heq⟩ := List.mem_map.mp ((DeltaRun.find_eq_some_iff _).mp hfind)
    exact (congrArg Prod.snd heq).symm
  rw [NodeArena.read, if_pos (show (freeRunForest count next).arena.mapped = true from rfl),
    show (freeRunForest count next).arena.dirty[id]? = none from Std.ExtTreeMap.getElem?_empty]
  cases hfind : (freeRunForest count next).arena.findDeltaRecord id with
  | some r =>
    rw [hblank r hfind]
    rfl
  | none =>
    show (NodeArena.readPhysicalBase _ id).type = .free
    unfold NodeArena.readPhysicalBase
    rw [if_pos (Or.inl (show id ≥ (freeRunForest count next).arena.baseNext from Nat.zero_le id))]
    rfl

theorem freeRunForest_structureOk (count next : Nat) : (freeRunForest count next).StructureOk := by
  have hfree := freeRunForest_free count next
  refine ⟨?_, fun id _ => Or.inl (hfree id), ?_, ?_, ?_, ?_, fun id _ hlive => absurd (hfree id) hlive,
    fun id _ hlive => absurd (hfree id) hlive⟩
  · intro root hroot hnone
    exact absurd (Vector.eq_of_mem_replicate (Vector.mem_toList_iff.mp hroot)) hnone
  all_goals
    intro id _ htype
    rw [hfree id] at htype
    cases htype

theorem validatesStructure_iff_small : (freeRunForest 3 5).ValidatesStructure validationWindowSlots := by
  have hmapped : (freeRunForest 3 5).arena.Mapped := ⟨rfl, Nat.le_refl 0, by decide⟩
  refine (validatesStructure_iff hmapped (by decide) (by decide)).1.mpr fun _ r hr hlong => ?_
  obtain rfl := List.mem_singleton.mp hr
  simp [cursorRecords] at hlong

/-- 128 free slots in a run below the second window: well formed, and never accepted. -/
theorem early_run_breaks_validation :
    (freeRunForest 128 (validationWindowSlots + 1)).arena.Mapped ∧
      (freeRunForest 128 (validationWindowSlots + 1)).StructureOk ∧
      ¬(∃ f', (freeRunForest 128 (validationWindowSlots + 1)).rebuildIndexAndValidate validationWindowSlots = .ok (.ok f')) ∧
      ¬(freeRunForest 128 (validationWindowSlots + 1)).ValidatesStructure validationWindowSlots := by
  have hmapped : (freeRunForest 128 (validationWindowSlots + 1)).arena.Mapped := ⟨rfl, Nat.le_refl 0, by decide⟩
  have hgood := freeRunForest_structureOk 128 (validationWindowSlots + 1)
  have hbad : ¬(freeRunForest 128 (validationWindowSlots + 1)).arena.Scannable validationWindowSlots := by
    intro h
    obtain ⟨e, he, hge⟩ := h _ (List.mem_singleton.mpr rfl) (by simp [cursorRecords])
    obtain ⟨id, hid, rfl⟩ := List.mem_map.mp he
    have hlt := List.mem_range.mp hid
    have hlast : ((freeRunForest 128 (validationWindowSlots + 1)).arena.next - 1) / validationWindowSlots *
        validationWindowSlots = 262144 := by decide
    rw [hlast] at hge
    omega
  have hnever : ¬∃ f', (freeRunForest 128 (validationWindowSlots + 1)).rebuildIndexAndValidate validationWindowSlots =
      .ok (.ok f') := by
    rintro ⟨f', hok⟩
    exact rebuildIndexAndValidate_broken hmapped (by decide) hbad f' hok
  exact ⟨hmapped, hgood, hnever, fun hvalid => hnever (hvalid.ok_iff.mpr hgood)⟩

end PackedForest

end UtreexoBridge
