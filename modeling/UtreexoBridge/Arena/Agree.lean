import UtreexoBridge.Arena.Merge
import UtreexoBridge.Arena.Windows

/-!
# The three views of a mapped arena

`Read`, the windowed scan and the merge of the runs show the same records, and
sealing or compaction keeps them. Only the scan can go wrong: on a long run that
ends before the last window.
-/

namespace UtreexoBridge

variable {H : Type} [ForestHash H]

namespace NodeArena

variable {a : NodeArena H} {run : DeltaRun H} {id : Nat}

theorem read_of_dirty (h : a.mapped = true) (hd : id ∈ a.dirty) : a.read id = a.dirtyRecord id := by
  have := read_eq_or h id
  rw [dirtyRecord_eq hd, Option.some_or] at this
  exact Option.some.inj this

theorem read_of_clean (h : a.mapped = true) (hd : id ∉ a.dirty) :
    a.read id = (a.findDeltaRecord id).getD (a.readPhysicalBase id) := by
  unfold read
  rw [if_pos h, Std.ExtTreeMap.getElem?_eq_none hd]
  cases a.findDeltaRecord id <;> rfl

/-! ## Sealing -/

theorem sealRecords_sorted (a : NodeArena H) : a.sealRecords.Pairwise fun x y => x.1 < y.1 :=
  List.pairwise_map.mpr a.sortedVisibleDirtyIds_sorted

theorem find_sealed (hrun : run.records = a.sealRecords) (hid : id < a.next) :
    run.find id = if id ∈ a.dirty then some (a.dirtyRecord id) else none := by
  split_ifs with hd
  · rw [run.find_eq_some_iff, hrun]
    exact List.mem_map.mpr ⟨id, mem_sortedVisibleDirtyIds.mpr ⟨hd, hid⟩, rfl⟩
  · rw [run.find_eq_none_iff, DeltaRun.ids, hrun]
    intro hmem
    obtain ⟨e, he, rfl⟩ := List.mem_map.mp hmem
    obtain ⟨x, hx, rfl⟩ := List.mem_map.mp he
    exact hd (mem_sortedVisibleDirtyIds.mp hx).1

theorem read_sealed (h : a.mapped = true) (hrun : run.records = a.sealRecords) (hid : id < a.next) :
    ((a.appendDeltaRun run).clearDirty).read id = a.read id := by
  have hfind : ((a.appendDeltaRun run).clearDirty).findDeltaRecord id = (run.find id).or (a.findDeltaRecord id) := by
    unfold findDeltaRecord clearDirty appendDeltaRun
    rw [List.reverse_append, List.reverse_singleton, List.singleton_append, List.findSome?_cons]
    cases run.find id <;> rfl
  rw [read_of_clean (a := (a.appendDeltaRun run).clearDirty) h (by simp [clearDirty]), hfind, find_sealed hrun hid]
  by_cases hd : id ∈ a.dirty
  · rw [if_pos hd, read_of_dirty h hd]
    rfl
  · rw [if_neg hd, read_of_clean h hd, Option.none_or]
    rfl

/-! ## Compaction -/

variable [DecidableEq H]

theorem compactRecords_sorted (a : NodeArena H) : a.compactRecords.Pairwise fun x y => x.1 < y.1 :=
  (a.latestDeltaRecordsFrom_spec 0).1.sublist List.filter_sublist

theorem mem_compactRecords {r : NodeRecord H} :
    (id, r) ∈ a.compactRecords ↔
      id < a.next ∧ a.findDeltaRecord id = some r ∧ a.equalsPhysicalBase id r = false := by
  unfold compactRecords
  rw [List.mem_filter, mem_latestDeltaRecords, Bool.not_eq_true']
  tauto

/-- The compacted run stands for all runs, except that a free slot takes the hash of a free base slot. -/
theorem read_compacted (h : a.mapped = true) (hrun : run.records = a.compactRecords) (hid : id < a.next) :
    (a.replaceDeltaRuns run).read id = a.read id ∨
      ((a.replaceDeltaRuns run).read id).type = .free ∧ (a.read id).type = .free := by
  have hmapped : (a.replaceDeltaRuns run).mapped = true := h
  by_cases hd : id ∈ a.dirty
  · rw [read_of_dirty h hd, read_of_dirty hmapped hd]
    exact Or.inl rfl
  · have hfind : (a.replaceDeltaRuns run).findDeltaRecord id = run.find id := by
      unfold findDeltaRecord replaceDeltaRuns
      cases hf : run.find id <;> simp [hf]
    have hbase : (a.replaceDeltaRuns run).readPhysicalBase id = a.readPhysicalBase id := rfl
    rw [read_of_clean h hd, read_of_clean hmapped hd, hfind, hbase]
    cases hlatest : a.findDeltaRecord id with
    | none =>
      left
      have hnone : run.find id = none := by
        rw [run.find_eq_none_iff, DeltaRun.ids, hrun]
        intro hmem
        obtain ⟨⟨x, r⟩, he, rfl⟩ := List.mem_map.mp hmem
        have := (mem_compactRecords.mp he).2.1
        simp only at hlatest
        rw [hlatest] at this
        cases this
      rw [hnone]
    | some r =>
      cases heq : a.equalsPhysicalBase id r with
      | false =>
        left
        have hsome : run.find id = some r := by
          rw [run.find_eq_some_iff, hrun]
          exact mem_compactRecords.mpr ⟨hid, hlatest, heq⟩
        rw [hsome]
      | true =>
        have hnone : run.find id = none := by
          rw [run.find_eq_none_iff, DeltaRun.ids, hrun]
          intro hmem
          obtain ⟨⟨x, r'⟩, he, rfl⟩ := List.mem_map.mp hmem
          obtain ⟨-, hlatest', heq'⟩ := mem_compactRecords.mp he
          simp only at hlatest heq
          rw [hlatest] at hlatest'
          cases hlatest'
          rw [heq] at heq'
          cases heq'
        rw [hnone]
        unfold equalsPhysicalBase at heq
        simp only at heq
        split_ifs at heq with hfree
        · exact Or.inr ⟨hfree.2, hfree.1⟩
        · left
          simp only [decide_eq_true_eq] at heq
          simp [heq]

/-! ## Agreement -/

/-- What the three views show of the slots below `next`. -/
structure ViewsAgree (a : NodeArena H) (slots : Nat) : Prop where
  /-- The scan shows every slot once, in order, as `Read` has it. -/
  windows : a.forEachWindow slots noteWindow [] = .ok (.ok ((List.range a.next).map fun id => (id, a.read id)))
  /-- The merge visits the ids of the runs once, in order, with the record of `Read` unless it is dirty. -/
  merge_sorted : a.latestDeltaRecords.Pairwise fun x y => x.1 < y.1
  merge : ∀ id < a.next, id ∉ a.dirty → ∀ r,
    ((id, r) ∈ a.latestDeltaRecords ↔ (∃ run ∈ a.deltaRuns, id ∈ run.ids) ∧ r = a.read id)
  /-- The dirty records make a run, and sealing keeps every record. -/
  sealed_sorted : a.sealRecords.Pairwise fun x y => x.1 < y.1
  sealed : ∀ run : DeltaRun H, run.records = a.sealRecords → ∀ id < a.next,
    ((a.appendDeltaRun run).clearDirty).read id = a.read id
  /-- The compacted records make a run that keeps live records, and free slots stay free. -/
  compacted_sorted : a.compactRecords.Pairwise fun x y => x.1 < y.1
  compacted : ∀ run : DeltaRun H, run.records = a.compactRecords → ∀ id < a.next,
    ((a.read id).type ≠ .free → (a.replaceDeltaRuns run).read id = a.read id) ∧
      ((a.read id).type = .free → ((a.replaceDeltaRuns run).read id).type = .free)

omit [DecidableEq H] in
theorem merge_read (h : a.mapped = true) (hid : id < a.next) (hd : id ∉ a.dirty) (r : NodeRecord H) :
    (id, r) ∈ a.latestDeltaRecords ↔ (∃ run ∈ a.deltaRuns, id ∈ run.ids) ∧ r = a.read id := by
  have hpresent : (∃ run ∈ a.deltaRuns, id ∈ run.ids) ↔ a.findDeltaRecord id ≠ none := by
    unfold findDeltaRecord
    rw [ne_eq, List.findSome?_eq_none_iff]
    push Not
    constructor
    · rintro ⟨run, hrun, hmem⟩
      exact ⟨run, List.mem_reverse.mpr hrun, fun hnone => run.find_eq_none_iff.mp hnone hmem⟩
    · rintro ⟨run, hrun, hne⟩
      refine ⟨run, List.mem_reverse.mp hrun, ?_⟩
      by_contra hmem
      exact hne (run.find_eq_none_iff.mpr hmem)
  rw [mem_latestDeltaRecords, hpresent, read_of_clean h hd]
  cases a.findDeltaRecord id with
  | none => simp
  | some r' => simp [hid, eq_comm]

/-- **Agreement.** For every mapped arena and window size the views agree if and only if every run of 128 records
or more has a record in the last window or above it. -/
theorem viewsAgree_iff (h : a.Mapped) {slots : Nat} (hslots : 0 < slots) : a.ViewsAgree slots ↔ a.Scannable slots := by
  rw [← forEachWindow_noteWindow_iff h hslots]
  refine ⟨fun hagree => hagree.windows, fun hwindows => ⟨hwindows, (a.latestDeltaRecordsFrom_spec 0).1,
    fun id hid hd r => merge_read h.mapped hid hd r, a.sealRecords_sorted,
    fun run hrun id hid => read_sealed h.mapped hrun hid, a.compactRecords_sorted, fun run hrun id hid => ?_⟩⟩
  rcases read_compacted h.mapped hrun hid with heq | ⟨hfree, hfree'⟩
  · exact ⟨fun _ => heq, fun hf => by rw [heq]; exact hf⟩
  · exact ⟨fun hne => absurd hfree' hne, fun _ => hfree⟩

end NodeArena

/-! ## A long run that ends early -/

def validationWindowSlots : Nat := 256 * 1024

/-- A run of `count` leaves from id 0 on. -/
def leafRun (count : Nat) : DeltaRun TermHash where
  state := ⟨false, 1, 0, 0, 0, .leaf 0, 0, 0, 1, ⟨0, .leaf 0⟩, count, count, count, 1, count, .replicate 64 noNode⟩
  records := (List.range count).map fun id => (id, ⟨.leaf id, noNode, noNode, noNode, .leaf⟩)
  chainSuffix := []
  sorted := List.pairwise_map.mpr List.pairwise_lt_range

def runArena (count next : Nat) : NodeArena TermHash :=
  { (NodeArena.new : NodeArena TermHash) with mapped := true, deltaRuns := [leafRun count], next := next }

theorem viewsAgree_iff_small : (runArena 3 5).ViewsAgree validationWindowSlots := by
  have hmapped : (runArena 3 5).Mapped := ⟨rfl, Nat.le_refl 0, by decide⟩
  rw [NodeArena.viewsAgree_iff hmapped (by decide)]
  intro r hr hlong
  rw [show (runArena 3 5).deltaRuns = [leafRun 3] from rfl, List.mem_singleton] at hr
  subst hr
  simp [leafRun, cursorRecords] at hlong

/-- 128 records below the second window: the scan leaves its arrays, while `Read` is fine. -/
theorem early_run_breaks_scan :
    (runArena 128 (validationWindowSlots + 1)).Mapped ∧
      (runArena 128 (validationWindowSlots + 1)).forEachWindow validationWindowSlots NodeArena.noteWindow [] =
        .error .outOfBounds ∧
      ¬ (runArena 128 (validationWindowSlots + 1)).ViewsAgree validationWindowSlots := by
  have hmapped : (runArena 128 (validationWindowSlots + 1)).Mapped := ⟨rfl, Nat.le_refl 0, by decide⟩
  have hbad : ¬ (runArena 128 (validationWindowSlots + 1)).Scannable validationWindowSlots := by
    intro h
    obtain ⟨e, he, hge⟩ := h (leafRun 128) (by simp [runArena]) (by simp [leafRun, cursorRecords])
    obtain ⟨id, hid, rfl⟩ := List.mem_map.mp he
    have hlt := List.mem_range.mp hid
    have hlast : ((runArena 128 (validationWindowSlots + 1)).next - 1) / validationWindowSlots *
        validationWindowSlots = 262144 := by decide
    rw [hlast] at hge
    omega
  rcases NodeArena.forEachWindow_broken hmapped (by decide) hbad NodeArena.noteWindow [] with hscan | ⟨_, hfold, -⟩
  · refine ⟨hmapped, hscan, fun hagree => ?_⟩
    have := hagree.windows
    rw [hscan] at this
    cases this
  · rw [NodeArena.foldlM_noteWindow (by decide) _ _ _ (by omega)] at hfold
    cases hfold

end UtreexoBridge
