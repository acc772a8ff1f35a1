import UtreexoBridge.Forest.Links
import UtreexoBridge.Forest.Modify

/-!
# Every run keeps the structure

Whatever hashes are added or deleted, live twice or not at all. A call that
reports an error leaves the forest as it was.
-/

namespace UtreexoBridge

variable {H : Type} [ForestHash H] {f : PackedForest H} {trees : Nat → Option (IdTree H)}

namespace Structured

theorem addAll (h : Structured f trees) (hashes : List H) :
    (∃ fault, f.addAll hashes = .error fault ∧ fault.Exhausted) ∨
      ∃ f' trees', f.addAll hashes = .ok f' ∧ Structured f' trees' := by
  induction hashes generalizing f trees with
  | nil => exact Or.inr ⟨f, trees, rfl, h⟩
  | cons v hashes ih =>
    rw [PackedForest.addAll]
    rcases h.add v with (herr | herr) | ⟨f', trees', x, hok, hstr, -, -⟩
    · exact Or.inl ⟨_, by rw [herr], Or.inl rfl⟩
    · exact Or.inl ⟨_, by rw [herr], Or.inr rfl⟩
    · rw [hok]
      exact ih hstr

theorem deleteAll (h : Structured f trees) (ids : List Nat) (hnodup : ids.Nodup)
    (hleaves : ∀ x ∈ ids, ∃ v, (x, v) ∈ leavesOf (rowTrees trees)) :
    ∃ f' trees', f.deleteAll ids = .ok (.ok (), f') ∧ Structured f' trees' ∧ f'.numLeaves = f.numLeaves := by
  induction ids generalizing f trees with
  | nil => exact ⟨f, trees, rfl, h, rfl⟩
  | cons x ids ih =>
    obtain ⟨hx, hnodup⟩ := List.nodup_cons.mp hnodup
    obtain ⟨v, hv⟩ := hleaves x (by simp)
    obtain ⟨f1, trees1, hrun, hstr, hnum, hperm⟩ := h.deleteId hv
    have hrest : ∀ y ∈ ids, ∃ w, (y, w) ∈ leavesOf (rowTrees trees1) := by
      intro y hy
      obtain ⟨w, hw⟩ := hleaves y (by simp [hy])
      refine ⟨w, (List.mem_cons.mp (hperm.mem_iff.mp hw)).resolve_left ?_⟩
      rintro ⟨⟩
      exact hx hy
    obtain ⟨f', trees', hrun', hstr', hnum'⟩ := ih hstr hnodup hrest
    refine ⟨f', trees', ?_, hstr', hnum'.trans hnum⟩
    rw [PackedForest.deleteAll, hrun]
    exact hrun'

theorem prepareModify (h : Structured f trees) (additions : Nat) :
    (∃ fault, f.prepareModify additions = .error fault ∧ fault.Exhausted) ∨
      ∃ index, f.index.prepareInsertions f.arena additions = some index ∧
        f.prepareModify additions = .ok { f with index } ∧ Structured { f with index } trees := by
  obtain ⟨index, hprep, hindex⟩ := h.index.prepareInsertions
    (fun x hx => NodeArena.isLeaf_eq_true.mpr hx) additions
  have hstr : Structured { f with index } trees := ⟨h.books, h.shape, h.roots, h.bits, h.height, hindex, h.bound⟩
  rw [PackedForest.prepareModify]
  simp only [hprep]
  unfold NodeArena.prepareAllocations
  split_ifs
  · exact Or.inr ⟨index, rfl, rfl, hstr⟩
  · exact Or.inl ⟨_, rfl, Or.inl rfl⟩
  · exact Or.inr ⟨index, rfl, rfl, hstr⟩

variable [DecidableEq H]

theorem mem_of_find (h : Structured f trees) {v : H} {x : Nat} (hfind : f.index.find f.arena v = some x) :
    (x, v) ∈ leavesOf (rowTrees trees) := by
  have hcap := h.index.cap
  obtain ⟨hp, -⟩ := OpenAddressing.Table.findFrom_sound (Nat.mod_lt _ (by omega)) hfind
  rw [Bool.and_eq_true, decide_eq_true_eq] at hp
  obtain ⟨hlt, htype⟩ := NodeArena.mem_leafIds.mp (NodeArena.isLeaf_eq_true.mp hp.1)
  exact h.shape.mem_leaves_iff.mpr ⟨NodeArena.mem_liveIds.mpr ⟨hlt, by simp [htype]⟩, htype, hp.2⟩

theorem resolveDeletions (h : Structured f trees) (seen dels : List H) :
    (∃ message, f.resolveDeletions seen dels = .ok (.error message)) ∨
      ∃ nodes, f.resolveDeletions seen dels = .ok (.ok nodes) ∧ dels.Nodup ∧ (∀ v ∈ dels, v ∉ seen) ∧
        List.Forall₂ (fun node v => (node.2, v) ∈ leavesOf (rowTrees trees)) nodes dels := by
  induction dels generalizing seen with
  | nil => exact Or.inr ⟨[], rfl, by simp, by simp, .nil⟩
  | cons v rest ih =>
    rw [PackedForest.resolveDeletions]
    by_cases hs : v ∈ seen
    · rw [if_pos hs]
      exact Or.inl ⟨_, rfl⟩
    rw [if_neg hs]
    cases hfind : f.index.find f.arena v with
    | none => exact Or.inl ⟨_, rfl⟩
    | some x =>
      have hx := h.mem_of_find hfind
      obtain ⟨pos, hpos⟩ := h.positionOf_leaf hx
      simp only [hpos]
      rcases ih (v :: seen) with ⟨message, hrun⟩ | ⟨nodes, hrun, hnodup, hnew, hall⟩
      · rw [hrun]
        exact Or.inl ⟨message, rfl⟩
      · rw [hrun]
        refine Or.inr ⟨_, rfl, List.nodup_cons.mpr ⟨fun hv => hnew v hv (by simp), hnodup⟩, ?_, .cons hx hall⟩
        intro w hw
        rcases List.mem_cons.mp hw with rfl | hw
        · exact hs
        · exact fun hseen => hnew w hw (by simp [hseen])

omit [DecidableEq H] in
theorem sorted_ids (h : Structured f trees) {nodes sorted : List (Nat × Nat)} {dels : List H} (hnodup : dels.Nodup)
    (hall : List.Forall₂ (fun node v => (node.2, v) ∈ leavesOf (rowTrees trees)) nodes dels) (hperm : sorted.Perm nodes) :
    (sorted.map (·.2)).Nodup ∧ ∀ x ∈ sorted.map (·.2), ∃ v, (x, v) ∈ leavesOf (rowTrees trees) := by
  have hdels : dels = (nodes.map (·.2)).map fun x => (f.arena.read x).hash := by
    clear hnodup hperm
    induction hall with
    | nil => rfl
    | cons hx _ ih => rw [List.map_cons, List.map_cons, ← ih, (h.shape.mem_leaves_iff.mp hx).2.2]
  have hmem : ∀ x ∈ nodes.map (·.2), ∃ v, (x, v) ∈ leavesOf (rowTrees trees) := by
    clear hnodup hperm hdels
    induction hall with
    | nil => simp
    | cons hx _ ih =>
      intro x hx'
      rcases List.mem_cons.mp hx' with rfl | hx'
      · exact ⟨_, hx⟩
      · exact ih x hx'
  have hids := hperm.map (·.2)
  rw [hdels] at hnodup
  exact ⟨hids.nodup_iff.mpr (.of_map _ hnodup), fun x hx => hmem x (hids.mem_iff.mp hx)⟩

theorem modify (h : Structured f trees) (additions deletions : List H) :
    (∃ fault, f.modify additions deletions = .error fault ∧ fault.Exhausted) ∨
      (∃ message, f.modify additions deletions = .ok (.error message, f)) ∨
        ∃ f' trees', f.modify additions deletions = .ok (.ok (), f') ∧ Structured f' trees' := by
  rw [PackedForest.modify]
  rcases h.resolveDeletions [] deletions with ⟨message, hrun⟩ | ⟨nodes, hrun, hnodup, -, hall⟩
  · rw [hrun]
    exact Or.inr (Or.inl ⟨message, rfl⟩)
  rw [hrun]
  simp only
  rcases h.prepareModify additions.length with ⟨fault, herr, hex⟩ | ⟨index, -, hprep, hstr⟩
  · rw [herr]
    exact Or.inl ⟨fault, rfl, hex⟩
  obtain ⟨hids, hleaves⟩ := h.sorted_ids hnodup hall (List.perm_insertionSort (fun x y => x.1 ≤ y.1) nodes)
  obtain ⟨f1, trees1, hdel, hstr1, -⟩ := hstr.deleteAll _ hids hleaves
  rw [hprep]
  simp only [hdel]
  rcases hstr1.addAll additions with ⟨fault, herr, hex⟩ | ⟨f2, trees2, hadd, hstr2⟩
  · rw [herr]
    exact Or.inl ⟨fault, rfl, hex⟩
  · rw [hadd]
    exact Or.inr (Or.inr ⟨f2, trees2, rfl, hstr2⟩)

theorem call (h : Structured f trees) {c : Call H} {res : Res} {f' : PackedForest H} (hok : f.call c = .ok (res, f')) :
    ∃ trees', Structured f' trees' := by
  cases c with
  | add v =>
    rw [PackedForest.call] at hok
    rcases h.add v with (herr | herr) | ⟨f1, trees1, x, hrun, hstr, -, -⟩
    · rw [herr] at hok
      cases hok
    · rw [herr] at hok
      cases hok
    · rw [hrun] at hok
      cases hok
      exact ⟨trees1, hstr⟩
  | modify additions deletions =>
    rw [PackedForest.call] at hok
    rcases h.modify additions deletions with ⟨fault, herr, -⟩ | ⟨message, hrun⟩ | ⟨f1, trees1, hrun, hstr⟩
    · rw [herr] at hok
      cases hok
    · rw [hrun] at hok
      cases hok
      exact ⟨trees, h⟩
    · rw [hrun] at hok
      cases hok
      exact ⟨trees1, hstr⟩

theorem run (h : Structured f trees) {calls : List (Call H)} {results : List Res} {f' : PackedForest H}
    (hok : f.run calls = .ok (results, f')) : ∃ trees', Structured f' trees' := by
  induction calls generalizing f trees results with
  | nil =>
    cases hok
    exact ⟨trees, h⟩
  | cons c calls ih =>
    rw [PackedForest.run] at hok
    cases hcall : f.call c with
    | error fault =>
      rw [hcall] at hok
      cases hok
    | ok result =>
      obtain ⟨res, f1⟩ := result
      rw [hcall] at hok
      obtain ⟨trees1, hstr⟩ := h.call hcall
      cases hrest : f1.run calls with
      | error fault =>
        simp only [hrest] at hok
        cases hok
      | ok result =>
        simp only [hrest] at hok
        cases hok
        exact ih hstr hrest

end Structured

/-! ## Counting -/

omit [ForestHash H] in
theorem IdTree.ids_length (t : IdTree H) : t.ids.length + 1 = 2 * t.leaves.length := by
  induction t with
  | leaf id v => rfl
  | node id l r ihl ihr =>
    simp only [IdTree.ids, IdTree.leaves, List.length_cons, List.length_append]
    omega

omit [ForestHash H] in
theorem flatMap_ids_length (ts : List (IdTree H)) :
    (ts.flatMap IdTree.ids).length + ts.length = 2 * (leavesOf ts).length := by
  unfold leavesOf
  induction ts with
  | nil => rfl
  | cons t ts ih =>
    have := t.ids_length
    simp only [List.flatMap_cons, List.length_append, List.length_cons]
    omega

namespace Structured

theorem card_leafIds (h : Structured f trees) : f.arena.leafIds.card = (leavesOf (rowTrees trees)).length := by
  have hset : f.arena.leafIds = ((leavesOf (rowTrees trees)).map (·.1)).toFinset := by
    ext x
    rw [mem_leafIds_iff h.shape, List.mem_toFinset, List.mem_map]
    exact ⟨fun ⟨v, hv⟩ => ⟨(x, v), hv, rfl⟩, fun ⟨p, hp, hx⟩ => ⟨p.2, by rw [← hx]; exact hp⟩⟩
  rw [hset, List.toFinset_card_of_nodup h.shape.leaf_ids_nodup, List.length_map]

theorem card_liveIds (h : Structured f trees) :
    f.arena.liveIds.card = ((rowTrees trees).flatMap IdTree.ids).length := by
  have hset : f.arena.liveIds = ((rowTrees trees).flatMap IdTree.ids).toFinset := by
    ext x
    rw [h.shape.live_iff, List.mem_toFinset]
  rw [hset, List.toFinset_card_of_nodup h.shape.nodup]

/-- At most half of the ids below `Next()` are leaves, but for one a tree. -/
theorem leaves_le (h : Structured f trees) : 2 * f.arena.leafIds.card ≤ f.arena.next + 64 := by
  have htrees : (rowTrees trees).length ≤ 64 := by
    refine le_trans (List.length_filterMap_le _ _) ?_
    rw [List.length_range]
  have hlive : f.arena.liveIds.card ≤ f.arena.next := by
    rw [← Finset.card_range f.arena.next]
    exact Finset.card_le_card fun x hx => Finset.mem_range.mpr (NodeArena.mem_liveIds.mp hx).1
  have := flatMap_ids_length (rowTrees trees)
  rw [← h.card_liveIds, ← h.card_leafIds] at this
  omega

end Structured

end UtreexoBridge
