import UtreexoBridge.Accumulator.Prune
import UtreexoBridge.Forest.Climb

/-! # A block's deletions and additions -/

namespace UtreexoBridge

variable {H : Type} [ForestHash H] [DecidableEq H] {f : PackedForest H} {trees : Nat → Option (IdTree H)}

/-- Running out of node ids, or of rows at 2^64 leaves. -/
def Fault.Exhausted (fault : Fault) : Prop :=
  fault = .thrown "packed forest exhausted 32-bit node IDs" ∨ fault = .outOfBounds

namespace Represents

omit [DecidableEq H] in
theorem mem_of_perm {m m' : Accumulator H} {f' : PackedForest H} {trees' : Nat → Option (IdTree H)} {x : Nat} {v : H}
    (h : Represents f trees) (h' : Represents f' trees') (hm : m = accumulatorOf f.numLeaves trees)
    (hm' : m' = accumulatorOf f'.numLeaves trees')
    (hperm : (leavesOf (rowTrees trees')).Perm ((x, v) :: leavesOf (rowTrees trees))) (w : H) :
    m'.Mem w ↔ w = v ∨ m.Mem w := by
  rw [hm, hm', h.mem_iff, h'.mem_iff]
  simp only [hperm.mem_iff, List.mem_cons, Prod.mk.injEq]
  constructor
  · rintro ⟨y, ⟨-, rfl⟩ | hy⟩
    · exact Or.inl rfl
    · exact Or.inr ⟨y, hy⟩
  · rintro (rfl | ⟨y, hy⟩)
    · exact ⟨x, Or.inl ⟨rfl, rfl⟩⟩
    · exact ⟨y, Or.inr hy⟩

omit [DecidableEq H] in
theorem addAll (h : Represents f trees) (hashes : List H) (hnodup : hashes.Nodup)
    (hnew : ∀ v ∈ hashes, ¬ (accumulatorOf f.numLeaves trees).Mem v) :
    (∃ fault, f.addAll hashes = .error fault ∧ fault.Exhausted) ∨
      ∃ f' trees', f.addAll hashes = .ok f' ∧ Represents f' trees' ∧
        accumulatorOf f'.numLeaves trees' = hashes.foldl .add (accumulatorOf f.numLeaves trees) := by
  induction hashes generalizing f trees with
  | nil => exact Or.inr ⟨f, trees, rfl, h, rfl⟩
  | cons v hashes ih =>
    rw [PackedForest.addAll]
    obtain ⟨hv, hnodup⟩ := List.nodup_cons.mp hnodup
    rcases h.add (hnew v (by simp)) with herr | ⟨f', trees', x, hok, hrep, hacc, hperm⟩
    · left
      rcases herr with herr | herr
      · exact ⟨_, by rw [herr], Or.inl rfl⟩
      · exact ⟨_, by rw [herr], Or.inr rfl⟩
    · rw [hok, List.foldl_cons, ← hacc]
      apply ih hrep hnodup
      intro w hw hmem
      rcases (h.mem_of_perm hrep rfl rfl hperm w).mp hmem with rfl | hmem
      · exact hv hw
      · exact hnew w (by simp [hw]) hmem

theorem deleteAll (h : Represents f trees) (ps : List (Nat × H)) (hnodup : ps.Nodup)
    (hleaves : ∀ p ∈ ps, p ∈ leavesOf (rowTrees trees)) :
    ∃ f' trees', f.deleteAll (ps.map (·.1)) = .ok (.ok (), f') ∧ Represents f' trees' ∧
      accumulatorOf f'.numLeaves trees' = (ps.map (·.2)).foldl .delete (accumulatorOf f.numLeaves trees) ∧
      ∀ p, p ∈ leavesOf (rowTrees trees') ↔ p ∈ leavesOf (rowTrees trees) ∧ p ∉ ps := by
  induction ps generalizing f trees with
  | nil => exact ⟨f, trees, rfl, h, rfl, by simp⟩
  | cons q ps ih =>
    obtain ⟨x, v⟩ := q
    obtain ⟨hq, hnodup⟩ := List.nodup_cons.mp hnodup
    obtain ⟨f1, trees1, hrun, hrep, hacc, hperm⟩ := h.deleteId (hleaves (x, v) (by simp))
    have hmem : ∀ p, p ∈ leavesOf (rowTrees trees1) ↔ p ∈ leavesOf (rowTrees trees) ∧ p ≠ (x, v) := by
      intro p
      have hnd := hperm.nodup_iff.mp (List.Nodup.of_map _ h.hashes)
      rw [List.nodup_cons] at hnd
      rw [hperm.mem_iff, List.mem_cons]
      constructor
      · intro hp
        exact ⟨Or.inr hp, fun he => hnd.1 (he ▸ hp)⟩
      · rintro ⟨rfl | hp, hne⟩
        · exact absurd rfl hne
        · exact hp
    obtain ⟨f', trees', hrun', hrep', hacc', hmem'⟩ := ih hrep hnodup fun p hp =>
      (hmem p).mpr ⟨hleaves p (by simp [hp]), fun he => hq (he ▸ hp)⟩
    refine ⟨f', trees', ?_, hrep', ?_, fun p => ?_⟩
    · rw [List.map_cons, PackedForest.deleteAll, hrun]
      exact hrun'
    · rw [hacc', hacc, List.map_cons, List.foldl_cons]
    · rw [hmem', hmem, List.mem_cons]
      tauto

theorem resolveDeletions (h : Represents f trees) (seen dels : List H) :
    (∃ message, (accumulatorOf f.numLeaves trees).checkDeletions seen dels = .error message ∧
        f.resolveDeletions seen dels = .ok (.error message)) ∨
      ∃ nodes, (accumulatorOf f.numLeaves trees).checkDeletions seen dels = .ok () ∧
        f.resolveDeletions seen dels = .ok (.ok nodes) ∧
        List.Forall₂ (fun node v => (node.2, v) ∈ leavesOf (rowTrees trees)) nodes dels := by
  induction dels generalizing seen with
  | nil => exact Or.inr ⟨[], rfl, rfl, .nil⟩
  | cons v rest ih =>
    rw [Accumulator.checkDeletions, PackedForest.resolveDeletions]
    by_cases hs : v ∈ seen
    · rw [if_pos hs, if_pos hs]
      exact Or.inl ⟨_, rfl, rfl⟩
    rw [if_neg hs, if_neg hs]
    by_cases hm : (accumulatorOf f.numLeaves trees).Mem v
    · rw [if_pos hm]
      obtain ⟨x, hx⟩ := h.mem_iff.mp hm
      obtain ⟨pos, hpos⟩ := h.positionOf_leaf hx
      simp only [h.find_eq_some hx, hpos]
      rcases ih (v :: seen) with ⟨message, hcheck, hrun⟩ | ⟨nodes, hcheck, hrun, hall⟩
      · rw [hcheck, hrun]
        exact Or.inl ⟨message, rfl, rfl⟩
      · rw [hcheck, hrun]
        exact Or.inr ⟨_, rfl, rfl, .cons hx hall⟩
    · rw [if_neg hm]
      rw [h.mem_iff, not_exists] at hm
      simp only [h.find_eq_none hm]
      exact Or.inl ⟨_, rfl, rfl⟩

omit [DecidableEq H] in
theorem prepareModify (h : Represents f trees) (additions : Nat) :
    (∃ fault, f.prepareModify additions = .error fault ∧ fault.Exhausted) ∨
      ∃ index, f.prepareModify additions = .ok { f with index } ∧ Represents { f with index } trees := by
  obtain ⟨index, hprep, hindex⟩ := h.index.prepareInsertions
    (fun x hx => NodeArena.isLeaf_eq_true.mpr hx) additions
  rw [PackedForest.prepareModify]
  simp only [hprep]
  unfold NodeArena.prepareAllocations
  split_ifs
  · exact Or.inr ⟨index, rfl, ⟨h.books, h.shape, h.roots, h.bits, h.height, hindex, h.bound⟩, h.hashes⟩
  · exact Or.inl ⟨_, rfl, Or.inl rfl⟩
  · exact Or.inr ⟨index, rfl, ⟨h.books, h.shape, h.roots, h.bits, h.height, hindex, h.bound⟩, h.hashes⟩

omit [DecidableEq H] in
theorem sorted_deletions (h : Represents f trees) {nodes : List (Nat × Nat)} {dels : List H}
    (hall : List.Forall₂ (fun node v => (node.2, v) ∈ leavesOf (rowTrees trees)) nodes dels) (hnodup : dels.Nodup)
    (sorted : List (Nat × Nat)) (hperm : sorted.Perm nodes) :
    ∃ ps : List (Nat × H), ps.map (·.1) = sorted.map (·.2) ∧ (ps.map (·.2)).Perm dels ∧ ps.Nodup ∧
      ∀ p ∈ ps, p ∈ leavesOf (rowTrees trees) := by
  have hdels : dels = nodes.map fun node => (f.arena.read node.2).hash := by
    clear hnodup hperm
    induction hall with
    | nil => rfl
    | cons hx _ ih => rw [List.map_cons, ← ih, (h.shape.mem_leaves_iff.mp hx).2.2]
  have hmem : ∀ node ∈ nodes, (node.2, (f.arena.read node.2).hash) ∈ leavesOf (rowTrees trees) := by
    clear hnodup hperm hdels
    induction hall with
    | nil => simp
    | cons hx _ ih =>
      intro node hnode
      rcases List.mem_cons.mp hnode with rfl | hnode
      · rw [(h.shape.mem_leaves_iff.mp hx).2.2]; exact hx
      · exact ih node hnode
  have hhash : (((sorted.map fun node => (node.2, (f.arena.read node.2).hash)).map (·.2))).Perm dels := by
    rw [List.map_map, hdels]
    exact hperm.map _
  refine ⟨sorted.map fun node => (node.2, (f.arena.read node.2).hash), ?_, hhash, ?_, ?_⟩
  · rw [List.map_map]; rfl
  · exact List.Nodup.of_map (·.2) (hhash.nodup_iff.mpr hnodup)
  · intro p hp
    obtain ⟨node, hnode, rfl⟩ := List.mem_map.mp hp
    exact hmem node (hperm.mem_iff.mp hnode)

theorem modify (h : Represents f trees) (additions deletions : List H)
    (hfresh : (accumulatorOf f.numLeaves trees).FreshCall (.modify additions deletions)) :
    (∃ fault, f.modify additions deletions = .error fault ∧ fault.Exhausted) ∨
      ∃ f' trees', f.modify additions deletions =
          .ok (((accumulatorOf f.numLeaves trees).modify additions deletions).1, f') ∧ Represents f' trees' ∧
        accumulatorOf f'.numLeaves trees' = ((accumulatorOf f.numLeaves trees).modify additions deletions).2 := by
  rw [PackedForest.modify, Accumulator.modify]
  rcases h.resolveDeletions [] deletions with ⟨message, hcheck, hrun⟩ | ⟨nodes, hcheck, hrun, hall⟩
  · rw [hcheck, hrun]
    exact Or.inr ⟨f, trees, rfl, h, rfl⟩
  rw [hcheck, hrun]
  simp only
  obtain ⟨hnodup, hmem⟩ := ((accumulatorOf f.numLeaves trees).checkDeletions_ok_iff [] deletions).mp hcheck
  rcases h.prepareModify additions.length with ⟨fault, herr, hex⟩ | ⟨index, hprep, hrep⟩
  · rw [herr]
    exact Or.inl ⟨fault, rfl, hex⟩
  rw [hprep]
  simp only
  obtain ⟨ps, hids, hhash, hpsnodup, hps⟩ := h.sorted_deletions hall hnodup
    (nodes.insertionSort fun x y => x.1 ≤ y.1) (List.perm_insertionSort _ _)
  obtain ⟨f1, trees1, hdel, hrep1, hacc1, hmem1⟩ := hrep.deleteAll ps hpsnodup hps
  rw [← hids, hdel]
  simp only
  have hacc : accumulatorOf f1.numLeaves trees1 = deletions.foldl .delete (accumulatorOf f.numLeaves trees) := by
    rw [hacc1, Accumulator.foldl_delete_perm hhash]
  obtain ⟨hanodup, hanew⟩ := hfresh hcheck
  have hnew : ∀ v ∈ additions, ¬ (accumulatorOf f1.numLeaves trees1).Mem v := by
    intro v hv hvm
    obtain ⟨x, hx⟩ := hrep1.mem_iff.mp hvm
    obtain ⟨hx0, hxp⟩ := (hmem1 (x, v)).mp hx
    have hdv := hanew v hv (h.mem_iff.mpr ⟨x, hx0⟩)
    obtain ⟨⟨y, w⟩, hy, rfl⟩ := List.mem_map.mp (hhash.mem_iff.mpr hdv)
    rw [h.leaf_unique hx0 (hps _ hy)] at hxp
    exact hxp hy
  rcases hrep1.addAll additions hanodup hnew with ⟨fault, herr, hex⟩ | ⟨f2, trees2, hadd, hrep2, hacc2⟩
  · rw [herr]
    exact Or.inl ⟨fault, rfl, hex⟩
  · rw [hadd]
    exact Or.inr ⟨f2, trees2, rfl, hrep2, by rw [hacc2, hacc]⟩

theorem call (h : Represents f trees) (c : Call H) (hfresh : (accumulatorOf f.numLeaves trees).FreshCall c) :
    (∃ fault, f.call c = .error fault ∧ fault.Exhausted) ∨
      ∃ f' trees', f.call c = .ok (((accumulatorOf f.numLeaves trees).call c).1, f') ∧ Represents f' trees' ∧
        accumulatorOf f'.numLeaves trees' = ((accumulatorOf f.numLeaves trees).call c).2 := by
  cases c with
  | add v =>
    rw [PackedForest.call]
    rcases h.add hfresh with herr | ⟨f', trees', x, hok, hrep, hacc, -⟩
    · left
      rcases herr with herr | herr
      · exact ⟨_, by rw [herr], Or.inl rfl⟩
      · exact ⟨_, by rw [herr], Or.inr rfl⟩
    · right
      rw [hok]
      exact ⟨f', trees', rfl, hrep, hacc⟩
  | modify additions deletions => exact h.modify additions deletions hfresh

theorem run (h : Represents f trees) (calls : List (Call H))
    (hfresh : (accumulatorOf f.numLeaves trees).FreshRun calls) :
    (∃ fault, f.run calls = .error fault ∧ fault.Exhausted) ∨
      ∃ f' trees', f.run calls = .ok (((accumulatorOf f.numLeaves trees).run calls).1, f') ∧ Represents f' trees' ∧
        accumulatorOf f'.numLeaves trees' = ((accumulatorOf f.numLeaves trees).run calls).2 := by
  induction calls generalizing f trees with
  | nil => exact Or.inr ⟨f, trees, rfl, h, rfl⟩
  | cons c calls ih =>
    obtain ⟨hc, hrest⟩ := hfresh
    rw [PackedForest.run]
    rcases h.call c hc with ⟨fault, herr, hex⟩ | ⟨f1, trees1, hok, hrep, hacc⟩
    · rw [herr]
      exact Or.inl ⟨fault, rfl, hex⟩
    · rw [hok]
      simp only
      rw [← hacc] at hrest
      rcases ih hrep hrest with ⟨fault, herr, hex⟩ | ⟨f2, trees2, hok2, hrep2, hacc2⟩
      · rw [herr]
        exact Or.inl ⟨fault, rfl, hex⟩
      · rw [hok2]
        refine Or.inr ⟨f2, trees2, ?_, hrep2, ?_⟩
        · simp only [Accumulator.run, hacc]
        · rw [hacc2, hacc]; rfl

end Represents

end UtreexoBridge
