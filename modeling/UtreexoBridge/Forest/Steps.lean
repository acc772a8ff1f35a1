import UtreexoBridge.Forest.Spec

/-!
# The steps of the operations

What has happened when a call returns. What every call keeps is shown from these,
without looking at the calls again.
-/

namespace UtreexoBridge

open PackedForest

variable {H : Type} [ForestHash H] {f f' : PackedForest H} {res : Res}

/-! ## Addition -/

theorem addLoop_steps {fuel leaves row node : Nat} {a a' : NodeArena H} {roots roots' : Vector Nat 64}
    (hok : addLoop (fuel + 1) leaves row node a roots = .ok (a', roots')) :
    (leaves % 2 = 1 ∧ rootAt roots row ≠ noNode ∧ ∃ branch b,
        a.allocate .branch (parentHash (a.read (rootAt roots row)).hash (a.read node).hash) (rootAt roots row) node =
          .ok (branch, b) ∧
        addLoop fuel (leaves / 2) (row + 1) branch ((b.setParent (rootAt roots row) branch).setParent node branch)
          (setRoot roots row noNode) = .ok (a', roots')) ∨
      (leaves % 2 = 1 ∧ rootAt roots row = noNode ∧
        addLoop fuel (leaves / 2) (row + 1) node a (setRoot roots row noNode) = .ok (a', roots')) ∨
      (leaves % 2 ≠ 1 ∧ a' = a ∧ roots' = setRoot roots row node) := by
  rw [addLoop] at hok
  by_cases hodd : leaves % 2 = 1
  · rw [if_pos hodd] at hok
    by_cases hleft : rootAt roots row ≠ noNode
    · simp only [if_pos hleft] at hok
      cases hal : a.allocate .branch (parentHash (a.read (rootAt roots row)).hash (a.read node).hash)
          (rootAt roots row) node with
      | error what =>
        rw [hal] at hok
        cases hok
      | ok result =>
        obtain ⟨branch, b⟩ := result
        rw [hal] at hok
        exact Or.inl ⟨hodd, hleft, branch, b, rfl, hok⟩
    · simp only [if_neg hleft] at hok
      exact Or.inr (Or.inl ⟨hodd, not_not.mp hleft, hok⟩)
  · rw [if_neg hodd] at hok
    cases hok
    exact Or.inr (Or.inr ⟨hodd, rfl, rfl⟩)

structure AddSteps (f : PackedForest H) (hash : H) (f' : PackedForest H) (node : Nat) (a : NodeArena H) : Prop where
  allocated : f.arena.allocate .leaf hash noNode noNode = .ok (node, a)
  inserted : f.index.insert a hash node = some f'.index
  linked : addLoop 64 f.numLeaves 0 node a f.roots = .ok (f'.arena, f'.roots)
  numLeaves : f'.numLeaves = f.numLeaves + 1

theorem add_steps {hash : H} (hok : f.add hash = .ok f') : ∃ node a, AddSteps f hash f' node a := by
  unfold PackedForest.add at hok
  cases hal : f.arena.allocate .leaf hash noNode noNode with
  | error what =>
    rw [hal] at hok
    cases hok
  | ok result =>
    obtain ⟨node, a⟩ := result
    simp only [hal] at hok
    cases hindex : f.index.insert a hash node with
    | none =>
      simp only [hindex] at hok
      cases hok
    | some index =>
      simp only [hindex] at hok
      cases hloop : addLoop 64 f.numLeaves 0 node a f.roots with
      | error fault =>
        simp only [hloop] at hok
        cases hok
      | ok result =>
        obtain ⟨a', roots'⟩ := result
        simp only [hloop] at hok
        cases hok
        exact ⟨node, a, hal, hindex, hloop, rfl⟩

theorem addAll_keeps {P : PackedForest H → Prop}
    (hadd : ∀ {f f' : PackedForest H} {hash : H}, P f → f.add hash = .ok f' → P f') (h : P f) {hashes : List H}
    (hok : f.addAll hashes = .ok f') : P f' := by
  induction hashes generalizing f with
  | nil =>
    cases hok
    exact h
  | cons hash hashes ih =>
    rw [addAll] at hok
    cases hrun : f.add hash with
    | error fault =>
      rw [hrun] at hok
      cases hok
    | ok f1 =>
      rw [hrun] at hok
      exact ih (hadd h hrun) hok

/-! ## Deletion -/

/-- What takes the place of the parent of `leaf`. -/
def siblingOf (a : NodeArena H) (parent leaf : Nat) : Nat :=
  if (a.read parent).left = leaf then (a.read parent).right else (a.read parent).left

/-- `DeleteId` refuses, or the leaf is a root, or its sibling becomes one or moves up. -/
inductive DeleteSteps (f : PackedForest H) (leaf : Nat) : Res → PackedForest H → Prop
  | refused (message : String) : DeleteSteps f leaf (.error message) f
  | root {row : Nat} {res : Res} {f' : PackedForest H} (isLeaf : f.arena.isLeaf leaf = true)
      (parent : (f.arena.read leaf).parent = noNode)
      (drops : dropIds { f with roots := setRoot f.roots row noNode } (f.arena.read leaf).hash leaf [leaf] =
        .ok (res, f')) : DeleteSteps f leaf res f'
  | top {row parent : Nat} {res : Res} {f' : PackedForest H} (isLeaf : f.arena.isLeaf leaf = true)
      (hparent : (f.arena.read leaf).parent = parent) (inner : parent ≠ noNode)
      (drops : dropIds { f with
          roots := setRoot f.roots row (siblingOf f.arena parent leaf)
          arena := f.arena.setParent (siblingOf f.arena parent leaf) noNode }
        (f.arena.read leaf).hash leaf [leaf, parent] = .ok (res, f')) : DeleteSteps f leaf res f'
  | inner {parent grandparent : Nat} {a b : NodeArena H} {res : Res} {f' : PackedForest H}
      (isLeaf : f.arena.isLeaf leaf = true)
      (parents : (f.arena.read leaf).parent = parent ∧ parent ≠ noNode ∧ (f.arena.read parent).parent = grandparent)
      (moved : a = f.arena.setLeft grandparent (siblingOf f.arena parent leaf) ∨
        a = f.arena.setRight grandparent (siblingOf f.arena parent leaf))
      (recomputed : recompute chainFuel (a.setParent (siblingOf f.arena parent leaf) grandparent) grandparent = some b)
      (drops : dropIds { f with arena := b } (f.arena.read leaf).hash leaf [leaf, parent] = .ok (res, f')) :
      DeleteSteps f leaf res f'

theorem deleteId_steps {leaf : Nat} (hok : f.deleteId leaf = .ok (res, f')) : DeleteSteps f leaf res f' := by
  unfold deleteId at hok
  by_cases hleaf : f.arena.isLeaf leaf = true
  swap
  · rw [if_pos (by simpa using hleaf)] at hok
    cases hok
    exact .refused _
  rw [if_neg (by simpa using hleaf)] at hok
  dsimp only at hok
  by_cases hroot : (f.arena.read leaf).parent = noNode
  · rw [if_pos hroot] at hok
    split at hok
    · cases hok
      exact .refused _
    · exact .root hleaf hroot hok
  rw [if_neg hroot] at hok
  by_cases htop : (f.arena.read (f.arena.read leaf).parent).parent = noNode
  · rw [if_pos htop] at hok
    split at hok
    · cases hok
      exact .refused _
    · exact .top hleaf rfl hroot hok
  rw [if_neg htop] at hok
  by_cases hleft : (f.arena.read (f.arena.read (f.arena.read leaf).parent).parent).left = (f.arena.read leaf).parent
  · rw [if_pos hleft] at hok
    split at hok
    · cases hok
    · rename_i b hrec
      exact .inner hleaf ⟨rfl, hroot, rfl⟩ (Or.inl rfl) hrec hok
  rw [if_neg hleft] at hok
  by_cases hright : (f.arena.read (f.arena.read (f.arena.read leaf).parent).parent).right = (f.arena.read leaf).parent
  · rw [if_pos hright] at hok
    split at hok
    · cases hok
    · rename_i b hrec
      exact .inner hleaf ⟨rfl, hroot, rfl⟩ (Or.inr rfl) hrec hok
  · rw [if_neg hright] at hok
    cases hok
    exact .refused _

theorem deleteAll_keeps {P : PackedForest H → Prop}
    (hdelete : ∀ {f f' : PackedForest H} {leaf : Nat} {res : Res}, P f → f.deleteId leaf = .ok (res, f') → P f') (h : P f)
    {ids : List Nat} (hok : f.deleteAll ids = .ok (res, f')) : P f' := by
  induction ids generalizing f with
  | nil =>
    cases hok
    exact h
  | cons id ids ih =>
    rw [deleteAll] at hok
    split at hok
    · cases hok
    · rename_i hrun
      cases hok
      exact hdelete h hrun
    · rename_i hrun
      exact ih (hdelete h hrun) hok

/-! ## Blocks -/

theorem prepareModify_steps {f f' : PackedForest H} {additions : Nat} (hok : f.prepareModify additions = .ok f') :
    ∃ index, f.index.prepareInsertions f.arena additions = some index ∧ f' = { f with index } ∧
      f.arena.prepareAllocations (additions +
        ((List.range additions).map fun i => PackedForest.countrOne 64 (word (f.numLeaves + i))).sum) = .ok () := by
  unfold PackedForest.prepareModify at hok
  dsimp only at hok
  cases hindex : f.index.prepareInsertions f.arena additions with
  | none =>
    rw [hindex] at hok
    cases hok
  | some index =>
    simp only [hindex] at hok
    split at hok
    · cases hok
    · rename_i hprep
      cases hok
      exact ⟨index, rfl, rfl, hprep⟩

variable [DecidableEq H]

/-- The steps of a successful `Modify`. -/
structure ModifySteps (f : PackedForest H) (additions deletions : List H) (f' prepared deleted : PackedForest H)
    (nodes : List (Nat × Nat)) : Prop where
  resolves : f.resolveDeletions [] deletions = .ok (.ok nodes)
  prepares : f.prepareModify additions.length = .ok prepared
  deletes : prepared.deleteAll ((nodes.insertionSort fun x y => x.1 ≤ y.1).map (·.2)) = .ok (.ok (), deleted)
  adds : deleted.addAll additions = .ok f'

theorem modify_steps {f f' : PackedForest H} {additions deletions : List H}
    (hok : f.modify additions deletions = .ok (.ok (), f')) :
    ∃ prepared deleted nodes, ModifySteps f additions deletions f' prepared deleted nodes := by
  unfold PackedForest.modify at hok
  cases hres : f.resolveDeletions [] deletions with
  | error fault =>
    rw [hres] at hok
    cases hok
  | ok resolved =>
    rw [hres] at hok
    cases resolved with
    | error message => cases hok
    | ok nodes =>
      simp only at hok
      cases hprep : f.prepareModify additions.length with
      | error fault =>
        rw [hprep] at hok
        cases hok
      | ok prepared =>
        simp only [hprep] at hok
        cases hdel : prepared.deleteAll ((nodes.insertionSort fun x y => x.1 ≤ y.1).map (·.2)) with
        | error fault =>
          simp only [hdel] at hok
          cases hok
        | ok result =>
          obtain ⟨res, deleted⟩ := result
          simp only [hdel] at hok
          cases res with
          | error message => cases hok
          | ok _ =>
            simp only at hok
            cases hadd : deleted.addAll additions with
            | error fault =>
              rw [hadd] at hok
              cases hok
            | ok f1 =>
              rw [hadd] at hok
              cases hok
              exact ⟨prepared, deleted, nodes, hres, hprep, hdel, hadd⟩

end UtreexoBridge
