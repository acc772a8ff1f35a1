import UtreexoBridge.Forest.Steps
import UtreexoBridge.Index.Counts

/-!
# What the operations do to the arena and the index

All changes of the arena go through `write`, `free` and `allocate`. What these
keep, every operation of the forest keeps.
-/

namespace UtreexoBridge

variable {H : Type} [ForestHash H] {I : NodeArena H → Prop}

/-- A property that writing and freeing keep. -/
structure Stable (I : NodeArena H → Prop) : Prop where
  write : ∀ {a}, I a → ∀ id r, I (a.write id r)
  free : ∀ {a}, I a → ∀ id, I (a.free id)

/-- A property that allocation keeps too. -/
structure StableAlloc (I : NodeArena H → Prop) : Prop extends Stable I where
  allocate : ∀ {a : NodeArena H}, I a → ∀ {type hash left right id} {a' : NodeArena H},
    a.allocate type hash left right = .ok (id, a') → I a'

namespace Stable

variable (hI : Stable I) {a a' : NodeArena H}

include hI

theorem setHash (h : I a) (id : Nat) (hash : H) : I (a.setHash id hash) := hI.write h _ _

theorem setParent (h : I a) (id parent : Nat) : I (a.setParent id parent) := hI.write h _ _

theorem setLeft (h : I a) (id left : Nat) : I (a.setLeft id left) := hI.write h _ _

theorem setRight (h : I a) (id right : Nat) : I (a.setRight id right) := hI.write h _ _

theorem foldl_free (h : I a) (ids : List Nat) : I (ids.foldl .free a) := by
  induction ids generalizing a with
  | nil => exact h
  | cons id ids ih => exact ih (hI.free h id)

theorem recompute (fuel : Nat) {node : Nat} (h : I a) (hok : PackedForest.recompute fuel a node = some a') : I a' := by
  induction fuel generalizing a node with
  | zero => cases hok
  | succ fuel ih =>
    rw [PackedForest.recompute] at hok
    split_ifs at hok with hend
    · cases hok
      exact h
    · exact ih (hI.setHash h _ _) hok

end Stable

/-! ## Deletion -/

structure KeylessLeafIndex.Shrinks (index index' : KeylessLeafIndex) : Prop where
  capacity : index'.table.capacity = index.table.capacity
  size : index'.size ≤ index.size
  tombstones : index'.tombstones = index.tombstones

theorem KeylessLeafIndex.Shrinks.refl (index : KeylessLeafIndex) : index.Shrinks index := ⟨rfl, le_rfl, rfl⟩

theorem KeylessLeafIndex.Shrinks.trans {index index' index'' : KeylessLeafIndex} (h : index.Shrinks index')
    (h' : index'.Shrinks index'') : index.Shrinks index'' :=
  ⟨h'.capacity.trans h.capacity, h'.size.trans h.size, h'.tombstones.trans h.tombstones⟩

structure Deletes (I : NodeArena H → Prop) (f f' : PackedForest H) : Prop where
  arena : I f'.arena
  numLeaves : f'.numLeaves = f.numLeaves
  index : f.index.Shrinks f'.index

section Deletion

variable (hI : Stable I) {f f' : PackedForest H} {res : Res}

include hI

theorem dropIds_deletes (h : I f.arena) {hash : H} {leaf : Nat} {ids : List Nat}
    (hok : f.dropIds hash leaf ids = .ok (res, f')) : Deletes I f f' := by
  unfold PackedForest.dropIds at hok
  split at hok
  · cases hok
  · rename_i found index herase
    cases hok
    obtain ⟨hcapacity, hsize, htombstones⟩ := KeylessLeafIndex.erase_counts herase
    exact ⟨hI.foldl_free h ids, rfl, hcapacity, hsize, htombstones⟩

theorem deleteId_deletes (h : I f.arena) {leaf : Nat} (hok : f.deleteId leaf = .ok (res, f')) : Deletes I f f' := by
  cases deleteId_steps hok with
  | refused _ => exact ⟨h, rfl, .refl _⟩
  | @root row _ _ _ _ drops =>
    have hdrop := dropIds_deletes hI (f := { f with roots := setRoot f.roots row noNode }) h drops
    exact ⟨hdrop.arena, hdrop.numLeaves, hdrop.index⟩
  | @top row parent _ _ _ _ _ drops =>
    have hdrop := dropIds_deletes hI (f := { f with
      roots := setRoot f.roots row (siblingOf f.arena parent leaf)
      arena := f.arena.setParent (siblingOf f.arena parent leaf) noNode }) (hI.setParent h _ _) drops
    exact ⟨hdrop.arena, hdrop.numLeaves, hdrop.index⟩
  | @inner parent grandparent a b _ _ _ _ hmoved hrec drops =>
    have ha : I a := by
      rcases hmoved with rfl | rfl
      · exact hI.setLeft h _ _
      · exact hI.setRight h _ _
    have hdrop := dropIds_deletes hI (f := { f with arena := b }) (hI.recompute _ (hI.setParent ha _ _) hrec) drops
    exact ⟨hdrop.arena, hdrop.numLeaves, hdrop.index⟩

theorem deleteAll_deletes (h : I f.arena) {ids : List Nat} (hok : f.deleteAll ids = .ok (res, f')) : Deletes I f f' := by
  refine deleteAll_keeps (P := Deletes I f) (fun h1 hdel => ?_) ⟨h, rfl, .refl _⟩ hok
  have h2 := deleteId_deletes hI h1.arena hdel
  exact ⟨h2.arena, h2.numLeaves.trans h1.numLeaves, h1.index.trans h2.index⟩

end Deletion

/-! ## Addition -/

section Addition

variable (hI : StableAlloc I) {f f' : PackedForest H}

include hI

theorem addLoop_stable (fuel : Nat) {leaves row node : Nat} {a a' : NodeArena H} {roots roots' : Vector Nat 64} (h : I a)
    (hok : PackedForest.addLoop fuel leaves row node a roots = .ok (a', roots')) : I a' := by
  induction fuel generalizing leaves row node a roots with
  | zero => cases hok
  | succ fuel ih =>
    rcases addLoop_steps hok with ⟨-, -, branch, b, hal, hrest⟩ | ⟨-, -, hrest⟩ | ⟨-, rfl, -⟩
    · exact ih (hI.setParent (hI.setParent (hI.allocate h hal) _ _) _ _) hrest
    · exact ih h hrest
    · exact h

theorem add_stable {hash : H} (h : I f.arena) (hok : f.add hash = .ok f') : I f'.arena := by
  obtain ⟨node, a, hsteps⟩ := add_steps hok
  exact addLoop_stable hI 64 (hI.allocate h hsteps.allocated) hsteps.linked

theorem addAll_stable {hashes : List H} (h : I f.arena) (hok : f.addAll hashes = .ok f') : I f'.arena :=
  addAll_keeps (P := fun f => I f.arena) (fun h hadd => add_stable hI h hadd) h hok

end Addition

/-! ## Blocks -/

variable [DecidableEq H]

theorem modify_stable (hI : StableAlloc I) {f f' : PackedForest H} {additions deletions : List H} (h : I f.arena)
    (hok : f.modify additions deletions = .ok (.ok (), f')) : I f'.arena := by
  obtain ⟨prepared, deleted, nodes, hsteps⟩ := modify_steps hok
  obtain ⟨index, -, heq, -⟩ := prepareModify_steps hsteps.prepares
  have hprepared : I prepared.arena := by
    rw [heq]
    exact h
  exact addAll_stable hI (deleteAll_deletes hI.toStable hprepared hsteps.deletes).arena hsteps.adds

end UtreexoBridge
