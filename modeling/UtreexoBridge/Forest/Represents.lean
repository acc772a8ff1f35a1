import UtreexoBridge.Forest.IdTree
import UtreexoBridge.Index.Sound

/-!
# What a packed forest represents

The arena's live records are exactly the trees of the rows, the root array
points at them, and the index holds their leaves.
-/

namespace UtreexoBridge

variable {H : Type}

/-! ## The trees of the rows as a list -/

def rowTrees (trees : Nat → Option (IdTree H)) : List (IdTree H) := (List.range 64).filterMap trees

theorem mem_rowTrees {trees : Nat → Option (IdTree H)} {t : IdTree H} :
    t ∈ rowTrees trees ↔ ∃ row < 64, trees row = some t := by
  simp [rowTrees]

theorem rowTrees_set (trees : Nat → Option (IdTree H)) {row : Nat} (hrow : row < 64) (hnone : trees row = none)
    (t : IdTree H) : (rowTrees (Function.update trees row (some t))).Perm (t :: rowTrees trees) := by
  have hperm : (List.range 64).Perm (row :: (List.range 64).erase row) :=
    List.perm_cons_erase (List.mem_range.mpr hrow)
  have hrest : ((List.range 64).erase row).filterMap (Function.update trees row (some t)) =
      ((List.range 64).erase row).filterMap trees := by
    apply List.filterMap_congr
    intro r hr
    exact Function.update_of_ne ((List.nodup_range.mem_erase_iff.mp hr).1) _ _
  have h1 := hperm.filterMap (Function.update trees row (some t))
  have h2 := hperm.filterMap trees
  rw [List.filterMap_cons_some (Function.update_self _ _ _), hrest] at h1
  rw [List.filterMap_cons_none hnone] at h2
  exact h1.trans (h2.symm.cons t)

theorem rowTrees_take {trees : Nat → Option (IdTree H)} {row : Nat} {t : IdTree H} (hrow : row < 64)
    (hsome : trees row = some t) : (rowTrees trees).Perm (t :: rowTrees (Function.update trees row none)) := by
  have hset : Function.update (Function.update trees row none) row (some t) = trees := by
    rw [Function.update_idem, ← hsome, Function.update_eq_self]
  have h := rowTrees_set _ hrow (Function.update_self row none trees) t
  rwa [hset] at h

/-! ## The live records are the trees -/

structure Shape [ForestHash H] (read : Nat → NodeRecord H) (live : Finset Nat) (ts : List (IdTree H)) : Prop where
  linked : ∀ t ∈ ts, IdTree.Linked read t noNode
  nodup : (ts.flatMap IdTree.ids).Nodup
  live_iff : ∀ id, id ∈ live ↔ id ∈ ts.flatMap IdTree.ids

def leavesOf (ts : List (IdTree H)) : List (Nat × H) := ts.flatMap IdTree.leaves

section Shape

variable [ForestHash H] {read : Nat → NodeRecord H} {live : Finset Nat} {ts ts' : List (IdTree H)} {t : IdTree H}

theorem Shape.perm (h : Shape read live ts) (hp : ts.Perm ts') : Shape read live ts' := by
  have hids := hp.flatMap_right IdTree.ids
  refine ⟨fun t ht => h.linked t (hp.mem_iff.mpr ht), hids.nodup_iff.mp h.nodup, fun id => ?_⟩
  rw [h.live_iff, hids.mem_iff]

theorem Shape.ids_nodup (h : Shape read live ts) (ht : t ∈ ts) : t.ids.Nodup :=
  (List.nodup_flatMap.mp h.nodup).1 t ht

theorem Shape.mem_live (h : Shape read live ts) (ht : t ∈ ts) {x : Nat} (hx : x ∈ t.ids) : x ∈ live :=
  (h.live_iff x).mpr (List.mem_flatMap.mpr ⟨t, ht, hx⟩)

theorem Shape.leaf_ids_nodup (h : Shape read live ts) : ((leavesOf ts).map (·.1)).Nodup := by
  rw [leavesOf, List.map_flatMap]
  exact h.nodup.sublist (List.Sublist.flatMap_right _ fun t _ => t.leaf_ids_sublist)

theorem Shape.nil : Shape read ∅ [] := ⟨by simp, by simp, by simp⟩

theorem shape_cons : Shape read live (t :: ts) ↔ IdTree.Linked read t noNode ∧ t.ids.Nodup ∧
    (∀ x ∈ t.ids, x ∉ ts.flatMap IdTree.ids) ∧ (∀ s ∈ ts, IdTree.Linked read s noNode) ∧
    (ts.flatMap IdTree.ids).Nodup ∧ ∀ id, id ∈ live ↔ id ∈ t.ids ∨ id ∈ ts.flatMap IdTree.ids := by
  constructor
  · intro h
    have hnodup := h.nodup
    rw [List.flatMap_cons, List.nodup_append] at hnodup
    refine ⟨h.linked t (by simp), hnodup.1, fun x hx hx' => hnodup.2.2 x hx x hx' rfl,
      fun s hs => h.linked s (by simp [hs]), hnodup.2.1, fun id => ?_⟩
    rw [h.live_iff, List.flatMap_cons, List.mem_append]
  · rintro ⟨h1, h2, h3, h4, h5, h6⟩
    refine ⟨?_, ?_, fun id => ?_⟩
    · intro s hs
      rcases List.mem_cons.mp hs with rfl | hs
      · exact h1
      · exact h4 s hs
    · rw [List.flatMap_cons, List.nodup_append]
      exact ⟨h2, h5, fun x hx y hy hxy => h3 x hx (hxy ▸ hy)⟩
    · rw [h6, List.flatMap_cons, List.mem_append]

theorem Shape.mem_leaves_iff (h : Shape read live ts) {x : Nat} {v : H} :
    (x, v) ∈ leavesOf ts ↔ x ∈ live ∧ (read x).type = .leaf ∧ (read x).hash = v := by
  rw [h.live_iff, leavesOf, List.mem_flatMap, List.mem_flatMap]
  constructor
  · rintro ⟨t, ht, hx⟩
    obtain ⟨h1, h2⟩ := (h.linked t ht).mem_leaves_iff.mp hx
    exact ⟨⟨t, ht, h1⟩, h2⟩
  · rintro ⟨⟨t, ht, hx⟩, h2⟩
    exact ⟨t, ht, (h.linked t ht).mem_leaves_iff.mpr ⟨hx, h2⟩⟩

theorem mem_leafIds_iff {a : NodeArena H} (h : Shape a.read a.liveIds ts) {x : Nat} :
    x ∈ a.leafIds ↔ ∃ v, (x, v) ∈ leavesOf ts := by
  constructor
  · intro hx
    obtain ⟨h1, h2⟩ := NodeArena.mem_leafIds.mp hx
    exact ⟨_, h.mem_leaves_iff.mpr ⟨NodeArena.mem_liveIds.mpr ⟨h1, by simp [h2]⟩, h2, rfl⟩⟩
  · rintro ⟨v, hv⟩
    obtain ⟨h1, h2, -⟩ := h.mem_leaves_iff.mp hv
    exact NodeArena.mem_leafIds.mpr ⟨(NodeArena.mem_liveIds.mp h1).1, h2⟩

/-- The index only looks at leaves, so it stays right when the leaves stay. -/
theorem indexes_of_leaves {a a' : NodeArena H} {index : KeylessLeafIndex} (h : Shape a.read a.liveIds ts)
    (h' : Shape a'.read a'.liveIds ts') (hleaves : ∀ p, p ∈ leavesOf ts' ↔ p ∈ leavesOf ts)
    (hindex : index.Indexes a a.leafIds) : index.Indexes a' a'.leafIds := by
  have hids : a'.leafIds = a.leafIds := by
    ext x
    rw [mem_leafIds_iff h, mem_leafIds_iff h']
    simp only [hleaves]
  rw [hids]
  apply hindex.congr
  intro x hx
  obtain ⟨v, hv⟩ := (mem_leafIds_iff h).mp hx
  rw [(h.mem_leaves_iff.mp hv).2.2, (h'.mem_leaves_iff.mp ((hleaves _).mpr hv)).2.2]

end Shape

/-! ## The representation -/

/-- The trees, whatever hashes their leaves have. -/
structure Structured [ForestHash H] (f : PackedForest H) (trees : Nat → Option (IdTree H)) : Prop where
  books : f.arena.Bookkeeping
  shape : Shape f.arena.read f.arena.liveIds (rowTrees trees)
  roots : ∀ row < 64, rootAt f.roots row = (trees row).elim noNode IdTree.id
  bits : ∀ row t, trees row = some t → f.numLeaves.testBit row
  height : ∀ row t, trees row = some t → t.height ≤ row
  index : f.index.Indexes f.arena f.arena.leafIds
  bound : f.numLeaves < 2 ^ 64

/-- The trees of an accumulator, where no two leaves have one hash. -/
structure Represents [ForestHash H] (f : PackedForest H) (trees : Nat → Option (IdTree H)) : Prop
    extends Structured f trees where
  hashes : ((leavesOf (rowTrees trees)).map (·.2)).Nodup

def accumulatorOf (numLeaves : Nat) (trees : Nat → Option (IdTree H)) : Accumulator H :=
  ⟨numLeaves, fun row => (trees row).map IdTree.toTree⟩

namespace Structured

variable [ForestHash H] {f : PackedForest H} {trees : Nat → Option (IdTree H)}

theorem row_lt (h : Structured f trees) {row : Nat} {t : IdTree H} (ht : trees row = some t) : row < 64 := by
  by_contra hge
  have hbit := h.bits row t ht
  have hlt : f.numLeaves < 2 ^ row := lt_of_lt_of_le h.bound (Nat.pow_le_pow_right (by omega) (by omega))
  rw [Nat.testBit_lt_two_pow hlt] at hbit
  cases hbit

theorem mem_rows (h : Structured f trees) {row : Nat} {t : IdTree H} (ht : trees row = some t) :
    t ∈ rowTrees trees := mem_rowTrees.mpr ⟨row, h.row_lt ht, ht⟩

theorem id_lt (h : Structured f trees) {x : Nat} (hx : x ∈ f.arena.liveIds) : x < noNode :=
  lt_of_lt_of_le (NodeArena.mem_liveIds.mp hx).1 h.books.next_le

theorem row_unique (h : Structured f trees) {row row' : Nat} {t t' : IdTree H} (ht : trees row = some t)
    (ht' : trees row' = some t') {x : Nat} (hx : x ∈ t.ids) (hx' : x ∈ t'.ids) : row = row' := by
  by_contra hne
  have hperm := rowTrees_take (h.row_lt ht) ht
  have hshape := shape_cons.mp (h.shape.perm hperm)
  apply hshape.2.2.1 x hx
  rw [List.mem_flatMap]
  refine ⟨t', mem_rowTrees.mpr ⟨row', h.row_lt ht', ?_⟩, hx'⟩
  rw [Function.update_of_ne (Ne.symm hne), ht']

theorem rootHashes_eq (h : Structured f trees) : f.rootHashes = (accumulatorOf f.numLeaves trees).roots := by
  simp only [PackedForest.rootHashes, Accumulator.roots, accumulatorOf]
  apply List.map_congr_left
  intro row hrow
  have hbit : f.numLeaves.testBit row := by
    simp only [setRows, List.mem_filter] at hrow
    exact hrow.2
  have hlt : row < 64 := by
    by_contra hge
    rw [Nat.testBit_lt_two_pow (lt_of_lt_of_le h.bound (Nat.pow_le_pow_right (by omega) (by omega)))] at hbit
    cases hbit
  rw [h.roots row hlt]
  cases ht : trees row with
  | none => rfl
  | some t =>
    have hmem := h.mem_rows ht
    have hne : t.id ≠ noNode := Nat.ne_of_lt (h.id_lt (h.shape.mem_live hmem t.id_mem_ids))
    simp only [Option.elim_some, if_neg hne, Option.map_some, IdTree.hash_toTree, (h.shape.linked t hmem).hash_eq]

theorem mem_iff (h : Structured f trees) {v : H} :
    (accumulatorOf f.numLeaves trees).Mem v ↔ ∃ x, (x, v) ∈ leavesOf (rowTrees trees) := by
  simp only [Accumulator.Mem, accumulatorOf, leavesOf, List.mem_flatMap]
  constructor
  · rintro ⟨row, t, ht, hv⟩
    obtain ⟨s, hs, rfl⟩ := Option.map_eq_some_iff.mp ht
    rw [IdTree.leaves_toTree, List.mem_map] at hv
    obtain ⟨⟨x, w⟩, hp, rfl⟩ := hv
    exact ⟨x, s, h.mem_rows hs, hp⟩
  · rintro ⟨x, s, hs, hp⟩
    obtain ⟨row, -, hrow⟩ := mem_rowTrees.mp hs
    refine ⟨row, s.toTree, by rw [hrow]; rfl, ?_⟩
    rw [IdTree.leaves_toTree]
    exact List.mem_map.mpr ⟨(x, v), hp, rfl⟩

theorem contains_iff [DecidableEq H] (h : Structured f trees) (v : H) :
    f.contains v = true ↔ (accumulatorOf f.numLeaves trees).Mem v := by
  rw [h.mem_iff, PackedForest.contains, h.index.find_isSome_iff fun id hid => NodeArena.isLeaf_eq_true.mpr hid]
  constructor
  · rintro ⟨x, hx, rfl⟩
    obtain ⟨w, hw⟩ := (mem_leafIds_iff h.shape).mp hx
    rw [(h.shape.mem_leaves_iff.mp hw).2.2]
    exact ⟨x, hw⟩
  · rintro ⟨x, hx⟩
    exact ⟨x, (mem_leafIds_iff h.shape).mpr ⟨v, hx⟩, (h.shape.mem_leaves_iff.mp hx).2.2⟩

end Structured

namespace Represents

variable [ForestHash H] {f : PackedForest H} {trees : Nat → Option (IdTree H)}

theorem leaf_unique (h : Represents f trees) {x y : Nat} {v : H} (hx : (x, v) ∈ leavesOf (rowTrees trees))
    (hy : (y, v) ∈ leavesOf (rowTrees trees)) : x = y :=
  congrArg Prod.fst (List.inj_on_of_nodup_map h.hashes hx hy rfl)

variable [DecidableEq H]

theorem find_eq_some (h : Represents f trees) {x : Nat} {v : H} (hx : (x, v) ∈ leavesOf (rowTrees trees)) :
    f.index.find f.arena v = some x := by
  have hv := (h.shape.mem_leaves_iff.mp hx).2.2
  rw [← hv]
  apply h.index.find_eq_some (fun id hid => NodeArena.isLeaf_eq_true.mpr hid) ((mem_leafIds_iff h.shape).mpr ⟨v, hx⟩)
  intro y hy hhash
  obtain ⟨w, hw⟩ := (mem_leafIds_iff h.shape).mp hy
  have hyv := (h.shape.mem_leaves_iff.mp hw).2.2
  rw [hv] at hhash
  exact h.leaf_unique (v := v) (by rw [← hhash, hyv]; exact hw) hx

theorem find_eq_none (h : Represents f trees) {v : H} (hv : ∀ x, (x, v) ∉ leavesOf (rowTrees trees)) :
    f.index.find f.arena v = none := by
  apply h.index.find_eq_none
  rintro x hx rfl
  obtain ⟨w, hw⟩ := (mem_leafIds_iff h.shape).mp hx
  rw [(h.shape.mem_leaves_iff.mp hw).2.2] at hv
  exact hv x hw

end Represents

theorem represents_new [ForestHash H] : Represents (PackedForest.new : PackedForest H) fun _ => none := by
  have hnil : rowTrees (fun _ => none : Nat → Option (IdTree H)) = [] := by simp [rowTrees]
  have hlive : (NodeArena.new : NodeArena H).liveIds = ∅ := rfl
  have hleaf : (NodeArena.new : NodeArena H).leafIds = ∅ := rfl
  refine ⟨⟨NodeArena.bookkeeping_new, ?_, ?_, by simp, by simp, ?_, by simp [PackedForest.new]⟩, by simp [hnil, leavesOf]⟩
  · rw [hnil]
    show Shape _ (NodeArena.new : NodeArena H).liveIds []
    rw [hlive]
    exact Shape.nil
  · intro row hrow
    simp [PackedForest.new, rootAt, hrow]
  · show KeylessLeafIndex.new.Indexes (NodeArena.new : NodeArena H) (NodeArena.new : NodeArena H).leafIds
    rw [hleaf]
    exact KeylessLeafIndex.indexes_new _

end UtreexoBridge
