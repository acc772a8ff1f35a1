import UtreexoBridge.Forest.Accept
import UtreexoBridge.OpenAddressing.Rename

/-!
# Forests under other node ids

Only live nodes are renumbered. A free slot has no counterpart, and nothing
that can be seen of the forest depends on the ids.
-/

namespace UtreexoBridge

open OpenAddressing Position

def NodeRecord.renumber {H : Type} (m : Nat → Nat) (r : NodeRecord H) : NodeRecord H :=
  { r with parent := m r.parent, left := m r.left, right := m r.right }

variable {H : Type} [ForestHash H]

def NodeArena.LinkLive (a : NodeArena H) (link : Nat) : Prop := link = noNode ∨ link ∈ a.liveIds

/-- `b` holds the live records of `a` under the ids that `m` gives them. -/
structure Renumbered (m : Nat → Nat) (a b : NodeArena H) : Prop where
  next_le : a.next ≤ noNode
  none : m noNode = noNode
  isLive : ∀ id, b.isLive (m id) = a.isLive id
  read : ∀ id ∈ a.liveIds, b.read (m id) = (a.read id).renumber m
  inj : ∀ x ∈ a.liveIds, ∀ y ∈ a.liveIds, m x = m y → x = y
  links : ∀ id ∈ a.liveIds,
    a.LinkLive (a.read id).parent ∧ a.LinkLive (a.read id).left ∧ a.LinkLive (a.read id).right

theorem NodeArena.isLive_iff {a : NodeArena H} {id : Nat} : a.isLive id = true ↔ id ∈ a.liveIds := by
  rw [NodeArena.isLive, NodeArena.mem_liveIds, Bool.and_eq_true, decide_eq_true_eq, decide_eq_true_eq]

theorem NodeArena.not_live_noNode {a : NodeArena H} (h : a.next ≤ noNode) : noNode ∉ a.liveIds := fun hmem =>
  absurd (NodeArena.mem_liveIds.mp hmem).1 (by omega)

namespace Renumbered

variable {m : Nat → Nat} {a b : NodeArena H} (h : Renumbered m a b)
include h

theorem mem_iff {id : Nat} : m id ∈ b.liveIds ↔ id ∈ a.liveIds := by
  rw [← NodeArena.isLive_iff, ← NodeArena.isLive_iff, h.isLive]

theorem ne_none {id : Nat} (hid : id ∈ a.liveIds) : m id ≠ noNode := by
  intro hnone
  rw [← h.none] at hnone
  have hmem := h.mem_iff.mp (hnone ▸ h.mem_iff.mpr hid)
  exact NodeArena.not_live_noNode h.next_le hmem

theorem eq_none_iff {link : Nat} (hlink : a.LinkLive link) : m link = noNode ↔ link = noNode := by
  constructor
  · intro hnone
    rcases hlink with rfl | hlive
    · rfl
    · exact absurd hnone (h.ne_none hlive)
  · rintro rfl
    exact h.none

theorem eq_iff {x y : Nat} (hx : a.LinkLive x) (hy : y ∈ a.liveIds) : m x = m y ↔ x = y := by
  constructor
  · intro heq
    rcases hx with rfl | hx
    · rw [h.none] at heq
      exact absurd heq.symm (h.ne_none hy)
    · exact h.inj x hx y hy heq
  · rintro rfl
    rfl

theorem isLeaf_eq (id : Nat) : b.isLeaf (m id) = a.isLeaf id := by
  rw [NodeArena.isLeaf, NodeArena.isLeaf, h.isLive]
  by_cases hlive : a.isLive id = true
  · rw [h.read id (NodeArena.isLive_iff.mp hlive)]
    rfl
  · rw [Bool.not_eq_true] at hlive
    rw [hlive, Bool.false_and, Bool.false_and]

theorem hash_eq {id : Nat} (hid : id ∈ a.liveIds) : (b.read (m id)).hash = (a.read id).hash := by
  rw [h.read id hid]
  rfl

/-! ## Climbs and descents -/

theorem climb_eq (fuel : Nat) {node : Nat} (hnode : node ∈ a.liveIds) (directions distance : Nat) :
    PackedForest.climb b fuel (m node) directions distance =
        (PackedForest.climb a fuel node directions distance).map (Except.map fun r => (m r.1, r.2)) ∧
      ∀ r, PackedForest.climb a fuel node directions distance = .ok (.ok r) → r.1 ∈ a.liveIds := by
  induction fuel generalizing node directions distance with
  | zero => exact ⟨rfl, fun r hr => by cases hr⟩
  | succ fuel ih =>
    have hparent : (b.read (m node)).parent = m (a.read node).parent := by
      rw [h.read node hnode]
      rfl
    have hlink := (h.links node hnode).1
    rw [PackedForest.climb, PackedForest.climb, hparent]
    by_cases hnone : (a.read node).parent = noNode
    · rw [if_pos hnone, if_pos ((h.eq_none_iff hlink).mpr hnone)]
      refine ⟨rfl, fun r hr => ?_⟩
      cases hr
      exact hnode
    rw [if_neg hnone, if_neg (mt (h.eq_none_iff hlink).mp hnone)]
    have hlive : (a.read node).parent ∈ a.liveIds := hlink.resolve_left hnone
    have hsides := (h.links _ hlive).2
    have hread := h.read _ hlive
    have hright : (b.read (m (a.read node).parent)).right = m node ↔ (a.read (a.read node).parent).right = node := by
      rw [hread]
      exact h.eq_iff hsides.2 hnode
    have hleft : (b.read (m (a.read node).parent)).left ≠ m node ↔ (a.read (a.read node).parent).left ≠ node := by
      rw [hread]
      exact not_congr (h.eq_iff hsides.1 hnode)
    simp only [hright, hleft]
    split_ifs
    · exact ih hlive _ _
    · exact ⟨rfl, fun r hr => by cases hr⟩
    · exact ih hlive _ _

theorem walkDown_eq (pathBits row : Nat) {node : Nat} (hnode : node ∈ a.liveIds) :
    PackedForest.walkDown b pathBits row (m node) = (PackedForest.walkDown a pathBits row node).map m ∧
      ∀ n, PackedForest.walkDown a pathBits row node = .ok n → n ∈ a.liveIds := by
  induction row generalizing node with
  | zero =>
    refine ⟨rfl, fun n hn => ?_⟩
    cases hn
    exact hnode
  | succ row ih =>
    have hsides := (h.links node hnode).2
    rw [PackedForest.walkDown, PackedForest.walkDown, h.isLive, h.isLeaf_eq, h.read node hnode]
    by_cases hstop : (!a.isLive node || a.isLeaf node) = true
    · rw [if_pos hstop, if_pos hstop]
      exact ⟨rfl, fun n hn => by cases hn⟩
    rw [if_neg hstop, if_neg hstop]
    obtain ⟨child, hchild, hchild', hlink⟩ : ∃ child,
        (if (pathBits >>> row) % 2 = 0 then (a.read node).right else (a.read node).left) = child ∧
        (if (pathBits >>> row) % 2 = 0 then ((a.read node).renumber m).right else ((a.read node).renumber m).left) =
          m child ∧ a.LinkLive child := by
      split_ifs
      · exact ⟨_, rfl, rfl, hsides.2⟩
      · exact ⟨_, rfl, rfl, hsides.1⟩
    simp only [hchild, hchild', h.eq_none_iff hlink]
    by_cases hnone : child = noNode
    · rw [if_pos hnone, if_pos hnone]
      exact ⟨rfl, fun n hn => by cases hn⟩
    · rw [if_neg hnone, if_neg hnone]
      exact ih (hlink.resolve_left hnone)

end Renumbered

/-! ## The index -/

namespace KeylessLeafIndex

def rename (m : Nat → Nat) (index : KeylessLeafIndex) : KeylessLeafIndex := { index with table := index.table.rename m }

variable {m : Nat → Nat} {a b : NodeArena H} (h : Renumbered m a b) (index : KeylessLeafIndex)

omit [ForestHash H] in
theorem findFrom_holds {α : Type} {t : Table α} {p : α → Bool} (fuel : Nat) {i : Nat} {x : α}
    (hfind : t.findFrom p fuel i = some x) : p x = true := by
  induction fuel generalizing i with
  | zero => cases hfind
  | succ fuel ih =>
    rw [Table.findFrom] at hfind
    cases hs : t.slot i with
    | empty => simp [hs] at hfind
    | deleted =>
      rw [hs] at hfind
      exact ih hfind
    | full y =>
      simp only [hs] at hfind
      split_ifs at hfind with hp
      · cases hfind
        exact hp
      · exact ih hfind

theorem find_leaf [DecidableEq H] {hash : H} {id : Nat} (hfind : index.find a hash = some id) : id ∈ a.leafIds := by
  have hp := findFrom_holds _ hfind
  rw [Bool.and_eq_true] at hp
  exact NodeArena.isLeaf_eq_true.mp hp.1

theorem place_rename (hash : H) (id : Nat) :
    (index.rename m).place hash (m id) = (index.place hash id).map (rename m) := by
  have hslot : (index.rename m).table.insertSlot index.table.capacity (bucket hash % index.table.capacity) none =
      index.table.insertSlot index.table.capacity (bucket hash % index.table.capacity) none :=
    Table.insertSlot_rename m index.table _ _ _
  unfold place
  rw [show (index.rename m).table.capacity = index.table.capacity from rfl, hslot, Option.map_map]
  congr 1
  funext r
  simp only [Function.comp, rename, Table.rename_set, Slot.map]

include h

theorem find_rename [DecidableEq H] (hash : H) : (index.rename m).find b hash = (index.find a hash).map m := by
  have hsame : (fun id => b.isLeaf (m id) && decide ((b.read (m id)).hash = hash)) =
      fun id => a.isLeaf id && decide ((a.read id).hash = hash) := by
    funext id
    rw [h.isLeaf_eq]
    cases hleaf : a.isLeaf id with
    | false => rfl
    | true =>
      rw [h.hash_eq (NodeArena.isLive_iff.mp (by rw [NodeArena.isLeaf, Bool.and_eq_true] at hleaf; exact hleaf.1))]
  unfold find
  rw [rename, Table.rename_capacity, Table.findFrom_rename, hsame]

theorem rehash_rename (capacity : Nat) :
    (index.rename m).rehash b capacity = (index.rehash a capacity).map (rename m) := by
  have hfilter : (index.table.entries.map m).filter b.isLeaf = (index.table.entries.filter a.isLeaf).map m := by
    rw [List.filter_map]
    exact congrArg (List.map m) (List.filter_congr fun id _ => h.isLeaf_eq id)
  unfold rehash
  simp only [rename, Table.entries_rename, hfilter, List.length_map]
  rw [← Table.rename_clear m (max 16 (bitCeil capacity)), Table.refill_rename m (home a (max 16 (bitCeil capacity)))]
  · simp only [Option.map_map]
    rfl
  · intro id hid
    have hleaf := NodeArena.mem_leafIds.mp (NodeArena.isLeaf_eq_true.mp (List.mem_filter.mp hid).2)
    rw [home, home, h.hash_eq (NodeArena.mem_liveIds.mpr ⟨hleaf.1, by rw [hleaf.2]; simp⟩)]

theorem insert_rename (hash : H) (id : Nat) :
    (index.rename m).insert b hash (m id) = (index.insert a hash id).map (rename m) := by
  have hcap : (index.rename m).table.capacity = index.table.capacity := rfl
  unfold insert
  simp only [hcap, rehash_rename h, show (index.rename m).size = index.size from rfl,
    show (index.rename m).tombstones = index.tombstones from rfl]
  split_ifs
  · rw [Option.bind_map, Option.map_bind]
    exact congrArg _ (funext fun grown => place_rename grown hash id)
  · rw [Option.bind_map, Option.map_bind]
    exact congrArg _ (funext fun grown => place_rename grown hash id)
  · exact place_rename index hash id

end KeylessLeafIndex

/-! ## Everything that is seen of a forest -/

namespace PackedForest

/-- `g` is `f` with other node ids. -/
structure Renumbered (m : Nat → Nat) (f g : PackedForest H) : Prop where
  arena : UtreexoBridge.Renumbered m f.arena g.arena
  index : g.index = f.index.rename m
  roots : ∀ row, rootAt g.roots row = m (rootAt f.roots row)
  rootsLive : ∀ row, f.arena.LinkLive (rootAt f.roots row)
  numLeaves : g.numLeaves = f.numLeaves

namespace Renumbered

variable {m : Nat → Nat} {f g : PackedForest H} (h : Renumbered m f g)
include h

theorem rootHashes_eq : g.rootHashes = f.rootHashes := by
  unfold rootHashes
  rw [h.numLeaves]
  apply List.map_congr_left
  intro row _
  have hlink := h.rootsLive row
  rw [h.roots]
  by_cases hnone : rootAt f.roots row = noNode
  · rw [if_pos hnone, if_pos ((h.arena.eq_none_iff hlink).mpr hnone)]
  · rw [if_neg hnone, if_neg (mt (h.arena.eq_none_iff hlink).mp hnone), h.arena.hash_eq (hlink.resolve_left hnone)]

theorem positionOf_eq {leaf : Nat} (hleaf : leaf ∈ f.arena.liveIds) : g.positionOf (m leaf) = f.positionOf leaf := by
  obtain ⟨hclimb, hlive⟩ := h.arena.climb_eq chainFuel hleaf 0 0
  unfold positionOf
  rw [hclimb]
  cases hrun : climb f.arena chainFuel leaf 0 0 with
  | error fault => rfl
  | ok result =>
    cases result with
    | error message => rfl
    | ok r =>
      obtain ⟨node, directions, distance⟩ := r
      have hnode := hlive _ hrun
      have hfind : (fun row => g.numLeaves.testBit row && decide (rootAt g.roots row = m node)) =
          fun row => f.numLeaves.testBit row && decide (rootAt f.roots row = node) := by
        funext row
        rw [h.numLeaves, h.roots]
        exact congrArg _ (decide_eq_decide.mpr (h.arena.eq_iff (h.rootsLive row) hnode))
      simp only [Except.map]
      rw [hfind, h.numLeaves]

theorem nodeAt_eq (pos : Nat) :
    g.nodeAt pos = (f.nodeAt pos).map m ∧ ∀ n, f.nodeAt pos = .ok n → n ∈ f.arena.liveIds := by
  unfold nodeAt
  rw [h.numLeaves]
  by_cases hempty : f.numLeaves = 0
  · rw [if_pos hempty, if_pos hempty]
    exact ⟨rfl, fun n hn => by cases hn⟩
  rw [if_neg hempty, if_neg hempty]
  simp only
  cases (setRows f.numLeaves (treeRows f.numLeaves))[(detectOffset pos f.numLeaves).treeIndex]? with
  | none =>
    rw [if_pos rfl, if_pos rfl]
    exact ⟨rfl, fun n hn => by cases hn⟩
  | some row =>
    have hlink := h.rootsLive row
    simp only [h.roots]
    by_cases hnone : rootAt f.roots row = noNode
    · rw [if_pos hnone, if_pos ((h.arena.eq_none_iff hlink).mpr hnone)]
      exact ⟨rfl, fun n hn => by cases hn⟩
    · rw [if_neg hnone, if_neg (mt (h.arena.eq_none_iff hlink).mp hnone)]
      exact h.arena.walkDown_eq _ _ (hlink.resolve_left hnone)

theorem proofHashes_eq (positions : List Nat) : g.proofHashes positions = f.proofHashes positions := by
  induction positions with
  | nil => rfl
  | cons pos rest ih =>
    obtain ⟨hsame, hlive⟩ := h.nodeAt_eq pos
    rw [proofHashes, proofHashes, hsame, ih]
    cases hnode : f.nodeAt pos with
    | error message => rfl
    | ok node =>
      simp only [Except.map]
      rw [h.arena.hash_eq (hlive node hnode)]

variable [DecidableEq H]

theorem find_eq (hash : H) : g.index.find g.arena hash = (f.index.find f.arena hash).map m := by
  rw [h.index]
  exact KeylessLeafIndex.find_rename h.arena f.index hash

theorem contains_eq (hash : H) : g.contains hash = f.contains hash := by
  rw [contains, contains, h.find_eq, Option.isSome_map]

theorem proveTargets_eq (targets : List H) : g.proveTargets targets = f.proveTargets targets := by
  induction targets with
  | nil => rfl
  | cons target rest ih =>
    rw [proveTargets, proveTargets, h.find_eq, ih]
    cases hfind : f.index.find f.arena target with
    | none => rfl
    | some id =>
      obtain ⟨hlt, htype⟩ := NodeArena.mem_leafIds.mp (KeylessLeafIndex.find_leaf f.index hfind)
      simp only [Option.map_some]
      rw [h.positionOf_eq (NodeArena.mem_liveIds.mpr ⟨hlt, by rw [htype]; simp⟩)]

theorem prove_eq (targets : List H) : g.prove targets = f.prove targets := by
  unfold prove
  rw [h.proveTargets_eq, h.numLeaves]
  simp only [h.proofHashes_eq]

end Renumbered

end PackedForest

/-! ## The trees under their new ids -/

namespace IdTree

omit [ForestHash H] in
def rename (m : Nat → Nat) : IdTree H → IdTree H
  | .leaf id v => .leaf (m id) v
  | .node id l r => .node (m id) (l.rename m) (r.rename m)

variable (m : Nat → Nat) (t : IdTree H)

omit [ForestHash H] in
@[simp] theorem id_rename : (t.rename m).id = m t.id := by cases t <;> rfl

omit [ForestHash H] in
theorem ids_rename : (t.rename m).ids = t.ids.map m := by
  induction t with
  | leaf id v => rfl
  | node id l r ihl ihr => rw [rename, ids, ids, ihl, ihr, List.map_cons, List.map_append]

omit [ForestHash H] in
theorem leaves_rename : (t.rename m).leaves = t.leaves.map fun p => (m p.1, p.2) := by
  induction t with
  | leaf id v => rfl
  | node id l r ihl ihr => rw [rename, leaves, leaves, ihl, ihr, List.map_append]

omit [ForestHash H] in
theorem toTree_rename : (t.rename m).toTree = t.toTree := by
  induction t with
  | leaf id v => rfl
  | node id l r ihl ihr => rw [rename, toTree, toTree, ihl, ihr]

omit [ForestHash H] in
theorem height_rename : (t.rename m).height = t.height := by
  induction t with
  | leaf id v => rfl
  | node id l r ihl ihr => rw [rename, height, height, ihl, ihr]

theorem hash_rename : (t.rename m).hash = t.hash := by
  rw [← hash_toTree, toTree_rename, hash_toTree]

variable {m} {t}

theorem Linked.rename {a b : NodeArena H} (hren : Renumbered m a b) {parent : Nat} (h : Linked a.read t parent)
    (hlive : ∀ x ∈ t.ids, x ∈ a.liveIds) : Linked b.read (t.rename m) (m parent) := by
  induction t generalizing parent with
  | leaf id v =>
    have hrec : a.read id = ⟨v, parent, noNode, noNode, .leaf⟩ := h
    show b.read (m id) = ⟨v, m parent, noNode, noNode, .leaf⟩
    rw [hren.read id (hlive id (by simp [ids])), hrec, NodeRecord.renumber, hren.none]
  | node id l r ihl ihr =>
    obtain ⟨hrec, hl, hr⟩ := h
    refine ⟨?_, ihl hl fun x hx => hlive x (by simp [ids, hx]), ihr hr fun x hx => hlive x (by simp [ids, hx])⟩
    rw [hren.read id (hlive id (by simp [ids])), hrec, hash_rename, hash_rename, id_rename, id_rename]
    rfl

end IdTree

omit [ForestHash H] in
theorem rowTrees_rename (m : Nat → Nat) (trees : Nat → Option (IdTree H)) :
    rowTrees (fun row => (trees row).map (IdTree.rename m)) = (rowTrees trees).map (IdTree.rename m) :=
  List.map_filterMap.symm

/-- The renumbered forest stands for the same accumulator. -/
theorem Represents.renumber {m : Nat → Nat} {f g : PackedForest H} {trees : Nat → Option (IdTree H)} (h : Represents f trees)
    (hren : f.Renumbered m g) (hbooks : g.arena.Bookkeeping) (hindex : g.index.Indexes g.arena g.arena.leafIds)
    (honto : ∀ y ∈ g.arena.liveIds, ∃ x ∈ f.arena.liveIds, m x = y) :
    ∃ trees', Represents g trees' ∧ accumulatorOf g.numLeaves trees' = accumulatorOf f.numLeaves trees := by
  have hids : ((rowTrees trees).map (IdTree.rename m)).flatMap IdTree.ids = ((rowTrees trees).flatMap IdTree.ids).map m := by
    rw [List.flatMap_map, List.map_flatMap]
    exact List.flatMap_congr fun t _ => t.ids_rename m
  have hleaves : leavesOf ((rowTrees trees).map (IdTree.rename m)) = (leavesOf (rowTrees trees)).map fun p => (m p.1, p.2) := by
    rw [leavesOf, leavesOf, List.flatMap_map, List.map_flatMap]
    exact List.flatMap_congr fun t _ => t.leaves_rename m
  refine ⟨fun row => (trees row).map (IdTree.rename m), ⟨⟨hbooks, ?_, fun row hrow => ?_, fun row t ht => ?_,
    fun row t ht => ?_, hindex, by rw [hren.numLeaves]; exact h.bound⟩, ?_⟩, ?_⟩
  · rw [rowTrees_rename]
    refine ⟨fun t ht => ?_, ?_, fun id => ?_⟩
    · obtain ⟨s, hs, rfl⟩ := List.mem_map.mp ht
      have hlinked := (h.shape.linked s hs).rename hren.arena fun x hx => h.shape.mem_live hs hx
      rwa [hren.arena.none] at hlinked
    · rw [hids]
      refine h.shape.nodup.map_on fun x hx y hy heq => ?_
      exact hren.arena.inj x ((h.shape.live_iff x).mpr hx) y ((h.shape.live_iff y).mpr hy) heq
    · rw [hids, List.mem_map]
      constructor
      · intro hid
        obtain ⟨x, hx, rfl⟩ := honto id hid
        exact ⟨x, (h.shape.live_iff x).mp hx, rfl⟩
      · rintro ⟨x, hx, rfl⟩
        exact hren.arena.mem_iff.mpr ((h.shape.live_iff x).mpr hx)
  · rw [hren.roots, h.roots row hrow]
    cases trees row with
    | none => exact hren.arena.none
    | some t => exact (t.id_rename m).symm
  · obtain ⟨s, hs, rfl⟩ := Option.map_eq_some_iff.mp ht
    rw [hren.numLeaves]
    exact h.bits row s hs
  · obtain ⟨s, hs, rfl⟩ := Option.map_eq_some_iff.mp ht
    rw [IdTree.height_rename]
    exact h.height row s hs
  · rw [rowTrees_rename, hleaves, List.map_map]
    exact h.hashes
  · unfold accumulatorOf
    rw [hren.numLeaves]
    congr 1
    funext row
    rw [Option.map_map]
    congr 1
    funext t
    exact t.toTree_rename m

end UtreexoBridge
