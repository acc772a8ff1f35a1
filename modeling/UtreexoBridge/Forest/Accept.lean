import UtreexoBridge.Climbing
import UtreexoBridge.Forest.RoundTrip
import UtreexoBridge.Validate.Represented

/-!
# What `ReadForest` accepts

Its second loop looks from branches down to their children. Whether a node with
a parent is one of its children, and whether one without is a root, is not
looked at: `Tied` is what is missing.
-/

namespace UtreexoBridge

open Bytes Position

variable {H : Type} [StoredHash H]

omit [StoredHash H] in
theorem rootAt_mem {roots : Vector Nat 64} {row : Nat} (h : rootAt roots row ≠ noNode) : rootAt roots row ∈ roots.toList := by
  unfold rootAt at h ⊢
  by_cases hrow : row < 64
  · rw [Vector.getElem?_eq_getElem hrow, Option.getD_some]
    exact Vector.mem_toList_iff.mpr (Vector.getElem_mem hrow)
  · rw [Vector.getElem?_eq_none (by omega), Option.getD_none] at h
    exact absurd rfl h

/-! ## Parent links -/

def NodeArena.Up (a : NodeArena H) (id parent : Nat) : Prop :=
  id ∈ a.liveIds ∧ (a.read id).parent = parent ∧ parent ≠ noNode

namespace PackedForest

variable (f : PackedForest H)

/-- Parent links lead from `id` through live nodes to a root listed in a row of the forest. -/
def Rooted (id : Nat) : Prop :=
  ∃ root row, Relation.ReflTransGen f.arena.Up id root ∧ root ∈ f.arena.liveIds ∧ f.numLeaves.testBit row = true ∧
    rootAt f.roots row = root

def ListedRoot (id : Nat) : Prop := ∃ row, f.numLeaves.testBit row = true ∧ rootAt f.roots row = id

/-- Each live node is a child of its parent or a root, and no climb returns to where it was. -/
structure Tied : Prop where
  roots : ∀ root ∈ f.roots.toList, RootOk f.arena.next f.arena.read root
  distinct : ∀ id ∈ f.arena.liveIds, (f.arena.read id).type = .branch → (f.arena.read id).left ≠ (f.arena.read id).right
  parented : ∀ id ∈ f.arena.liveIds, (f.arena.read id).parent ≠ noNode → Lists (f.arena.read (f.arena.read id).parent) id
  parentless : ∀ id ∈ f.arena.liveIds, (f.arena.read id).parent = noNode → f.ListedRoot id
  acyclic : ∀ id, ¬Relation.TransGen f.arena.Up id id

structure Accepted : Prop where
  next_lt : f.arena.next < noNode
  readable : ∀ id < f.arena.next, Readable f.arena.next (f.arena.read id)
  consistent : ∀ id < f.arena.next, Consistent f.arena id
  index : f.index.Indexes f.arena f.arena.leafIds

end PackedForest

/-! ## The second loop -/

theorem mem_of_isLive {a : NodeArena H} {id : Nat} (h : a.isLive id = true) : id ∈ a.liveIds := by
  unfold NodeArena.isLive at h
  rw [Bool.and_eq_true, decide_eq_true_eq, decide_eq_true_eq] at h
  exact NodeArena.mem_liveIds.mpr h

theorem indexNodes_accepts [DecidableEq H] {a : NodeArena H} (ids : List Nat) {index index' : KeylessLeafIndex} {count count' : Nat}
    (hids : ∀ id ∈ ids, id < a.next) (h : indexNodes a ids index count = .ok (.ok (index', count'))) :
    ∀ id ∈ ids, Consistent a id := by
  induction ids generalizing index count with
  | nil => exact fun id hid => absurd hid (List.not_mem_nil)
  | cons x ids ih =>
    have hrest : ∀ {i c}, indexNodes a ids i c = .ok (.ok (index', count')) → ∀ id ∈ ids, Consistent a id :=
      fun h => ih (fun id hid => hids id (by simp [hid])) h
    rw [indexNodes] at h
    rw [List.forall_mem_cons]
    cases htype : (a.read x).type with
    | leaf =>
      simp only [htype] at h
      split at h
      · cases h
      rename_i hchildren
      rw [not_or, not_not, not_not] at hchildren
      split at h
      · cases h
      refine ⟨⟨fun _ => ⟨hids x (by simp), hchildren⟩, fun hbranch => ?_⟩, hrest h⟩
      rw [htype] at hbranch
      cases hbranch
    | branch =>
      simp only [htype] at h
      split at h
      · cases h
      rename_i hchildren
      split at h
      · cases h
      rename_i hparents
      split at h
      · cases h
      rename_i hhash
      simp only [not_or, Bool.not_eq_true', Bool.not_eq_false] at hchildren
      obtain ⟨-, -, hl, hr⟩ := hchildren
      rw [not_or, not_not, not_not] at hparents
      refine ⟨⟨fun hleaf => ?_, fun _ => ?_⟩, hrest h⟩
      · rw [htype] at hleaf
        cases hleaf
      · exact ⟨⟨mem_of_isLive hl, hparents.1⟩, ⟨mem_of_isLive hr, hparents.2⟩, (not_not.mp hhash).symm⟩
    | free =>
      simp only [htype] at h
      refine ⟨⟨fun hleaf => ?_, fun hbranch => ?_⟩, hrest h⟩
      · rw [htype] at hleaf
        cases hleaf
      · rw [htype] at hbranch
        cases hbranch
    | other code =>
      simp only [htype] at h
      refine ⟨⟨fun hleaf => ?_, fun hbranch => ?_⟩, hrest h⟩
      · rw [htype] at hleaf
        cases hleaf
      · rw [htype] at hbranch
        cases hbranch

/-! ## Well formed forests -/

section Forest

variable {f : PackedForest H}

/-- At most as many leaves as branches and rows: each node with a parent is one of its two children. -/
theorem WellFormed.leaves_le (h : WellFormed f.roots.toList f.arena.next f.arena.read) :
    2 * f.arena.leafIds.card ≤ f.arena.next + 64 := by
  classical
  let branches := (Finset.range f.arena.next).filter fun id => (f.arena.read id).type = .branch
  have hparents : f.arena.liveIds ⊆ branches.image (fun id => (f.arena.read id).left) ∪
      branches.image (fun id => (f.arena.read id).right) ∪ f.roots.toList.toFinset := by
    intro id hid
    obtain ⟨hlt, htype⟩ := NodeArena.mem_liveIds.mp hid
    simp only [Finset.mem_union, Finset.mem_image, List.mem_toFinset]
    by_cases hparent : (f.arena.read id).parent = noNode
    · exact Or.inr (h.parentless id hlt htype hparent)
    · obtain ⟨hplt, -, hbranch, hside⟩ := h.parented id hlt htype hparent
      have hmem : (f.arena.read id).parent ∈ branches := Finset.mem_filter.mpr ⟨Finset.mem_range.mpr hplt, hbranch⟩
      rcases hside with hside | hside
      · exact Or.inl (Or.inl ⟨_, hmem, hside⟩)
      · exact Or.inl (Or.inr ⟨_, hmem, hside⟩)
  have hkinds : f.arena.leafIds ∪ branches ⊆ f.arena.liveIds := by
    intro id hid
    rcases Finset.mem_union.mp hid with hid | hid
    · obtain ⟨hlt, htype⟩ := NodeArena.mem_leafIds.mp hid
      exact NodeArena.mem_liveIds.mpr ⟨hlt, by rw [htype]; simp⟩
    · obtain ⟨hlt, htype⟩ := Finset.mem_filter.mp hid
      exact NodeArena.mem_liveIds.mpr ⟨Finset.mem_range.mp hlt, by rw [htype]; simp⟩
  have hdisjoint : Disjoint f.arena.leafIds branches := by
    rw [Finset.disjoint_left]
    intro id hleaf hbranch
    have htype := (NodeArena.mem_leafIds.mp hleaf).2
    rw [(Finset.mem_filter.mp hbranch).2] at htype
    cases htype
  have hroots : f.roots.toList.toFinset.card ≤ 64 := (List.toFinset_card_le _).trans (by simp)
  have hleft : (branches.image fun id => (f.arena.read id).left).card ≤ branches.card := Finset.card_image_le
  have hright : (branches.image fun id => (f.arena.read id).right).card ≤ branches.card := Finset.card_image_le
  have hcover := (Finset.card_le_card hparents).trans (Finset.card_union_le _ _)
  have hpair := Finset.card_union_le (branches.image fun id => (f.arena.read id).left)
    (branches.image fun id => (f.arena.read id).right)
  have hsum := Finset.card_le_card hkinds
  rw [Finset.card_union_of_disjoint hdisjoint] at hsum
  have hall := f.arena.card_liveIds_add
  omega

end Forest

/-! ## Tied forests -/

namespace PackedForest

variable {f : PackedForest H}

omit [StoredHash H] in
theorem ListedRoot.mem {id : Nat} (h : f.ListedRoot id) (hid : id ≠ noNode) : id ∈ f.roots.toList := by
  obtain ⟨row, -, rfl⟩ := h
  exact rootAt_mem hid

theorem Tied.up (h : f.Tied) (hf : f.Accepted) {id : Nat} (hid : id ∈ f.arena.liveIds)
    (hparent : (f.arena.read id).parent ≠ noNode) :
    f.arena.Up id (f.arena.read id).parent ∧ (f.arena.read id).parent ∈ f.arena.liveIds := by
  have hlt := ((hf.readable id (NodeArena.mem_liveIds.mp hid).1).links.1).resolve_left hparent
  have htype := (h.parented id hid hparent).1
  exact ⟨⟨hid, rfl, hparent⟩, NodeArena.mem_liveIds.mpr ⟨hlt, by rw [htype]; simp⟩⟩

/-- The climb ends at a node without a parent. Each step leaves less above. -/
theorem Tied.climb (h : f.Tied) (hf : f.Accepted) {fuel id : Nat} (directions distance : Nat) (hid : id ∈ f.arena.liveIds)
    (hfuel : (Climbing.above f.arena.Up f.arena.liveIds id).card < fuel) :
    ∃ root d n, PackedForest.climb f.arena fuel id directions distance = .ok (.ok (root, d, n)) ∧
      Relation.ReflTransGen f.arena.Up id root ∧ root ∈ f.arena.liveIds ∧ (f.arena.read root).parent = noNode := by
  induction fuel generalizing id directions distance with
  | zero => omega
  | succ fuel ih =>
    rw [PackedForest.climb]
    by_cases hparent : (f.arena.read id).parent = noNode
    · rw [if_pos hparent]
      exact ⟨id, directions, distance, rfl, Relation.ReflTransGen.refl, hid, hparent⟩
    · obtain ⟨hup, hlive⟩ := h.up hf hid hparent
      have hless := Climbing.card_above_lt hup hlive (h.acyclic _)
      rw [if_neg hparent]
      have hgo := fun d n => ih d n hlive (Nat.lt_of_lt_of_le hless (Nat.lt_succ_iff.mp hfuel))
      by_cases hright : (f.arena.read (f.arena.read id).parent).right = id
      · rw [if_pos hright]
        obtain ⟨root, d, n, hrun, hclimb, hroot⟩ := hgo (shl directions 1 ||| 1) ((distance + 1) % 256)
        exact ⟨root, d, n, hrun, Relation.ReflTransGen.head hup hclimb, hroot⟩
      · have hleft := (h.parented id hid hparent).2.resolve_right hright
        rw [if_neg hright, if_neg (not_not.mpr hleft)]
        obtain ⟨root, d, n, hrun, hclimb, hroot⟩ := hgo (shl directions 1) ((distance + 1) % 256)
        exact ⟨root, d, n, hrun, Relation.ReflTransGen.head hup hclimb, hroot⟩

theorem Accepted.card_lt (hf : f.Accepted) (id : Nat) :
    (Climbing.above f.arena.Up f.arena.liveIds id).card < chainFuel := by
  have hle := Climbing.card_above_le f.arena.Up f.arena.liveIds id
  have hall := f.arena.card_liveIds_add
  have hlt := hf.next_lt
  have hnone : noNode = 2 ^ 32 - 1 := rfl
  unfold chainFuel
  omega

theorem Tied.rooted (h : f.Tied) (hf : f.Accepted) {id : Nat} (hid : id ∈ f.arena.liveIds) : f.Rooted id := by
  obtain ⟨root, -, -, -, hclimb, hlive, hparent⟩ := h.climb hf 0 0 hid (hf.card_lt id)
  obtain ⟨row, hbit, hrow⟩ := h.parentless root hlive hparent
  exact ⟨root, row, hclimb, hlive, hbit, hrow⟩

theorem Tied.positionOf (h : f.Tied) (hf : f.Accepted) {id : Nat} (hid : id ∈ f.arena.liveIds) :
    ∃ pos, f.positionOf id = .ok (.ok pos) := by
  obtain ⟨root, d, n, hrun, -, hlive, hparent⟩ := h.climb hf 0 0 hid (hf.card_lt id)
  obtain ⟨row, hbit, hrow⟩ := h.parentless root hlive hparent
  have hsome : ((List.range (treeRows f.numLeaves + 1)).find?
      fun row => f.numLeaves.testBit row && rootAt f.roots row = root).isSome = true := by
    rw [List.find?_isSome]
    have := testBit_le_treeRows hbit
    exact ⟨row, List.mem_range.mpr (by omega), by simp [hbit, hrow]⟩
  unfold PackedForest.positionOf
  rw [hrun]
  dsimp only
  obtain ⟨found, hfound⟩ := Option.isSome_iff_exists.mp hsome
  rw [hfound]
  exact ⟨_, rfl⟩

theorem Tied.wellFormed (h : f.Tied) (hf : f.Accepted) : WellFormed f.roots.toList f.arena.next f.arena.read where
  listed := h.roots
  known id hid := (hf.readable id hid).type
  leaf id hid htype := ((hf.consistent id hid).leaf htype).2
  distinct id hid htype := h.distinct id (NodeArena.mem_liveIds.mpr ⟨hid, by rw [htype]; simp⟩) htype
  children id hid htype child hchild := by
    obtain ⟨⟨hl, hlp⟩, ⟨hr, hrp⟩, -⟩ := (hf.consistent id hid).branch htype
    rcases hchild with rfl | rfl
    · exact ⟨(NodeArena.mem_liveIds.mp hl).1, (NodeArena.mem_liveIds.mp hl).2, hlp⟩
    · exact ⟨(NodeArena.mem_liveIds.mp hr).1, (NodeArena.mem_liveIds.mp hr).2, hrp⟩
  hash id hid htype := ((hf.consistent id hid).branch htype).2.2.symm
  parentless id hid htype hnone := by
    have hlt := hf.next_lt
    exact (h.parentless id (NodeArena.mem_liveIds.mpr ⟨hid, htype⟩) hnone).mem (by omega)
  parented id hid htype hparent := by
    have hlive : id ∈ f.arena.liveIds := NodeArena.mem_liveIds.mpr ⟨hid, htype⟩
    obtain ⟨hup, hplive⟩ := h.up hf hlive hparent
    refine ⟨(NodeArena.mem_liveIds.mp hplive).1, fun heq => h.acyclic id ?_, h.parented id hlive hparent⟩
    rw [heq] at hup
    exact Relation.TransGen.single hup

end PackedForest

end UtreexoBridge
