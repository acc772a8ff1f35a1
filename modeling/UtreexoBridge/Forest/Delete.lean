import UtreexoBridge.Forest.Add

/-! # Deletion replaces a parent by the sibling -/

namespace UtreexoBridge

open IdTree

variable {H : Type} [ForestHash H]

/-! ## More about places in a tree -/

def frameLeaves : List (Frame H) → List (Nat × H)
  | [] => []
  | f :: fs => f.sibling.leaves ++ frameLeaves fs

omit [ForestHash H] in
theorem leaves_plug (fs : List (Frame H)) (t : IdTree H) : (plug fs t).leaves.Perm (t.leaves ++ frameLeaves fs) := by
  induction fs generalizing t with
  | nil => rw [plug, frameLeaves, List.append_nil]
  | cons f fs ih =>
    refine (ih (f.fill t)).trans ?_
    have hfill : (f.fill t).leaves.Perm (t.leaves ++ f.sibling.leaves) := by
      unfold Frame.fill
      split_ifs
      · exact .refl _
      · exact List.perm_append_comm
    rw [frameLeaves, ← List.append_assoc]
    exact hfill.append_right _

omit [ForestHash H] in
theorem height_plug_mono (fs : List (Frame H)) {t t' : IdTree H} (h : t.height ≤ t'.height) :
    (plug fs t).height ≤ (plug fs t').height := by
  induction fs generalizing t t' with
  | nil => exact h
  | cons f fs ih =>
    apply ih
    unfold Frame.fill
    split_ifs <;> simp only [IdTree.height] <;> omega

omit [ForestHash H] in
theorem frameId_mem {f : Frame H} {fs : List (Frame H)} (h : f ∈ fs) : f.id ∈ frameIds fs := by
  induction fs with
  | nil => cases h
  | cons g fs ih =>
    rw [frameIds]
    rcases List.mem_cons.mp h with rfl | h
    · simp
    · simp [ih h]

omit [ForestHash H] in
theorem frameIds_length (fs : List (Frame H)) : fs.length ≤ (frameIds fs).length := by
  induction fs with
  | nil => simp
  | cons f fs ih => simp only [frameIds, List.length_cons, List.length_append]; omega

/-- Frames that are linked up, with hashes that may be out of date. -/
def StaleFrames (read : Nat → NodeRecord H) : List (Frame H) → Nat → Prop
  | [], _ => True
  | f :: fs, child =>
    (∃ h, read f.id = f.record h (holeParent noNode fs) child) ∧ Linked read f.sibling f.id ∧ StaleFrames read fs f.id

theorem LinkedFrames.stale {read : Nat → NodeRecord H} {fs : List (Frame H)} {child : Nat} {h : H}
    (hl : LinkedFrames read noNode fs child h) : StaleFrames read fs child := by
  induction fs generalizing child h with
  | nil => trivial
  | cons f fs ih => exact ⟨⟨_, hl.1⟩, hl.2.1, ih hl.2.2⟩

theorem StaleFrames.congr {read read' : Nat → NodeRecord H} {fs : List (Frame H)} {child : Nat}
    (hsame : ∀ x ∈ frameIds fs, read' x = read x) (hl : StaleFrames read fs child) : StaleFrames read' fs child := by
  induction fs generalizing child with
  | nil => trivial
  | cons f fs ih =>
    obtain ⟨⟨h, h1⟩, h2, h3⟩ := hl
    refine ⟨⟨h, (hsame f.id (by simp [frameIds])).trans h1⟩, h2.congr fun x hx => hsame x (by simp [frameIds, hx]), ?_⟩
    exact ih (fun x hx => hsame x (by simp [frameIds, hx])) h3

/-! ## `Recompute` -/

omit [ForestHash H] in
theorem record_parent (f : Frame H) (h : H) (parent child : Nat) : (f.record h parent child).parent = parent := by
  unfold Frame.record; split_ifs <;> rfl

omit [ForestHash H] in
theorem record_type (f : Frame H) (h : H) (parent child : Nat) : (f.record h parent child).type = .branch := by
  unfold Frame.record; split_ifs <;> rfl

omit [ForestHash H] in
theorem record_with_hash (f : Frame H) (h h' : H) (parent child : Nat) :
    { f.record h parent child with hash := h' } = f.record h' parent child := by
  unfold Frame.record; split_ifs <;> rfl

theorem frame_hash_eq {read : Nat → NodeRecord H} {f : Frame H} {h ch : H} {parent child : Nat}
    (hrec : read f.id = f.record h parent child) (hchild : (read child).hash = ch)
    (hsib : Linked read f.sibling f.id) :
    parentHash (read (read f.id).left).hash (read (read f.id).right).hash = f.hash ch := by
  rw [hrec]
  unfold Frame.record Frame.hash
  split_ifs <;> simp only [hchild, hsib.hash_eq]

theorem recompute_spec (fs : List (Frame H)) (fuel : Nat) (hfuel : fs.length < fuel) (a : NodeArena H)
    (books : a.Bookkeeping) (child : Nat) {ch : H} (hchild : (a.read child).hash = ch)
    (hstale : StaleFrames a.read fs child) (hnodup : (child :: frameIds fs).Nodup)
    (hlive : ∀ x ∈ frameIds fs, x ∈ a.liveIds) :
    ∃ a', PackedForest.recompute fuel a (holeParent noNode fs) = some a' ∧ a'.Bookkeeping ∧ a'.liveIds = a.liveIds ∧
      LinkedFrames a'.read noNode fs child ch ∧ ∀ x, (∀ f ∈ fs, f.id ≠ x) → a'.read x = a.read x := by
  induction fs generalizing fuel a child ch with
  | nil =>
    obtain ⟨fuel, rfl⟩ : ∃ k, fuel = k + 1 := ⟨fuel - 1, by simp at hfuel; omega⟩
    exact ⟨a, by simp [PackedForest.recompute, holeParent], books, rfl, trivial, fun x _ => rfl⟩
  | cons f fs ih =>
    obtain ⟨fuel, rfl⟩ : ∃ k, fuel = k + 1 := ⟨fuel - 1, by simp at hfuel; omega⟩
    obtain ⟨⟨h, hrec⟩, hsib, hrest⟩ := hstale
    have hflive := hlive f.id (by simp [frameIds])
    have hne : f.id ≠ noNode := by
      have := (NodeArena.mem_liveIds.mp hflive).1
      have := books.next_le
      omega
    rw [frameIds, List.nodup_cons, List.nodup_cons] at hnodup
    obtain ⟨hcnot, hfnot, hnodup⟩ := hnodup
    rw [List.nodup_append] at hnodup
    have hfs : f.id ∉ frameIds fs := fun hm => hfnot (List.mem_append_right _ hm)
    have hfsib : f.id ∉ f.sibling.ids := fun hm => hfnot (List.mem_append_left _ hm)
    rw [PackedForest.recompute, holeParent, if_neg hne]
    simp only [frame_hash_eq hrec hchild hsib]
    obtain ⟨hb, hl, hread⟩ := books.setHash hflive (f.hash ch)
    rw [hrec, record_with_hash] at hread
    have hself : (a.setHash f.id (f.hash ch)).read f.id = f.record (f.hash ch) (holeParent noNode fs) child := by
      rw [hread, Function.update_self]
    have hout : ∀ x, x ≠ f.id → (a.setHash f.id (f.hash ch)).read x = a.read x := by
      intro x hx
      rw [hread, Function.update_of_ne hx]
    have hhash : ((a.setHash f.id (f.hash ch)).read f.id).hash = f.hash ch := by
      rw [hself]; unfold Frame.record; split_ifs <;> rfl
    have hparent : ((a.setHash f.id (f.hash ch)).read f.id).parent = holeParent noNode fs := by
      rw [hself, record_parent]
    rw [hparent]
    obtain ⟨a', hrun, hb', hl', hlinked, hsame⟩ := ih fuel (by simpa using hfuel) _ hb f.id hhash
      (hrest.congr fun x hx => hout x fun he => hfs (he ▸ hx))
      (List.nodup_cons.mpr ⟨hfs, hnodup.2.1⟩)
      (fun x hx => by rw [hl]; exact hlive x (by simp [frameIds, hx]))
    refine ⟨a', hrun, hb', hl'.trans hl, ⟨?_, ?_, hlinked⟩, ?_⟩
    · rw [hsame f.id fun g hg he => hfs (he ▸ frameId_mem hg), hself]
    · apply hsib.congr
      intro x hx
      rw [hsame x fun g hg he => hnodup.2.2 x hx g.id (frameId_mem hg) he.symm,
        hout x fun he => hfsib (he ▸ hx)]
    · intro x hx
      rw [hsame x fun g hg => hx g (by simp [hg]), hout x fun he => hx f (by simp) he.symm]

/-! ## Freeing the nodes of a deletion -/

theorem freeAll_spec (gone : List Nat) (a : NodeArena H) (books : a.Bookkeeping) (hnodup : gone.Nodup)
    (hlive : ∀ x ∈ gone, x ∈ a.liveIds) :
    (gone.foldl .free a).Bookkeeping ∧ (∀ x, x ∈ (gone.foldl .free a).liveIds ↔ x ∈ a.liveIds ∧ x ∉ gone) ∧
      (∀ x ∉ gone, (gone.foldl .free a).read x = a.read x) ∧
      ∀ x, ((gone.foldl .free a).read x).hash = (a.read x).hash := by
  induction gone generalizing a with
  | nil => exact ⟨books, by simp, fun _ _ => rfl, fun _ => rfl⟩
  | cons y gone ih =>
    obtain ⟨hb, hl, hread, -, -⟩ := books.free (hlive y (by simp))
    obtain ⟨hy, hnodup⟩ := List.nodup_cons.mp hnodup
    obtain ⟨h1, h2, h3, h4⟩ := ih (a.free y) hb hnodup fun x hx => by
      rw [hl]
      exact Finset.mem_erase.mpr ⟨fun he => hy (he ▸ hx), hlive x (by simp [hx])⟩
    rw [List.foldl_cons]
    refine ⟨h1, fun x => ?_, fun x hx => ?_, fun x => ?_⟩
    · rw [h2, hl, Finset.mem_erase, List.mem_cons]
      tauto
    · rw [List.mem_cons, not_or] at hx
      rw [h3 x hx.2, hread, Function.update_of_ne hx.1]
    · rw [h4, hread, Function.update_apply]
      split_ifs with hx
      · rw [hx]; rfl
      · rfl

omit [ForestHash H] in
theorem rowTrees_put (trees : Nat → Option (IdTree H)) {row : Nat} (hrow : row < 64) (o : Option (IdTree H)) :
    (rowTrees (Function.update trees row o)).Perm (o.toList ++ rowTrees (Function.update trees row none)) := by
  cases o with
  | none => exact .refl _
  | some t =>
    have h := rowTrees_set (Function.update trees row none) hrow (Function.update_self _ _ _) t
    rwa [Function.update_idem] at h

/-- The trees after the tree `t` of a row became `o`: `gone` are the ids it lost. -/
structure Shrunk (a : NodeArena H) (read : Nat → NodeRecord H) (t : IdTree H) (o : Option (IdTree H)) (x : Nat) (v : H)
    (gone : List Nat) : Prop where
  outside : ∀ y ∉ t.ids, a.read y = read y
  leaf_hash : ∀ y w, (y, w) ∈ t.leaves → (a.read y).hash = w
  linked : ∀ s ∈ o, s.Linked a.read noNode
  ids_perm : t.ids.Perm (gone ++ o.toList.flatMap IdTree.ids)
  leaves_perm : t.leaves.Perm ((x, v) :: leavesOf o.toList)
  height : ∀ s ∈ o, s.height ≤ t.height

theorem Shrunk.shape {a : NodeArena H} {read : Nat → NodeRecord H} {live : Finset Nat} {t : IdTree H}
    {o : Option (IdTree H)} {x : Nat} {v : H} {gone : List Nat} {rest : List (IdTree H)}
    (h : Shrunk a read t o x v gone) (hshape : Shape read live (t :: rest)) (books : a.Bookkeeping)
    (hlive : a.liveIds = live) :
    (gone.foldl .free a).Bookkeeping ∧
      Shape (gone.foldl .free a).read (gone.foldl .free a).liveIds (o.toList ++ rest) := by
  obtain ⟨-, hnodup, hdisj, hrest, hrestnodup, hliveiff⟩ := shape_cons.mp hshape
  have hpnodup := h.ids_perm.nodup_iff.mp hnodup
  rw [List.nodup_append] at hpnodup
  obtain ⟨hgone, honodup, hgo⟩ := hpnodup
  have hgmem : ∀ y ∈ gone, y ∈ t.ids := fun y hy => h.ids_perm.mem_iff.mpr (List.mem_append_left _ hy)
  have homem : ∀ y ∈ o.toList.flatMap IdTree.ids, y ∈ t.ids :=
    fun y hy => h.ids_perm.mem_iff.mpr (List.mem_append_right _ hy)
  obtain ⟨h1, h2, h3, -⟩ := freeAll_spec gone a books hgone fun y hy => by
    rw [hlive, hliveiff]
    exact Or.inl (hgmem y hy)
  refine ⟨h1, ?_, ?_, ?_⟩
  · intro s hs
    rcases List.mem_append.mp hs with hs | hs
    · have hso : s ∈ o := by simpa using hs
      apply (h.linked s hso).congr
      intro y hy
      exact h3 y fun hg => hgo y hg y (List.mem_flatMap.mpr ⟨s, hs, hy⟩) rfl
    · apply (hrest s hs).congr
      intro y hy
      have hyt : y ∉ t.ids := fun hyt => hdisj y hyt (List.mem_flatMap.mpr ⟨s, hs, hy⟩)
      rw [h3 y fun hg => hyt (hgmem y hg), h.outside y hyt]
  · rw [List.flatMap_append, List.nodup_append]
    exact ⟨honodup, hrestnodup, fun y hy z hz hyz => hdisj y (homem y hy) (hyz ▸ hz)⟩
  · intro y
    rw [h2, hlive, hliveiff, List.flatMap_append, List.mem_append, h.ids_perm.mem_iff, List.mem_append]
    constructor
    · rintro ⟨(hy | hy) | hy, hng⟩
      · exact absurd hy hng
      · exact Or.inl hy
      · exact Or.inr hy
    · rintro (hy | hy)
      · exact ⟨Or.inl (Or.inr hy), fun hg => hgo y hg y hy rfl⟩
      · exact ⟨Or.inr hy, fun hg => hdisj y (hgmem y hg) hy⟩

theorem Structured.dropIds {f : PackedForest H} {trees : Nat → Option (IdTree H)} (h : Structured f trees) {row : Nat}
    {t : IdTree H} (ht : trees row = some t) {a : NodeArena H} (books : a.Bookkeeping)
    (hlive : a.liveIds = f.arena.liveIds) {o : Option (IdTree H)} {x : Nat} {v : H} {gone : List Nat}
    (hs : Shrunk a f.arena.read t o x v gone) (roots : Vector Nat 64)
    (hroots : ∀ r < 64, rootAt roots r = (Function.update trees row o r).elim noNode IdTree.id) :
    ∃ f', PackedForest.dropIds { f with arena := a, roots := roots } v x gone = .ok (.ok (), f') ∧
      Structured f' (Function.update trees row o) ∧ f'.numLeaves = f.numLeaves ∧
      (leavesOf (rowTrees trees)).Perm ((x, v) :: leavesOf (rowTrees (Function.update trees row o))) := by
  have hrow := h.row_lt ht
  have htake := rowTrees_take hrow ht
  have hput := rowTrees_put trees hrow o
  have hshape := h.shape.perm htake
  obtain ⟨hbooks, hshape'⟩ := hs.shape hshape books hlive
  have hshape' := hshape'.perm hput.symm
  have hleaves : (leavesOf (rowTrees trees)).Perm ((x, v) :: leavesOf (rowTrees (Function.update trees row o))) := by
    refine (htake.flatMap_right IdTree.leaves).trans ?_
    rw [List.flatMap_cons]
    refine (hs.leaves_perm.append_right _).trans ?_
    rw [List.cons_append]
    refine List.Perm.cons _ ?_
    rw [leavesOf, ← List.flatMap_append]
    exact (hput.flatMap_right IdTree.leaves).symm
  have hxmem : (x, v) ∈ leavesOf (rowTrees trees) := hleaves.mem_iff.mpr (by simp)
  -- the records of leaves keep their hashes while the tree is relinked
  have hhash : ∀ y w, (y, w) ∈ leavesOf (rowTrees trees) → (a.read y).hash = w := by
    intro y w hy
    obtain ⟨s, hsmem, hys⟩ := List.mem_flatMap.mp hy
    obtain ⟨r, hr, hrs⟩ := mem_rowTrees.mp hsmem
    by_cases hyt : y ∈ t.ids
    · have := h.row_unique ht hrs hyt (leaf_mem_ids hys)
      subst this
      rw [ht] at hrs
      cases hrs
      exact hs.leaf_hash y w hys
    · rw [hs.outside y hyt]
      exact (h.shape.mem_leaves_iff.mp hy).2.2
  have hindex : f.index.Indexes a f.arena.leafIds := by
    apply h.index.congr
    intro y hy
    obtain ⟨w, hw⟩ := (mem_leafIds_iff h.shape).mp hy
    rw [hhash y w hw, (h.shape.mem_leaves_iff.mp hw).2.2]
  obtain ⟨index, herase, hindex'⟩ := hindex.erase ((mem_leafIds_iff h.shape).mpr ⟨v, hxmem⟩)
  rw [hhash x v hxmem] at herase
  have hleafIds : (gone.foldl .free a).leafIds = f.arena.leafIds.erase x := by
    ext y
    rw [Finset.mem_erase, mem_leafIds_iff h.shape, mem_leafIds_iff hshape']
    simp only [hleaves.mem_iff, List.mem_cons, Prod.mk.injEq]
    have hnodup := (hleaves.map (·.1)).nodup_iff.mp h.shape.leaf_ids_nodup
    constructor
    · rintro ⟨w, hw⟩
      refine ⟨?_, w, Or.inr hw⟩
      rintro rfl
      rw [List.map_cons, List.nodup_cons] at hnodup
      exact hnodup.1 (List.mem_map.mpr ⟨(y, w), hw, rfl⟩)
    · rintro ⟨hne, w, ⟨rfl, -⟩ | hw⟩
      · exact absurd rfl hne
      · exact ⟨w, hw⟩
  have hgone : gone.Nodup ∧ ∀ y ∈ gone, y ∈ a.liveIds := by
    have hnodup := hs.ids_perm.nodup_iff.mp (h.shape.ids_nodup (h.mem_rows ht))
    refine ⟨(List.nodup_append.mp hnodup).1, fun y hy => ?_⟩
    rw [hlive]
    exact h.shape.mem_live (h.mem_rows ht) (hs.ids_perm.mem_iff.mpr (List.mem_append_left _ hy))
  obtain ⟨-, -, -, hfreehash⟩ := freeAll_spec gone a books hgone.1 hgone.2
  refine ⟨⟨gone.foldl .free a, index, roots, f.numLeaves⟩, ?_, ⟨hbooks, hshape', hroots, ?_, ?_, ?_, h.bound⟩, rfl,
    hleaves⟩
  · rw [PackedForest.dropIds]
    simp only [herase]
  · intro r s hr
    rw [Function.update_apply] at hr
    split_ifs at hr with hrr
    · rw [hrr]; exact h.bits row t ht
    · exact h.bits r s hr
  · intro r s hr
    rw [Function.update_apply] at hr
    split_ifs at hr with hrr
    · rw [hrr]
      exact le_trans (hs.height s hr) (h.height row t ht)
    · exact h.height r s hr
  · show index.Indexes (gone.foldl .free a) (gone.foldl .free a).leafIds
    rw [hleafIds]
    exact hindex'.congr fun y _ => hfreehash y

/-! ## Relinking the sibling -/

omit [ForestHash H] in
theorem record_with_child (f : Frame H) (h : H) (parent child new : Nat) :
    (if f.left then { f.record h parent child with left := new } else { f.record h parent child with right := new }) =
      f.record h parent new := by
  unfold Frame.record; split_ifs <;> rfl

/-- `SetLeft` or `SetRight` of the frame's hole. -/
def setChild (a : NodeArena H) (f : Frame H) (child : Nat) : NodeArena H :=
  if f.left then a.setLeft f.id child else a.setRight f.id child

theorem setChild_spec {a : NodeArena H} (books : a.Bookkeeping) {f : Frame H} (hf : f.id ∈ a.liveIds) {h : H}
    {parent child : Nat} (hrec : a.read f.id = f.record h parent child) (new : Nat) :
    (setChild a f new).Bookkeeping ∧ (setChild a f new).liveIds = a.liveIds ∧
      (setChild a f new).read = Function.update a.read f.id (f.record h parent new) := by
  rw [← record_with_child f h parent child new, ← hrec]
  unfold setChild
  split_ifs
  · exact books.setLeft hf new
  · exact books.setRight hf new

/-- The sibling takes the parent's place below the grandparent, and the hashes above follow. -/
theorem relink_spec {a : NodeArena H} (books : a.Bookkeeping) {p g : Frame H} {gs : List (Frame H)} {h : H}
    (hframes : LinkedFrames a.read noNode (g :: gs) p.id h) (hsib : Linked a.read p.sibling p.id)
    (hnodup : (p.sibling.ids ++ frameIds (g :: gs)).Nodup) (hlive : ∀ x ∈ frameIds (g :: gs), x ∈ a.liveIds)
    (hslive : p.sibling.id ∈ a.liveIds) :
    ∃ a', PackedForest.recompute PackedForest.chainFuel
        ((setChild a g p.sibling.id).setParent p.sibling.id g.id) g.id = some a' ∧
      a'.Bookkeeping ∧ a'.liveIds = a.liveIds ∧ Linked a'.read (plug (g :: gs) p.sibling) noNode ∧
      ∀ y, y ∉ p.sibling.ids → (∀ f ∈ g :: gs, f.id ≠ y) → a'.read y = a.read y := by
  obtain ⟨hrec, hgsib, hrest⟩ := hframes
  have hnd := List.nodup_append.mp hnodup
  have hfr := hnd.2.1
  rw [frameIds, List.nodup_cons] at hfr
  have hgs : g.id ∉ p.sibling.ids := fun hm => hnd.2.2 _ hm g.id (by simp [frameIds]) rfl
  have hsg : p.sibling.id ≠ g.id := fun he => hgs (he ▸ p.sibling.id_mem_ids)
  have hsf : ∀ x ∈ frameIds (g :: gs), x ≠ p.sibling.id :=
    fun x hx he => hnd.2.2 _ p.sibling.id_mem_ids x hx he.symm
  obtain ⟨hb1, hl1, hread1⟩ := setChild_spec books (hlive g.id (by simp [frameIds])) hrec p.sibling.id
  obtain ⟨hb2, hl2, hread2⟩ := hb1.setParent (x := p.sibling.id) (by rw [hl1]; exact hslive) g.id
  have hs2 : Linked ((setChild a g p.sibling.id).setParent p.sibling.id g.id).read p.sibling g.id := by
    have hs1 : Linked (setChild a g p.sibling.id).read p.sibling p.id := by
      rw [hread1]
      exact hsib.update hgs
    rw [hread2]
    exact hs1.reparent hnd.1 g.id
  have hout : ∀ x, x ≠ g.id → x ≠ p.sibling.id →
      ((setChild a g p.sibling.id).setParent p.sibling.id g.id).read x = a.read x := by
    intro x hxg hxs
    rw [hread2, Function.update_of_ne hxs, hread1, Function.update_of_ne hxg]
  have hstale : StaleFrames ((setChild a g p.sibling.id).setParent p.sibling.id g.id).read (g :: gs) p.sibling.id := by
    refine ⟨⟨g.hash h, ?_⟩, ?_, ?_⟩
    · rw [hread2, Function.update_of_ne (Ne.symm hsg), hread1, Function.update_self]
    · apply hgsib.congr
      intro x hx
      exact hout x (fun he => hfr.1 (by rw [← he]; simp [hx])) (hsf x (by simp [frameIds, hx]))
    · apply (LinkedFrames.stale hrest).congr
      intro x hx
      exact hout x (fun he => hfr.1 (by rw [← he]; simp [hx])) (hsf x (by simp [frameIds, hx]))
  have hfuel : (g :: gs).length < PackedForest.chainFuel := by
    have hcard : (frameIds (g :: gs)).toFinset.card ≤ (Finset.range noNode).card := by
      apply Finset.card_le_card
      intro x hx
      have := (NodeArena.mem_liveIds.mp (hlive x (List.mem_toFinset.mp hx))).1
      have := books.next_le
      exact Finset.mem_range.mpr (by omega)
    rw [List.toFinset_card_of_nodup hnd.2.1, Finset.card_range] at hcard
    have := frameIds_length (g :: gs)
    unfold PackedForest.chainFuel
    unfold noNode at hcard
    omega
  obtain ⟨a', hrun, hb3, hl3, hlinked, hsame⟩ := recompute_spec (g :: gs) PackedForest.chainFuel hfuel _ hb2
    p.sibling.id hs2.hash_eq hstale (List.nodup_cons.mpr ⟨fun hm => hsf _ hm rfl, hnd.2.1⟩)
    (fun x hx => by rw [hl2, hl1]; exact hlive x hx)
  refine ⟨a', hrun, hb3, hl3.trans (hl2.trans hl1), ?_, ?_⟩
  · rw [linked_plug]
    refine ⟨hs2.congr fun x hx => hsame x fun f hf he => ?_, hlinked⟩
    exact hnd.2.2 x hx f.id (frameId_mem hf) he.symm
  · intro y hy hyf
    rw [hsame y hyf, hout y (Ne.symm (hyf g (by simp))) fun he => hy (he ▸ p.sibling.id_mem_ids)]

/-! ## `DeleteId` -/

theorem find?_range_eq {n row : Nat} {p : Nat → Bool} (hrow : row < n) (hp : p row = true)
    (huniq : ∀ r < n, p r = true → r = row) : (List.range n).find? p = some row := by
  have hsome : ((List.range n).find? p).isSome := List.find?_isSome.mpr ⟨row, List.mem_range.mpr hrow, hp⟩
  obtain ⟨r, hr⟩ := Option.isSome_iff_exists.mp hsome
  rw [hr, huniq r (List.mem_range.mp (List.mem_of_find?_eq_some hr)) (List.find?_some hr)]

theorem Structured.findRoot_eq {f : PackedForest H} {trees : Nat → Option (IdTree H)} (h : Structured f trees)
    {row : Nat} {t : IdTree H} (ht : trees row = some t) : findRoot f.roots t.id = some row := by
  have hrow := h.row_lt ht
  have hne := h.id_lt (h.shape.mem_live (h.mem_rows ht) t.id_mem_ids)
  apply find?_range_eq hrow
  · rw [h.roots row hrow, ht]
    simp
  · intro r hr hp
    rw [decide_eq_true_eq, h.roots r hr] at hp
    cases hs : trees r with
    | none =>
      rw [hs, Option.elim_none] at hp
      omega
    | some s =>
      rw [hs, Option.elim_some] at hp
      exact h.row_unique hs ht (by rw [← hp]; exact s.id_mem_ids) t.id_mem_ids

omit [ForestHash H] in
theorem plug_id_congr (fs : List (Frame H)) {t t' : IdTree H} (h : t.id = t'.id) : (plug fs t).id = (plug fs t').id := by
  induction fs generalizing t t' with
  | nil => exact h
  | cons f fs ih => exact ih (by rw [fill_id, fill_id])

omit [ForestHash H] in
theorem mem_frameLeaves {f : Frame H} {fs : List (Frame H)} (hf : f ∈ fs) {q : Nat × H} (hq : q ∈ f.sibling.leaves) :
    q ∈ frameLeaves fs := by
  induction fs with
  | nil => cases hf
  | cons g fs ih =>
    rw [frameLeaves, List.mem_append]
    rcases List.mem_cons.mp hf with rfl | hf
    · exact Or.inl hq
    · exact Or.inr (ih hf)

section Prune

variable [DecidableEq H]

omit [ForestHash H] in
theorem prune_leaf {p : Frame H} {fs : List (Frame H)} {x : Nat} {v : H}
    (hnodup : ((plug (p :: fs) (.leaf x v)).leaves.map (·.2)).Nodup) :
    (plug (p :: fs) (.leaf x v)).toTree.prune (· ≠ v) = some (plug fs p.sibling).toTree := by
  have hperm := (leaves_plug (p :: fs) (.leaf x v)).map (·.2)
  rw [hperm.nodup_iff] at hnodup
  simp only [IdTree.leaves, frameLeaves, List.singleton_append, List.map_cons, List.nodup_cons] at hnodup
  have hkeep : ∀ s : IdTree H, (∀ q ∈ s.leaves, q ∈ p.sibling.leaves ++ frameLeaves fs) →
      ∀ w ∈ s.toTree.leaves, decide (w ≠ v) = true := by
    intro s hs w hw
    rw [decide_eq_true_eq]
    rintro rfl
    rw [leaves_toTree, List.mem_map] at hw
    obtain ⟨q, hq, rfl⟩ := hw
    exact hnodup.1 (List.mem_map.mpr ⟨q, hs q hq, rfl⟩)
  show (plug fs (p.fill (.leaf x v))).toTree.prune _ = _
  apply prune_plug
  · intro f hf
    exact hkeep f.sibling fun q hq => List.mem_append_right _ (mem_frameLeaves hf hq)
  · have hsib := prune_all (· ≠ v) p.sibling.toTree (hkeep p.sibling fun q hq => List.mem_append_left _ hq)
    unfold Frame.fill
    split_ifs <;> simp only [toTree, Tree.prune, hsib] <;> simp [Tree.join]

omit [ForestHash H] in
theorem accumulatorOf_delete [ForestHash H] {f : PackedForest H} {trees : Nat → Option (IdTree H)}
    (h : Represents f trees) {row : Nat} {t : IdTree H} (ht : trees row = some t) {x : Nat} {v : H}
    (hx : (x, v) ∈ t.leaves) {o : Option (IdTree H)} (hprune : t.toTree.prune (· ≠ v) = o.map toTree) :
    accumulatorOf f.numLeaves (Function.update trees row o) = (accumulatorOf f.numLeaves trees).delete v := by
  simp only [accumulatorOf, Accumulator.delete, Accumulator.mk.injEq, true_and]
  funext r
  rw [Function.update_apply]
  split_ifs with hr
  · rw [hr, ht, ← hprune]; rfl
  · cases hs : trees r with
    | none => rfl
    | some s =>
      symm
      apply prune_all
      intro w hw
      rw [decide_eq_true_eq]
      rintro rfl
      rw [leaves_toTree, List.mem_map] at hw
      obtain ⟨⟨y, w⟩, hq, rfl⟩ := hw
      have hxy := h.leaf_unique (List.mem_flatMap.mpr ⟨t, h.mem_rows ht, hx⟩)
        (List.mem_flatMap.mpr ⟨s, h.mem_rows hs, hq⟩)
      subst hxy
      exact hr (h.row_unique hs ht (leaf_mem_ids hq) (leaf_mem_ids hx))

end Prune

section DeleteId

variable {f : PackedForest H} {trees : Nat → Option (IdTree H)} {row x : Nat} {v : H}

theorem deleteId_root (h : Structured f trees) (ht : trees row = some (.leaf x v)) :
    ∃ f', f.deleteId x = .ok (.ok (), f') ∧ Structured f' (Function.update trees row none) ∧
      f'.numLeaves = f.numLeaves ∧
      (leavesOf (rowTrees trees)).Perm ((x, v) :: leavesOf (rowTrees (Function.update trees row none))) := by
  have hrow := h.row_lt ht
  have hmem := h.mem_rows ht
  have hread : f.arena.read x = ⟨v, noNode, noNode, noNode, .leaf⟩ := h.shape.linked _ hmem
  have hleaf : f.arena.isLeaf x = true :=
    NodeArena.isLeaf_eq_true.mpr ((mem_leafIds_iff h.shape).mpr ⟨v, List.mem_flatMap.mpr ⟨_, hmem, by simp [leaves]⟩⟩)
  have hfind : findRoot f.roots x = some row := h.findRoot_eq ht
  have hs : Shrunk f.arena f.arena.read (.leaf x v) none x v [x] := by
    refine ⟨fun _ _ => rfl, ?_, by simp, by simp [ids], by simp [leaves, leavesOf], by simp⟩
    intro y w hy
    obtain ⟨rfl, rfl⟩ : y = x ∧ w = v := by simpa [leaves] using hy
    rw [hread]
  obtain ⟨f', hdrop, hrep⟩ := h.dropIds ht h.books rfl hs (setRoot f.roots row noNode) (fun r hr => by
    rw [rootAt_setRoot _ _ _ _ hr, Function.update_apply]
    split_ifs
    · rfl
    · exact h.roots r hr)
  refine ⟨f', ?_, hrep⟩
  rw [PackedForest.deleteId]
  simp only [hleaf, Bool.not_true, Bool.false_eq_true, if_false, hread, if_true, hfind]
  exact hdrop

omit [ForestHash H] in
theorem sibling_eq {read : Nat → NodeRecord H} {p : Frame H} {hash : H} {parent x : Nat}
    (hrec : read p.id = p.record hash parent x) (hx : x ≠ p.sibling.id) :
    (if (read p.id).left = x then (read p.id).right else (read p.id).left) = p.sibling.id := by
  rw [hrec]
  unfold Frame.record
  split_ifs with hright hleft hleft
  · rfl
  · exact absurd rfl hleft
  · exact absurd hleft.symm hx
  · rfl

theorem shrunk_of_linked {a : NodeArena H} {read : Nat → NodeRecord H} {p : Frame H} (fs : List (Frame H))
    (hnodup : (plug (p :: fs) (.leaf x v)).ids.Nodup) (hx : (read x).hash = v)
    (hlinked : Linked a.read (plug fs p.sibling) noNode)
    (hsame : ∀ y, y ∉ p.sibling.ids → (∀ g ∈ fs, g.id ≠ y) → a.read y = read y) :
    Shrunk a read (plug (p :: fs) (.leaf x v)) (some (plug fs p.sibling)) x v [x, p.id] := by
  have hperm := ids_plug (p :: fs) (.leaf x v)
  have hids : (plug (p :: fs) (.leaf x v)).ids.Perm (x :: p.id :: (p.sibling.ids ++ frameIds fs)) := by
    simpa [frameIds, ids] using hperm
  have hleaves := leaves_plug (p :: fs) (.leaf x v)
  have hnd := hids.nodup_iff.mp hnodup
  rw [List.nodup_cons, List.mem_cons, List.mem_append, not_or, not_or] at hnd
  refine ⟨?_, ?_, ?_, ?_, ?_, ?_⟩
  · intro y hy
    rw [hids.mem_iff, List.mem_cons, List.mem_cons, List.mem_append] at hy
    push Not at hy
    exact hsame y hy.2.2.1 fun g hg he => hy.2.2.2 (he ▸ frameId_mem hg)
  · intro y w hy
    rw [hleaves.mem_iff, leaves, List.singleton_append, List.mem_cons, frameLeaves, Prod.mk.injEq] at hy
    rcases hy with ⟨rfl, rfl⟩ | hy
    · rw [hsame y hnd.1.2.1 fun g hg he => hnd.1.2.2 (he ▸ frameId_mem hg), hx]
    · exact (hlinked.mem_leaves_iff.mp ((leaves_plug fs p.sibling).mem_iff.mpr hy)).2.2
  · intro s hs
    cases hs
    exact hlinked
  · refine hids.trans ?_
    simp only [Option.toList_some, List.flatMap_cons, List.flatMap_nil, List.append_nil, List.cons_append,
      List.nil_append]
    exact ((ids_plug fs p.sibling).symm.cons _).cons _
  · simp only [Option.toList_some, leavesOf, List.flatMap_cons, List.flatMap_nil, List.append_nil]
    refine hleaves.trans ?_
    rw [leaves, List.singleton_append, frameLeaves]
    exact (leaves_plug fs p.sibling).symm.cons _
  · intro s hs
    cases hs
    apply height_plug_mono
    unfold Frame.fill
    split_ifs <;> simp only [IdTree.height] <;> omega

theorem deleteId_inner (h : Structured f trees) {p : Frame H} {fs : List (Frame H)}
    (ht : trees row = some (plug (p :: fs) (.leaf x v))) :
    ∃ f', f.deleteId x = .ok (.ok (), f') ∧ Structured f' (Function.update trees row (some (plug fs p.sibling))) ∧
      f'.numLeaves = f.numLeaves ∧ (leavesOf (rowTrees trees)).Perm
        ((x, v) :: leavesOf (rowTrees (Function.update trees row (some (plug fs p.sibling))))) := by
  have hrow := h.row_lt ht
  have hmem := h.mem_rows ht
  obtain ⟨hleafrec, hrec, hsib, hframes⟩ := (linked_plug (p :: fs) (.leaf x v)).mp (h.shape.linked _ hmem)
  have hread : f.arena.read x = ⟨v, p.id, noNode, noNode, .leaf⟩ := hleafrec
  have hxt : (x, v) ∈ (plug (p :: fs) (.leaf x v)).leaves :=
    (leaves_plug _ _).mem_iff.mpr (by simp [leaves])
  have hleaf : f.arena.isLeaf x = true :=
    NodeArena.isLeaf_eq_true.mpr ((mem_leafIds_iff h.shape).mpr ⟨v, List.mem_flatMap.mpr ⟨_, hmem, hxt⟩⟩)
  have hnodup := h.shape.ids_nodup hmem
  have hids : (plug (p :: fs) (.leaf x v)).ids.Perm (x :: p.id :: (p.sibling.ids ++ frameIds fs)) := by
    simpa [frameIds, ids] using ids_plug (p :: fs) (.leaf x v)
  have hnd := hids.nodup_iff.mp hnodup
  rw [List.nodup_cons, List.nodup_cons] at hnd
  have hlive : ∀ y ∈ (x :: p.id :: (p.sibling.ids ++ frameIds fs)), y ∈ f.arena.liveIds :=
    fun y hy => h.shape.mem_live hmem (hids.mem_iff.mpr hy)
  have hpne : p.id ≠ noNode := Nat.ne_of_lt (h.id_lt (hlive p.id (by simp)))
  have hsiblive : p.sibling.id ∈ f.arena.liveIds := hlive _ (by simp [p.sibling.id_mem_ids])
  have hsibx : x ≠ p.sibling.id := fun he => hnd.1 (by simp [he, p.sibling.id_mem_ids])
  have hsibeq : (if (f.arena.read p.id).left = x then (f.arena.read p.id).right else (f.arena.read p.id).left) =
      p.sibling.id := sibling_eq hrec hsibx
  rw [PackedForest.deleteId]
  simp only [hleaf, Bool.not_true, Bool.false_eq_true, if_false, hread, if_neg hpne, hsibeq]
  have hgrand : (f.arena.read p.id).parent = holeParent noNode fs := by rw [hrec, record_parent]
  rw [hgrand]
  cases fs with
  | nil =>
    obtain ⟨hb, hl, hr⟩ := h.books.setParent hsiblive noNode
    have hlinked : Linked (f.arena.setParent p.sibling.id noNode).read p.sibling noNode := by
      rw [hr]
      exact hsib.reparent (List.nodup_append.mp hnd.2.2).1 noNode
    have hs := shrunk_of_linked [] hnodup (congrArg NodeRecord.hash hread) hlinked fun y hy _ => by
      rw [hr, Function.update_of_ne fun he : y = p.sibling.id => hy (he ▸ p.sibling.id_mem_ids)]
    obtain ⟨f', hdrop, hrep⟩ := h.dropIds ht hb hl hs (setRoot f.roots row p.sibling.id) (fun r hr => by
      rw [rootAt_setRoot _ _ _ _ hr, Function.update_apply]
      split_ifs
      · rfl
      · exact h.roots r hr)
    have hfind : findRoot f.roots p.id = some row := by
      have := h.findRoot_eq ht
      rwa [plug, plug, fill_id] at this
    refine ⟨f', ?_, hrep⟩
    rw [holeParent, if_pos rfl, hfind]
    exact hdrop
  | cons g gs =>
    have hgne : g.id ≠ noNode := Nat.ne_of_lt (h.id_lt (hlive g.id (by simp [frameIds])))
    obtain ⟨a', hrun, hb, hl, hlinked, hsame⟩ := relink_spec h.books hframes hsib hnd.2.2
      (fun y hy => hlive y (by simp [hy])) hsiblive
    have hs := shrunk_of_linked (g :: gs) hnodup (congrArg NodeRecord.hash hread) hlinked hsame
    obtain ⟨f', hdrop, hrep⟩ := h.dropIds ht hb hl hs f.roots (fun r hr => by
      rw [Function.update_apply]
      split_ifs with hrr
      · rw [h.roots r hr, hrr, ht]
        exact plug_id_congr gs (by rw [fill_id, fill_id])
      · exact h.roots r hr)
    refine ⟨f', ?_, hrep⟩
    obtain ⟨hgrec, -, -⟩ := hframes
    have hgp : g.sibling.id ≠ p.id := fun he =>
      hnd.2.1 (by rw [← he]; simp [frameIds, g.sibling.id_mem_ids])
    rw [holeParent, if_neg hgne]
    unfold setChild at hrun
    cases hdir : g.left with
    | true =>
      have hleft : (f.arena.read g.id).left = p.id := by rw [hgrec, Frame.record, hdir]; rfl
      rw [hdir] at hrun
      simp only [if_true] at hrun
      rw [if_pos hleft, hrun]
      exact hdrop
    | false =>
      have hleft : ¬ (f.arena.read g.id).left = p.id := by rw [hgrec, Frame.record, hdir]; exact hgp
      have hright : (f.arena.read g.id).right = p.id := by rw [hgrec, Frame.record, hdir]; rfl
      rw [hdir] at hrun
      simp only [Bool.false_eq_true, if_false] at hrun
      rw [if_neg hleft, if_pos hright, hrun]
      exact hdrop

variable [DecidableEq H]

omit [DecidableEq H] in
theorem Structured.deleteId (h : Structured f trees) (hx : (x, v) ∈ leavesOf (rowTrees trees)) :
    ∃ f' trees', f.deleteId x = .ok (.ok (), f') ∧ Structured f' trees' ∧ f'.numLeaves = f.numLeaves ∧
      (leavesOf (rowTrees trees)).Perm ((x, v) :: leavesOf (rowTrees trees')) := by
  obtain ⟨t, ht, hxt⟩ := List.mem_flatMap.mp hx
  obtain ⟨row, -, hrow⟩ := mem_rowTrees.mp ht
  obtain ⟨fs, rfl⟩ := exists_plug hxt
  cases fs with
  | nil =>
    obtain ⟨f', hrun, hrest⟩ := deleteId_root h hrow
    exact ⟨f', _, hrun, hrest⟩
  | cons p fs =>
    obtain ⟨f', hrun, hrest⟩ := deleteId_inner h hrow
    exact ⟨f', _, hrun, hrest⟩

theorem Represents.deleteId (h : Represents f trees) (hx : (x, v) ∈ leavesOf (rowTrees trees)) :
    ∃ f' trees', f.deleteId x = .ok (.ok (), f') ∧ Represents f' trees' ∧
      accumulatorOf f'.numLeaves trees' = (accumulatorOf f.numLeaves trees).delete v ∧
      (leavesOf (rowTrees trees)).Perm ((x, v) :: leavesOf (rowTrees trees')) := by
  obtain ⟨t, ht, hxt⟩ := List.mem_flatMap.mp hx
  obtain ⟨row, -, hrow⟩ := mem_rowTrees.mp ht
  obtain ⟨fs, rfl⟩ := exists_plug hxt
  have hhashes : ∀ {trees'}, (leavesOf (rowTrees trees)).Perm ((x, v) :: leavesOf (rowTrees trees')) →
      ((leavesOf (rowTrees trees')).map (·.2)).Nodup := fun hperm =>
    (List.nodup_cons.mp ((hperm.map (·.2)).nodup_iff.mp h.hashes)).2
  cases fs with
  | nil =>
    obtain ⟨f', hrun, hstr, hnum, hperm⟩ := deleteId_root h.toStructured hrow
    refine ⟨f', _, hrun, ⟨hstr, hhashes hperm⟩, ?_, hperm⟩
    rw [hnum, accumulatorOf_delete h hrow hxt (o := none)]
    simp [plug, toTree, Tree.prune]
  | cons p fs =>
    obtain ⟨f', hrun, hstr, hnum, hperm⟩ := deleteId_inner h.toStructured hrow
    refine ⟨f', _, hrun, ⟨hstr, hhashes hperm⟩, ?_, hperm⟩
    have hnodup : ((plug (p :: fs) (.leaf x v)).leaves.map (·.2)).Nodup := by
      have hall := h.hashes
      rw [leavesOf, List.map_flatMap] at hall
      exact (List.nodup_flatMap.mp hall).1 _ ht
    rw [hnum, accumulatorOf_delete h hrow hxt (o := some (plug fs p.sibling)) (prune_leaf hnodup)]

end DeleteId

end UtreexoBridge
