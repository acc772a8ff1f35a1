import UtreexoBridge.Checkpoint.Passes
import UtreexoBridge.Online.Import

/-!
# The forest of a compacted file

The loader imports the live nodes of the old file, in their order, under their
new ids. Its second loop does the same on both.
-/

namespace UtreexoBridge

open Bytes

variable {H : Type} [StoredHash H] [DecidableEq H]

/-! ## The second loop of `ReadForest` -/

theorem indexNodes_filter {a : NodeArena H} (ids : List Nat) (hids : ∀ id ∈ ids, id < a.next)
    (index : KeylessLeafIndex) (leafCount : Nat) :
    indexNodes a ids index leafCount = indexNodes a (ids.filter a.isLive) index leafCount := by
  induction ids generalizing index leafCount with
  | nil => rfl
  | cons id ids ih =>
    have hrest := fun i n => ih (fun x hx => hids x (by simp [hx])) i n
    rw [List.filter_cons]
    by_cases hlive : a.isLive id = true
    · rw [if_pos hlive, indexNodes, indexNodes]
      simp only [hrest]
    · rw [if_neg hlive]
      have hfree : (a.read id).type = .free := by
        by_contra hne
        exact hlive (NodeArena.isLive_iff.mpr (NodeArena.mem_liveIds.mpr ⟨hids id (by simp), hne⟩))
      rw [indexNodes, hfree]
      exact hrest index leafCount

theorem indexNodes_rename {m : Nat → Nat} {a b : NodeArena H} (h : Renumbered m a b) (ids : List Nat)
    (hids : ∀ id ∈ ids, id ∈ a.liveIds) (index : KeylessLeafIndex) (leafCount : Nat) :
    indexNodes b (ids.map m) (index.rename m) leafCount =
      (indexNodes a ids index leafCount).map (Except.map fun r => (r.1.rename m, r.2)) := by
  induction ids generalizing index leafCount with
  | nil => rfl
  | cons id ids ih =>
    have hid := hids id (by simp)
    have hrest := fun i n => ih (fun x hx => hids x (by simp [hx])) i n
    obtain ⟨-, hl, hr⟩ := h.links id hid
    rw [List.map_cons, indexNodes, indexNodes, h.read id hid]
    simp only [NodeRecord.renumber]
    cases (a.read id).type with
    | free => exact hrest _ _
    | other code => exact hrest _ _
    | leaf =>
      simp only [ne_eq, h.eq_none_iff hl, h.eq_none_iff hr, KeylessLeafIndex.insert_rename h]
      split_ifs
      · rfl
      · cases index.insert a (a.read id).hash id with
        | none => rfl
        | some grown => exact hrest _ _
    | branch =>
      simp only [h.eq_none_iff hl, h.eq_none_iff hr, h.isLive]
      by_cases hmissing : (a.read id).left = noNode ∨ (a.read id).right = noNode ∨ !a.isLive (a.read id).left ∨
          !a.isLive (a.read id).right
      · rw [if_pos hmissing, if_pos hmissing]
        rfl
      rw [if_neg hmissing, if_neg hmissing]
      simp only [not_or] at hmissing
      have hleft := hl.resolve_left hmissing.1
      have hright := hr.resolve_left hmissing.2.1
      have hparents : (((a.read (a.read id).left).renumber m).parent ≠ m id ∨
            ((a.read (a.read id).right).renumber m).parent ≠ m id) ↔
          ((a.read (a.read id).left).parent ≠ id ∨ (a.read (a.read id).right).parent ≠ id) :=
        or_congr (not_congr (h.eq_iff (h.links _ hleft).1 hid)) (not_congr (h.eq_iff (h.links _ hright).1 hid))
      have hhashes : parentHash ((a.read (a.read id).left).renumber m).hash ((a.read (a.read id).right).renumber m).hash ≠
            (a.read id).hash ↔
          parentHash (a.read (a.read id).left).hash (a.read (a.read id).right).hash ≠ (a.read id).hash := Iff.rfl
      simp only [h.read _ hleft, h.read _ hright, hparents, hhashes]
      by_cases hparent : (a.read (a.read id).left).parent ≠ id ∨ (a.read (a.read id).right).parent ≠ id
      · rw [if_pos hparent, if_pos hparent]
        rfl
      rw [if_neg hparent, if_neg hparent]
      by_cases hhash : parentHash (a.read (a.read id).left).hash (a.read (a.read id).right).hash ≠ (a.read id).hash
      · rw [if_pos hhash, if_pos hhash]
        rfl
      · rw [if_neg hhash, if_neg hhash]
        exact hrest _ _

/-! ## The imported nodes -/

open RawNode

omit [DecidableEq H]

def rawArena (nodes : List RawNode) : NodeArena H := importNodes 0 .new (nodes.map RawNode.value)

variable {nodes : List RawNode}

theorem rawArena_imported (nodes : List RawNode) :
    Imported ((nodes.map RawNode.value).getD · zeroRecord) nodes.length (rawArena nodes : NodeArena H) := by
  have himp := imported_importNodes (nodes.map (RawNode.value (H := H)))
    (imported_new ((nodes.map RawNode.value).getD · zeroRecord)) fun i hi => by
      rw [Nat.zero_add, List.getD_eq_getElem?_getD, List.getElem?_eq_getElem hi, Option.getD_some]
  rwa [Nat.zero_add, List.length_map] at himp

theorem rawArena_next (nodes : List RawNode) : (rawArena nodes : NodeArena H).next = nodes.length :=
  (rawArena_imported nodes).next_eq

theorem rawArena_read {id : Nat} {r : RawNode} (hr : nodes[id]? = some r) :
    (rawArena nodes : NodeArena H).read id = r.value := by
  have hlt := (List.getElem?_eq_some_iff.mp hr).1
  rw [(rawArena_imported nodes).read_eq id hlt, List.getD_eq_getElem?_getD, List.getElem?_map, hr, Option.map_some,
    Option.getD_some]

theorem rawArena_live {id : Nat} :
    id ∈ (rawArena nodes : NodeArena H).liveIds ↔ ∃ r, nodes[id]? = some r ∧ r.live = true := by
  rw [NodeArena.mem_liveIds, rawArena_next]
  constructor
  · rintro ⟨hlt, htype⟩
    have hr := List.getElem?_eq_getElem hlt
    rw [rawArena_read hr] at htype
    exact ⟨_, hr, live_iff.mpr htype⟩
  · rintro ⟨r, hr, hlive⟩
    refine ⟨(List.getElem?_eq_some_iff.mp hr).1, ?_⟩
    rw [rawArena_read hr]
    exact live_iff.mp hlive

theorem rawArena_kept (hslots : nodes.length < noNode) {link : Nat} :
    (rawArena nodes : NodeArena H).LinkLive link ↔ LinkKept nodes link := by
  rw [NodeArena.LinkLive, LinkKept, rawArena_live, newId_ne_iff hslots]

theorem renumbered_compacted (hslots : nodes.length < noNode)
    (hkept : ∀ r ∈ nodes, r.live = true → LinksKept nodes r) :
    Renumbered (newId nodes) (rawArena nodes : NodeArena H) (rawArena (compacted nodes)) := by
  have hread : ∀ {id : Nat} {r : RawNode}, nodes[id]? = some r → r.live = true →
      (rawArena (compacted nodes) : NodeArena H).read (newId nodes id) = (r.value (H := H)).renumber (newId nodes) := by
    intro id r hr hlive
    rw [rawArena_read (newId_of_live hr hlive).1]
    rfl
  refine ⟨?_, newId_noNode hslots, fun id => ?_, fun id hid => ?_, fun x hx y hy hxy => ?_, fun id hid => ?_⟩
  · rw [rawArena_next]
    exact hslots.le
  · have hsource : id ∈ (rawArena nodes : NodeArena H).liveIds ↔ _ := rawArena_live
    rw [Bool.eq_iff_iff, NodeArena.isLive_iff, NodeArena.isLive_iff, hsource]
    constructor
    · intro hmem
      rw [← newId_ne_iff hslots]
      intro hnone
      rw [hnone, NodeArena.mem_liveIds, rawArena_next, length_compacted] at hmem
      have := hmem.1
      have := liveCount_le nodes
      omega
    · rintro ⟨r, hr, hlive⟩
      rw [NodeArena.mem_liveIds, rawArena_next, length_compacted, hread hr hlive]
      exact ⟨(newId_of_live hr hlive).2, live_iff.mp hlive⟩
  · obtain ⟨r, hr, hlive⟩ := rawArena_live.mp hid
    rw [hread hr hlive, rawArena_read hr]
  · exact Numbering.number_inj 0 (Numbering.mem_kept.mpr (rawArena_live.mp hx)) (Numbering.mem_kept.mpr (rawArena_live.mp hy)) hxy
  · obtain ⟨r, hr, hlive⟩ := rawArena_live.mp hid
    obtain ⟨hp, hl, hright⟩ := hkept r (List.mem_of_getElem? hr) hlive
    rw [rawArena_read hr]
    exact ⟨(rawArena_kept hslots).mpr hp, (rawArena_kept hslots).mpr hl, (rawArena_kept hslots).mpr hright⟩

theorem range_liveCount (nodes : List RawNode) :
    ((List.range nodes.length).filter (rawArena nodes : NodeArena H).isLive).map (newId nodes) =
      List.range (liveCount nodes) := by
  have hkept : (List.range nodes.length).filter (rawArena nodes : NodeArena H).isLive = Numbering.kept live nodes := by
    rw [Numbering.kept]
    refine List.filter_congr fun id _ => ?_
    rw [Bool.eq_iff_iff, NodeArena.isLive_iff, rawArena_live, Option.any_eq_true]
  rw [hkept, List.range_eq_range']
  exact Numbering.map_kept live noNode 0 nodes

theorem card_liveIds (nodes : List RawNode) : (rawArena nodes : NodeArena H).liveIds.card = liveCount nodes := by
  have hset : (rawArena nodes : NodeArena H).liveIds =
      ((List.range nodes.length).filter (rawArena nodes : NodeArena H).isLive).toFinset := by
    ext id
    rw [List.mem_toFinset, List.mem_filter, List.mem_range, NodeArena.isLive_iff, ← rawArena_next (H := H) nodes]
    exact ⟨fun h => ⟨(NodeArena.mem_liveIds.mp h).1, h⟩, fun h => h.2⟩
  rw [hset, List.toFinset_card_of_nodup (List.nodup_range.filter _),
    ← List.length_map (newId nodes), range_liveCount, List.length_range]

theorem freeIds_compacted (nodes : List RawNode) : (rawArena (compacted nodes) : NodeArena H).freeIds = ∅ := by
  rw [Finset.eq_empty_iff_forall_notMem]
  intro id hid
  obtain ⟨hlt, hfree⟩ := NodeArena.mem_freeIds.mp hid
  rw [rawArena_next] at hlt
  rw [rawArena_read (List.getElem?_eq_getElem hlt)] at hfree
  exact live_iff.mp (live_of_compacted (List.getElem_mem hlt)) hfree

theorem rawArena_books (hslots : nodes.length ≤ noNode) : (rawArena nodes : NodeArena H).Bookkeeping := by
  have himp := rawArena_imported (H := H) nodes
  refine ⟨by rw [himp.next_eq]; exact hslots, ?_, ?_⟩
  · rw [himp.live_eq, NodeArena.liveIds, himp.next_eq]
    refine congrArg Finset.card (Finset.filter_congr fun id hid => ?_)
    rw [himp.read_eq id (Finset.mem_range.mp hid)]
  · unfold NodeArena.FreeExact
    rw [himp.ram, if_neg (by simp)]
    refine ⟨himp.nodup, ?_⟩
    ext id
    rw [List.mem_toFinset, himp.free_iff, NodeArena.mem_freeIds, himp.next_eq]
    exact and_congr_right fun hlt => by rw [himp.read_eq id hlt]

theorem rootAt_rootVector (roots : List Nat) (row : Nat) :
    rootAt (rootVector roots) row = if row < 64 then (roots[row]?).getD noNode else noNode := by
  unfold rootAt rootVector
  by_cases hrow : row < 64
  · rw [Vector.getElem?_eq_getElem hrow, Option.getD_some, Vector.getElem_ofFn, if_pos hrow]
  · rw [Vector.getElem?_eq_none (by omega), Option.getD_none, if_neg hrow]

/-! ## The loaded forests -/

variable [DecidableEq H] {leaves : Nat} {roots : List Nat} {f : PackedForest H} {rest : List UInt8}

section

variable (hheader : ForestHeaderValid leaves nodes.length roots) (hvalid : ∀ r ∈ nodes, r.Valid nodes.length)
include hheader hvalid

omit [DecidableEq H] in
theorem readSections_raw (rest : List UInt8) :
    readSections (H := H) (forestHeader leaves nodes.length roots ++ (nodes.flatMap encode ++ rest)) =
      .ok ((leaves, nodes.length, roots, rawArena nodes), rest) :=
  readSections_iff.mpr ⟨nodes.map RawNode.value, ⟨nodes.flatMap encode ++ rest, parses_forestHeader hheader _,
    parses_rawNodes hheader.slots_lt hvalid rest⟩, rfl⟩

theorem readForest_raw_iff (rest' : List UInt8) :
    readForest (forestHeader leaves nodes.length roots ++ (nodes.flatMap encode ++ rest)) = .ok (.ok (f, rest')) ↔
      ∃ index : KeylessLeafIndex,
        indexNodes (rawArena nodes : NodeArena H) (List.range nodes.length) .new 0 = .ok (.ok (index, index.size)) ∧
          f = ⟨rawArena nodes, index, rootVector roots, leaves⟩ ∧ rest' = rest := by
  unfold readForest
  rw [readSections_raw hheader hvalid]
  simp only
  cases hrun : indexNodes (rawArena nodes : NodeArena H) (List.range nodes.length) .new 0 with
  | error fault =>
    constructor
    · intro h
      cases h
    · rintro ⟨index, h, -⟩
      cases h
  | ok result =>
    cases result with
    | error message =>
      constructor
      · intro h
        cases h
      · rintro ⟨index, h, -⟩
        cases h
    | ok result =>
      obtain ⟨index, leafCount⟩ := result
      simp only
      by_cases hcount : leafCount = index.size
      · rw [if_neg (not_not.mpr hcount)]
        constructor
        · intro h
          cases h
          exact ⟨index, by rw [hcount], rfl, rfl⟩
        · rintro ⟨index', h, rfl, rfl⟩
          cases h
          rfl
      · rw [if_pos hcount]
        constructor
        · intro h
          cases h
        · rintro ⟨index', h, -⟩
          cases h
          exact absurd rfl hcount

end

theorem readForest_compacted (hheader : ForestHeaderValid leaves nodes.length roots)
    (hvalid : ∀ r ∈ nodes, r.Valid nodes.length) (hkept : ∀ r ∈ nodes, r.live = true → LinksKept nodes r)
    (hroots : ∀ root ∈ roots, LinkKept nodes root)
    (h : readForest (forestHeader leaves nodes.length roots ++ (nodes.flatMap encode ++ rest)) = .ok (.ok (f, rest)))
    (rest' : List UInt8) :
    ∃ g : PackedForest H, readForest (forestHeader leaves (liveCount nodes) (roots.map (newId nodes)) ++
        ((compacted nodes).flatMap encode ++ rest')) = .ok (.ok (g, rest')) ∧
      f.Renumbered (newId nodes) g ∧ g.arena = rawArena (compacted nodes) := by
  have hslots := hheader.slots_lt
  have hren : Renumbered (newId nodes) (rawArena nodes : NodeArena H) _ := renumbered_compacted hslots hkept
  have hheader' : ForestHeaderValid leaves (compacted nodes).length (roots.map (newId nodes)) := by
    rw [length_compacted]
    refine ⟨hheader.leaves_lt, lt_of_le_of_lt (liveCount_le nodes) hslots, by rw [List.length_map, hheader.length_roots], ?_⟩
    intro root hroot
    obtain ⟨old, hold, rfl⟩ := List.mem_map.mp hroot
    exact newId_le hslots (hroots old hold)
  have hvalid' : ∀ r ∈ compacted nodes, r.Valid (compacted nodes).length := by
    rw [length_compacted]
    exact compacted_valid hslots hvalid hkept
  -- the second loop of both files
  have hindexed : indexNodes (rawArena (compacted nodes) : NodeArena H) (List.range (compacted nodes).length) .new 0 =
      (indexNodes (rawArena nodes : NodeArena H) (List.range nodes.length) .new 0).map
        (Except.map fun r => (r.1.rename (newId nodes), r.2)) := by
    rw [indexNodes_filter (a := rawArena nodes) _ fun id hid => by rw [rawArena_next]; exact List.mem_range.mp hid,
      ← indexNodes_rename hren _ (fun id hid => NodeArena.isLive_iff.mp (List.mem_filter.mp hid).2), length_compacted,
      range_liveCount]
    rfl
  obtain ⟨index, hrun, rfl, -⟩ := (readForest_raw_iff hheader hvalid _).mp h
  rw [hrun] at hindexed
  have hread := (readForest_raw_iff hheader' hvalid' rest').mpr ⟨index.rename (newId nodes), hindexed, rfl, rfl⟩
  rw [length_compacted] at hread
  refine ⟨_, hread, ⟨hren, rfl, fun row => ?_, fun row => ?_, rfl⟩, rfl⟩
  · simp only [rootAt_rootVector, List.getElem?_map]
    split_ifs
    · cases roots[row]? with
      | none => exact (newId_noNode hslots).symm
      | some root => rfl
    · exact (newId_noNode hslots).symm
  · rw [rootAt_rootVector, rawArena_kept hslots]
    split_ifs
    · cases hroot : roots[row]? with
      | none => exact Or.inl rfl
      | some root => exact hroots root (List.mem_of_getElem? hroot)
    · exact Or.inl rfl

end UtreexoBridge
