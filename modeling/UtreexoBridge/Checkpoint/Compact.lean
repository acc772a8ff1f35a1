import UtreexoBridge.Checkpoint.Nodes
import UtreexoBridge.Wal.RoundTrip

/-!
# Compaction keeps the checkpoint

Whatever forest a checkpoint holds, as long as the loader takes it: the
compactor ends with an error if a live node or a root names a free slot, and
otherwise writes a checkpoint that cannot be told apart from the old one.
-/

namespace UtreexoBridge

open Bytes RawNode

/-! ## Checkpoints in parts -/

structure RawCheckpoint where
  height : Nat
  blockHash : List UInt8
  chains : Nat
  chainBytes : List UInt8
  leaves : Nat
  roots : List Nat
  nodes : List RawNode

namespace RawCheckpoint

variable (c : RawCheckpoint)

def header : List UInt8 := rawHeader c.height c.blockHash c.chains c.chainBytes

def forest : List UInt8 := forestHeader c.leaves c.nodes.length c.roots ++ c.nodes.flatMap encode

def payload : List UInt8 := c.header ++ c.forest

def file : List UInt8 := appendChecksum c.payload

def trailer : List UInt8 := appendUnsigned 8 (checksum c.payload)

structure Valid : Prop where
  header : RawHeaderValid c.height c.blockHash c.chains c.chainBytes
  forest : ForestHeaderValid c.leaves c.nodes.length c.roots
  nodes : ∀ r ∈ c.nodes, r.Valid c.nodes.length

def compacted : RawCheckpoint := { c with roots := c.roots.map (newId c.nodes), nodes := RawNode.compacted c.nodes }

/-- No live node and no root names a free slot. -/
structure Kept : Prop where
  roots : ∀ root ∈ c.roots, LinkKept c.nodes root
  links : ∀ r ∈ c.nodes, r.live = true → LinksKept c.nodes r

variable {c}

theorem file_eq : c.file = c.header ++ (forestHeader c.leaves c.nodes.length c.roots ++ (c.nodes.flatMap encode ++ c.trailer)) := by
  simp only [file, appendChecksum, payload, forest, trailer, List.append_assoc]

theorem Valid.compacted (h : c.Valid) (hkept : c.Kept) : c.compacted.Valid := by
  have hslots := h.forest.slots_lt
  refine ⟨h.header, ⟨h.forest.leaves_lt, ?_, (List.length_map _).trans h.forest.length_roots, ?_⟩, ?_⟩
  · show (RawNode.compacted c.nodes).length < noNode
    rw [length_compacted]
    exact lt_of_le_of_lt (liveCount_le _) hslots
  · intro root hroot
    obtain ⟨old, hold, rfl⟩ := List.mem_map.mp hroot
    show linkValid (RawNode.compacted c.nodes).length _
    rw [length_compacted]
    exact newId_le hslots (hkept.roots old hold)
  · show ∀ r ∈ RawNode.compacted c.nodes, r.Valid (RawNode.compacted c.nodes).length
    rw [length_compacted]
    exact compacted_valid hslots h.nodes hkept.links

end RawCheckpoint

/-! ## The compactor's parser -/

namespace Compact

variable {c : RawCheckpoint}

theorem reads_skip (front : List UInt8) : Reads (skip front.length) front () := fun _ =>
  skip_iff.mpr ⟨front, rfl, rfl⟩

theorem reads_roots {slots : Nat} (hslots : slots < noNode) {roots : List Nat} (h : ∀ root ∈ roots, linkValid slots root) :
    Reads (readMany (parseRoot slots) roots.length) (roots.flatMap (appendUnsigned 4)) roots :=
  reads_many fun root hroot => (reads_unsigned ((h root hroot).lt hslots)).bind_last
    ((reads_guard (h root hroot)).bind_nil (reads_pure _))

theorem reads_header (h : c.Valid) : Reads parseHeader (c.header ++ forestHeader c.leaves c.nodes.length c.roots)
    ⟨c.header.length, c.nodes.length, c.leaves, c.roots⟩ := by
  have hroots := reads_roots h.forest.slots_lt h.forest.roots_valid
  rw [h.forest.length_roots] at hroots
  have hhash := reads_skip c.blockHash
  rw [h.header.length_hash] at hhash
  have hchains := reads_skip c.chainBytes
  rw [h.header.length_chains] at hchains
  have hlength : c.header.length = 8 + 4 + 4 + 32 + 8 + c.chains * 32 := by
    simp only [RawCheckpoint.header, rawHeader, List.length_append, length_appendUnsigned, h.header.length_hash,
      h.header.length_chains]
    simp only [checkpointMagic, List.length_cons, List.length_nil]
    omega
  have hslots : c.nodes.length < 256 ^ 8 := by
    have := h.forest.slots_lt
    have := noNode_lt
    norm_num at this ⊢
    omega
  rw [hlength]
  unfold parseHeader RawCheckpoint.header rawHeader forestHeader
  simp only [List.append_assoc]
  refine (reads_bytes checkpointMagic).bind ?_
  refine (reads_guard rfl).bind_nil ?_
  refine (reads_unsigned (by decide)).bind ?_
  refine (reads_guard rfl).bind_nil ?_
  refine (reads_unsigned h.header.height_lt).bind ?_
  refine hhash.bind ?_
  refine (reads_unsigned h.header.chains_lt).bind ?_
  refine (reads_guard h.header.chains_le).bind_nil ?_
  refine hchains.bind ?_
  refine (reads_bytes forestMagic).bind ?_
  refine (reads_guard rfl).bind_nil ?_
  refine (reads_unsigned (by decide)).bind ?_
  refine (reads_unsigned h.forest.leaves_lt).bind ?_
  refine (reads_unsigned hslots).bind ?_
  refine (reads_guard ⟨rfl, h.forest.slots_lt⟩).bind_nil ?_
  exact hroots.bind_last (reads_pure _)

theorem parseHeader_file (h : c.Valid) :
    parseHeader c.file = some (⟨c.header.length, c.nodes.length, c.leaves, c.roots⟩, c.nodes.flatMap encode ++ c.trailer) := by
  rw [RawCheckpoint.file_eq, ← List.append_assoc]
  exact reads_header h _

/-! ## The hashes of the roots -/

theorem drop_nodes {slots : Nat} (nodes : List RawNode) (hvalid : ∀ r ∈ nodes, r.Valid slots) {rest : List UInt8} {id : Nat}
    (hid : id ≤ nodes.length) :
    (nodes.flatMap encode ++ rest).drop (id * recordBytes) = (nodes.drop id).flatMap encode ++ rest := by
  induction nodes generalizing id with
  | nil =>
    rw [Nat.le_zero.mp hid, Nat.zero_mul]
    rfl
  | cons r nodes ih =>
    cases id with
    | zero =>
      rw [Nat.zero_mul]
      rfl
    | succ id =>
      rw [List.flatMap_cons, List.append_assoc, Nat.succ_mul, Nat.add_comm, ← List.drop_drop,
        List.drop_left' (hvalid r (by simp)).length_encode, List.drop_succ_cons]
      exact ih (fun s hs => hvalid s (by simp [hs])) (Nat.le_of_succ_le_succ hid)

theorem hashAt_nodes {slots : Nat} {nodes : List RawNode} (hvalid : ∀ r ∈ nodes, r.Valid slots) (rest : List UInt8) {id : Nat}
    {r : RawNode} (hr : nodes[id]? = some r) : hashAt (nodes.flatMap encode ++ rest) id = some r.hash := by
  obtain ⟨hlt, hget⟩ := List.getElem?_eq_some_iff.mp hr
  have hdrop : nodes.drop id = r :: nodes.drop (id + 1) := by
    rw [List.drop_eq_getElem_cons hlt, hget]
  have hread := reads_bytes r.hash
  rw [(hvalid r (List.mem_of_getElem? hr)).hash] at hread
  unfold hashAt
  rw [← List.drop_drop, drop_nodes nodes hvalid hlt.le, hdrop, List.flatMap_cons, List.append_assoc, encode,
    List.append_assoc, List.drop_left' (length_appendUnsigned 1 _), List.append_assoc, hread]
  rfl

theorem rootHashesMatch_compacted (h : c.Valid) (hkept : c.Kept) :
    rootHashesMatch c.file ⟨c.header.length, c.nodes.length, c.leaves, c.roots⟩ c.compacted.file (newIds c.nodes) = true := by
  have hslots := h.forest.slots_lt
  have hcompacted := h.compacted hkept
  unfold rootHashesMatch
  rw [parseHeader_file h, parseHeader_file hcompacted]
  simp only [List.all_eq_true]
  intro root hroot
  by_cases hnone : root = noNode
  · simp [hnone]
  obtain ⟨r, hr, hlive⟩ := (newId_ne_iff hslots).mp ((hkept.roots root hroot).resolve_left hnone)
  have hnew := hashAt_nodes hcompacted.nodes c.compacted.trailer (newId_of_live hr hlive).1
  rw [hashAt_nodes h.nodes _ hr]
  simp only [hnone, decide_false, Option.isSome_some, Bool.true_and, Bool.false_or, decide_eq_true_eq]
  exact hnew.symm

/-! ## The whole run -/

theorem take_header (c : RawCheckpoint) : c.file.take c.header.length = c.header := by
  rw [RawCheckpoint.file_eq, List.take_left]

theorem intact_appendChecksum (payload : List UInt8) :
    ¬(appendChecksum payload).length < 8 ∧
      checksum ((appendChecksum payload).take ((appendChecksum payload).length - 8)) =
        valueOf ((appendChecksum payload).drop ((appendChecksum payload).length - 8)) := by
  have hlength : (appendChecksum payload).length = payload.length + 8 := by
    rw [appendChecksum, List.length_append, length_appendUnsigned]
  rw [hlength, Nat.add_sub_cancel]
  unfold appendChecksum
  rw [List.take_left, List.drop_left, valueOf_appendUnsigned 8 _ (checksum_lt payload)]
  exact ⟨by omega, rfl⟩

theorem output_eq (h : c.Valid) {live : Nat} (hlive : live = liveCount c.nodes) :
    output c.file ⟨c.header.length, c.nodes.length, c.leaves, c.roots⟩ (newIds c.nodes) live
      ((RawNode.compacted c.nodes).flatMap encode) = c.compacted.file := by
  have hslots := h.forest.slots_lt
  have hroots : c.roots.flatMap (fun root => appendUnsigned 4 (if root = noNode then noNode else (newIds c.nodes).getD root noNode)) =
      (c.roots.map (newId c.nodes)).flatMap (appendUnsigned 4) := by
    rw [List.flatMap_map]
    refine List.flatMap_congr fun root _ => ?_
    by_cases hnone : root = noNode
    · rw [if_pos hnone, hnone, newId_noNode hslots]
    · rw [if_neg hnone]
      rfl
  subst hlive
  unfold output RawCheckpoint.file RawCheckpoint.payload RawCheckpoint.forest forestHeader
  rw [hroots]
  show appendChecksum (c.file.take c.header.length ++ _) = _
  rw [take_header]
  simp only [RawCheckpoint.compacted, length_compacted, List.append_assoc]
  rfl

theorem mapNodes_file (h : c.Valid) : mapNodes c.nodes.length 0 (c.nodes.flatMap encode ++ c.trailer) =
    some ((newIds c.nodes, liveCount c.nodes), c.trailer) := by
  rw [reads_mapNodes h.nodes 0, Nat.zero_add]
  rfl

theorem intact_file (c : RawCheckpoint) : ¬c.file.length < 8 ∧
    checksum (c.file.take (c.file.length - 8)) = valueOf (c.file.drop (c.file.length - 8)) := intact_appendChecksum c.payload

theorem compact_ok (h : c.Valid) (hne : c.nodes ≠ []) (hkept : c.Kept) : compactCheckpoint c.file = .ok c.compacted.file := by
  have hroots : ¬∃ root ∈ c.roots, root ≠ noNode ∧ (newIds c.nodes).getD root noNode = noNode := by
    rintro ⟨root, hroot, hnone, hfree⟩
    exact (hkept.roots root hroot).elim hnone fun hk => hk hfree
  have hpass : remapNodes (newIds c.nodes) c.nodes.length (c.nodes.flatMap encode ++ c.trailer) =
      .ok ((RawNode.compacted c.nodes).flatMap encode, c.trailer) :=
    parses_remapNodes h.forest.slots_lt h.nodes hkept.links c.trailer
  have hlength : c.nodes.length ≠ 0 := by simpa using hne
  unfold compactCheckpoint
  rw [if_neg (intact_file c).1, if_neg (not_not.mpr (intact_file c).2), parseHeader_file h]
  simp only [mapNodes_file h, if_neg hlength, if_neg hroots, hpass]
  rw [output_eq h rfl, if_pos (rootHashesMatch_compacted h hkept)]

theorem compact_error (h : c.Valid) (hno : ¬(c.nodes ≠ [] ∧ c.Kept)) : ∃ message, compactCheckpoint c.file = .error message := by
  unfold compactCheckpoint
  rw [if_neg (intact_file c).1, if_neg (not_not.mpr (intact_file c).2), parseHeader_file h]
  by_cases hempty : c.nodes.length = 0
  · simp only [if_pos hempty]
    exact ⟨_, rfl⟩
  simp only [if_neg hempty, mapNodes_file h]
  by_cases hroots : ∃ root ∈ c.roots, root ≠ noNode ∧ (newIds c.nodes).getD root noNode = noNode
  · simp only [if_pos hroots]
    exact ⟨_, rfl⟩
  have hlost : ∃ r ∈ c.nodes, r.live = true ∧ ¬LinksKept c.nodes r := by
    by_contra hall
    push Not at hall
    refine hno ⟨fun hnil => hempty (by rw [hnil]; rfl), ⟨fun root hroot => ?_, hall⟩⟩
    by_cases hnone : root = noNode
    · exact Or.inl hnone
    · exact Or.inr fun hfree => hroots ⟨root, hroot, hnone, hfree⟩
  obtain ⟨message, hrun⟩ := fails_remapNodes h.forest.slots_lt h.nodes hlost c.trailer
  simp only [if_neg hroots, hrun]
  exact ⟨message, rfl⟩

/-! ## Compacting twice -/

theorem newId_compacted {nodes : List RawNode} {id : Nat} (hid : id < liveCount nodes) :
    newId (RawNode.compacted nodes) id = id := by
  have hall : ∀ r ∈ RawNode.compacted nodes, r.live = true := fun r hr => live_of_compacted hr
  have hlength : id < (RawNode.compacted nodes).length := lt_of_lt_of_eq hid (length_compacted nodes).symm
  exact (Numbering.number_of_all 0 hall hlength).trans (Nat.zero_add id)

end Compact

namespace RawCheckpoint

variable {c : RawCheckpoint} (h : c.Valid)
include h

theorem newId_compacted_link {link : Nat} (hlink : linkValid (liveCount c.nodes) link) :
    newId (RawNode.compacted c.nodes) link = link := by
  rcases hlink with rfl | hlt
  · refine newId_noNode ?_
    rw [length_compacted]
    exact lt_of_le_of_lt (liveCount_le _) h.forest.slots_lt
  · exact Compact.newId_compacted hlt

variable (hkept : c.Kept)
include hkept

theorem kept_compacted : c.compacted.Kept := by
  have hlink : ∀ {link}, linkValid (liveCount c.nodes) link → LinkKept (RawNode.compacted c.nodes) link := by
    intro link hvalid
    rcases hvalid with rfl | hlt
    · exact Or.inl rfl
    · refine Or.inr ?_
      rw [Compact.newId_compacted hlt]
      have := liveCount_le c.nodes
      have := h.forest.slots_lt
      omega
  have hvalid := h.compacted hkept
  have hlength : c.compacted.nodes.length = liveCount c.nodes := length_compacted c.nodes
  refine ⟨fun root hroot => hlink ?_, fun r hr _ => ?_⟩
  · rw [← hlength]
    exact hvalid.forest.roots_valid root hroot
  · obtain ⟨hp, hl, hright⟩ := (hvalid.nodes r hr).links
    rw [hlength] at hp hl hright
    exact ⟨hlink hp, hlink hl, hlink hright⟩

theorem compacted_compacted : c.compacted.compacted = c.compacted := by
  have hvalid := h.compacted hkept
  have hlength : c.compacted.nodes.length = liveCount c.nodes := length_compacted c.nodes
  have hall : (RawNode.compacted c.nodes).filter live = RawNode.compacted c.nodes := by
    rw [List.filter_eq_self]
    exact fun r hr => live_of_compacted hr
  have hroots : c.compacted.roots.map (newId (RawNode.compacted c.nodes)) = c.compacted.roots := by
    refine (List.map_congr_left fun root hroot => ?_).trans (List.map_id _)
    refine newId_compacted_link h ?_
    rw [← hlength]
    exact hvalid.forest.roots_valid root hroot
  have hnodes : RawNode.compacted (RawNode.compacted c.nodes) = RawNode.compacted c.nodes := by
    have hmap : (RawNode.compacted c.nodes).map (NodeRecord.renumber (newId (RawNode.compacted c.nodes))) =
        RawNode.compacted c.nodes := by
      refine (List.map_congr_left fun r hr => ?_).trans (List.map_id _)
      obtain ⟨hp, hl, hright⟩ := (hvalid.nodes r hr).links
      rw [hlength] at hp hl hright
      simp only [NodeRecord.renumber, newId_compacted_link h hp, newId_compacted_link h hl,
        newId_compacted_link h hright, id_eq]
    exact (congrArg (List.map _) hall).trans hmap
  exact congrArg₂ (fun roots nodes => ({ c.compacted with roots, nodes } : RawCheckpoint)) hroots hnodes

end RawCheckpoint

end UtreexoBridge
