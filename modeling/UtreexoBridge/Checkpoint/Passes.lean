import UtreexoBridge.Checkpoint.Files
import UtreexoBridge.Forest.Renumber
import UtreexoBridge.Numbering

/-!
# The two passes of the compactor

On the bytes of well formed nodes: the first pass numbers the live ones, the
second writes them with their links renumbered, or meets a link to a free slot.
-/

namespace UtreexoBridge

open Bytes

namespace RawNode

def live (r : RawNode) : Bool := r.type ≠ .free

def newIds (nodes : List RawNode) : List Nat := Numbering.numberFrom live noNode 0 nodes

def newId (nodes : List RawNode) (id : Nat) : Nat := (newIds nodes).getD id noNode

def compacted (nodes : List RawNode) : List RawNode := (nodes.filter live).map (NodeRecord.renumber (newId nodes))

def liveCount (nodes : List RawNode) : Nat := (nodes.filter live).length

/-- The link is `NO_NODE` or that of a node that is kept. -/
def LinkKept (nodes : List RawNode) (link : Nat) : Prop := link = noNode ∨ newId nodes link ≠ noNode

instance (nodes : List RawNode) (link : Nat) : Decidable (LinkKept nodes link) := inferInstanceAs (Decidable (_ ∨ _))

def LinksKept (nodes : List RawNode) (r : RawNode) : Prop :=
  LinkKept nodes r.parent ∧ LinkKept nodes r.left ∧ LinkKept nodes r.right

instance (nodes : List RawNode) (r : RawNode) : Decidable (LinksKept nodes r) := inferInstanceAs (Decidable (_ ∧ _))

variable {slots : Nat} {nodes : List RawNode} {r : RawNode}

@[simp] theorem length_newIds (nodes : List RawNode) : (newIds nodes).length = nodes.length :=
  Numbering.length_numberFrom ..

theorem live_iff : r.live = true ↔ r.type ≠ .free := by simp [live]

theorem newId_of_le {id : Nat} (h : nodes.length ≤ id) : newId nodes id = noNode := by
  rw [newId, List.getD_eq_getElem?_getD, List.getElem?_eq_none (by simpa using h), Option.getD_none]

theorem newId_of_live {id : Nat} (hr : nodes[id]? = some r) (hlive : r.live = true) :
    (compacted nodes)[newId nodes id]? = some (r.renumber (newId nodes)) ∧ newId nodes id < liveCount nodes := by
  obtain ⟨k, hnumber, hget⟩ : ∃ k, newId nodes id = 0 + k ∧ (nodes.filter live)[k]? = some r :=
    Numbering.number_of_kept 0 hr hlive
  have hid : newId nodes id = k := hnumber.trans (Nat.zero_add k)
  refine ⟨?_, ?_⟩
  · rw [hid, compacted, List.getElem?_map, hget, Option.map_some]
  · rw [hid]
    exact (List.getElem?_eq_some_iff.mp hget).1

theorem liveCount_le (nodes : List RawNode) : liveCount nodes ≤ nodes.length := List.length_filter_le ..

theorem newId_ne_iff (hslots : nodes.length < noNode) {id : Nat} :
    newId nodes id ≠ noNode ↔ ∃ r, nodes[id]? = some r ∧ r.live = true := by
  constructor
  · intro h
    rw [← Numbering.mem_kept]
    by_contra hno
    exact h (Numbering.number_of_not_kept 0 hno)
  · rintro ⟨r, hr, hlive⟩
    have := (newId_of_live hr hlive).2
    have := liveCount_le nodes
    omega

theorem newId_noNode (hslots : nodes.length < noNode) : newId nodes noNode = noNode := newId_of_le (by omega)

theorem newId_le (hslots : nodes.length < noNode) {link : Nat} (h : LinkKept nodes link) :
    linkValid (liveCount nodes) (newId nodes link) := by
  rcases h with rfl | h
  · exact Or.inl (newId_noNode hslots)
  · obtain ⟨r, hr, hlive⟩ := (newId_ne_iff hslots).mp h
    exact Or.inr (newId_of_live hr hlive).2

theorem compacted_valid (hslots : nodes.length < noNode) (hvalid : ∀ r ∈ nodes, r.Valid slots)
    (hkept : ∀ r ∈ nodes, r.live = true → LinksKept nodes r) : ∀ r ∈ compacted nodes, r.Valid (liveCount nodes) := by
  intro r hr
  obtain ⟨s, hs, rfl⟩ := List.mem_map.mp hr
  obtain ⟨hs, hlive⟩ := List.mem_filter.mp hs
  obtain ⟨hp, hl, hr⟩ := hkept s hs hlive
  exact ⟨(hvalid s hs).hash, ⟨newId_le hslots hp, newId_le hslots hl, newId_le hslots hr⟩, (hvalid s hs).type⟩

@[simp] theorem length_compacted (nodes : List RawNode) : (compacted nodes).length = liveCount nodes := List.length_map ..

theorem live_of_compacted (h : r ∈ compacted nodes) : r.live = true := by
  obtain ⟨s, hs, rfl⟩ := List.mem_map.mp h
  exact (List.mem_filter.mp hs).2

/-! ## The first pass -/

theorem headD_encode (r : RawNode) : r.encode.headD 0 = UInt8.ofNat (r.type.code % 256) := rfl

theorem Valid.head (h : r.Valid slots) : r.encode.headD 0 ≤ 2 ∧ (r.encode.headD 0 = 0 ↔ r.live = false) := by
  rw [headD_encode, live]
  rcases h.type with ht | ht | ht <;> rw [ht] <;> decide

theorem Valid.reads_bytes (h : r.Valid slots) : Reads (readBytes recordBytes) r.encode r.encode := by
  rw [← h.length_encode]
  exact Bytes.reads_bytes _

end RawNode

namespace Compact

open RawNode

variable {slots : Nat} {nodes : List RawNode} {r : RawNode}

theorem reads_mapNodes (hvalid : ∀ r ∈ nodes, r.Valid slots) (n : Nat) :
    Reads (mapNodes nodes.length n) (nodes.flatMap encode)
      (Numbering.numberFrom live noNode n nodes, n + liveCount nodes) := by
  induction nodes generalizing n with
  | nil => exact reads_pure _
  | cons r nodes ih =>
    have hr := hvalid r (by simp)
    obtain ⟨hle, hzero⟩ := hr.head
    have hrest := fun n => ih (fun s hs => hvalid s (by simp [hs])) n
    rw [List.flatMap_cons, List.length_cons, mapNodes]
    refine hr.reads_bytes.bind ((reads_guard hle).bind_nil ?_)
    rw [Numbering.numberFrom, liveCount, List.filter_cons]
    cases hlive : r.live with
    | false =>
      rw [if_pos (hzero.mpr hlive), if_neg (by simp), if_neg (by simp)]
      exact (hrest n).bind_last (reads_pure _)
    | true =>
      rw [if_neg (by rw [hzero, hlive]; simp), if_pos rfl, if_pos rfl, List.length_cons]
      have hsum : n + ((nodes.filter live).length + 1) = n + 1 + liveCount nodes := by
        rw [liveCount]
        omega
      rw [hsum]
      exact (hrest (n + 1)).bind_last (reads_pure _)

/-! ## The second pass -/

theorem remapLink_eq (hslots : nodes.length < noNode) {link : Nat} (hlink : link < 256 ^ 4) :
    remapLink (newIds nodes) (appendUnsigned 4 link) =
      if LinkKept nodes link then some (appendUnsigned 4 (newId nodes link)) else none := by
  unfold remapLink
  rw [valueOf_appendUnsigned 4 link hlink]
  by_cases hnone : link = noNode
  · have hkept : LinkKept nodes link := Or.inl hnone
    rw [if_neg (not_not.mpr hnone), if_pos hkept, hnone, newId_noNode hslots]
  rw [if_pos hnone]
  by_cases hfree : newId nodes link = noNode
  · have hno : ¬LinkKept nodes link := fun h => h.elim hnone fun h => h hfree
    have hlost : link ≥ (newIds nodes).length ∨ (newIds nodes).getD link noNode = noNode := Or.inr hfree
    rw [if_pos hlost, if_neg hno]
  · have hkept : LinkKept nodes link := Or.inr hfree
    have hin : ¬(link ≥ (newIds nodes).length ∨ (newIds nodes).getD link noNode = noNode) := by
      rintro (hge | h)
      · exact hfree (newId_of_le (by simpa using hge))
      · exact hfree h
    rw [if_neg hin, if_pos hkept]
    rfl

theorem remapRecord_eq (hslots : nodes.length < noNode) (hr : r.Valid nodes.length) :
    remapRecord (newIds nodes) r.encode =
      if LinksKept nodes r then some (encode (r.renumber (newId nodes))) else none := by
  have hlt : ∀ {link}, linkValid nodes.length link → link < 256 ^ 4 := fun h => h.lt hslots
  have hhead : (appendUnsigned 1 r.type.code ++ r.hash).length = 33 := by
    rw [List.length_append, length_appendUnsigned, hr.hash]
  have hencode : r.encode = (appendUnsigned 1 r.type.code ++ r.hash) ++ (appendUnsigned 4 r.parent ++
      (appendUnsigned 4 r.left ++ appendUnsigned 4 r.right)) := by simp only [encode, List.append_assoc]
  have hparent : (r.encode.drop 33).take 4 = appendUnsigned 4 r.parent := by
    rw [hencode, List.drop_left' hhead, List.take_left' (length_appendUnsigned 4 _)]
  have hleft : (r.encode.drop 37).take 4 = appendUnsigned 4 r.left := by
    rw [hencode, ← List.append_assoc, List.drop_left' (by rw [List.length_append, hhead, length_appendUnsigned]),
      List.take_left' (length_appendUnsigned 4 _)]
  have hright : (r.encode.drop 41).take 4 = appendUnsigned 4 r.right := by
    rw [hencode, ← List.append_assoc, ← List.append_assoc,
      List.drop_left' (by rw [List.length_append, List.length_append, hhead, length_appendUnsigned, length_appendUnsigned]),
      List.take_of_length_le (by rw [length_appendUnsigned])]
  have htake : r.encode.take 33 = appendUnsigned 1 r.type.code ++ r.hash := by
    rw [hencode, List.take_left' hhead]
  unfold remapRecord
  rw [hparent, hleft, hright, htake, remapLink_eq hslots (hlt hr.links.1), remapLink_eq hslots (hlt hr.links.2.1),
    remapLink_eq hslots (hlt hr.links.2.2)]
  by_cases hp : LinkKept nodes r.parent
  · by_cases hl : LinkKept nodes r.left
    · by_cases hright : LinkKept nodes r.right
      · have hall : LinksKept nodes r := ⟨hp, hl, hright⟩
        rw [if_pos hp, if_pos hl, if_pos hright, if_pos hall]
        simp only [Option.bind_eq_bind, Option.bind_some, encode, NodeRecord.renumber, List.append_assoc]
        rfl
      · have hno : ¬LinksKept nodes r := fun h => hright h.2.2
        rw [if_pos hp, if_pos hl, if_neg hright, if_neg hno]
        rfl
    · have hno : ¬LinksKept nodes r := fun h => hl h.2.1
      rw [if_pos hp, if_neg hl, if_neg hno]
      rfl
  · have hno : ¬LinksKept nodes r := fun h => hp h.1
    rw [if_neg hp, if_neg hno]
    rfl

theorem parses_remapNodes (hslots : nodes.length < noNode) {some : List RawNode} (hsome : ∀ r ∈ some, r.Valid nodes.length)
    (hkept : ∀ r ∈ some, r.live = true → LinksKept nodes r) :
    Parses (remapNodes (newIds nodes) some.length) (some.flatMap encode)
      (((some.filter live).map (NodeRecord.renumber (newId nodes))).flatMap encode) := by
  induction some with
  | nil => exact parses_pure _
  | cons r some ih =>
    have hr := hsome r (by simp)
    have hrest := ih (fun s hs => hsome s (by simp [hs])) fun s hs => hkept s (by simp [hs])
    rw [List.flatMap_cons, List.length_cons, remapNodes, List.filter_cons]
    refine (parses_reading hr.reads_bytes).bind ?_
    cases hlive : r.live with
    | false =>
      rw [if_pos (hr.head.2.mpr hlive), if_neg (by simp)]
      exact hrest
    | true =>
      rw [if_neg (by rw [hr.head.2, hlive]; simp), if_pos rfl, List.map_cons, List.flatMap_cons]
      have hrecord := remapRecord_eq hslots hr
      rw [if_pos (hkept r (by simp) hlive)] at hrecord
      refine (parses_reading (reads_lift hrecord)).bind_nil ?_
      exact hrest.bind_last (parses_pure _)

theorem fails_remapNodes (hslots : nodes.length < noNode) {some : List RawNode} (hsome : ∀ r ∈ some, r.Valid nodes.length)
    (hlost : ∃ r ∈ some, r.live = true ∧ ¬LinksKept nodes r) :
    Fails (remapNodes (newIds nodes) some.length) (some.flatMap encode) := by
  induction some with
  | nil =>
    obtain ⟨r, hr, -⟩ := hlost
    cases hr
  | cons r some ih =>
    have hr := hsome r (by simp)
    have hrest := ih fun s hs => hsome s (by simp [hs])
    rw [List.flatMap_cons, List.length_cons, remapNodes]
    refine (parses_reading hr.reads_bytes).bind_fails ?_
    obtain ⟨s, hs, hslive, hno⟩ := hlost
    cases hlive : r.live with
    | false =>
      rw [if_pos (hr.head.2.mpr hlive)]
      rcases List.mem_cons.mp hs with rfl | hs
      · rw [hlive] at hslive
        cases hslive
      · exact hrest ⟨s, hs, hslive, hno⟩
    | true =>
      rw [if_neg (by rw [hr.head.2, hlive]; simp), remapRecord_eq hslots hr]
      by_cases hk : LinksKept nodes r
      · rw [if_pos hk]
        refine (parses_reading (reads_lift rfl)).bind_nil_fails ?_
        rcases List.mem_cons.mp hs with rfl | hs
        · exact absurd hk hno
        · exact (hrest ⟨s, hs, hslive, hno⟩).bind
      · rw [if_neg hk]
        refine Fails.bind fun rest => ⟨_, rfl⟩

end Compact

end UtreexoBridge
