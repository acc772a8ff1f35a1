import UtreexoBridge.Forest.Reachable
import UtreexoBridge.Forest.Twin
import UtreexoBridge.Bytes.ByteHash

/-!
# What `ReadForest` makes of `WriteForest`'s bytes

The reader's arena after `k` slots is `Imported`: the slots read so far, the free
ids among them on the stack, the others counted. With all slots read it holds
the trees of the written forest.
-/

namespace UtreexoBridge

open Bytes IdTree

variable {H : Type} [StoredHash H]

/-! ## The sections of the file -/

theorem noNode_lt : noNode < 256 ^ 4 := by decide

theorem linkValid.lt {slots link : Nat} (h : linkValid slots link) (hslots : slots < noNode) : link < 256 ^ 4 := by
  have := noNode_lt
  rcases h with h | h <;> omega

/-- A record that the reader takes. -/
structure Readable (slots : Nat) (r : NodeRecord H) : Prop where
  links : r.LinksValid slots
  type : r.type = .free ∨ r.type = .leaf ∨ r.type = .branch

theorem reads_node {slots : Nat} {r : NodeRecord H} (hslots : slots < noNode) (h : Readable slots r) :
    Parses (readNode slots) (writeNode r) r := by
  have hcode : r.type.code < 256 ^ 1 ∧ NodeType.ofCode r.type.code = some r.type := by
    rcases h.type with ht | ht | ht <;> rw [ht] <;> decide
  have hhash : Reads (readBytes 32) (StoredHash.bytes r.hash) (StoredHash.bytes r.hash) := by
    have := reads_bytes (StoredHash.bytes r.hash)
    rwa [StoredHash.length_bytes] at this
  unfold readNode writeNode
  refine (parses_reading (reads_unsigned hcode.1)).bind ?_
  refine (parses_reading hhash).bind ?_
  refine (parses_reading (reads_unsigned (h.links.1.lt hslots))).bind ?_
  refine (parses_reading (reads_unsigned (h.links.2.1.lt hslots))).bind ?_
  refine (parses_reading (reads_unsigned (h.links.2.2.lt hslots))).bind_last ?_
  refine (parses_reading (reads_lift hcode.2)).bind_nil ?_
  have hlinks : linkValid slots r.parent ∧ linkValid slots r.left ∧ linkValid slots r.right := h.links
  refine (parses_require hlinks).bind_nil ?_
  rw [StoredHash.ofBytes_bytes]
  exact parses_pure _

theorem reads_forestRoots {slots : Nat} (hslots : slots < noNode) {roots : List Nat}
    (h : ∀ root ∈ roots, linkValid slots root) :
    Parses (readForestRoots slots roots.length) (roots.flatMap (appendUnsigned 4)) roots := by
  induction roots with
  | nil => exact parses_pure _
  | cons root roots ih =>
    have hroot := h root (by simp)
    rw [List.flatMap_cons]
    refine (parses_reading (reads_unsigned (hroot.lt hslots))).bind ?_
    refine (parses_require hroot).bind_nil ?_
    exact (ih fun r hr => h r (by simp [hr])).bind_last (parses_pure _)

structure Imported (read : Nat → NodeRecord H) (count : Nat) (a : NodeArena H) : Prop where
  ram : a.mapped = false
  next_eq : a.next = count
  read_eq : ∀ id < count, a.read id = read id
  blank : ∀ id, count ≤ id → a.read id = .blank
  nodup : a.freeStack.Nodup
  free_iff : ∀ id, id ∈ a.freeStack ↔ id < count ∧ (read id).type = .free
  live_eq : a.live = ((Finset.range count).filter fun id => (read id).type ≠ .free).card

variable {read : Nat → NodeRecord H} {a : NodeArena H} {count : Nat}

theorem imported_new (read : Nat → NodeRecord H) : Imported read 0 (.new : NodeArena H) :=
  ⟨rfl, rfl, by simp, fun _ _ => rfl, by simp [NodeArena.new], by simp [NodeArena.new], rfl⟩

theorem Imported.importNode (h : Imported read count a) :
    Imported read (count + 1) (a.importNode count (read count)) := by
  have hfresh : count ∉ a.freeStack := fun hmem => absurd ((h.free_iff count).mp hmem).1 (Nat.lt_irrefl _)
  have hmax : max a.next (count + 1) = count + 1 := by rw [h.next_eq]; omega
  have hread : ∀ id < count + 1, (a.write count (read count)).read id = read id := by
    intro id hid
    rw [NodeArena.read_write, Function.update_apply]
    split_ifs with heq
    · rw [heq]
    · exact h.read_eq id (by omega)
  have hblank : ∀ id, count + 1 ≤ id → (a.write count (read count)).read id = .blank := by
    intro id hid
    rw [NodeArena.read_write, Function.update_of_ne (by omega)]
    exact h.blank id (by omega)
  unfold NodeArena.importNode
  by_cases hfree : (read count).type = .free
  · rw [if_pos hfree]
    refine ⟨by simpa using h.ram, hmax, hread, hblank, ?_, fun id => ?_, ?_⟩
    · simpa using ⟨hfresh, h.nodup⟩
    · simp only [NodeArena.write_freeStack, List.mem_cons, h.free_iff]
      constructor
      · rintro (rfl | ⟨hlt, ht⟩)
        · exact ⟨Nat.lt_succ_self _, hfree⟩
        · exact ⟨Nat.lt_succ_of_lt hlt, ht⟩
      · rintro ⟨hlt, ht⟩
        rcases Nat.lt_succ_iff_lt_or_eq.mp hlt with hlt | rfl
        · exact Or.inr ⟨hlt, ht⟩
        · exact Or.inl rfl
    · rw [Finset.range_add_one, Finset.filter_insert, if_neg (by simpa using hfree), ← h.live_eq]
      exact NodeArena.write_live _ _ _
  · rw [if_neg hfree]
    refine ⟨by simpa using h.ram, hmax, hread, hblank, by simpa using h.nodup, fun id => ?_, ?_⟩
    · simp only [NodeArena.write_freeStack, h.free_iff]
      constructor
      · rintro ⟨hlt, ht⟩
        exact ⟨Nat.lt_succ_of_lt hlt, ht⟩
      · rintro ⟨hlt, ht⟩
        rcases Nat.lt_succ_iff_lt_or_eq.mp hlt with hlt | rfl
        · exact ⟨hlt, ht⟩
        · exact absurd ht hfree
    · rw [Finset.range_add_one, Finset.filter_insert, if_pos hfree, Finset.card_insert_of_notMem (by simp), ← h.live_eq]
      exact congrArg (· + 1) (NodeArena.write_live _ _ _)

theorem reads_nodes {slots : Nat} (hslots : slots < noNode) (hread : ∀ id < slots, Readable slots (read id)) (left : Nat)
    (hleft : count + left ≤ slots) (h : Imported read count a) :
    ∃ a', Parses (readNodes slots left count a) ((List.range' count left).flatMap fun id => writeNode (read id)) a' ∧
      Imported read (count + left) a' := by
  induction left generalizing count a with
  | zero => exact ⟨a, parses_pure _, h⟩
  | succ left ih =>
    obtain ⟨a', hreads, himported⟩ := ih (by omega) h.importNode
    refine ⟨a', ?_, by rw [← Nat.add_assoc, Nat.add_right_comm]; exact himported⟩
    rw [List.range'_succ, List.flatMap_cons]
    exact (reads_node hslots (hread count (by omega))).bind hreads

/-! ## The index -/

structure Consistent (a : NodeArena H) (id : Nat) : Prop where
  leaf : (a.read id).type = .leaf → id < a.next ∧ (a.read id).left = noNode ∧ (a.read id).right = noNode
  branch : (a.read id).type = .branch →
    ((a.read id).left ∈ a.liveIds ∧ (a.read (a.read id).left).parent = id) ∧
    ((a.read id).right ∈ a.liveIds ∧ (a.read (a.read id).right).parent = id) ∧
    (a.read id).hash = parentHash (a.read (a.read id).left).hash (a.read (a.read id).right).hash

theorem isLive_of_mem {id : Nat} (h : id ∈ a.liveIds) : a.isLive id = true := by
  obtain ⟨hlt, htype⟩ := NodeArena.mem_liveIds.mp h
  simp [NodeArena.isLive, hlt, htype]

variable [DecidableEq H]

theorem indexNodes_spec (hnext : a.next ≤ noNode) (ids : List Nat) {S : Finset Nat} {index : KeylessLeafIndex}
    (hnodup : ids.Nodup) (hfresh : ∀ id ∈ ids, id ∉ S) (hall : ∀ id ∈ ids, Consistent a id)
    (hleaf : ∀ id ∈ S, a.isLeaf id = true) (hindex : index.Indexes a S) :
    ∃ index' S', indexNodes a ids index S.card = .ok (.ok (index', S'.card)) ∧ index'.Indexes a S' ∧
      ∀ id, id ∈ S' ↔ id ∈ S ∨ id ∈ ids ∧ (a.read id).type = .leaf := by
  induction ids generalizing S index with
  | nil => exact ⟨index, S, rfl, hindex, by simp⟩
  | cons x ids ih =>
    obtain ⟨hx, hnodup⟩ := List.nodup_cons.mp hnodup
    have hcons := hall x (by simp)
    have hskip : (a.read x).type ≠ .leaf → indexNodes a (x :: ids) index S.card = indexNodes a ids index S.card →
        ∃ index' S', indexNodes a (x :: ids) index S.card = .ok (.ok (index', S'.card)) ∧ index'.Indexes a S' ∧
          ∀ id, id ∈ S' ↔ id ∈ S ∨ id ∈ x :: ids ∧ (a.read id).type = .leaf := by
      intro htype hrun
      obtain ⟨index', S', hrest, hindex', hS'⟩ := ih hnodup (fun id hid => hfresh id (by simp [hid]))
        (fun id hid => hall id (by simp [hid])) hleaf hindex
      refine ⟨index', S', hrun.trans hrest, hindex', fun id => ?_⟩
      rw [hS', List.mem_cons]
      constructor
      · rintro (hS | ⟨hid, ht⟩)
        · exact Or.inl hS
        · exact Or.inr ⟨Or.inr hid, ht⟩
      · rintro (hS | ⟨rfl | hid, ht⟩)
        · exact Or.inl hS
        · exact absurd ht htype
        · exact Or.inr ⟨hid, ht⟩
    cases htype : (a.read x).type with
    | leaf =>
      obtain ⟨hlt, hl, hr⟩ := hcons.leaf htype
      have hxleaf : a.isLeaf x = true := NodeArena.isLeaf_eq_true.mpr (NodeArena.mem_leafIds.mpr ⟨hlt, htype⟩)
      obtain ⟨index1, hinsert, hindex1⟩ := hindex.insert hleaf (hfresh x (by simp))
      have hcard : (insert x S).card = S.card + 1 := Finset.card_insert_of_notMem (hfresh x (by simp))
      obtain ⟨index', S', hrest, hindex', hS'⟩ := ih (S := insert x S) hnodup (fun id hid hmem => by
          rcases Finset.mem_insert.mp hmem with rfl | hmem
          · exact hx hid
          · exact hfresh id (by simp [hid]) hmem)
        (fun id hid => hall id (by simp [hid])) (fun id hid => by
          rcases Finset.mem_insert.mp hid with rfl | hid
          · exact hxleaf
          · exact hleaf id hid) hindex1
      refine ⟨index', S', ?_, hindex', fun id => ?_⟩
      · rw [indexNodes]
        simp only [htype, hl, hr, ne_eq, not_true_eq_false, or_self, if_false, hinsert]
        rw [← hcard]
        exact hrest
      · rw [hS', Finset.mem_insert, List.mem_cons]
        constructor
        · rintro ((rfl | hS) | ⟨hid, ht⟩)
          · exact Or.inr ⟨Or.inl rfl, htype⟩
          · exact Or.inl hS
          · exact Or.inr ⟨Or.inr hid, ht⟩
        · rintro (hS | ⟨rfl | hid, ht⟩)
          · exact Or.inl (Or.inr hS)
          · exact Or.inl (Or.inl rfl)
          · exact Or.inr ⟨hid, ht⟩
    | branch =>
      obtain ⟨⟨hl, hlp⟩, ⟨hr, hrp⟩, hhash⟩ := hcons.branch htype
      have hlne : (a.read x).left ≠ noNode := by
        have := (NodeArena.mem_liveIds.mp hl).1
        omega
      have hrne : (a.read x).right ≠ noNode := by
        have := (NodeArena.mem_liveIds.mp hr).1
        omega
      apply hskip (by rw [htype]; simp)
      rw [indexNodes]
      simp [htype, hlne, hrne, isLive_of_mem hl, isLive_of_mem hr, hlp, hrp, ← hhash]
    | free =>
      apply hskip (by rw [htype]; simp)
      rw [indexNodes]
      simp only [htype]
    | other code =>
      apply hskip (by rw [htype]; simp)
      rw [indexNodes]
      simp only [htype]

/-! ## The forest read back -/

namespace Structured

variable {f : PackedForest H} {trees : Nat → Option (IdTree H)}

omit [DecidableEq H] in
theorem readable (h : Structured f trees) (hlinks : f.Links) {id : Nat} (hid : id < f.arena.next) :
    Readable f.arena.next (f.arena.read id) := by
  refine ⟨hlinks.arena.valid id, ?_⟩
  by_cases hfree : (f.arena.read id).type = .free
  · exact Or.inl hfree
  · obtain ⟨row, fs, s, -, rfl, hl⟩ := h.exists_linked (NodeArena.mem_liveIds.mpr ⟨hid, hfree⟩)
    right
    cases s with
    | leaf id v => exact Or.inl (congrArg NodeRecord.type (show f.arena.read id = _ from hl))
    | node id l r => exact Or.inr (congrArg NodeRecord.type hl.1)

omit [DecidableEq H] in
theorem consistent (h : Structured f trees) {id : Nat} (hid : id < f.arena.next) : Consistent f.arena id := by
  have hw := h.wellLinked
  refine ⟨fun htype => ⟨hid, ?_⟩, fun htype => ?_⟩
  · obtain ⟨row, fs, s, -, rfl, hl⟩ := h.exists_linked (NodeArena.mem_liveIds.mpr ⟨hid, by rw [htype]; simp⟩)
    cases s with
    | leaf id v =>
      rw [IdTree.id, show f.arena.read id = _ from hl]
      exact ⟨rfl, rfl⟩
    | node id l r =>
      rw [IdTree.id, hl.1] at htype
      cases htype
  · have hlive : id ∈ f.arena.liveIds := NodeArena.mem_liveIds.mpr ⟨hid, by rw [htype]; simp⟩
    exact ⟨(hw.children id hlive htype).1, (hw.children id hlive htype).2, hw.branch_hash id hlive htype⟩

end Structured

section Imported

variable {f : PackedForest H} {trees : Nat → Option (IdTree H)} (himp : Imported f.arena.read f.arena.next a)
include himp

omit [DecidableEq H] in
theorem Imported.liveIds_eq : a.liveIds = f.arena.liveIds := by
  ext id
  rw [NodeArena.mem_liveIds, NodeArena.mem_liveIds, himp.next_eq]
  constructor
  · rintro ⟨hlt, ht⟩
    rw [himp.read_eq id hlt] at ht
    exact ⟨hlt, ht⟩
  · rintro ⟨hlt, ht⟩
    rw [himp.read_eq id hlt]
    exact ⟨hlt, ht⟩

omit [DecidableEq H] in
theorem Imported.read_live {id : Nat} (hid : id ∈ f.arena.liveIds) : a.read id = f.arena.read id :=
  himp.read_eq id (NodeArena.mem_liveIds.mp hid).1

omit [DecidableEq H] in
theorem Imported.books (hnext : f.arena.next ≤ noNode) : a.Bookkeeping := by
  refine ⟨by rw [himp.next_eq]; exact hnext, ?_, ?_⟩
  · rw [himp.liveIds_eq, himp.live_eq]
    rfl
  · unfold NodeArena.FreeExact
    rw [himp.ram, if_neg (by simp)]
    refine ⟨himp.nodup, ?_⟩
    ext id
    rw [List.mem_toFinset, himp.free_iff, NodeArena.mem_freeIds, himp.next_eq]
    constructor
    · rintro ⟨hlt, ht⟩
      exact ⟨hlt, by rw [himp.read_eq id hlt]; exact ht⟩
    · rintro ⟨hlt, ht⟩
      rw [himp.read_eq id hlt] at ht
      exact ⟨hlt, ht⟩

omit [DecidableEq H] in
theorem Imported.links (hlinks : f.arena.Links) : a.Links := by
  refine ⟨himp.ram, fun id hid => ?_, fun id => ?_⟩
  · rw [himp.next_eq]
    exact ((himp.free_iff id).mp hid).1
  · rw [himp.next_eq]
    by_cases hid : id < f.arena.next
    · rw [himp.read_eq id hid]
      exact hlinks.valid id
    · rw [himp.blank id (by omega)]
      exact ⟨linkValid_noNode _, linkValid_noNode _, linkValid_noNode _⟩

omit [DecidableEq H] in
theorem Imported.shape (h : Structured f trees) : Shape a.read a.liveIds (rowTrees trees) := by
  refine ⟨fun t ht => ?_, h.shape.nodup, fun id => ?_⟩
  · exact (h.shape.linked t ht).congr fun x hx => himp.read_live (h.shape.mem_live ht hx)
  · rw [himp.liveIds_eq, h.shape.live_iff]

omit [DecidableEq H] in
theorem Imported.consistent (h : Structured f trees) {id : Nat} (hid : id < f.arena.next) : Consistent a id := by
  have hc := h.consistent hid
  have hr := himp.read_eq id hid
  refine ⟨fun htype => ?_, fun htype => ?_⟩
  · rw [hr] at htype ⊢
    rw [himp.next_eq]
    exact hc.leaf htype
  · rw [hr] at htype ⊢
    obtain ⟨⟨hl, hlp⟩, ⟨hrl, hrp⟩, hhash⟩ := hc.branch htype
    rw [himp.liveIds_eq, himp.read_live hl, himp.read_live hrl]
    exact ⟨⟨hl, hlp⟩, ⟨hrl, hrp⟩, hhash⟩

end Imported

omit [StoredHash H] [DecidableEq H] in
theorem ofFn_toList (roots : Vector Nat 64) :
    (Vector.ofFn fun row : Fin 64 => (roots.toList[row.val]?).getD noNode) = roots := by
  ext i hi
  simp

omit [DecidableEq H] in
theorem Structured.parses_sections {f : PackedForest H} {trees : Nat → Option (IdTree H)} (h : Structured f trees)
    (hlinks : f.Links) (hslots : f.arena.next < noNode) :
    ∃ a, Parses readSections (writeForest f) (f.numLeaves, f.arena.next, f.roots.toList, a) ∧
      Imported f.arena.read f.arena.next a := by
  have hroots : ∀ root ∈ f.roots.toList, linkValid f.arena.next root := by
    intro root hroot
    obtain ⟨row, hrow, rfl⟩ := List.getElem_of_mem hroot
    have := hlinks.roots row
    rwa [rootAt, ← Vector.getElem?_toList, List.getElem?_eq_getElem hrow] at this
  obtain ⟨a, hnodes, himp⟩ := reads_nodes hslots (fun id hid => h.readable hlinks hid) f.arena.next (by omega)
    (imported_new f.arena.read)
  rw [Nat.zero_add] at himp
  refine ⟨a, ?_, himp⟩
  unfold readSections writeForest appendRoots
  rw [List.range_eq_range']
  refine (parses_reading (reads_bytes forestMagic)).bind ?_
  refine (parses_require rfl).bind_nil ?_
  refine (parses_reading (reads_unsigned (by decide))).bind ?_
  refine (parses_reading (reads_unsigned (by have := h.bound; norm_num; omega))).bind ?_
  refine (parses_reading (reads_unsigned (by have := noNode_lt; norm_num at this ⊢; omega))).bind ?_
  refine (parses_require rfl).bind_nil ?_
  refine (parses_require hslots).bind_nil ?_
  have hread := reads_forestRoots hslots hroots
  rw [Vector.length_toList] at hread
  refine hread.bind ?_
  exact hnodes.bind_last (parses_pure _)

/-- The bytes of a forest are read back as a forest of the same trees, slot by slot. -/
theorem readForest_writeForest {f : PackedForest H} {trees : Nat → Option (IdTree H)} (h : Structured f trees)
    (hlinks : f.Links) (hslots : f.arena.next < noNode) (rest : List UInt8) :
    ∃ f', readForest (writeForest f ++ rest) = .ok (.ok (f', rest)) ∧ Structured f' trees ∧ f'.Links ∧
      f'.numLeaves = f.numLeaves ∧ f'.roots = f.roots ∧ Imported f.arena.read f.arena.next f'.arena := by
  obtain ⟨a, hbytes, himp⟩ := h.parses_sections hlinks hslots
  obtain ⟨index, S, hrun, hindex, hS⟩ := indexNodes_spec (by rw [himp.next_eq]; omega)
    (List.range f.arena.next) List.nodup_range (S := ∅) (by simp)
    (fun id hid => himp.consistent h (List.mem_range.mp hid)) (by simp) (KeylessLeafIndex.indexes_new a)
  have hleafIds : S = a.leafIds := by
    ext id
    rw [hS, NodeArena.mem_leafIds, himp.next_eq]
    simp
  subst hleafIds
  refine ⟨⟨a, index, f.roots, f.numLeaves⟩, ?_, ?_, ⟨himp.links hlinks.arena, ?_⟩, rfl, rfl, himp⟩
  · rw [readForest, hbytes rest]
    simp only
    rw [Finset.card_empty] at hrun
    rw [hrun]
    simp only
    rw [if_neg (by rw [hindex.size_eq]; simp), ofFn_toList]
  · exact ⟨himp.books (by omega), himp.shape h, h.roots, h.bits, h.height, hindex, h.bound⟩
  · intro row
    show linkValid a.next _
    rw [himp.next_eq]
    exact hlinks.roots row

theorem exists_trees {f : PackedForest H} {calls : List (Call H)} {results : List Res}
    (hrun : PackedForest.new.run calls = .ok (results, f)) :
    ∃ trees, Structured f trees ∧ ((Accumulator.empty : Accumulator H).FreshRun calls → Represents f trees) := by
  by_cases hfresh : (Accumulator.empty : Accumulator H).FreshRun calls
  · rcases represents_new.run calls hfresh with ⟨fault, herr, -⟩ | ⟨f0, trees, hok, hrep, -⟩
    · rw [herr] at hrun
      cases hrun
    · rw [hok] at hrun
      cases hrun
      exact ⟨trees, hrep.toStructured, fun _ => hrep⟩
  · obtain ⟨trees, hstr⟩ := represents_new.toStructured.run hrun
    exact ⟨trees, hstr, fun h => absurd h hfresh⟩

theorem Structured.alike {f g : PackedForest H} {trees : Nat → Option (IdTree H)} (h : Structured f trees)
    (h' : Structured g trees) (hnum : g.numLeaves = f.numLeaves) :
    g.rootHashes = f.rootHashes ∧ ∀ v, g.contains v = f.contains v := by
  refine ⟨by rw [h.rootHashes_eq, h'.rootHashes_eq, hnum], fun v => ?_⟩
  rw [Bool.eq_iff_iff, h.contains_iff, h'.contains_iff, hnum]

/-- Whatever hashes are live more than once, the forest is read back with its roots, leaf count and members. -/
theorem readForest_of_run {calls : List (Call H)} {results : List Res} {f : PackedForest H}
    (hrun : PackedForest.new.run calls = .ok (results, f)) (hslots : f.arena.next < noNode) (rest : List UInt8) :
    ∃ f', readForest (writeForest f ++ rest) = .ok (.ok (f', rest)) ∧ f'.rootHashes = f.rootHashes ∧
      f'.numLeaves = f.numLeaves ∧ ∀ v, f'.contains v = f.contains v := by
  obtain ⟨trees, h⟩ := represents_new.toStructured.run hrun
  obtain ⟨g, hread, hstr, -, hnum, -, -⟩ := readForest_writeForest h (PackedForest.links_new.run hrun) hslots rest
  obtain ⟨hhashes, hcontains⟩ := h.alike hstr hnum
  exact ⟨g, hread, hhashes, hnum, hcontains⟩

/-! ## Proofs from the forest read back -/

section Prove

variable {f g : PackedForest H} {trees : Nat → Option (IdTree H)} (h : Represents f trees) (h' : Represents g trees)
include h h'

theorem find_alike (v : H) : g.index.find g.arena v = f.index.find f.arena v := by
  by_cases hv : ∃ x, (x, v) ∈ leavesOf (rowTrees trees)
  · obtain ⟨x, hx⟩ := hv
    rw [h.find_eq_some hx, h'.find_eq_some hx]
  · rw [h.find_eq_none fun x hx => hv ⟨x, hx⟩, h'.find_eq_none fun x hx => hv ⟨x, hx⟩]

variable (hnum : g.numLeaves = f.numLeaves)
include hnum

theorem positionOf_alike {x : Nat} {v : H} (hx : f.index.find f.arena v = some x) : g.positionOf x = f.positionOf x := by
  have hleaf : (x, v) ∈ leavesOf (rowTrees trees) := by
    by_contra hno
    by_cases hv : ∃ y, (y, v) ∈ leavesOf (rowTrees trees)
    · obtain ⟨y, hy⟩ := hv
      rw [h.find_eq_some hy] at hx
      cases hx
      exact hno hy
    · rw [h.find_eq_none fun y hy => hv ⟨y, hy⟩] at hx
      cases hx
  obtain ⟨t, ht, hxt⟩ := List.mem_flatMap.mp hleaf
  obtain ⟨row, -, hrow⟩ := mem_rowTrees.mp ht
  obtain ⟨fs, rfl⟩ := exists_plug hxt
  have hpos := h.positionOf_eq hrow
  have hpos' := h'.positionOf_eq hrow
  rw [hnum] at hpos'
  exact hpos'.trans hpos.symm

theorem proveTargets_alike (targets : List H) : g.proveTargets targets = f.proveTargets targets := by
  induction targets with
  | nil => rfl
  | cons v rest ih =>
    rw [PackedForest.proveTargets, PackedForest.proveTargets, find_alike h h' v, ih]
    cases hfind : f.index.find f.arena v with
    | none => rfl
    | some x =>
      simp only
      rw [positionOf_alike h h' hnum hfind]

omit h' hnum [DecidableEq H] in
theorem walkDown_alike (himp : Imported f.arena.read f.arena.next g.arena) (bits row : Nat) {node : Nat}
    (hnode : node ∈ f.arena.liveIds) :
    PackedForest.walkDown g.arena bits row node = PackedForest.walkDown f.arena bits row node ∧
      ∀ n, PackedForest.walkDown f.arena bits row node = .ok n → n ∈ f.arena.liveIds := by
  induction row generalizing node with
  | zero =>
    refine ⟨rfl, fun n hn => ?_⟩
    cases hn
    exact hnode
  | succ row ih =>
    have hlive : g.arena.isLive node = f.arena.isLive node := by
      rw [NodeArena.isLive, NodeArena.isLive, himp.next_eq, himp.read_live hnode]
    have hleaf : g.arena.isLeaf node = f.arena.isLeaf node := by
      rw [NodeArena.isLeaf, NodeArena.isLeaf, hlive, himp.read_live hnode]
    rw [PackedForest.walkDown, PackedForest.walkDown, hlive, hleaf, himp.read_live hnode]
    by_cases hstop : (!f.arena.isLive node || f.arena.isLeaf node) = true
    · rw [if_pos hstop, if_pos hstop]
      exact ⟨rfl, fun n hn => by cases hn⟩
    rw [if_neg hstop, if_neg hstop]
    simp only
    have htype : (f.arena.read node).type = .branch := by
      obtain ⟨row, fs, s, -, rfl, hl⟩ := h.exists_linked hnode
      cases s with
      | leaf id v =>
        have hrec : f.arena.read id = ⟨v, holeParent noNode fs, noNode, noNode, .leaf⟩ := hl
        have : f.arena.isLeaf id = true :=
          NodeArena.isLeaf_eq_true.mpr (NodeArena.mem_leafIds.mpr ⟨(NodeArena.mem_liveIds.mp hnode).1, by rw [hrec]⟩)
        simp [IdTree.id, this] at hstop
      | node id l r => exact congrArg NodeRecord.type hl.1
    have hchild : (if (bits >>> row) % 2 = 0 then (f.arena.read node).right else (f.arena.read node).left) ∈
        f.arena.liveIds := by
      have hchildren := h.wellLinked.children node hnode htype
      split_ifs
      · exact hchildren.2.1
      · exact hchildren.1.1
    rw [if_neg (Nat.ne_of_lt (h.id_lt hchild)), if_neg (Nat.ne_of_lt (h.id_lt hchild))]
    exact ih hchild

variable (hroots : g.roots = f.roots) (himp : Imported f.arena.read f.arena.next g.arena)
include hroots himp

omit h' [DecidableEq H] in
theorem nodeAt_alike (pos : Nat) :
    g.nodeAt pos = f.nodeAt pos ∧ ∀ n, f.nodeAt pos = .ok n → n ∈ f.arena.liveIds := by
  unfold PackedForest.nodeAt
  rw [hnum, hroots]
  by_cases hempty : f.numLeaves = 0
  · rw [if_pos hempty, if_pos hempty]
    exact ⟨rfl, fun n hn => by cases hn⟩
  rw [if_neg hempty, if_neg hempty]
  simp only
  cases hrow : (setRows f.numLeaves (Position.treeRows f.numLeaves))[(Position.detectOffset pos f.numLeaves).treeIndex]? with
  | none =>
    rw [if_pos rfl, if_pos rfl]
    exact ⟨rfl, fun n hn => by cases hn⟩
  | some row =>
    simp only
    by_cases hnone : rootAt f.roots row = noNode
    · rw [if_pos hnone, if_pos hnone]
      exact ⟨rfl, fun n hn => by cases hn⟩
    rw [if_neg hnone, if_neg hnone]
    apply walkDown_alike h himp
    have hlt : row < 64 := by
      by_contra hge
      exact hnone (by simp [rootAt, hge])
    rw [h.roots row hlt] at hnone ⊢
    cases ht : trees row with
    | none =>
      rw [ht] at hnone
      exact absurd rfl hnone
    | some t => exact h.shape.mem_live (h.mem_rows ht) t.id_mem_ids

omit h' [DecidableEq H] in
theorem proofHashes_alike (positions : List Nat) : g.proofHashes positions = f.proofHashes positions := by
  induction positions with
  | nil => rfl
  | cons pos rest ih =>
    obtain ⟨hsame, hlive⟩ := nodeAt_alike h hnum hroots himp pos
    rw [PackedForest.proofHashes, PackedForest.proofHashes, hsame, ih]
    cases hnode : f.nodeAt pos with
    | error message => rfl
    | ok node =>
      simp only
      rw [himp.read_live (hlive node hnode)]

theorem prove_alike (targets : List H) : g.prove targets = f.prove targets := by
  rw [PackedForest.prove, PackedForest.prove, proveTargets_alike h h' hnum, hnum]
  cases f.proveTargets targets with
  | error fault => rfl
  | ok result =>
    cases result with
    | error message => rfl
    | ok positions =>
      simp only
      rw [proofHashes_alike h hnum hroots himp]

end Prove

/-- A run's results and what can be seen of the forest it leads to. -/
def observe (run : Except Fault (List Res × PackedForest H)) : Except Fault (List Res × List (Option H) × Nat) :=
  run.map fun (results, f) => (results, f.rootHashes, f.numLeaves)

/-- **Round trip.** A forest with fewer than `NO_NODE` slots, reached by calls that add no live hash, is read back
with its roots, leaf count, members and proofs, and every further run of such calls is the same from both. -/
theorem readForest_round_trip (calls : List (Call H)) (hfresh : (Accumulator.empty : Accumulator H).FreshRun calls)
    {results : List Res} {f : PackedForest H} (hrun : PackedForest.new.run calls = .ok (results, f))
    (hslots : f.arena.next < noNode) (rest : List UInt8) :
    ∃ f', readForest (writeForest f ++ rest) = .ok (.ok (f', rest)) ∧ f'.rootHashes = f.rootHashes ∧
      f'.numLeaves = f.numLeaves ∧ (∀ v, f'.contains v = f.contains v) ∧
      (∀ targets, f'.prove targets = f.prove targets) ∧
      ∀ blocks, ((Accumulator.empty : Accumulator H).run calls).2.FreshRun blocks →
        observe (f'.run blocks) = observe (f.run blocks) := by
  have hlinks := PackedForest.links_new.run hrun
  rcases represents_new.run calls hfresh with ⟨fault, herr, -⟩ | ⟨f0, trees, hok, hrep, hacc⟩
  · rw [herr] at hrun
    cases hrun
  rw [hok] at hrun
  cases hrun
  obtain ⟨g, hread, hstr, hlinks', hnum, hroots, himp⟩ := readForest_writeForest hrep.toStructured hlinks hslots rest
  have hrep' : Represents g trees := ⟨hstr, hrep.hashes⟩
  obtain ⟨hhashes, hcontains⟩ := hrep.toStructured.alike hstr hnum
  refine ⟨g, hread, hhashes, hnum, hcontains, prove_alike hrep hrep' hnum hroots himp, fun blocks hblocks => ?_⟩
  · have hacc' : accumulatorOf g.numLeaves trees = accumulatorOf f.numLeaves trees := by rw [hnum]
    have htwin : Twin (accumulatorOf f.numLeaves trees) g f :=
      ⟨⟨⟨trees, hrep', hacc'⟩, hlinks'⟩, ⟨⟨trees, hrep, rfl⟩, hlinks⟩, himp.next_eq⟩
    have hfreshBlocks : (accumulatorOf f.numLeaves trees).FreshRun blocks := by
      rw [hacc]
      exact hblocks
    rcases htwin.run hfreshBlocks with ⟨fault, hg, hf⟩ | ⟨g', f', hg, hf, htwin'⟩
    · rw [hg, hf]
    · rw [hg, hf]
      simp only [observe, Except.map]
      rw [htwin'.left.rootHashes_eq, htwin'.right.rootHashes_eq, htwin'.left.numLeaves_eq, htwin'.right.numLeaves_eq]

/-! ## Concrete forests -/

def spendingCalls : List (Call ByteHash) :=
  [.add (leafHash 1), .add (leafHash 2), .modify [leafHash 3, leafHash 4] [leafHash 1]]

theorem freshRun_spendingCalls : (Accumulator.empty : Accumulator ByteHash).FreshRun spendingCalls :=
  represents_new.freshRun spendingCalls (by decide +kernel)

def reached (calls : List (Call ByteHash)) : PackedForest ByteHash :=
  match PackedForest.new.run calls with
  | .error _ => .new
  | .ok (_, f) => f

theorem run_reached {calls : List (Call ByteHash)} {results : List Res}
    (h : (PackedForest.new.run calls).map (·.1) = .ok results) :
    PackedForest.new.run calls = .ok (results, reached calls) := by
  unfold reached
  cases hrun : PackedForest.new.run calls with
  | error fault =>
    rw [hrun] at h
    cases h
  | ok result =>
    rw [hrun] at h
    cases h
    rfl

theorem run_spendingCalls : PackedForest.new.run spendingCalls = .ok ([.ok (), .ok (), .ok ()], reached spendingCalls) :=
  run_reached (by decide +kernel)

theorem readForest_round_trip_spending :
    (reached spendingCalls).arena.next < noNode ∧
      ∃ f', readForest (writeForest (reached spendingCalls) ++ [0]) = .ok (.ok (f', [0])) ∧
        f'.rootHashes = (reached spendingCalls).rootHashes ∧ f'.numLeaves = (reached spendingCalls).numLeaves ∧
        (∀ v, f'.contains v = (reached spendingCalls).contains v) ∧
        (∀ targets, f'.prove targets = (reached spendingCalls).prove targets) ∧
        ∀ blocks, ((Accumulator.empty : Accumulator ByteHash).run spendingCalls).2.FreshRun blocks →
          observe (f'.run blocks) = observe ((reached spendingCalls).run blocks) :=
  ⟨by decide +kernel,
    readForest_round_trip spendingCalls freshRun_spendingCalls run_spendingCalls (by decide +kernel) [0]⟩

/-- The same block with the second leaf's hash once more: the new leaf has a lower id, so the index read back
finds it first. -/
def repeatedCalls : List (Call ByteHash) :=
  [.add (leafHash 1), .add (leafHash 2), .modify [leafHash 3, leafHash 2] [leafHash 1]]

/-- The positions of a proof of the hash that is there twice. -/
def repeatedPositions (f : PackedForest ByteHash) : Option (List Nat) :=
  match f.prove [leafHash 2] with
  | .ok (.ok proof) => some proof.targets
  | _ => none

theorem readForest_repeated_leaf :
    ¬∀ (calls : List (Call ByteHash)) (results : List Res) (f : PackedForest ByteHash),
      PackedForest.new.run calls = .ok (results, f) →
        ∃ f', readForest (writeForest f) = .ok (.ok (f', [])) ∧ ∀ targets, f'.prove targets = f.prove targets := by
  intro h
  have hrun : PackedForest.new.run repeatedCalls = .ok ([.ok (), .ok (), .ok ()], reached repeatedCalls) :=
    run_reached (by decide +kernel)
  obtain ⟨f', hread, hprove⟩ := h repeatedCalls _ _ hrun
  have hsame : repeatedPositions f' = repeatedPositions (reached repeatedCalls) := by
    rw [repeatedPositions, repeatedPositions, hprove]
  have hbefore : repeatedPositions (reached repeatedCalls) = some [4] := by decide +kernel
  have hafter : ((readForest (writeForest (reached repeatedCalls))).toOption.bind fun result =>
      result.toOption.bind fun read => repeatedPositions read.1) = some [3] := by decide +kernel
  rw [hread] at hafter
  change repeatedPositions f' = some [3] at hafter
  rw [hsame, hbefore] at hafter
  cases hafter

end UtreexoBridge
