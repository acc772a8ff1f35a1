import Mathlib.Data.List.TakeWhile
import Mathlib.Data.Finset.SDiff
import Mathlib.Order.Interval.Finset.Nat
import UtreexoBridge.Arena.Spec

/-!
# The arena as a memory

`read` is the one view of an arena that both modes share. A write changes it in
one place. The bookkeeping invariant says that the live count and the free ids
are those of the records.
-/

namespace UtreexoBridge.NodeArena

variable {H : Type} [ForestHash H] {a : NodeArena H}

/-! ## Reading after a write -/

theorem read_touch (a : NodeArena H) (id : Nat) (h : a.mapped) : (a.touch id).read = a.read := by
  funext j
  have hrun : (a.touch id).findDeltaRecord j = a.findDeltaRecord j := rfl
  have hbase : (a.touch id).readPhysicalBase j = a.readPhysicalBase j := rfl
  rw [read, if_pos (show (a.touch id).mapped = true from h), hrun, hbase]
  simp only [touch, Std.ExtTreeMap.getElem?_insertIfNew]
  split_ifs with hj
  · obtain ⟨heq, hnot⟩ := hj
    rw [Nat.compare_eq_eq] at heq
    subst heq
    rfl
  · rw [read, if_pos h]

@[simp] theorem read_write (a : NodeArena H) (id : Nat) (r : NodeRecord H) :
    (a.write id r).read = Function.update a.read id r := by
  unfold write
  split_ifs with h
  · funext j
    have hrun : ∀ d, findDeltaRecord { a.touch id with dirty := d } j = a.findDeltaRecord j := fun _ => rfl
    have hbase : ∀ d, readPhysicalBase { a.touch id with dirty := d } j = a.readPhysicalBase j := fun _ => rfl
    simp only [read, hrun, hbase]
    rw [if_pos (show (a.touch id).mapped = true from h)]
    simp only [Std.ExtTreeMap.getElem?_insert, Function.update_apply]
    by_cases hj : j = id
    · subst hj; simp
    · have hcmp : ¬ compare id j = .eq := by rw [Nat.compare_eq_eq]; exact fun he => hj he.symm
      rw [if_neg hcmp, if_neg hj]
      have := congrFun (read_touch a id h) j
      simp only [read, hrun, hbase] at this
      rw [if_pos (show (a.touch id).mapped = true from h)] at this
      simpa [read, h] using this
  · funext j
    simp [read, h, Function.update_apply]

@[simp] theorem write_mapped (a : NodeArena H) (id : Nat) (r : NodeRecord H) : (a.write id r).mapped = a.mapped := by
  unfold write; split_ifs <;> rfl

@[simp] theorem write_next (a : NodeArena H) (id : Nat) (r : NodeRecord H) : (a.write id r).next = a.next := by
  unfold write; split_ifs <;> rfl

@[simp] theorem write_live (a : NodeArena H) (id : Nat) (r : NodeRecord H) : (a.write id r).live = a.live := by
  unfold write; split_ifs <;> rfl

@[simp] theorem write_freeStack (a : NodeArena H) (id : Nat) (r : NodeRecord H) :
    (a.write id r).freeStack = a.freeStack := by
  unfold write; split_ifs <;> rfl

@[simp] theorem write_freeSet (a : NodeArena H) (id : Nat) (r : NodeRecord H) :
    (a.write id r).freeSet = a.freeSet := by
  unfold write; split_ifs <;> rfl

/-! ## Bookkeeping -/

def liveIds (a : NodeArena H) : Finset Nat := (Finset.range a.next).filter fun id => (a.read id).type ≠ .free

def freeIds (a : NodeArena H) : Finset Nat := (Finset.range a.next).filter fun id => (a.read id).type = .free

def leafIds (a : NodeArena H) : Finset Nat := (Finset.range a.next).filter fun id => (a.read id).type = .leaf

theorem mem_liveIds {id : Nat} : id ∈ a.liveIds ↔ id < a.next ∧ (a.read id).type ≠ .free := by
  simp [liveIds]

theorem mem_freeIds {id : Nat} : id ∈ a.freeIds ↔ id < a.next ∧ (a.read id).type = .free := by
  simp [freeIds]

theorem mem_leafIds {id : Nat} : id ∈ a.leafIds ↔ id < a.next ∧ (a.read id).type = .leaf := by
  simp [leafIds]

theorem card_liveIds_add (a : NodeArena H) : a.liveIds.card + a.freeIds.card = a.next := by
  have := Finset.card_filter_add_card_filter_not (s := Finset.range a.next) (fun id => (a.read id).type = .free)
  rw [Finset.card_range] at this
  rw [Nat.add_comm]
  exact this

theorem isLeaf_eq_true {id : Nat} : a.isLeaf id = true ↔ id ∈ a.leafIds := by
  rw [mem_leafIds]
  simp only [isLeaf, isLive, Bool.and_eq_true, decide_eq_true_eq]
  constructor
  · rintro ⟨⟨h1, -⟩, h2⟩; exact ⟨h1, h2⟩
  · rintro ⟨h1, h2⟩; exact ⟨⟨h1, by simp [h2]⟩, h2⟩

omit [ForestHash H] in
/-- The free stack offers exactly the ids of `F`. A mapped arena may hold stale ids besides. -/
def FreeExact (a : NodeArena H) (F : Finset Nat) : Prop :=
  if a.mapped then a.freeSet = F ∧ ∀ id ∈ F, id ∈ a.freeStack
  else a.freeStack.Nodup ∧ a.freeStack.toFinset = F

structure Bookkeeping (a : NodeArena H) : Prop where
  next_le : a.next ≤ noNode
  live_eq : a.live = a.liveIds.card
  free_eq : a.FreeExact a.freeIds

theorem bookkeeping_new : (new : NodeArena H).Bookkeeping := by
  have hlive : (new : NodeArena H).liveIds = ∅ := rfl
  have hfree : (new : NodeArena H).freeIds = ∅ := rfl
  refine ⟨by simp [new], by rw [hlive]; rfl, ?_⟩
  rw [hfree]
  simp [FreeExact, new]

omit [ForestHash H] in
theorem freeExact_nonempty {F : Finset Nat} (h : a.FreeExact F) :
    (if a.mapped then a.freeSet ≠ ∅ else a.freeStack ≠ []) ↔ F ≠ ∅ := by
  unfold FreeExact at h
  split_ifs at h ⊢ with hm
  · rw [h.1]
  · rw [← h.2, ne_eq, ne_eq, List.toFinset_eq_empty_iff]

omit [ForestHash H] in
theorem mem_dropWhile_stale {F : Finset Nat} {stack : List Nat} {x : Nat} (hx : x ∈ F) (hmem : x ∈ stack) :
    x ∈ stack.dropWhile (· ∉ F) := by
  have happ := List.takeWhile_append_dropWhile (p := (· ∉ F)) (l := stack)
  rw [← happ, List.mem_append] at hmem
  refine hmem.resolve_left fun htake => ?_
  have := List.mem_takeWhile_imp htake
  simp only [decide_eq_true_eq] at this
  exact this hx

@[simp] theorem read_dropStale (a : NodeArena H) : a.dropStale.read = a.read := by
  unfold dropStale; split_ifs <;> rfl

omit [ForestHash H] in
@[simp] theorem dropStale_next (a : NodeArena H) : a.dropStale.next = a.next := by
  unfold dropStale; split_ifs <;> rfl

omit [ForestHash H] in
@[simp] theorem dropStale_live (a : NodeArena H) : a.dropStale.live = a.live := by
  unfold dropStale; split_ifs <;> rfl

omit [ForestHash H] in
@[simp] theorem dropStale_mapped (a : NodeArena H) : a.dropStale.mapped = a.mapped := by
  unfold dropStale; split_ifs <;> rfl

omit [ForestHash H] in
theorem freeExact_dropStale {F : Finset Nat} (h : a.FreeExact F) :
    a.dropStale.FreeExact F ∧ ∀ id rest, a.dropStale.freeStack = id :: rest → id ∈ F := by
  unfold FreeExact at h ⊢
  rw [dropStale_mapped]
  cases hm : a.mapped with
  | false =>
    simp only [hm, Bool.false_eq_true, if_false] at h ⊢
    have hsame : a.dropStale = a := by simp [dropStale, hm]
    rw [hsame]
    refine ⟨h, fun id rest hs => ?_⟩
    rw [← h.2, hs]
    simp
  | true =>
    simp only [hm, if_true] at h ⊢
    obtain ⟨rfl, hstack⟩ := h
    have hset : a.dropStale.freeSet = a.freeSet := by simp [dropStale, hm]
    have hdrop : a.dropStale.freeStack = a.freeStack.dropWhile (· ∉ a.freeSet) := by simp [dropStale, hm]
    rw [hset, hdrop]
    refine ⟨⟨rfl, fun x hx => mem_dropWhile_stale hx (hstack x hx)⟩, fun id rest hs => ?_⟩
    have := List.head_dropWhile_not (p := (· ∉ a.freeSet)) (l := a.freeStack) (by rw [hs]; simp)
    simp only [hs, List.head_cons] at this
    simpa using this

omit [ForestHash H] in
theorem takeFree_spec {F : Finset Nat} (h : a.FreeExact F)
    (htop : ∀ id rest, a.freeStack = id :: rest → id ∈ F) (hne : F ≠ ∅) :
    ∃ id stack set ops, id ∈ F ∧
      a.takeFree = some (id, { a with freeStack := stack, freeSet := set, freeOperations := ops }) ∧
      FreeExact { a with freeStack := stack, freeSet := set, freeOperations := ops } (F.erase id) := by
  obtain ⟨x, hx⟩ := Finset.nonempty_iff_ne_empty.mpr hne
  unfold FreeExact at h
  cases hs : a.freeStack with
  | nil =>
    split_ifs at h
    · have := h.2 x hx
      rw [hs] at this
      cases this
    · rw [hs] at h
      exact absurd h.2.symm hne
  | cons id rest =>
    have hid := htop id rest hs
    cases hm : a.mapped with
    | false =>
      simp only [hm, Bool.false_eq_true, if_false] at h
      obtain ⟨hnodup, rfl⟩ := h
      rw [hs] at hnodup
      refine ⟨id, rest, a.freeSet, a.freeOperations, hid, by simp [takeFree, hm, hs], ?_⟩
      simp only [FreeExact, Bool.false_eq_true, if_false]
      refine ⟨hnodup.of_cons, ?_⟩
      rw [hs, List.toFinset_cons, Finset.erase_insert]
      simpa using (List.nodup_cons.mp hnodup).1
    | true =>
      simp only [hm, if_true] at h
      obtain ⟨rfl, hstack⟩ := h
      refine ⟨id, rest, a.freeSet.erase id,
        if a.transaction.isSome then (false, id) :: a.freeOperations else a.freeOperations, hid, ?_, ?_⟩
      · simp only [takeFree, hm, if_true, hs, noteFree]
        split_ifs <;> rfl
      · simp only [FreeExact, if_true, true_and]
        intro y hy
        obtain ⟨hyne, hy⟩ := Finset.mem_erase.mp hy
        have := hstack y hy
        rw [hs] at this
        exact (List.mem_cons.mp this).resolve_left hyne

/-! ## One spec for each operation -/

theorem Bookkeeping.write (h : a.Bookkeeping) {id : Nat} (hid : id ∈ a.liveIds) {r : NodeRecord H}
    (hr : r.type ≠ .free) : (a.write id r).Bookkeeping ∧ (a.write id r).liveIds = a.liveIds := by
  have hid' := (mem_liveIds.mp hid).2
  have hlive : (a.write id r).liveIds = a.liveIds := by
    ext j
    rw [mem_liveIds, mem_liveIds, write_next, read_write, Function.update_apply]
    split_ifs with hj
    · subst hj; simp [hr, hid']
    · rfl
  have hfree : (a.write id r).freeIds = a.freeIds := by
    ext j
    rw [mem_freeIds, mem_freeIds, write_next, read_write, Function.update_apply]
    split_ifs with hj
    · subst hj; simp [hr, hid']
    · rfl
  refine ⟨⟨by simpa using h.next_le, by rw [write_live, hlive, h.live_eq], ?_⟩, hlive⟩
  have := h.free_eq
  rw [hfree]
  simpa [FreeExact] using this

section Set

variable {x : Nat}

theorem Bookkeeping.setHash (h : a.Bookkeeping) (hx : x ∈ a.liveIds) (hash : H) :
    (a.setHash x hash).Bookkeeping ∧ (a.setHash x hash).liveIds = a.liveIds ∧
      (a.setHash x hash).read = Function.update a.read x { a.read x with hash } :=
  have hw := h.write hx (r := { a.read x with hash }) (mem_liveIds.mp hx).2
  ⟨hw.1, hw.2, read_write _ _ _⟩

theorem Bookkeeping.setParent (h : a.Bookkeeping) (hx : x ∈ a.liveIds) (parent : Nat) :
    (a.setParent x parent).Bookkeeping ∧ (a.setParent x parent).liveIds = a.liveIds ∧
      (a.setParent x parent).read = Function.update a.read x { a.read x with parent } :=
  have hw := h.write hx (r := { a.read x with parent }) (mem_liveIds.mp hx).2
  ⟨hw.1, hw.2, read_write _ _ _⟩

theorem Bookkeeping.setLeft (h : a.Bookkeeping) (hx : x ∈ a.liveIds) (left : Nat) :
    (a.setLeft x left).Bookkeeping ∧ (a.setLeft x left).liveIds = a.liveIds ∧
      (a.setLeft x left).read = Function.update a.read x { a.read x with left } :=
  have hw := h.write hx (r := { a.read x with left }) (mem_liveIds.mp hx).2
  ⟨hw.1, hw.2, read_write _ _ _⟩

theorem Bookkeeping.setRight (h : a.Bookkeeping) (hx : x ∈ a.liveIds) (right : Nat) :
    (a.setRight x right).Bookkeeping ∧ (a.setRight x right).liveIds = a.liveIds ∧
      (a.setRight x right).read = Function.update a.read x { a.read x with right } :=
  have hw := h.write hx (r := { a.read x with right }) (mem_liveIds.mp hx).2
  ⟨hw.1, hw.2, read_write _ _ _⟩

end Set

/-- What `Allocate` does to the view. -/
structure Allocated (a : NodeArena H) (record : NodeRecord H) (id : Nat) (a' : NodeArena H) : Prop where
  fresh : id ∉ a.liveIds
  id_lt : id < noNode
  read_eq : a'.read = Function.update a.read id record
  live_eq : a'.liveIds = insert id a.liveIds
  next_eq : a'.next = max a.next (id + 1)
  books : a'.Bookkeeping
  mapped_eq : a'.mapped = a.mapped

theorem allocated_of_view {a' : NodeArena H} {id : Nat} {r : NodeRecord H} (h : a.Bookkeeping) (hr : r.type ≠ .free)
    (hfresh : id ∉ a.liveIds) (hid : id < noNode) (hread : a'.read = Function.update a.read id r)
    (hnext : a'.next = max a.next (id + 1)) (hgap : id ≤ a.next) (hlive : a'.live = a.live + 1)
    (hmapped : a'.mapped = a.mapped) (hfree : a'.FreeExact (a.freeIds.erase id)) : Allocated a r id a' := by
  have hids : a'.liveIds = insert id a.liveIds := by
    ext j
    rw [Finset.mem_insert, mem_liveIds, mem_liveIds, hnext, hread, Function.update_apply]
    split_ifs with hj
    · subst hj; simp [hr]
    · simp only [hj, false_or]
      have : j < max a.next (id + 1) ↔ j < a.next := by omega
      rw [this]
  have hfreeIds : a'.freeIds = a.freeIds.erase id := by
    ext j
    rw [Finset.mem_erase, mem_freeIds, mem_freeIds, hnext, hread, Function.update_apply]
    split_ifs with hj
    · subst hj; simp [hr]
    · have : j < max a.next (id + 1) ↔ j < a.next := by omega
      rw [this]
      simp [hj]
  refine ⟨hfresh, hid, hread, hids, hnext, ⟨?_, ?_, ?_⟩, hmapped⟩
  · rw [hnext]; have := h.next_le; omega
  · rw [hlive, hids, Finset.card_insert_of_notMem hfresh, h.live_eq]
  · rw [hfreeIds]; exact hfree

theorem not_mem_liveIds {id : Nat} (hid : id ∈ a.freeIds) : id ∉ a.liveIds := by
  rw [mem_liveIds]
  exact fun h => h.2 (mem_freeIds.mp hid).2

/-- `Allocate` takes a free id or the next one. It throws only when all ids are live. -/
theorem Bookkeeping.allocate (h : a.Bookkeeping) (type : NodeType) (htype : type ≠ .free) (hash : H)
    (left right : Nat) :
    (a.allocate type hash left right = .error "packed forest exhausted 32-bit node IDs" ∧ a.liveIds.card = noNode) ∨
      ∃ id a', a.allocate type hash left right = .ok (id, a') ∧
        Allocated a ⟨hash, noNode, left, right, type⟩ id a' := by
  obtain ⟨hexact, htop⟩ := freeExact_dropStale h.free_eq
  have hle := h.next_le
  rw [NodeArena.allocate]
  by_cases hne : a.freeIds ≠ ∅
  · right
    obtain ⟨id, stack, set, ops, hid, htake, hrest⟩ := takeFree_spec hexact htop hne
    simp only [if_pos ((freeExact_nonempty hexact).mpr hne), htake]
    refine ⟨id, _, rfl, ?_⟩
    have hlt := (mem_freeIds.mp hid).1
    apply allocated_of_view h htype (not_mem_liveIds hid) (by omega)
    · exact (read_write _ _ _).trans (by rw [← read_dropStale a]; rfl)
    · simp only [write_next, dropStale_next]; omega
    · omega
    · simp
    · simp
    · simpa [FreeExact] using hrest
  · have hcond : ¬ (if a.dropStale.mapped then a.dropStale.freeSet ≠ ∅ else a.dropStale.freeStack ≠ []) :=
      fun hc => hne ((freeExact_nonempty hexact).mp hc)
    rw [not_not] at hne
    have hall : a.liveIds = Finset.range a.next := by
      ext j
      rw [mem_liveIds, Finset.mem_range]
      refine ⟨fun hj => hj.1, fun hj => ⟨hj, fun hf => ?_⟩⟩
      have := mem_freeIds.mpr ⟨hj, hf⟩
      rw [hne] at this
      cases this
    simp only [if_neg hcond, dropStale_next]
    by_cases hmax : a.next = noNode
    · left
      rw [if_pos hmax, hall, Finset.card_range]
      exact ⟨rfl, hmax⟩
    · right
      rw [if_neg hmax]
      refine ⟨a.next, _, rfl, ?_⟩
      apply allocated_of_view h htype (by rw [hall]; simp) (by omega)
      · exact (read_write _ _ _).trans (by rw [read_dropStale])
      · simp
      · omega
      · simp
      · simp
      · rw [hne] at hexact ⊢
        simpa [FreeExact] using hexact

theorem Bookkeeping.free (h : a.Bookkeeping) {id : Nat} (hid : id ∈ a.liveIds) :
    (a.free id).Bookkeeping ∧ (a.free id).liveIds = a.liveIds.erase id ∧
      (a.free id).read = Function.update a.read id (a.read id).freed ∧ (a.free id).next = a.next ∧
      (a.free id).mapped = a.mapped := by
  have hread : (a.free id).read = Function.update a.read id (a.read id).freed := by
    rw [← read_write]
    unfold NodeArena.free noteFree
    simp only
    split_ifs <;> rfl
  have hnext : (a.free id).next = a.next := by
    unfold NodeArena.free noteFree
    simp only
    split_ifs <;> simp
  have hmapped : (a.free id).mapped = a.mapped := by
    unfold NodeArena.free noteFree
    simp only
    split_ifs <;> simp
  have hlive : (a.free id).live = a.live - 1 := by
    unfold NodeArena.free noteFree
    simp only
    split_ifs <;> simp
  have hids : (a.free id).liveIds = a.liveIds.erase id := by
    ext j
    rw [Finset.mem_erase, mem_liveIds, mem_liveIds, hnext, hread, Function.update_apply]
    split_ifs with hj
    · simp [hj, NodeRecord.freed]
    · simp [hj]
  have hlt := (mem_liveIds.mp hid).1
  have hfreeIds : (a.free id).freeIds = insert id a.freeIds := by
    ext j
    rw [Finset.mem_insert, mem_freeIds, mem_freeIds, hnext, hread, Function.update_apply]
    split_ifs with hj
    · subst hj; simp [hlt, NodeRecord.freed]
    · simp [hj]
  have hnot : id ∉ a.freeIds := fun hf => not_mem_liveIds hf hid
  refine ⟨⟨by rw [hnext]; exact h.next_le, ?_, ?_⟩, hids, hread, hnext, hmapped⟩
  · rw [hlive, hids, Finset.card_erase_of_mem hid, h.live_eq]
  · have hexact := h.free_eq
    rw [hfreeIds]
    unfold FreeExact at hexact ⊢
    rw [hmapped]
    cases hm : a.mapped with
    | true =>
      simp only [hm, if_true] at hexact ⊢
      have hset : (a.free id).freeSet = insert id a.freeSet := by
        unfold NodeArena.free noteFree
        simp only [hm, if_true]
        split_ifs <;> simp
      have hstack : (a.free id).freeStack = id :: a.freeStack := by
        unfold NodeArena.free noteFree
        simp only [hm, if_true]
        split_ifs <;> simp
      rw [hset, hstack, hexact.1]
      refine ⟨rfl, fun j hj => ?_⟩
      rcases Finset.mem_insert.mp hj with rfl | hj
      · simp
      · exact List.mem_cons_of_mem _ (hexact.2 j hj)
    | false =>
      simp only [hm, Bool.false_eq_true, if_false] at hexact ⊢
      have hstack : (a.free id).freeStack = id :: a.freeStack := by
        unfold NodeArena.free
        simp [hm]
      rw [hstack, List.toFinset_cons, hexact.2]
      refine ⟨List.nodup_cons.mpr ⟨fun hmem => hnot ?_, hexact.1⟩, rfl⟩
      rw [← hexact.2]
      simpa using hmem

end UtreexoBridge.NodeArena
