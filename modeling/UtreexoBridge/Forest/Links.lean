import UtreexoBridge.Forest.File
import UtreexoBridge.Forest.Steps
import UtreexoBridge.Arena.View

/-!
# Links stay in range

Every link that a call writes, into a live or a free slot, is `NO_NODE` or an id
below `Next()`. This needs no more than that the links read before are, so it
holds for every run and for every argument.
-/

namespace UtreexoBridge

variable {H : Type} [ForestHash H]

theorem linkValid_noNode (slots : Nat) : linkValid slots noNode := Or.inl rfl

theorem linkValid.mono {slots slots' link : Nat} (h : linkValid slots link) (hle : slots ≤ slots') :
    linkValid slots' link := h.imp id fun hlt => lt_of_lt_of_le hlt hle

omit [ForestHash H] in
def NodeRecord.LinksValid (r : NodeRecord H) (slots : Nat) : Prop :=
  linkValid slots r.parent ∧ linkValid slots r.left ∧ linkValid slots r.right

omit [ForestHash H] in
theorem NodeRecord.LinksValid.mono {r : NodeRecord H} {slots slots' : Nat} (h : r.LinksValid slots)
    (hle : slots ≤ slots') : r.LinksValid slots' := ⟨h.1.mono hle, h.2.1.mono hle, h.2.2.mono hle⟩

omit [ForestHash H] in
theorem NodeRecord.linksValid_freed (r : NodeRecord H) (slots : Nat) : r.freed.LinksValid slots :=
  ⟨linkValid_noNode _, linkValid_noNode _, linkValid_noNode _⟩

/-! ## The arena -/

namespace NodeArena

variable {a a' : NodeArena H}

/-- A RAM arena whose links and free ids stay below `Next()`. -/
structure Links (a : NodeArena H) : Prop where
  ram : a.mapped = false
  free_lt : ∀ id ∈ a.freeStack, id < a.next
  valid : ∀ id, (a.read id).LinksValid a.next

theorem links_new : (new : NodeArena H).Links :=
  ⟨rfl, by simp [new], fun _ => ⟨linkValid_noNode _, linkValid_noNode _, linkValid_noNode _⟩⟩

theorem Links.write (h : a.Links) (id : Nat) {r : NodeRecord H} (hr : r.LinksValid a.next) : (a.write id r).Links := by
  refine ⟨by rw [write_mapped, h.ram], fun x hx => ?_, fun x => ?_⟩
  · rw [write_freeStack] at hx
    rw [write_next]
    exact h.free_lt x hx
  · rw [read_write, write_next, Function.update_apply]
    split_ifs
    · exact hr
    · exact h.valid x

theorem Links.setHash (h : a.Links) (id : Nat) (hash : H) : (a.setHash id hash).Links := h.write id (h.valid id)

theorem Links.setParent (h : a.Links) (id : Nat) {parent : Nat} (hp : linkValid a.next parent) :
    (a.setParent id parent).Links := h.write id ⟨hp, (h.valid id).2⟩

theorem Links.setLeft (h : a.Links) (id : Nat) {left : Nat} (hl : linkValid a.next left) :
    (a.setLeft id left).Links := h.write id ⟨(h.valid id).1, hl, (h.valid id).2.2⟩

theorem Links.setRight (h : a.Links) (id : Nat) {right : Nat} (hr : linkValid a.next right) :
    (a.setRight id right).Links := h.write id ⟨(h.valid id).1, (h.valid id).2.1, hr⟩

@[simp] theorem setHash_next (a : NodeArena H) (id : Nat) (hash : H) : (a.setHash id hash).next = a.next :=
  write_next _ _ _

@[simp] theorem setParent_next (a : NodeArena H) (id parent : Nat) : (a.setParent id parent).next = a.next :=
  write_next _ _ _

@[simp] theorem setLeft_next (a : NodeArena H) (id left : Nat) : (a.setLeft id left).next = a.next :=
  write_next _ _ _

@[simp] theorem setRight_next (a : NodeArena H) (id right : Nat) : (a.setRight id right).next = a.next :=
  write_next _ _ _

/-- What `Allocate` does to the two counts of a RAM arena: the next id and the number of free ids. -/
def takeSlot (next free : Nat) : Option (Nat × Nat) :=
  if free ≠ 0 then some (next, free - 1) else if next = noNode then none else some (next + 1, 0)

theorem allocate_counts (hram : a.mapped = false) (type : NodeType) (hash : H) (left right : Nat) :
    (a.allocate type hash left right = .error "packed forest exhausted 32-bit node IDs" ∧
        takeSlot a.next a.freeStack.length = none) ∨
      ∃ id a', a.allocate type hash left right = .ok (id, a') ∧
        takeSlot a.next a.freeStack.length = some (a'.next, a'.freeStack.length) ∧ a'.mapped = false := by
  have hstale : a.dropStale = a := by
    unfold dropStale
    rw [hram]
    rfl
  unfold allocate
  simp only [hstale, hram, Bool.false_eq_true, if_false]
  cases hfree : a.freeStack with
  | nil =>
    simp only [ne_eq, not_true_eq_false, if_false, takeSlot, List.length_nil]
    split_ifs
    · exact Or.inl ⟨rfl, rfl⟩
    · right
      refine ⟨_, _, rfl, ?_, ?_⟩
      · simp [hfree]
      · simpa using hram
  | cons id rest =>
    right
    have htake : a.takeFree = some (id, { a with freeStack := rest }) := by
      unfold takeFree
      rw [hfree]
      simp [hram]
    simp only [ne_eq, reduceCtorEq, not_false_eq_true, if_true, htake]
    refine ⟨_, _, rfl, ?_, ?_⟩
    · simp [takeSlot]
    · simpa using hram

theorem Links.allocate (h : a.Links) {type : NodeType} {hash : H} {left right id : Nat}
    (hl : linkValid a.next left) (hr : linkValid a.next right)
    (hok : a.allocate type hash left right = .ok (id, a')) : a'.Links ∧ id < a'.next ∧ a.next ≤ a'.next := by
  have hstale : a.dropStale = a := by
    unfold dropStale
    rw [h.ram]
    rfl
  unfold NodeArena.allocate at hok
  simp only [hstale, h.ram, Bool.false_eq_true, if_false] at hok
  cases hfree : a.freeStack with
  | nil =>
    rw [hfree] at hok
    simp only [ne_eq, not_true_eq_false, if_false] at hok
    split_ifs at hok
    cases hok
    have hw := h.write a.next (r := ⟨hash, noNode, left, right, type⟩) ⟨linkValid_noNode _, hl, hr⟩
    refine ⟨⟨hw.ram, fun x hx => ?_, fun x => ?_⟩, Nat.lt_succ_self _, Nat.le_succ _⟩
    · have := hw.free_lt x hx
      rw [write_next] at this
      exact Nat.lt_succ_of_lt this
    · have := hw.valid x
      rw [write_next] at this
      exact this.mono (Nat.le_succ _)
  | cons x rest =>
    have htake : a.takeFree = some (x, { a with freeStack := rest }) := by
      unfold takeFree
      rw [hfree]
      simp [h.ram]
    rw [hfree] at hok
    simp only [ne_eq, reduceCtorEq, not_false_eq_true, if_true, htake] at hok
    cases hok
    have hrest : ({ a with freeStack := rest } : NodeArena H).Links :=
      ⟨h.ram, fun y hy => h.free_lt y (by rw [hfree]; exact List.mem_cons_of_mem _ hy), h.valid⟩
    have hw := hrest.write id (r := ⟨hash, noNode, left, right, type⟩) ⟨linkValid_noNode _, hl, hr⟩
    refine ⟨⟨hw.ram, hw.free_lt, hw.valid⟩, ?_, ?_⟩
    · simpa using h.free_lt id (by rw [hfree]; exact List.mem_cons_self)
    · simp

theorem Links.free (h : a.Links) {id : Nat} (hid : id < a.next) : (a.free id).Links ∧ (a.free id).next = a.next := by
  have hw := h.write id (NodeRecord.linksValid_freed (a.read id) a.next)
  unfold NodeArena.free
  simp only [h.ram, Bool.false_eq_true, if_false]
  refine ⟨⟨hw.ram, fun x hx => ?_, hw.valid⟩, write_next _ _ _⟩
  rcases List.mem_cons.mp hx with rfl | hx
  · simpa using hid
  · exact hw.free_lt x hx

theorem Links.foldl_free (h : a.Links) (ids : List Nat) (hids : ∀ id ∈ ids, id < a.next) :
    (ids.foldl NodeArena.free a).Links ∧ (ids.foldl NodeArena.free a).next = a.next := by
  induction ids generalizing a with
  | nil => exact ⟨h, rfl⟩
  | cons id ids ih =>
    obtain ⟨hfree, hnext⟩ := h.free (hids id (by simp))
    rw [List.foldl_cons, ← hnext]
    exact ih hfree fun x hx => by rw [hnext]; exact hids x (by simp [hx])

end NodeArena

/-! ## The forest -/

theorem rootAt_setRoot_ite (roots : Vector Nat 64) (row id r : Nat) :
    rootAt (setRoot roots row id) r = if r = row ∧ row < 64 then id else rootAt roots r := by
  unfold rootAt setRoot
  rw [Vector.getElem?_setIfInBounds]
  by_cases hr : r = row
  · subst hr
    by_cases hlt : r < 64 <;> simp [hlt]
  · simp [hr, Ne.symm hr]

namespace PackedForest

variable {f f' : PackedForest H}

structure Links (f : PackedForest H) : Prop where
  arena : f.arena.Links
  roots : ∀ row, linkValid f.arena.next (rootAt f.roots row)

theorem links_new : (new : PackedForest H).Links := by
  refine ⟨NodeArena.links_new, fun row => Or.inl ?_⟩
  unfold rootAt new
  by_cases hrow : row < 64 <;> simp [hrow]

theorem linkValid_setRoot {slots : Nat} {roots : Vector Nat 64} (h : ∀ row, linkValid slots (rootAt roots row))
    (row : Nat) {id : Nat} (hid : linkValid slots id) (r : Nat) : linkValid slots (rootAt (setRoot roots row id) r) := by
  rw [rootAt_setRoot_ite]
  split_ifs
  · exact hid
  · exact h r

theorem addLoop_links (fuel : Nat) {leaves row node : Nat} {a a' : NodeArena H} {roots roots' : Vector Nat 64}
    (h : a.Links) (hroots : ∀ r, linkValid a.next (rootAt roots r)) (hnode : node < a.next)
    (hok : addLoop fuel leaves row node a roots = .ok (a', roots')) :
    a'.Links ∧ ∀ r, linkValid a'.next (rootAt roots' r) := by
  induction fuel generalizing leaves row node a roots with
  | zero => cases hok
  | succ fuel ih =>
    have hcleared := linkValid_setRoot hroots row (linkValid_noNode a.next)
    rcases addLoop_steps hok with ⟨-, -, branch, b, hal, hrest⟩ | ⟨-, -, hrest⟩ | ⟨-, rfl, rfl⟩
    · obtain ⟨hb, hbranch, hle⟩ := h.allocate (hroots row) (Or.inr hnode) hal
      have hleftSet : (b.setParent (rootAt roots row) branch).Links := hb.setParent _ (Or.inr hbranch)
      have hset : ((b.setParent (rootAt roots row) branch).setParent node branch).Links :=
        hleftSet.setParent _ (Or.inr (by simpa using hbranch))
      exact ih hset (fun r => by simpa using (hcleared r).mono hle) (by simpa using hbranch) hrest
    · exact ih h hcleared hnode hrest
    · exact ⟨h, linkValid_setRoot hroots row (Or.inr hnode)⟩

theorem Links.add (h : f.Links) {hash : H} (hok : f.add hash = .ok f') : f'.Links := by
  obtain ⟨node, a, hsteps⟩ := add_steps hok
  obtain ⟨ha, hnode, hle⟩ := h.arena.allocate (linkValid_noNode _) (linkValid_noNode _) hsteps.allocated
  obtain ⟨harena, hroots⟩ := addLoop_links 64 ha (fun r => (h.roots r).mono hle) hnode hsteps.linked
  exact ⟨harena, hroots⟩

theorem Links.addAll (h : f.Links) {hashes : List H} (hok : f.addAll hashes = .ok f') : f'.Links :=
  addAll_keeps (fun hlinks hadd => hlinks.add hadd) h hok

theorem recompute_links (fuel : Nat) {a a' : NodeArena H} {node : Nat} (h : a.Links)
    (hok : recompute fuel a node = some a') : a'.Links ∧ a'.next = a.next := by
  induction fuel generalizing a node with
  | zero => cases hok
  | succ fuel ih =>
    rw [recompute] at hok
    split_ifs at hok with hend
    · cases hok
      exact ⟨h, rfl⟩
    · obtain ⟨hlinks, hnext⟩ := ih (h.setHash _ _) hok
      exact ⟨hlinks, hnext.trans (NodeArena.setHash_next _ _ _)⟩

theorem Links.dropIds (h : f.Links) {hash : H} {leaf : Nat} {ids : List Nat} {res : Res}
    (hids : ∀ id ∈ ids, id < f.arena.next) (hok : f.dropIds hash leaf ids = .ok (res, f')) :
    f'.Links ∧ f'.arena.next = f.arena.next := by
  unfold PackedForest.dropIds at hok
  split at hok
  · cases hok
  · cases hok
    obtain ⟨hfree, hnext⟩ := h.arena.foldl_free ids hids
    exact ⟨⟨hfree, fun row => by show linkValid (NodeArena.next _) _; rw [hnext]; exact h.roots row⟩, hnext⟩

theorem Links.deleteId (h : f.Links) {leaf : Nat} {res : Res} (hok : f.deleteId leaf = .ok (res, f')) :
    f'.Links ∧ f'.arena.next = f.arena.next := by
  -- the sibling moves up, whichever side it was on
  have hsibling : ∀ parent, linkValid f.arena.next (siblingOf f.arena parent leaf) := by
    intro parent
    unfold siblingOf
    split_ifs
    · exact (h.arena.valid parent).2.2
    · exact (h.arena.valid parent).2.1
  have hlt : f.arena.isLeaf leaf = true → leaf < f.arena.next := fun hleaf =>
    (NodeArena.mem_leafIds.mp (NodeArena.isLeaf_eq_true.mp hleaf)).1
  have hparent := (h.arena.valid leaf).1
  cases deleteId_steps hok with
  | refused _ => exact ⟨h, rfl⟩
  | @root row _ _ hleaf _ drops =>
    have hset : ({ f with roots := setRoot f.roots row noNode } : PackedForest H).Links :=
      ⟨h.arena, linkValid_setRoot h.roots row (linkValid_noNode _)⟩
    exact hset.dropIds (by simpa using hlt hleaf) drops
  | @top row parent _ _ hleaf heq hinner drops =>
    rw [heq] at hparent
    have hset : ({ f with
        roots := setRoot f.roots row (siblingOf f.arena parent leaf)
        arena := f.arena.setParent (siblingOf f.arena parent leaf) noNode } : PackedForest H).Links :=
      ⟨h.arena.setParent _ (linkValid_noNode _), fun r => by simpa using linkValid_setRoot h.roots row (hsibling parent) r⟩
    obtain ⟨hlinks, hnext⟩ := hset.dropIds (by simpa using ⟨hlt hleaf, hparent.resolve_left hinner⟩) drops
    exact ⟨hlinks, hnext.trans (NodeArena.setParent_next _ _ _)⟩
  | @inner parent grandparent a b _ _ hleaf hparents hmoved hrec drops =>
    obtain ⟨heq, hinner, hgrand⟩ := hparents
    rw [heq] at hparent
    obtain ⟨ha, hnext⟩ : a.Links ∧ a.next = f.arena.next := by
      rcases hmoved with rfl | rfl
      · exact ⟨h.arena.setLeft grandparent (hsibling parent), NodeArena.setLeft_next _ _ _⟩
      · exact ⟨h.arena.setRight grandparent (hsibling parent), NodeArena.setRight_next _ _ _⟩
    have hup : linkValid a.next grandparent := by
      rw [hnext, ← hgrand]
      exact (h.arena.valid parent).1
    obtain ⟨hb, hbnext⟩ := recompute_links chainFuel (ha.setParent _ hup) hrec
    rw [NodeArena.setParent_next, hnext] at hbnext
    have hset : ({ f with arena := b } : PackedForest H).Links :=
      ⟨hb, fun r => by show linkValid b.next _; rw [hbnext]; exact h.roots r⟩
    have hids : ∀ id ∈ [leaf, parent], id < b.next := by
      rw [hbnext]
      simpa using ⟨hlt hleaf, hparent.resolve_left hinner⟩
    obtain ⟨hlinks, hlast⟩ := hset.dropIds hids drops
    exact ⟨hlinks, hlast.trans hbnext⟩

theorem Links.deleteAll (h : f.Links) {ids : List Nat} {res : Res} (hok : f.deleteAll ids = .ok (res, f')) :
    f'.Links ∧ f'.arena.next = f.arena.next := by
  refine deleteAll_keeps (P := fun g => g.Links ∧ g.arena.next = f.arena.next) (fun hkept hdel => ?_) ⟨h, rfl⟩ hok
  obtain ⟨hlinks, hnext⟩ := hkept.1.deleteId hdel
  exact ⟨hlinks, hnext.trans hkept.2⟩

theorem Links.prepareModify (h : f.Links) {additions : Nat} (hok : f.prepareModify additions = .ok f') :
    f'.Links ∧ f'.arena = f.arena := by
  obtain ⟨index, -, rfl, -⟩ := prepareModify_steps hok
  exact ⟨⟨h.arena, h.roots⟩, rfl⟩

variable [DecidableEq H]

theorem Links.modify (h : f.Links) {additions deletions : List H} {res : Res}
    (hok : f.modify additions deletions = .ok (res, f')) : f'.Links := by
  unfold PackedForest.modify at hok
  split at hok
  · cases hok
  · cases hok
    exact h
  simp only at hok
  split at hok
  · cases hok
  rename_i g hprep
  have hg := (h.prepareModify hprep).1
  split at hok
  · cases hok
  · rename_i hdel
    cases hok
    exact (hg.deleteAll hdel).1
  rename_i hdel
  have hd := (hg.deleteAll hdel).1
  split at hok
  · cases hok
  · rename_i hadd
    cases hok
    exact hd.addAll hadd

theorem Links.call (h : f.Links) {c : Call H} {res : Res} (hok : f.call c = .ok (res, f')) : f'.Links := by
  cases c with
  | add hash =>
    rw [PackedForest.call] at hok
    split at hok
    · cases hok
    · rename_i hadd
      cases hok
      exact h.add hadd
  | modify additions deletions => exact h.modify hok

theorem Links.run (h : f.Links) {calls : List (Call H)} {results : List Res}
    (hok : f.run calls = .ok (results, f')) : f'.Links := by
  induction calls generalizing f results with
  | nil =>
    cases hok
    exact h
  | cons c calls ih =>
    rw [PackedForest.run] at hok
    split at hok
    · cases hok
    · rename_i hcall
      split at hok
      · cases hok
      · rename_i hrun
        cases hok
        exact ih (h.call hcall) hrun

end PackedForest

end UtreexoBridge
