import UtreexoBridge.Forest.Represents

/-! # Addition carries a tree through the rows -/

namespace UtreexoBridge

variable {H : Type} [ForestHash H]

theorem rootAt_setRoot (roots : Vector Nat 64) (row id r : Nat) (hr : r < 64) :
    rootAt (setRoot roots row id) r = if r = row then id else rootAt roots r := by
  unfold rootAt setRoot
  rw [Vector.getElem?_setIfInBounds]
  by_cases h : row = r
  · subst h; simp [hr]
  · simp [h, Ne.symm h]

/-! ## A branch over two trees -/

section Join

variable {a : NodeArena H} {ts : List (IdTree H)}

theorem IdTree.Linked.update {read : Nat → NodeRecord H} {t : IdTree H} {parent x : Nat} {r : NodeRecord H}
    (h : t.Linked read parent) (hx : x ∉ t.ids) : t.Linked (Function.update read x r) parent :=
  h.congr fun y hy => Function.update_of_ne (fun he : y = x => hx (he ▸ hy)) _ _

theorem join_spec (books : a.Bookkeeping) {l c : IdTree H} (h : Shape a.read a.liveIds (l :: c :: ts)) :
    (a.allocate .branch (parentHash l.hash c.hash) l.id c.id = .error "packed forest exhausted 32-bit node IDs" ∧
        a.liveIds.card = noNode) ∨
      ∃ b a', a.allocate .branch (parentHash l.hash c.hash) l.id c.id = .ok (b, a') ∧
        ((a'.setParent l.id b).setParent c.id b).Bookkeeping ∧
        Shape ((a'.setParent l.id b).setParent c.id b).read ((a'.setParent l.id b).setParent c.id b).liveIds
          (.node b l c :: ts) := by
  rcases books.allocate .branch (by simp) (parentHash l.hash c.hash) l.id c.id with herr | ⟨b, a', hok, hal⟩
  · exact Or.inl herr
  right
  refine ⟨b, a', hok, ?_⟩
  obtain ⟨hl, hlnodup, hldisj, hrest, hrestnodup, hlive⟩ := shape_cons.mp h
  have hc : c.Linked a.read noNode := hrest c (by simp)
  rw [List.flatMap_cons, List.nodup_append] at hrestnodup
  have hcl : ∀ x ∈ l.ids, x ∉ c.ids := fun x hx hxc => hldisj x hx (by simp [hxc])
  have hlmem : ∀ x ∈ l.ids, x ∈ a.liveIds := fun x hx => (hlive x).mpr (Or.inl hx)
  have hcmem : ∀ x ∈ c.ids, x ∈ a.liveIds := fun x hx => (hlive x).mpr (Or.inr (by simp [hx]))
  have htmem : ∀ x ∈ ts.flatMap IdTree.ids, x ∈ a.liveIds :=
    fun x hx => (hlive x).mpr (Or.inr (by rw [List.flatMap_cons, List.mem_append]; exact Or.inr hx))
  have hbl : b ∉ l.ids := fun hb => hal.fresh (hlmem b hb)
  have hbc : b ∉ c.ids := fun hb => hal.fresh (hcmem b hb)
  -- the two parent links are written one after the other
  have hlid : l.id ∈ a'.liveIds := by rw [hal.live_eq]; exact Finset.mem_insert_of_mem (hlmem _ l.id_mem_ids)
  obtain ⟨hb1, hlive1, hread1⟩ := hal.books.setParent hlid b
  have hcid : c.id ∈ (a'.setParent l.id b).liveIds := by
    rw [hlive1, hal.live_eq]; exact Finset.mem_insert_of_mem (hcmem _ c.id_mem_ids)
  obtain ⟨hb2, hlive2, hread2⟩ := hb1.setParent hcid b
  refine ⟨hb2, ?_⟩
  have hl1 : l.Linked (a'.setParent l.id b).read b := by
    have hl0 : l.Linked a'.read noNode := by
      rw [hal.read_eq]
      exact hl.update hbl
    rw [hread1]
    exact hl0.reparent hlnodup b
  have hc1 : c.Linked (a'.setParent l.id b).read noNode := by
    rw [hread1, hal.read_eq]
    exact (hc.update hbc).update (hcl _ l.id_mem_ids)
  have hbread : ((a'.setParent l.id b).setParent c.id b).read b =
      ⟨parentHash l.hash c.hash, noNode, l.id, c.id, .branch⟩ := by
    have hbl' : b ≠ l.id := fun he => hbl (he ▸ l.id_mem_ids)
    have hbc' : b ≠ c.id := fun he => hbc (he ▸ c.id_mem_ids)
    rw [hread2, Function.update_of_ne hbc', hread1, Function.update_of_ne hbl', hal.read_eq, Function.update_self]
  rw [shape_cons]
  refine ⟨⟨hbread, ?_, ?_⟩, ?_, ?_, ?_, hrestnodup.2.1, ?_⟩
  · rw [hread2]
    exact hl1.update fun hx => hcl _ hx c.id_mem_ids
  · rw [hread2]
    exact hc1.reparent hrestnodup.1 b
  · rw [IdTree.ids, List.nodup_cons, List.mem_append, List.nodup_append]
    exact ⟨by tauto, hlnodup, hrestnodup.1, fun x hx y hy hxy => hcl x hx (hxy ▸ hy)⟩
  · intro x hx hxt
    rw [IdTree.ids, List.mem_cons, List.mem_append] at hx
    rcases hx with rfl | hx | hx
    · exact hal.fresh (htmem x hxt)
    · exact hldisj x hx (by rw [List.flatMap_cons, List.mem_append]; exact Or.inr hxt)
    · exact hrestnodup.2.2 x hx x hxt rfl
  · intro s hs
    have hsid : ∀ x ∈ s.ids, x ∈ ts.flatMap IdTree.ids := fun x hx => List.mem_flatMap.mpr ⟨s, hs, hx⟩
    rw [hread2, hread1, hal.read_eq]
    refine (((hrest s (by simp [hs])).update ?_).update ?_).update ?_
    · exact fun hx => hal.fresh (htmem _ (hsid _ hx))
    · exact fun hx => hldisj _ l.id_mem_ids (by rw [List.flatMap_cons, List.mem_append]; exact Or.inr (hsid _ hx))
    · exact fun hx => hrestnodup.2.2 _ c.id_mem_ids _ (hsid _ hx) rfl
  · intro x
    rw [hlive2, hlive1, hal.live_eq, Finset.mem_insert, hlive, List.flatMap_cons, List.mem_append, IdTree.ids,
      List.mem_cons, List.mem_append]
    tauto

end Join

/-! ## The carry loop -/

/-- The state of the loop at `row`: `c` is the carried tree, the rows below are empty. -/
structure Carrying (a : NodeArena H) (roots : Vector Nat 64) (trees : Nat → Option (IdTree H)) (c : IdTree H)
    (leaves row : Nat) : Prop where
  books : a.Bookkeeping
  shape : Shape a.read a.liveIds (c :: rowTrees trees)
  roots_eq : ∀ r < 64, rootAt roots r = (trees r).elim noNode IdTree.id
  bits : ∀ r t, trees r = some t → row ≤ r ∧ leaves.testBit (r - row)
  height : c.height ≤ row
  heights : ∀ r t, trees r = some t → t.height ≤ r

/-- What the loop leaves behind. -/
structure Carried (a : NodeArena H) (roots : Vector Nat 64) (trees trees' : Nat → Option (IdTree H)) (c : IdTree H)
    (leaves row : Nat) : Prop where
  books : a.Bookkeeping
  shape : Shape a.read a.liveIds (rowTrees trees')
  roots_eq : ∀ r < 64, rootAt roots r = (trees' r).elim noNode IdTree.id
  bits : ∀ r t, trees' r = some t → row ≤ r ∧ (leaves + 1).testBit (r - row)
  heights : ∀ r t, trees' r = some t → t.height ≤ r
  carry_eq : (fun r => (trees' r).map IdTree.toTree) =
    Accumulator.carry leaves row c.toTree fun r => (trees r).map IdTree.toTree
  leaves_perm : (leavesOf (rowTrees trees')).Perm (leavesOf (c :: rowTrees trees))

theorem testBit_succ_odd {leaves k : Nat} (h : leaves % 2 = 1) :
    (leaves + 1).testBit (k + 1) = (leaves / 2 + 1).testBit k := by
  rw [Nat.testBit_add_one, show (leaves + 1) / 2 = leaves / 2 + 1 by omega]

theorem testBit_succ_even {leaves k : Nat} (h : leaves % 2 = 0) (hk : leaves.testBit k) : (leaves + 1).testBit k := by
  cases k with
  | zero => simp; omega
  | succ k =>
    rw [Nat.testBit_add_one] at hk ⊢
    rwa [show (leaves + 1) / 2 = leaves / 2 by omega]

variable {a : NodeArena H} {roots : Vector Nat 64} {trees : Nat → Option (IdTree H)} {c : IdTree H} {leaves row : Nat}

omit [ForestHash H] in
theorem map_update (trees : Nat → Option (IdTree H)) (row : Nat) (t : Option (IdTree H)) :
    (fun r => (Function.update trees row t r).map IdTree.toTree) =
      Function.update (fun r => (trees r).map IdTree.toTree) row (t.map IdTree.toTree) := by
  funext r
  simp only [Function.update_apply]
  split_ifs <;> rfl

theorem Carrying.stop (h : Carrying a roots trees c leaves row) (hrow : row < 64) (heven : leaves % 2 = 0) :
    Carried a (setRoot roots row c.id) trees (Function.update trees row (some c)) c leaves row := by
  have hnone : trees row = none := by
    cases ht : trees row with
    | none => rfl
    | some t =>
      have := (h.bits row t ht).2
      rw [Nat.sub_self, Nat.testBit_zero, decide_eq_true_eq] at this
      omega
  have hperm := rowTrees_set _ hrow hnone c
  refine ⟨h.books, h.shape.perm hperm.symm, ?_, ?_, ?_, ?_, ?_⟩
  · intro r hr
    rw [rootAt_setRoot _ _ _ _ hr, Function.update_apply]
    split_ifs
    · rfl
    · exact h.roots_eq r hr
  · intro r t ht
    rw [Function.update_apply] at ht
    split_ifs at ht with hr
    · subst hr
      exact ⟨le_refl _, by rw [Nat.sub_self, Nat.testBit_zero]; simp; omega⟩
    · obtain ⟨h1, h2⟩ := h.bits r t ht
      exact ⟨h1, testBit_succ_even heven h2⟩
  · intro r t ht
    rw [Function.update_apply] at ht
    split_ifs at ht with hr
    · cases ht; rw [hr]; exact h.height
    · exact h.heights r t ht
  · rw [map_update, Accumulator.carry, if_neg (by omega)]
    rfl
  · exact hperm.flatMap_right IdTree.leaves

theorem Carrying.pass (h : Carrying a roots trees c leaves row) (hnone : trees row = none) :
    Carrying a (setRoot roots row noNode) trees c (leaves / 2) (row + 1) := by
  refine ⟨h.books, h.shape, ?_, ?_, by have := h.height; omega, h.heights⟩
  · intro r hr
    rw [rootAt_setRoot _ _ _ _ hr]
    split_ifs with hrr
    · rw [hrr, hnone]; rfl
    · exact h.roots_eq r hr
  · intro r t ht
    obtain ⟨h1, h2⟩ := h.bits r t ht
    have hne : r ≠ row := by rintro rfl; rw [hnone] at ht; cases ht
    refine ⟨by omega, ?_⟩
    rwa [show r - row = r - (row + 1) + 1 by omega, Nat.testBit_add_one] at h2

theorem Carrying.join (h : Carrying a roots trees c leaves row) {l : IdTree H} (hl : trees row = some l) {b : Nat}
    {a' : NodeArena H} (hbooks : a'.Bookkeeping)
    (hshape : Shape a'.read a'.liveIds (.node b l c :: rowTrees (Function.update trees row none))) :
    Carrying a' (setRoot roots row noNode) (Function.update trees row none) (.node b l c) (leaves / 2) (row + 1) := by
  refine ⟨hbooks, hshape, ?_, ?_, ?_, ?_⟩
  · intro r hr
    rw [rootAt_setRoot _ _ _ _ hr, Function.update_apply]
    split_ifs
    · rfl
    · exact h.roots_eq r hr
  · intro r t ht
    rw [Function.update_apply] at ht
    split_ifs at ht with hr
    obtain ⟨h1, h2⟩ := h.bits r t ht
    refine ⟨by omega, ?_⟩
    rwa [show r - row = r - (row + 1) + 1 by omega, Nat.testBit_add_one] at h2
  · have h1 := h.heights row l hl
    have h2 := h.height
    rw [IdTree.height]; omega
  · intro r t ht
    rw [Function.update_apply] at ht
    split_ifs at ht
    exact h.heights r t ht

omit [ForestHash H] in
theorem bits_succ {trees : Nat → Option (IdTree H)} {leaves row : Nat} (hodd : leaves % 2 = 1)
    (h : ∀ r t, trees r = some t → row + 1 ≤ r ∧ (leaves / 2 + 1).testBit (r - (row + 1))) :
    ∀ r t, trees r = some t → row ≤ r ∧ (leaves + 1).testBit (r - row) := by
  intro r t ht
  obtain ⟨h1, h2⟩ := h r t ht
  refine ⟨by omega, ?_⟩
  rw [show r - row = r - (row + 1) + 1 by omega, testBit_succ_odd hodd]
  exact h2

open PackedForest in
/-- The loop of `Add` computes the carry, unless it runs out of ids or rows. -/
theorem addLoop_spec (fuel : Nat) (hfuel : row + fuel = 64) (hlt : leaves < 2 ^ fuel)
    (h : Carrying a roots trees c leaves row) :
    (addLoop fuel leaves row c.id a roots = .error (.thrown "packed forest exhausted 32-bit node IDs") ∨
        addLoop fuel leaves row c.id a roots = .error .outOfBounds) ∨
      ∃ a' roots' trees', addLoop fuel leaves row c.id a roots = .ok (a', roots') ∧
        Carried a' roots' trees trees' c leaves row ∧ leaves + 1 < 2 ^ fuel := by
  induction fuel generalizing leaves row a roots trees c with
  | zero => exact Or.inl (Or.inr rfl)
  | succ fuel ih =>
    have hpow : 2 ^ (fuel + 1) = 2 * 2 ^ fuel := pow_succ' 2 fuel
    have hroot := h.roots_eq row (by omega)
    rw [addLoop]
    by_cases hodd : leaves % 2 = 1
    · rw [if_pos hodd]
      cases ht : trees row with
      | none =>
        have hleft : rootAt roots row = noNode := by rw [hroot, ht]; rfl
        simp only [hleft, ne_eq, not_true_eq_false, if_false]
        rcases ih (by omega) (by omega) (h.pass ht) with herr | ⟨a', roots', trees', hok, hcar, hbound⟩
        · exact Or.inl herr
        · right
          refine ⟨a', roots', trees', hok, ⟨hcar.books, hcar.shape, hcar.roots_eq, bits_succ hodd hcar.bits,
            hcar.heights, ?_, hcar.leaves_perm⟩, by omega⟩
          rw [hcar.carry_eq, Accumulator.carry.eq_def leaves, if_pos hodd]
          simp only [ht, Option.map_none]
          congr 1
          funext r
          rw [Function.update_apply]
          split_ifs with hr
          · rw [hr, ht]; rfl
          · rfl
      | some l =>
        have hleft : rootAt roots row = l.id := by rw [hroot, ht]; rfl
        have htake := rowTrees_take (by omega) ht
        have hshape : Shape a.read a.liveIds (l :: c :: rowTrees (Function.update trees row none)) :=
          (h.shape.perm (htake.cons c)).perm (.swap _ _ _)
        have hl := hshape.linked l (by simp)
        have hc := hshape.linked c (by simp)
        have hne : l.id ≠ noNode := by
          have hlive := hshape.mem_live (t := l) (by simp) l.id_mem_ids
          have := (NodeArena.mem_liveIds.mp hlive).1
          have := h.books.next_le
          omega
        simp only [hleft, ne_eq, hne, not_false_eq_true, if_true, hl.hash_eq, hc.hash_eq]
        rcases join_spec h.books hshape with ⟨herr, -⟩ | ⟨b, a1, hal, hbooks, hshape'⟩
        · rw [herr]
          exact Or.inl (Or.inl rfl)
        · rw [hal]
          simp only
          rcases ih (by omega) (by omega) (h.join ht hbooks hshape') with herr | ⟨a', roots', trees', hok, hcar, hbound⟩
          · exact Or.inl herr
          · right
            refine ⟨a', roots', trees', hok, ⟨hcar.books, hcar.shape, hcar.roots_eq, bits_succ hodd hcar.bits,
              hcar.heights, ?_, ?_⟩, by omega⟩
            · rw [hcar.carry_eq, Accumulator.carry.eq_def leaves, if_pos hodd, map_update]
              simp only [ht, Option.map_some]
              rfl
            · refine hcar.leaves_perm.trans ?_
              have hflat := (htake.cons c).flatMap_right IdTree.leaves
              refine List.Perm.trans ?_ hflat.symm
              simp only [leavesOf, List.flatMap_cons, IdTree.leaves, List.append_assoc]
              exact List.perm_append_comm_assoc _ _ _
    · rw [if_neg hodd]
      right
      exact ⟨a, _, _, rfl, h.stop (by omega) (by omega), by omega⟩

/-! ## `Add` -/

theorem shape_leaf {a a' : NodeArena H} {ts : List (IdTree H)} {v : H} {x : Nat} (h : Shape a.read a.liveIds ts)
    (hal : NodeArena.Allocated a ⟨v, noNode, noNode, noNode, .leaf⟩ x a') :
    Shape a'.read a'.liveIds (.leaf x v :: ts) := by
  have hfresh : x ∉ ts.flatMap IdTree.ids := fun hx => hal.fresh ((h.live_iff x).mpr hx)
  rw [shape_cons]
  refine ⟨?_, by simp [IdTree.ids], by simpa [IdTree.ids] using hfresh, ?_, h.nodup, ?_⟩
  · show a'.read x = _
    rw [hal.read_eq, Function.update_self]
  · intro s hs
    rw [hal.read_eq]
    exact (h.linked s hs).update fun hx => hfresh (List.mem_flatMap.mpr ⟨s, hs, hx⟩)
  · intro y
    rw [hal.live_eq, Finset.mem_insert, h.live_iff, IdTree.ids, List.mem_singleton]

theorem Structured.add {f : PackedForest H} (h : Structured f trees) (v : H) :
    (f.add v = .error (.thrown "packed forest exhausted 32-bit node IDs") ∨ f.add v = .error .outOfBounds) ∨
      ∃ f' trees' x, f.add v = .ok f' ∧ Structured f' trees' ∧
        accumulatorOf f'.numLeaves trees' = (accumulatorOf f.numLeaves trees).add v ∧
        (leavesOf (rowTrees trees')).Perm ((x, v) :: leavesOf (rowTrees trees)) := by
  rw [PackedForest.add]
  rcases h.books.allocate .leaf (by simp) v noNode noNode with ⟨herr, -⟩ | ⟨x, a, hok, hal⟩
  · rw [herr]
    exact Or.inl (Or.inl rfl)
  rw [hok]
  simp only
  have hshape := shape_leaf h.shape hal
  have hread : (a.read x).hash = v := by rw [hal.read_eq, Function.update_self]
  have hold : ∀ y ∈ f.arena.leafIds, a.read y = f.arena.read y := by
    intro y hy
    rw [hal.read_eq]
    apply Function.update_of_ne
    rintro rfl
    obtain ⟨h1, h2⟩ := NodeArena.mem_leafIds.mp hy
    exact hal.fresh (NodeArena.mem_liveIds.mpr ⟨h1, by simp [h2]⟩)
  have hnot : x ∉ f.arena.leafIds := by
    intro hx
    obtain ⟨h1, h2⟩ := NodeArena.mem_leafIds.mp hx
    exact hal.fresh (NodeArena.mem_liveIds.mpr ⟨h1, by simp [h2]⟩)
  have hleafIds : a.leafIds = insert x f.arena.leafIds := by
    ext y
    rw [Finset.mem_insert, mem_leafIds_iff hshape, mem_leafIds_iff h.shape]
    simp only [leavesOf, List.flatMap_cons, IdTree.leaves, List.mem_append, List.mem_singleton, Prod.mk.injEq]
    constructor
    · rintro ⟨w, ⟨rfl, -⟩ | hw⟩
      · exact Or.inl rfl
      · exact Or.inr ⟨w, hw⟩
    · rintro (rfl | ⟨w, hw⟩)
      · exact ⟨v, Or.inl ⟨rfl, rfl⟩⟩
      · exact ⟨w, Or.inr hw⟩
  have hindex : f.index.Indexes a f.arena.leafIds := h.index.congr fun y hy => by rw [hold y hy]
  obtain ⟨index, hins, hindex'⟩ := hindex.insert
    (fun y hy => NodeArena.isLeaf_eq_true.mpr (by rw [hleafIds]; exact Finset.mem_insert_of_mem hy)) hnot
  rw [hread] at hins
  rw [← hleafIds] at hindex'
  rw [hins]
  simp only
  have hcarrying : Carrying a f.roots trees (.leaf x v) f.numLeaves 0 :=
    ⟨hal.books, hshape, h.roots, fun r t ht => ⟨Nat.zero_le _, h.bits r t ht⟩, le_refl _, h.height⟩
  rcases addLoop_spec 64 (by omega) h.bound hcarrying with herr | ⟨a', roots', trees', hloop, hcar, hbound⟩
  · left
    exact herr.imp (fun he => by rw [show x = (IdTree.leaf x v).id from rfl, he])
      fun he => by rw [show x = (IdTree.leaf x v).id from rfl, he]
  right
  have hloop' : PackedForest.addLoop 64 f.numLeaves 0 x a f.roots = .ok (a', roots') := hloop
  refine ⟨⟨a', index, roots', f.numLeaves + 1⟩, trees', x, by rw [hloop'], ?_, ?_, hcar.leaves_perm⟩
  · exact ⟨hcar.books, hcar.shape, hcar.roots_eq, fun r t ht => (hcar.bits r t ht).2, hcar.heights,
      indexes_of_leaves hshape hcar.shape (fun p => hcar.leaves_perm.mem_iff) hindex', hbound⟩
  · simp only [accumulatorOf, Accumulator.add, hcar.carry_eq]
    rfl

theorem Represents.add {f : PackedForest H} (h : Represents f trees) {v : H}
    (hv : ¬ (accumulatorOf f.numLeaves trees).Mem v) :
    (f.add v = .error (.thrown "packed forest exhausted 32-bit node IDs") ∨ f.add v = .error .outOfBounds) ∨
      ∃ f' trees' x, f.add v = .ok f' ∧ Represents f' trees' ∧
        accumulatorOf f'.numLeaves trees' = (accumulatorOf f.numLeaves trees).add v ∧
        (leavesOf (rowTrees trees')).Perm ((x, v) :: leavesOf (rowTrees trees)) := by
  rcases h.toStructured.add v with herr | ⟨f', trees', x, hok, hstr, hacc, hperm⟩
  · exact Or.inl herr
  · refine Or.inr ⟨f', trees', x, hok, ⟨hstr, ?_⟩, hacc, hperm⟩
    rw [(hperm.map _).nodup_iff, List.map_cons, List.nodup_cons]
    refine ⟨fun hmem => hv ?_, h.hashes⟩
    obtain ⟨⟨y, w⟩, hp, rfl⟩ := List.mem_map.mp hmem
    exact h.mem_iff.mpr ⟨y, hp⟩

end UtreexoBridge
