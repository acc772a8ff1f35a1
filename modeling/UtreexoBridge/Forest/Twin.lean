import UtreexoBridge.Forest.Links
import UtreexoBridge.Forest.Refines

/-!
# Two forests of one accumulator

Node ids, free lists and indexes of two RAM forests may differ. If they show the
same accumulator and have as many slots, every further run of calls ends alike.
-/

namespace UtreexoBridge

variable {H : Type} [ForestHash H]

/-! ## Counting nodes -/

omit [ForestHash H] in
def Tree.size : Tree H → Nat
  | .leaf _ => 1
  | .node l r => l.size + r.size + 1

omit [ForestHash H] in
def Accumulator.nodes (m : Accumulator H) : Nat :=
  ((List.range 64).map fun row => (m.tree row).elim 0 Tree.size).sum

omit [ForestHash H] in
theorem IdTree.length_ids (t : IdTree H) : t.ids.length = t.toTree.size := by
  induction t with
  | leaf id v => rfl
  | node id l r ihl ihr =>
    rw [IdTree.ids, IdTree.toTree, Tree.size, List.length_cons, List.length_append, ihl, ihr]

omit [ForestHash H] in
theorem length_rowIds (numLeaves : Nat) (trees : Nat → Option (IdTree H)) :
    ((rowTrees trees).flatMap IdTree.ids).length = (accumulatorOf numLeaves trees).nodes := by
  unfold rowTrees Accumulator.nodes accumulatorOf
  induction List.range 64 with
  | nil => rfl
  | cons row rows ih =>
    rw [List.map_cons, List.sum_cons, ← ih]
    cases ht : trees row with
    | none => simp [List.filterMap_cons_none ht, ht]
    | some t => simp [List.filterMap_cons_some ht, ht, IdTree.length_ids]

theorem Represents.freeStack_length {f : PackedForest H} {trees : Nat → Option (IdTree H)} (h : Represents f trees)
    (hram : f.arena.mapped = false) :
    f.arena.freeStack.length + (accumulatorOf f.numLeaves trees).nodes = f.arena.next := by
  have hfree := h.books.free_eq
  unfold NodeArena.FreeExact at hfree
  rw [hram] at hfree
  obtain ⟨hnodup, hset⟩ := hfree
  have hlive : f.arena.liveIds = ((rowTrees trees).flatMap IdTree.ids).toFinset := by
    ext id
    rw [h.shape.live_iff, List.mem_toFinset]
  have hsplit : f.arena.freeIds.card + f.arena.liveIds.card = f.arena.next := by
    have := Finset.card_filter_add_card_filter_not (s := Finset.range f.arena.next)
      (fun id => (f.arena.read id).type = .free)
    rw [Finset.card_range] at this
    exact this
  rw [← List.toFinset_card_of_nodup hnodup, hset, ← length_rowIds, ← List.toFinset_card_of_nodup h.shape.nodup, ← hlive]
  exact hsplit

/-! ## The states -/

/-- A RAM forest of the accumulator. -/
structure Shows (f : PackedForest H) (m : Accumulator H) : Prop where
  represents : ∃ trees, Represents f trees ∧ accumulatorOf f.numLeaves trees = m
  links : f.Links

namespace Shows

variable {f : PackedForest H} {m : Accumulator H}

theorem numLeaves_eq (h : Shows f m) : f.numLeaves = m.numLeaves := by
  obtain ⟨trees, -, rfl⟩ := h.represents
  rfl

theorem freeStack_length (h : Shows f m) : f.arena.freeStack.length = f.arena.next - m.nodes := by
  obtain ⟨trees, hrep, rfl⟩ := h.represents
  have := hrep.freeStack_length h.links.arena.ram
  omega

theorem rootHashes_eq (h : Shows f m) : f.rootHashes = m.roots := by
  obtain ⟨trees, hrep, rfl⟩ := h.represents
  exact hrep.rootHashes_eq

theorem root_eq_noNode_iff (h : Shows f m) {row : Nat} (hrow : row < 64) :
    rootAt f.roots row = noNode ↔ m.tree row = none := by
  obtain ⟨trees, hrep, rfl⟩ := h.represents
  rw [hrep.roots row hrow, accumulatorOf]
  cases ht : trees row with
  | none => simp [ht]
  | some t =>
    have hne : t.id ≠ noNode := Nat.ne_of_lt (hrep.id_lt (hrep.shape.mem_live (hrep.mem_rows ht) t.id_mem_ids))
    simp [ht, hne]

end Shows

/-- Two forests of one accumulator with as many slots. -/
structure Twin (m : Accumulator H) (f g : PackedForest H) : Prop where
  left : Shows f m
  right : Shows g m
  next_eq : f.arena.next = g.arena.next

theorem Twin.free_eq {m : Accumulator H} {f g : PackedForest H} (h : Twin m f g) :
    f.arena.freeStack.length = g.arena.freeStack.length := by
  rw [h.left.freeStack_length, h.right.freeStack_length, h.next_eq]

/-! ## Additions -/

open NodeArena in
theorem allocate_alike {a b : NodeArena H} (ha : a.mapped = false) (hb : b.mapped = false) (hnext : a.next = b.next)
    (hfree : a.freeStack.length = b.freeStack.length) (type : NodeType) (hash hash' : H) (left right left' right' : Nat) :
    (∃ what, a.allocate type hash left right = .error what ∧ b.allocate type hash' left' right' = .error what) ∨
      ∃ id a' id' b', a.allocate type hash left right = .ok (id, a') ∧
        b.allocate type hash' left' right' = .ok (id', b') ∧ a'.mapped = false ∧ b'.mapped = false ∧
        a'.next = b'.next ∧ a'.freeStack.length = b'.freeStack.length := by
  have hb' := allocate_counts hb type hash' left' right'
  rw [← hnext, ← hfree] at hb'
  rcases allocate_counts ha type hash left right with ⟨herr, hnone⟩ | ⟨id, a', hok, hsome, hram⟩
  · rcases hb' with ⟨herr', -⟩ | ⟨_, _, _, hsome', -⟩
    · exact Or.inl ⟨_, herr, herr'⟩
    · rw [hnone] at hsome'
      cases hsome'
  · rcases hb' with ⟨-, hnone'⟩ | ⟨id', b', hok', hsome', hram'⟩
    · rw [hsome] at hnone'
      cases hnone'
    · rw [hsome, Option.some.injEq, Prod.mk.injEq] at hsome'
      exact Or.inr ⟨id, a', id', b', hok, hok', hram, hram', hsome'.1, hsome'.2⟩

/-- The loop of `Add` looks at which rows are empty and at the two counts, and at nothing else. -/
theorem addLoop_alike (fuel : Nat) {leaves row node node' : Nat} {a b : NodeArena H} {roots roots' : Vector Nat 64}
    (ha : a.mapped = false) (hb : b.mapped = false) (hnext : a.next = b.next)
    (hfree : a.freeStack.length = b.freeStack.length)
    (hroots : ∀ r, row ≤ r → (rootAt roots r = noNode ↔ rootAt roots' r = noNode)) :
    (PackedForest.addLoop fuel leaves row node a roots).map (·.1.next) =
      (PackedForest.addLoop fuel leaves row node' b roots').map (·.1.next) := by
  induction fuel generalizing leaves row node node' a b roots roots' with
  | zero => rfl
  | succ fuel ih =>
    rw [PackedForest.addLoop, PackedForest.addLoop]
    have hcleared : ∀ r, row + 1 ≤ r →
        (rootAt (setRoot roots row noNode) r = noNode ↔ rootAt (setRoot roots' row noNode) r = noNode) := by
      intro r hr
      rw [rootAt_setRoot_ite, rootAt_setRoot_ite, if_neg (by omega), if_neg (by omega)]
      exact hroots r (by omega)
    by_cases hodd : leaves % 2 = 1
    · rw [if_pos hodd, if_pos hodd]
      by_cases hleft : rootAt roots row = noNode
      · simp only [hleft, (hroots row (le_refl _)).mp hleft, ne_eq, not_true_eq_false, if_false]
        exact ih ha hb hnext hfree hcleared
      · have hleft' : rootAt roots' row ≠ noNode := fun h => hleft ((hroots row (le_refl _)).mpr h)
        simp only [ne_eq, hleft, hleft', not_false_eq_true, if_true]
        rcases allocate_alike ha hb hnext hfree .branch
          (parentHash (a.read (rootAt roots row)).hash (a.read node).hash)
          (parentHash (b.read (rootAt roots' row)).hash (b.read node').hash) (rootAt roots row) node (rootAt roots' row)
          node' with ⟨what, herr, herr'⟩ | ⟨id, a', id', b', hok, hok', hram, hram', hn, hf⟩
        · rw [herr, herr']
        · rw [hok, hok']
          simp only
          apply ih _ _ _ _ hcleared
          · simpa [NodeArena.setParent] using hram
          · simpa [NodeArena.setParent] using hram'
          · simpa using hn
          · simpa [NodeArena.setParent] using hf
    · rw [if_neg hodd, if_neg hodd]
      exact congrArg Except.ok hnext

theorem add_next {f : PackedForest H} {v : H} (hends : f.add v ≠ .error .diverges) :
    (f.add v).map (·.arena.next) =
      match f.arena.allocate .leaf v noNode noNode with
      | .error what => .error (.thrown what)
      | .ok (node, a) => (PackedForest.addLoop 64 f.numLeaves 0 node a f.roots).map (·.1.next) := by
  unfold PackedForest.add at hends ⊢
  cases hal : f.arena.allocate .leaf v noNode noNode with
  | error what => rfl
  | ok result =>
    obtain ⟨node, a⟩ := result
    simp only [hal] at hends ⊢
    cases hindex : f.index.insert a v node with
    | none =>
      rw [hindex] at hends
      exact absurd rfl hends
    | some index =>
      simp only
      cases PackedForest.addLoop 64 f.numLeaves 0 node a f.roots with
      | error fault => rfl
      | ok result => rfl

theorem Shows.add {f : PackedForest H} {m : Accumulator H} (h : Shows f m) {v : H} (hv : ¬ m.Mem v) :
    f.add v ≠ .error .diverges ∧
      ∀ f', f.add v = .ok f' → Shows f' (m.add v) ∧ ∀ w, (m.add v).Mem w → w = v ∨ m.Mem w := by
  obtain ⟨trees, hrep, rfl⟩ := h.represents
  rcases hrep.add hv with herr | ⟨f', trees', x, hok, hrep', hacc, hperm⟩
  · refine ⟨?_, fun f' hok => ?_⟩
    · rcases herr with herr | herr <;> rw [herr] <;> simp
    · rcases herr with herr | herr <;> rw [herr] at hok <;> cases hok
  · refine ⟨by rw [hok]; simp, fun g hg => ?_⟩
    have hlinks := h.links.add hg
    rw [hok] at hg
    cases hg
    exact ⟨⟨⟨trees', hrep', hacc⟩, hlinks⟩, fun w => (hrep.mem_of_perm hrep' rfl hacc.symm hperm w).mp⟩

/-- Both calls end in the same fault, or both return and lead to twins. -/
def Alike (m : Accumulator H) (x y : Except Fault (PackedForest H)) : Prop :=
  (∃ fault, x = .error fault ∧ y = .error fault) ∨ ∃ f g, x = .ok f ∧ y = .ok g ∧ Twin m f g

theorem alike_of_next {m : Accumulator H} {x y : Except Fault (PackedForest H)}
    (hsame : x.map (·.arena.next) = y.map (·.arena.next)) (hx : ∀ f, x = .ok f → Shows f m)
    (hy : ∀ g, y = .ok g → Shows g m) : Alike m x y := by
  cases x with
  | error fault =>
    cases y with
    | error fault' =>
      cases hsame
      exact Or.inl ⟨fault, rfl, rfl⟩
    | ok g => cases hsame
  | ok f =>
    cases y with
    | error fault => cases hsame
    | ok g => exact Or.inr ⟨f, g, rfl, rfl, hx f rfl, hy g rfl, Except.ok.inj hsame⟩

namespace Twin

variable {f g : PackedForest H} {m : Accumulator H}

theorem add (h : Twin m f g) {v : H} (hv : ¬ m.Mem v) : Alike (m.add v) (f.add v) (g.add v) := by
  obtain ⟨hfends, hfok⟩ := h.left.add hv
  obtain ⟨hgends, hgok⟩ := h.right.add hv
  have hroots : ∀ r, rootAt f.roots r = noNode ↔ rootAt g.roots r = noNode := by
    intro r
    by_cases hr : r < 64
    · rw [h.left.root_eq_noNode_iff hr, h.right.root_eq_noNode_iff hr]
    · simp [rootAt, hr]
  apply alike_of_next _ (fun f' hf' => (hfok f' hf').1) fun g' hg' => (hgok g' hg').1
  rw [add_next hfends, add_next hgends]
  rcases allocate_alike h.left.links.arena.ram h.right.links.arena.ram h.next_eq h.free_eq .leaf v v noNode noNode noNode
    noNode with ⟨what, herr, herr'⟩ | ⟨id, a, id', b, hok, hok', hram, hram', hn, hl⟩
  · rw [herr, herr']
  · rw [hok, hok', h.left.numLeaves_eq, h.right.numLeaves_eq]
    exact addLoop_alike 64 hram hram' hn hl fun r _ => hroots r

theorem addAll (h : Twin m f g) {hashes : List H} (hnodup : hashes.Nodup) (hnew : ∀ v ∈ hashes, ¬ m.Mem v) :
    Alike (hashes.foldl .add m) (f.addAll hashes) (g.addAll hashes) := by
  induction hashes generalizing f g m with
  | nil => exact Or.inr ⟨f, g, rfl, rfl, h⟩
  | cons v hashes ih =>
    obtain ⟨hv, hnodup⟩ := List.nodup_cons.mp hnodup
    rw [PackedForest.addAll, PackedForest.addAll]
    rcases h.add (hnew v (by simp)) with ⟨fault, herr, herr'⟩ | ⟨f', g', hok, hok', htwin⟩
    · rw [herr, herr']
      exact Or.inl ⟨fault, rfl, rfl⟩
    · rw [hok, hok']
      apply ih htwin hnodup
      intro w hw hmem
      rcases ((h.left.add (hnew v (by simp))).2 f' hok).2 w hmem with rfl | hmem
      · exact hv hw
      · exact hnew w (by simp [hw]) hmem

end Twin

/-! ## Blocks -/

variable [DecidableEq H]

omit [ForestHash H] [DecidableEq H] in
def slotsNeeded (m : Accumulator H) (additions : Nat) : Nat :=
  additions + ((List.range additions).map fun i => PackedForest.countrOne 64 (word (m.numLeaves + i))).sum

theorem Shows.modify_eq {f : PackedForest H} {m : Accumulator H} (h : Shows f m) {additions deletions : List H}
    (hfresh : m.FreshCall (.modify additions deletions)) :
    (∃ message, m.checkDeletions [] deletions = .error message ∧
        f.modify additions deletions = .ok (.error message, f)) ∨
      m.checkDeletions [] deletions = .ok () ∧
        ∃ f', Shows f' (deletions.foldl .delete m) ∧ f'.arena.next = f.arena.next ∧
          (∀ v ∈ additions, ¬ (deletions.foldl Accumulator.delete m).Mem v) ∧
          f.modify additions deletions =
            match f.arena.prepareAllocations (slotsNeeded m additions.length) with
            | .error what => .error (.thrown what)
            | .ok () => (f'.addAll additions).map fun f => (.ok (), f) := by
  obtain ⟨trees, hrep, rfl⟩ := h.represents
  rw [PackedForest.modify]
  rcases hrep.resolveDeletions [] deletions with ⟨message, hcheck, hrun⟩ | ⟨nodes, hcheck, hrun, hall⟩
  · rw [hrun]
    exact Or.inl ⟨message, hcheck, rfl⟩
  right
  refine ⟨hcheck, ?_⟩
  rw [hrun]
  simp only
  obtain ⟨hnodup, -⟩ := ((accumulatorOf f.numLeaves trees).checkDeletions_ok_iff [] deletions).mp hcheck
  obtain ⟨index, hprep, hindex⟩ := hrep.index.prepareInsertions
    (fun x hx => NodeArena.isLeaf_eq_true.mpr hx) additions.length
  have hrep' : Represents { f with index } trees :=
    ⟨⟨hrep.books, hrep.shape, hrep.roots, hrep.bits, hrep.height, hindex, hrep.bound⟩, hrep.hashes⟩
  have hlinks : ({ f with index } : PackedForest H).Links := ⟨h.links.arena, h.links.roots⟩
  obtain ⟨ps, hids, hhash, hpsnodup, hps⟩ := hrep.sorted_deletions hall hnodup
    (nodes.insertionSort fun x y => x.1 ≤ y.1) (List.perm_insertionSort _ _)
  obtain ⟨f', trees', hdel, hrep1, hacc, hmem⟩ := hrep'.deleteAll ps hpsnodup hps
  obtain ⟨hlinks', hnext⟩ := hlinks.deleteAll hdel
  have hacc' : accumulatorOf f'.numLeaves trees' = deletions.foldl .delete (accumulatorOf f.numLeaves trees) := by
    rw [hacc, Accumulator.foldl_delete_perm hhash]
  refine ⟨f', ⟨⟨trees', hrep1, hacc'⟩, hlinks'⟩, hnext, ?_, ?_⟩
  · intro v hv hvm
    rw [← hacc'] at hvm
    obtain ⟨x, hx⟩ := hrep1.mem_iff.mp hvm
    obtain ⟨hx0, hxp⟩ := (hmem (x, v)).mp hx
    have hdv := (hfresh hcheck).2 v hv (hrep.mem_iff.mpr ⟨x, hx0⟩)
    obtain ⟨⟨y, w⟩, hy, rfl⟩ := List.mem_map.mp (hhash.mem_iff.mpr hdv)
    rw [hrep.leaf_unique hx0 (hps _ hy)] at hxp
    exact hxp hy
  · rw [PackedForest.prepareModify]
    simp only [hprep]
    have hcount : slotsNeeded (accumulatorOf f.numLeaves trees) additions.length = additions.length +
        ((List.range additions.length).map fun i => PackedForest.countrOne 64 (word (f.numLeaves + i))).sum := rfl
    rw [hcount]
    cases f.arena.prepareAllocations (additions.length +
        ((List.range additions.length).map fun i => PackedForest.countrOne 64 (word (f.numLeaves + i))).sum) with
    | error what => rfl
    | ok _ =>
      simp only
      rw [← hids, hdel]
      simp only
      cases f'.addAll additions with
      | error fault => rfl
      | ok f2 => rfl

def AlikeResult (m : Accumulator H) (res : Res) (x y : Except Fault (Res × PackedForest H)) : Prop :=
  (∃ fault, x = .error fault ∧ y = .error fault) ∨ ∃ f g, x = .ok (res, f) ∧ y = .ok (res, g) ∧ Twin m f g

namespace Twin

variable {f g : PackedForest H} {m : Accumulator H}

theorem modify (h : Twin m f g) {additions deletions : List H} (hfresh : m.FreshCall (.modify additions deletions)) :
    AlikeResult (m.modify additions deletions).2 (m.modify additions deletions).1 (f.modify additions deletions)
      (g.modify additions deletions) := by
  rw [Accumulator.modify]
  rcases h.left.modify_eq hfresh with ⟨message, hcheck, hrun⟩ | ⟨hcheck, f1, hf1, hnext, hnew, hrun⟩
  · rcases h.right.modify_eq hfresh with ⟨message', hcheck', hrun'⟩ | ⟨hcheck', -⟩
    · rw [hcheck] at hcheck'
      cases hcheck'
      rw [hcheck, hrun, hrun']
      exact Or.inr ⟨f, g, rfl, rfl, h⟩
    · rw [hcheck] at hcheck'
      cases hcheck'
  rcases h.right.modify_eq hfresh with ⟨message', hcheck', hrun'⟩ | ⟨-, g1, hg1, hnext', -, hrun'⟩
  · rw [hcheck] at hcheck'
    cases hcheck'
  rw [hcheck, hrun, hrun']
  have hprep : f.arena.prepareAllocations (slotsNeeded m additions.length) =
      g.arena.prepareAllocations (slotsNeeded m additions.length) := by
    simp only [NodeArena.prepareAllocations, NodeArena.freeCount, h.left.links.arena.ram, h.right.links.arena.ram,
      h.next_eq, h.free_eq, Bool.false_eq_true, if_false]
  rw [hprep]
  cases g.arena.prepareAllocations (slotsNeeded m additions.length) with
  | error what => exact Or.inl ⟨_, rfl, rfl⟩
  | ok _ =>
    have htwin : Twin (deletions.foldl .delete m) f1 g1 := ⟨hf1, hg1, by rw [hnext, hnext', h.next_eq]⟩
    rcases htwin.addAll (hfresh hcheck).1 hnew with ⟨fault, herr, herr'⟩ | ⟨f2, g2, hok, hok', htwin'⟩
    · rw [herr, herr']
      exact Or.inl ⟨fault, rfl, rfl⟩
    · rw [hok, hok']
      exact Or.inr ⟨f2, g2, rfl, rfl, htwin'⟩

theorem call (h : Twin m f g) {c : Call H} (hfresh : m.FreshCall c) :
    AlikeResult (m.call c).2 (m.call c).1 (f.call c) (g.call c) := by
  cases c with
  | add v =>
    rw [PackedForest.call, PackedForest.call]
    rcases h.add hfresh with ⟨fault, herr, herr'⟩ | ⟨f', g', hok, hok', htwin⟩
    · rw [herr, herr']
      exact Or.inl ⟨fault, rfl, rfl⟩
    · rw [hok, hok']
      exact Or.inr ⟨f', g', rfl, rfl, htwin⟩
  | modify additions deletions => exact h.modify hfresh

theorem run (h : Twin m f g) {calls : List (Call H)} (hfresh : m.FreshRun calls) :
    (∃ fault, f.run calls = .error fault ∧ g.run calls = .error fault) ∨
      ∃ f' g', f.run calls = .ok ((m.run calls).1, f') ∧ g.run calls = .ok ((m.run calls).1, g') ∧
        Twin (m.run calls).2 f' g' := by
  induction calls generalizing f g m with
  | nil => exact Or.inr ⟨f, g, rfl, rfl, h⟩
  | cons c calls ih =>
    obtain ⟨hc, hrest⟩ := hfresh
    rw [PackedForest.run, PackedForest.run]
    rcases h.call hc with ⟨fault, herr, herr'⟩ | ⟨f', g', hok, hok', htwin⟩
    · rw [herr, herr']
      exact Or.inl ⟨fault, rfl, rfl⟩
    rw [hok, hok']
    simp only
    rcases ih htwin hrest with ⟨fault, herr, herr'⟩ | ⟨f2, g2, hrun, hrun', htwin'⟩
    · rw [herr, herr']
      exact Or.inl ⟨fault, rfl, rfl⟩
    · rw [hrun, hrun']
      exact Or.inr ⟨f2, g2, rfl, rfl, htwin'⟩

end Twin

end UtreexoBridge
