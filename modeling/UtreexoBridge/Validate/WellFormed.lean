import Mathlib.Data.List.Perm.Subperm
import UtreexoBridge.Validate.SecondPass

/-!
# The plain predicate

What the two passes check together, without windows: one condition for each
kind of record.
-/

namespace UtreexoBridge

variable {H : Type} [ForestHash H]

/-- The structure of the nodes below `next`. -/
structure WellFormed (roots : List Nat) (next : Nat) (r : Nat → NodeRecord H) : Prop where
  listed : ∀ root ∈ roots, RootOk next r root
  known : ∀ id < next, (r id).type = .free ∨ (r id).type = .leaf ∨ (r id).type = .branch
  leaf : ∀ id < next, (r id).type = .leaf → (r id).left = noNode ∧ (r id).right = noNode
  distinct : ∀ id < next, (r id).type = .branch → (r id).left ≠ (r id).right
  children : ∀ id < next, (r id).type = .branch → ∀ child, child = (r id).left ∨ child = (r id).right →
    child < next ∧ (r child).type ≠ .free ∧ (r child).parent = id
  hash : ∀ id < next, (r id).type = .branch → parentHash (r (r id).left).hash (r (r id).right).hash = (r id).hash
  parentless : ∀ id < next, (r id).type ≠ .free → (r id).parent = noNode → id ∈ roots
  parented : ∀ id < next, (r id).type ≠ .free → (r id).parent ≠ noNode →
    (r id).parent < next ∧ (r id).parent ≠ id ∧ Lists (r (r id).parent) id

variable {roots : List Nat} {slots next k : Nat} {r : Nat → NodeRecord H}

/-! ## Genuine edges -/

/-- The edge is that of a live node. -/
structure Genuine (next : Nat) (r : Nat → NodeRecord H) (e : Edge H) : Prop where
  lt : e.child < next
  live : (r e.child).type ≠ .free
  eq : e = edgeOf r e.child

omit [ForestHash H] in
theorem lists_iff_sideOf {parent : NodeRecord H} {child : Nat} :
    Lists parent child ↔ parent.type = .branch ∧ sideOf parent child ≠ 0 := by
  unfold Lists
  rcases sideOf_cases parent child with ⟨h1, h2⟩ | ⟨h1, -, h2⟩ | ⟨h1, h2, h3⟩
  · simp [h1, h2]
  · simp [h1, h2]
  · simp [h1, h2, h3]

omit [ForestHash H] in
theorem mem_edgesTo {n bucket : Nat} {e : Edge H} : e ∈ edgesTo slots r n bucket ↔
    ∃ id < n, Crosses slots r id ∧ (r id).parent / slots = bucket ∧ e = edgeOf r id := by
  unfold edgesTo
  simp only [List.mem_map, List.mem_filter, List.mem_range, decide_eq_true_eq]
  constructor
  · rintro ⟨id, ⟨hid, hcross, hb⟩, rfl⟩
    exact ⟨id, hid, hcross, hb, rfl⟩
  · rintro ⟨id, hid, hcross, hb, rfl⟩
    exact ⟨id, ⟨hid, hcross, hb⟩, rfl⟩

omit [ForestHash H] in
theorem mem_branchEvents {id : Nat} {e : Edge H} : e ∈ branchEvents slots next r k id ↔
    (r id).type = .branch ∧ (e.child = (r id).left ∨ e.child = (r id).right) ∧ InWindow slots next k e.child ∧
      e = ⟨(r e.child).hash, e.child, id⟩ := by
  have hone : ∀ child, e ∈ childEvents slots next r k id child ↔
      e.child = child ∧ InWindow slots next k e.child ∧ e = ⟨(r e.child).hash, e.child, id⟩ := by
    intro child
    unfold childEvents
    split_ifs with h
    · constructor
      · intro he
        rw [List.mem_singleton.mp he]
        exact ⟨rfl, h, rfl⟩
      · rintro ⟨rfl, -, he⟩
        exact List.mem_singleton.mpr he
    · constructor
      · intro he
        cases he
      · rintro ⟨rfl, hin, -⟩
        exact absurd hin h
  unfold branchEvents
  split_ifs with hbranch
  · rw [List.mem_append, hone, hone]
    tauto
  · simp [hbranch]

omit [ForestHash H] in
theorem mem_innerEvents (hslots : 0 < slots) {e : Edge H} :
    e ∈ innerEvents slots next r k (min slots (next - k * slots)) ↔
      ∃ id, InWindow slots next k id ∧ e ∈ branchEvents slots next r k id := by
  unfold innerEvents
  simp only [List.mem_flatMap, List.mem_range]
  constructor
  · rintro ⟨i, hi, he⟩
    exact ⟨k * slots + i, (inWindow_iff hslots).mpr (by omega), he⟩
  · rintro ⟨id, hid, he⟩
    have hrange := (inWindow_iff hslots).mp hid
    refine ⟨id - k * slots, by omega, ?_⟩
    rwa [Nat.add_sub_cancel' hrange.1]

omit [ForestHash H] in
/-- Every event of a window that passed is the edge of a live node. -/
theorem genuine_of_windowOk (hslots : 0 < slots) (hbranches : ∀ id, InWindow slots next k id → BranchOk slots next r k id)
    {e : Edge H} (he : e ∈ windowEvents slots next r (edgesTo slots r next) k) : Genuine next r e := by
  rcases List.mem_append.mp he with he | he
  · obtain ⟨id, hid, he⟩ := (mem_innerEvents hslots).mp he
    obtain ⟨hbranch, hchild, hin, heq⟩ := mem_branchEvents.mp he
    obtain ⟨hl, hr⟩ := hbranches id hid hbranch
    have hok : (r e.child).type ≠ .free ∧ (r e.child).parent = id := by
      rcases hchild with hchild | hchild
      · rw [← hchild] at hl
        exact hl hin
      · rw [← hchild] at hr
        exact hr hin
    refine ⟨hin.1, hok.1, ?_⟩
    rw [edgeOf, hok.2]
    exact heq
  · obtain ⟨id, hid, hcross, -, rfl⟩ := mem_edgesTo.mp he
    exact ⟨hid, hcross.1, rfl⟩

/-! ## What passes is well formed -/

theorem windowOk_meets (hslots : 0 < slots) {E : Nat → List (Edge H)} (h : WindowOk slots next r E k) {x y : Edge H}
    (hx : x ∈ windowEvents slots next r E k) (hy : y ∈ windowEvents slots next r E k) {id : Nat}
    (hid : InWindow slots next k id) (hxp : x.parent = id) (hyp : y.parent = id) (hxs : sideOf (r id) x.child = 1)
    (hys : sideOf (r id) y.child = 2) : parentHash x.hash y.hash = (r id).hash := by
  have hne : x ≠ y := fun h => by
    rw [h, hys] at hxs
    cases hxs
  have heither : (windowEvents slots next r E k).Pairwise fun e e' =>
      EdgesMeet (k * slots) (windowOf slots next r (k * slots)) e e' ∨
        EdgesMeet (k * slots) (windowOf slots next r (k * slots)) e' e := h.showable.meet.imp Or.inl
  have : Std.Symm fun e e' : Edge H => EdgesMeet (k * slots) (windowOf slots next r (k * slots)) e e' ∨
      EdgesMeet (k * slots) (windowOf slots next r (k * slots)) e' e := ⟨fun _ _ => Or.symm⟩
  rcases heither.forall hx hy hne with hmeet | hmeet
  · have := (hmeet (hxp.trans hyp.symm)).2
    rwa [hyp, inWindow_windowOf hslots hid, combine, hys, if_neg (by omega)] at this
  · have := (hmeet (hyp.trans hxp.symm)).2
    rwa [hxp, inWindow_windowOf hslots hid, combine, hxs, if_pos rfl] at this

section Passes

variable (roots slots next r)

/-- What the two passes ask for, window by window. -/
structure Passes : Prop where
  listed : ∀ root ∈ roots, RootOk next r root
  records : ∀ id < next, RecordOk roots slots next r id
  windows : ∀ k < windowCount slots next, WindowOk slots next r (edgesTo slots r next) k

end Passes

theorem Passes.window (h : Passes roots slots next r) (hslots : 0 < slots) {id : Nat} (hid : id < next) :
    InWindow slots next (id / slots) id ∧ WindowOk slots next r (edgesTo slots r next) (id / slots) := by
  have hin : InWindow slots next (id / slots) id := ⟨hid, rfl⟩
  have hrange := (inWindow_iff hslots).mp hin
  exact ⟨hin, h.windows _ ((lt_windowCount hslots _).mpr (by omega))⟩

theorem Passes.kind (h : Passes roots slots next r) {id : Nat} (hid : id < next) :
    (r id).type = .free ∨ KindOk next (r id) ∧ ParentOk roots slots next r id := (h.records id hid).1

theorem Passes.both (h : Passes roots slots next r) (hslots : 0 < slots) {id : Nat} (hid : id < next)
    (hbranch : (r id).type = .branch) :
    ((r (r id).left).type ≠ .free ∧ (r (r id).left).parent = id) ∧
      ((r (r id).right).type ≠ .free ∧ (r (r id).right).parent = id) ∧
      parentHash (r (r id).left).hash (r (r id).right).hash = (r id).hash := by
  obtain ⟨hin, hok⟩ := h.window hslots hid
  obtain ⟨⟨x, hx, hxp, hxs⟩, ⟨y, hy, hyp, hys⟩⟩ := hok.both id hin hbranch
  have hxg := genuine_of_windowOk hslots hok.branches hx
  have hyg := genuine_of_windowOk hslots hok.branches hy
  have hxc : (r id).left = x.child := by
    rcases sideOf_cases (r id) x.child with ⟨-, h1⟩ | ⟨h1, -⟩ | ⟨h1, -⟩
    · exact h1
    all_goals omega
  have hyc : (r id).right = y.child := by
    rcases sideOf_cases (r id) y.child with ⟨h1, -⟩ | ⟨-, -, h1⟩ | ⟨h1, -⟩
    · omega
    · exact h1
    · omega
  have hxe : (r x.child).parent = x.parent := (congrArg Edge.parent hxg.eq).symm
  have hye : (r y.child).parent = y.parent := (congrArg Edge.parent hyg.eq).symm
  have hxh : (r x.child).hash = x.hash := (congrArg Edge.hash hxg.eq).symm
  have hyh : (r y.child).hash = y.hash := (congrArg Edge.hash hyg.eq).symm
  rw [hxc, hyc, hxe, hye, hxh, hyh]
  exact ⟨⟨hxg.live, hxp⟩, ⟨hyg.live, hyp⟩, windowOk_meets hslots hok hx hy hin hxp hyp hxs hys⟩

theorem Passes.lists (h : Passes roots slots next r) (hslots : 0 < slots) {id : Nat} (hid : id < next)
    (hlive : (r id).type ≠ .free) (hparent : (r id).parent ≠ noNode) :
    (r id).parent < next ∧ (r id).parent ≠ id ∧ Lists (r (r id).parent) id := by
  rcases h.kind hid with hfree | ⟨-, ⟨hnone, -⟩ | ⟨-, hlt, hne, hsame⟩⟩
  · exact absurd hfree hlive
  · exact absurd hnone hparent
  · refine ⟨hlt, hne, ?_⟩
    by_cases hwindow : (r id).parent / slots = id / slots
    · exact hsame hwindow
    · obtain ⟨hin, hok⟩ := h.window hslots hlt
      have hedge : edgeOf r id ∈ windowEvents slots next r (edgesTo slots r next) ((r id).parent / slots) :=
        List.mem_append_right _ (mem_edgesTo.mpr ⟨id, hid, ⟨hlive, hparent, hwindow⟩, rfl, rfl⟩)
      obtain ⟨-, -, hbranch, hside⟩ := hok.showable.fits _ hedge
      rw [show (edgeOf r id).parent = (r id).parent from rfl, inWindow_windowOf hslots hin] at hbranch hside
      exact lists_iff_sideOf.mpr ⟨hbranch, hside⟩

theorem Passes.wellFormed (h : Passes roots slots next r) (hslots : 0 < slots) : WellFormed roots next r where
  listed := h.listed
  known id hid := by
    rcases h.kind hid with hfree | ⟨⟨hleaf, -⟩ | ⟨hbranch, -⟩, -⟩
    · exact Or.inl hfree
    · exact Or.inr (Or.inl hleaf)
    · exact Or.inr (Or.inr hbranch)
  leaf id hid hleaf := by
    rcases h.kind hid with hfree | ⟨⟨-, hchildren⟩ | ⟨hbranch, -⟩, -⟩
    · rw [hleaf] at hfree
      cases hfree
    · exact hchildren
    · rw [hleaf] at hbranch
      cases hbranch
  distinct id hid hbranch := by
    rcases h.kind hid with hfree | ⟨⟨hleaf, -⟩ | ⟨-, -, -, hne⟩, -⟩
    · rw [hbranch] at hfree
      cases hfree
    · rw [hbranch] at hleaf
      cases hleaf
    · exact hne
  children id hid hbranch child hchild := by
    obtain ⟨hl, hr, -⟩ := h.both hslots hid hbranch
    rcases h.kind hid with hfree | ⟨⟨hleaf, -⟩ | ⟨-, hlt, hrt, -⟩, -⟩
    · rw [hbranch] at hfree
      cases hfree
    · rw [hbranch] at hleaf
      cases hleaf
    · rcases hchild with rfl | rfl
      · exact ⟨hlt, hl⟩
      · exact ⟨hrt, hr⟩
  hash id hid hbranch := (h.both hslots hid hbranch).2.2
  parentless id hid hlive hnone := by
    rcases h.kind hid with hfree | ⟨-, ⟨-, hmem⟩ | ⟨hparent, -⟩⟩
    · exact absurd hfree hlive
    · exact hmem
    · exact absurd hnone hparent
  parented id hid hlive hparent := h.lists hslots hid hlive hparent

/-! ## What is well formed passes -/

/-- The edges into one window fit in its bucket: each of its slots has two children at most. -/
theorem WellFormed.edges_le (h : WellFormed roots next r) (hslots : 0 < slots) {n bucket : Nat} (hn : n ≤ next) :
    (edgesTo slots r n bucket).length ≤ 2 * slots := by
  let children := (List.range slots).flatMap fun i => [(r (bucket * slots + i)).left, (r (bucket * slots + i)).right]
  have hlen : children.length = 2 * slots := by
    simp [children, List.length_flatMap, Nat.mul_comm]
  unfold edgesTo
  rw [List.length_map, ← hlen]
  apply List.Subperm.length_le
  apply List.subperm_of_subset (List.nodup_range.filter _)
  intro id hid
  simp only [List.mem_filter, List.mem_range, decide_eq_true_eq] at hid
  obtain ⟨hid, ⟨hlive, hparent, -⟩, hb⟩ := hid
  obtain ⟨hlt, -, -, hlists⟩ := h.parented id (by omega) hlive hparent
  obtain ⟨hge, hle⟩ := (inWindow_iff hslots).mp ⟨hlt, hb⟩
  refine List.mem_flatMap.mpr ⟨(r id).parent - bucket * slots, List.mem_range.mpr (by omega), ?_⟩
  rw [Nat.add_sub_cancel' hge]
  rcases hlists with hlists | hlists
  · simp [hlists]
  · simp [hlists]

theorem WellFormed.recordOk (h : WellFormed roots next r) (hslots : 0 < slots) {id : Nat} (hid : id < next) :
    RecordOk roots slots next r id := by
  refine ⟨?_, fun hcross => ?_⟩
  · rcases h.known id hid with hfree | hrest
    · exact Or.inl hfree
    · have hlive : (r id).type ≠ .free := by
        rcases hrest with h | h <;> rw [h] <;> simp
      refine Or.inr ⟨?_, ?_⟩
      · rcases hrest with hleaf | hbranch
        · exact Or.inl ⟨hleaf, h.leaf id hid hleaf⟩
        · exact Or.inr ⟨hbranch, (h.children id hid hbranch _ (Or.inl rfl)).1, (h.children id hid hbranch _ (Or.inr rfl)).1,
            h.distinct id hid hbranch⟩
      · by_cases hparent : (r id).parent = noNode
        · exact Or.inl ⟨hparent, h.parentless id hid hlive hparent⟩
        · obtain ⟨hlt, hne, hlists⟩ := h.parented id hid hlive hparent
          exact Or.inr ⟨hparent, hlt, hne, fun _ => hlists⟩
  · have hall : (edgesTo slots r (id + 1) ((r id).parent / slots)).length ≤ 2 * slots := h.edges_le hslots hid
    rw [edgesTo_succ, if_pos ⟨hcross, rfl⟩, List.length_append, List.length_singleton] at hall
    omega

theorem WellFormed.branchOk (h : WellFormed roots next r) {id : Nat} (hid : id < next) : BranchOk slots next r k id :=
  fun hbranch => ⟨fun _ => (h.children id hid hbranch _ (Or.inl rfl)).2, fun _ => (h.children id hid hbranch _ (Or.inr rfl)).2⟩

theorem WellFormed.event (h : WellFormed roots next r) (hslots : 0 < slots) {e : Edge H}
    (he : e ∈ windowEvents slots next r (edgesTo slots r next) k) :
    Genuine next r e ∧ InWindow slots next k e.parent ∧ Lists (r e.parent) e.child := by
  have hgenuine := genuine_of_windowOk hslots (fun id hid => h.branchOk hid.1) he
  refine ⟨hgenuine, ?_⟩
  rcases List.mem_append.mp he with he | he
  · obtain ⟨id, hid, he⟩ := (mem_innerEvents hslots).mp he
    obtain ⟨hbranch, hchild, -, heq⟩ := mem_branchEvents.mp he
    have hparent : e.parent = id := congrArg Edge.parent heq
    rw [hparent]
    refine ⟨hid, hbranch, ?_⟩
    rcases hchild with hchild | hchild
    · exact Or.inl hchild.symm
    · exact Or.inr hchild.symm
  · obtain ⟨id, hid, ⟨hlive, hparent, -⟩, hb, rfl⟩ := mem_edgesTo.mp he
    obtain ⟨hlt, -, hlists⟩ := h.parented id hid hlive hparent
    exact ⟨⟨hlt, hb⟩, hlists⟩

theorem WellFormed.edgesMeet (h : WellFormed roots next r) (hslots : 0 < slots) {e e' : Edge H}
    (he : e ∈ windowEvents slots next r (edgesTo slots r next) k)
    (he' : e' ∈ windowEvents slots next r (edgesTo slots r next) k) (hne : e.child ≠ e'.child) :
    EdgesMeet (k * slots) (windowOf slots next r (k * slots)) e e' := by
  intro hparent
  obtain ⟨hg, -, -, hlists⟩ := h.event hslots he
  obtain ⟨hg', hin, hbranch, hlists'⟩ := h.event hslots he'
  refine ⟨hne, ?_⟩
  have hhash := h.hash e'.parent hin.1 hbranch
  rw [hparent] at hlists
  have hh : (r e.child).hash = e.hash := (congrArg Edge.hash hg.eq).symm
  have hh' : (r e'.child).hash = e'.hash := (congrArg Edge.hash hg'.eq).symm
  rw [inWindow_windowOf hslots hin, combine]
  rcases sideOf_cases (r e'.parent) e'.child with ⟨hs, hl⟩ | ⟨hs, hl, hr⟩ | ⟨-, hl, hr⟩
  · have hright : (r e'.parent).right = e.child := by
      rcases hlists with h | h
      · exact absurd (h.symm.trans hl) hne
      · exact h
    rwa [if_pos hs, ← hh, ← hh', ← hl, ← hright]
  · have hleft : (r e'.parent).left = e.child := by
      rcases hlists with h | h
      · exact h
      · exact absurd (h.symm.trans hr) hne
    rwa [if_neg (by omega), ← hh, ← hh', ← hr, ← hleft]
  · rcases hlists' with h | h
    · exact absurd h hl
    · exact absurd h hr

/-- No child comes twice: it has one parent, and the edges from outside are not in the window. -/
theorem WellFormed.children_ne (h : WellFormed roots next r) (hslots : 0 < slots) :
    (windowEvents slots next r (edgesTo slots r next) k).Pairwise fun e e' => e.child ≠ e'.child := by
  unfold windowEvents
  refine List.pairwise_append.mpr ⟨?_, ?_, ?_⟩
  · unfold innerEvents
    refine List.pairwise_flatMap.mpr ⟨fun i hi => ?_, ?_⟩
    · have hi' := List.mem_range.mp hi
      unfold branchEvents
      split_ifs with hbranch
      · have hne := h.distinct (k * slots + i) (by omega) hbranch
        unfold childEvents
        split_ifs <;> simp [hne]
      · exact List.Pairwise.nil
    · refine List.pairwise_lt_range.imp_of_mem fun {i j} hi hj hlt e he e' he' heq => ?_
      have hi' := List.mem_range.mp hi
      have hj' := List.mem_range.mp hj
      obtain ⟨hb, hc, -⟩ := mem_branchEvents.mp he
      obtain ⟨hb', hc', -⟩ := mem_branchEvents.mp he'
      have hp := (h.children (k * slots + i) (by omega) hb _ hc).2.2
      have hp' := (h.children (k * slots + j) (by omega) hb' _ hc').2.2
      rw [heq] at hp
      omega
  · unfold edgesTo
    exact List.pairwise_map.mpr ((List.nodup_range.filter _).imp fun hne => hne)
  · intro e he e' he' heq
    obtain ⟨id, -, he⟩ := (mem_innerEvents hslots).mp he
    obtain ⟨-, -, hin, -⟩ := mem_branchEvents.mp he
    obtain ⟨id', -, ⟨-, -, hcross⟩, hb, rfl⟩ := mem_edgesTo.mp he'
    rw [heq] at hin
    exact hcross (hb.trans hin.2.symm)

theorem WellFormed.child_shown (h : WellFormed roots next r) (hslots : 0 < slots) (hnext : next ≤ noNode) {id child : Nat}
    (hid : InWindow slots next k id) (hbranch : (r id).type = .branch)
    (hchild : child = (r id).left ∨ child = (r id).right) :
    ∃ e ∈ windowEvents slots next r (edgesTo slots r next) k, e.parent = id ∧ e.child = child := by
  obtain ⟨hlt, hlive, hparent⟩ := h.children id hid.1 hbranch child hchild
  by_cases hin : InWindow slots next k child
  · exact ⟨⟨(r child).hash, child, id⟩, List.mem_append_left _
      ((mem_innerEvents hslots).mpr ⟨id, hid, mem_branchEvents.mpr ⟨hbranch, hchild, hin, rfl⟩⟩), rfl, rfl⟩
  · have hid' := hid.1
    have hcross : Crosses slots r child := by
      refine ⟨hlive, by omega, ?_⟩
      rw [hparent, hid.2]
      exact fun h => hin ⟨hlt, h.symm⟩
    exact ⟨edgeOf r child, List.mem_append_right _ (mem_edgesTo.mpr ⟨child, hlt, hcross, by rw [hparent, hid.2], rfl⟩),
      hparent, rfl⟩

theorem WellFormed.windowOk (h : WellFormed roots next r) (hslots : 0 < slots) (hnext : next ≤ noNode) (k : Nat) :
    WindowOk slots next r (edgesTo slots r next) k where
  branches id hid := h.branchOk hid.1
  showable := by
    refine ⟨fun e he => ?_, ?_⟩
    · obtain ⟨-, hin, hlists⟩ := h.event hslots he
      obtain ⟨hbranch, hside⟩ := lists_iff_sideOf.mp hlists
      have hrange := (inWindow_iff hslots).mp hin
      have hrecord : inWindow (k * slots) (windowOf slots next r (k * slots)) e.parent = r e.parent :=
        inWindow_windowOf hslots hin
      exact ⟨hrange.1, by rw [windowOf_length]; exact hrange.2, by rwa [hrecord], by rwa [hrecord]⟩
    · exact (h.children_ne hslots).imp_of_mem fun he he' hne => h.edgesMeet hslots he he' hne
  both id hid hbranch := by
    obtain ⟨x, hx, hxp, hxc⟩ := h.child_shown hslots hnext hid hbranch (Or.inl rfl)
    obtain ⟨y, hy, hyp, hyc⟩ := h.child_shown hslots hnext hid hbranch (Or.inr rfl)
    have hne := h.distinct id hid.1 hbranch
    exact ⟨⟨x, hx, hxp, by simp [sideOf, hxc]⟩, ⟨y, hy, hyp, by simp [sideOf, hyc, hne]⟩⟩

/-- Windows make no difference. -/
theorem passes_iff_wellFormed (hslots : 0 < slots) (hnext : next ≤ noNode) :
    Passes roots slots next r ↔ WellFormed roots next r :=
  ⟨fun h => h.wellFormed hslots,
    fun h => ⟨h.listed, fun _ hid => h.recordOk hslots hid, fun k _ => h.windowOk hslots hnext k⟩⟩

end UtreexoBridge
