import UtreexoBridge.Index.Counts
import UtreexoBridge.Validate.Events
import UtreexoBridge.Validate.FirstPass

/-!
# The second pass

The children that each window is shown: those of its own branches, then the
edges from other windows.
-/

namespace UtreexoBridge

variable {H : Type} [ForestHash H]

/-! ## The children in their own window -/

section Events

variable (slots next : Nat) (r : Nat → NodeRecord H) (k : Nat)

def InWindow (id : Nat) : Prop := id < next ∧ id / slots = k

instance (id : Nat) : Decidable (InWindow slots next k id) := inferInstanceAs (Decidable (_ ∧ _))

def childEvents (id child : Nat) : List (Edge H) :=
  if InWindow slots next k child then [⟨(r child).hash, child, id⟩] else []

def branchEvents (id : Nat) : List (Edge H) :=
  if (r id).type = .branch then childEvents slots next r k id (r id).left ++ childEvents slots next r k id (r id).right
  else []

/-- What the first `n` records of the window give. -/
def innerEvents (n : Nat) : List (Edge H) := (List.range n).flatMap fun i => branchEvents slots next r k (k * slots + i)

/-- A child in its parent's window is live and points back. -/
def ChildOk (id child : Nat) : Prop :=
  InWindow slots next k child → (r child).type ≠ .free ∧ (r child).parent = id

def BranchOk (id : Nat) : Prop :=
  (r id).type = .branch → ChildOk slots next r k id (r id).left ∧ ChildOk slots next r k id (r id).right

end Events

variable {slots next k : Nat} {r : Nat → NodeRecord H}

theorem inWindow_iff (hslots : 0 < slots) {id : Nat} :
    InWindow slots next k id ↔ k * slots ≤ id ∧ id < k * slots + min slots (next - k * slots) := by
  constructor
  · intro ⟨hlt, hk⟩
    exact (mem_window_iff hslots hlt).mpr hk
  · intro h
    have hlt : id < next := by omega
    exact ⟨hlt, (mem_window_iff hslots hlt).mp h⟩

theorem inWindow_windowOf (hslots : 0 < slots) {id : Nat} (h : InWindow slots next k id) :
    inWindow (k * slots) (windowOf slots next r (k * slots)) id = r id := windowOf_getD hslots h.1 h.2

theorem Showable.of_append {first : Nat} {records : List (NodeRecord H)} {shown more : List (Edge H)}
    (h : Showable first records (shown ++ more)) : Showable first records shown :=
  ⟨fun e he => h.fits e (List.mem_append_left _ he), (List.pairwise_append.mp h.meet).1⟩

section Window

variable [DecidableEq H] {shown : List (Edge H)} {w : Seen H}

theorem decides_foldlM_showChild {first : Nat} {records : List (NodeRecord H)} (events : List (Edge H))
    (h : Shown first records shown w) (hshow : Showable first records shown) :
    Decides (events.foldlM (showChild first records) w) (Showable first records (shown ++ events))
      (Shown first records (shown ++ events)) := by
  cases hrun : events.foldlM (showChild first records) w with
  | error message =>
    refine Decides.error fun hgood => ?_
    obtain ⟨w', hok⟩ := foldlM_showChild_of_showable events h hgood
    rw [hrun] at hok
    cases hok
  | ok w' =>
    obtain ⟨hgood, hshown⟩ := foldlM_showChild_ok events h hshow hrun
    exact Decides.ok hgood hshown

theorem decides_checkChild (hslots : 0 < slots) (id child : Nat)
    (h : Shown (k * slots) (windowOf slots next r (k * slots)) shown w)
    (hshow : Showable (k * slots) (windowOf slots next r (k * slots)) shown) :
    Decides (checkChild (k * slots) (windowOf slots next r (k * slots)) id w child)
      (ChildOk slots next r k id child ∧
        Showable (k * slots) (windowOf slots next r (k * slots)) (shown ++ childEvents slots next r k id child))
      (Shown (k * slots) (windowOf slots next r (k * slots)) (shown ++ childEvents slots next r k id child)) := by
  unfold checkChild childEvents
  rw [windowOf_length]
  by_cases hin : InWindow slots next k child
  · have hrange := (inWindow_iff hslots).mp hin
    rw [if_neg (by omega), if_pos hin]
    dsimp only
    rw [windowOf_getD hslots hin.1 hin.2]
    have hone := decides_foldlM_showChild [⟨(r child).hash, child, id⟩] h hshow
    simp only [List.foldlM_cons, List.foldlM_nil, bind_pure] at hone
    refine Decides.iff (Decides.guard fun _ => Decides.guard fun _ => hone) ?_
    simp only [ChildOk, hin, forall_const, not_not, and_assoc]
  · have hrange := (inWindow_iff hslots).not.mp hin
    rw [if_pos (by omega), if_neg hin, List.append_nil]
    exact Decides.ok ⟨fun h => absurd h hin, hshow⟩ h

theorem decides_children (hslots : 0 < slots) (id : Nat)
    (h : Shown (k * slots) (windowOf slots next r (k * slots)) shown w)
    (hshow : Showable (k * slots) (windowOf slots next r (k * slots)) shown) (hbranch : (r id).type = .branch) :
    Decides ([(r id).left, (r id).right].foldlM (checkChild (k * slots) (windowOf slots next r (k * slots)) id) w)
      (BranchOk slots next r k id ∧
        Showable (k * slots) (windowOf slots next r (k * slots)) (shown ++ branchEvents slots next r k id))
      (Shown (k * slots) (windowOf slots next r (k * slots)) (shown ++ branchEvents slots next r k id)) := by
  unfold branchEvents
  rw [if_pos hbranch, ← List.append_assoc]
  simp only [List.foldlM_cons, List.foldlM_nil, bind_pure]
  refine Decides.iff (Decides.bind (decides_checkChild hslots id (r id).left h hshow) fun w' hleft hw' =>
    decides_checkChild hslots id (r id).right hw' hleft.2) ?_
  constructor
  · rintro ⟨⟨hl, -⟩, hr, hgood⟩
    exact ⟨fun _ => ⟨hl, hr⟩, hgood⟩
  · rintro ⟨hok, hgood⟩
    exact ⟨⟨(hok hbranch).1, hgood.of_append⟩, (hok hbranch).2, hgood⟩

/-! ## The records of a window -/

omit [DecidableEq H] [ForestHash H] in
theorem innerEvents_succ (n : Nat) :
    innerEvents slots next r k (n + 1) = innerEvents slots next r k n ++ branchEvents slots next r k (k * slots + n) := by
  simp [innerEvents, List.range_succ]

variable (a : NodeArena H)

def leavesBelow (n : Nat) : Finset Nat := (Finset.range n).filter fun id => (a.read id).type = .leaf

/-- The index after the ids below `n`, filled from an empty one of capacity `c`. -/
def IndexedBelow (c n : Nat) (index : Option KeylessLeafIndex) : Prop :=
  ∃ i, index = some i ∧ i.Indexes a (leavesBelow a n) ∧ i.Grown c

variable {a} {c : Nat}

omit [DecidableEq H] in
theorem leavesBelow_succ (n : Nat) :
    leavesBelow a (n + 1) = if (a.read n).type = .leaf then insert n (leavesBelow a n) else leavesBelow a n := by
  unfold leavesBelow
  rw [Finset.range_add_one, Finset.filter_insert]

omit [DecidableEq H] in
theorem IndexedBelow.record {n : Nat} {index : Option KeylessLeafIndex} (h : IndexedBelow a c n index) (hn : n < a.next) :
    IndexedBelow a c (n + 1) (if (a.read n).type = .leaf then index.bind (·.insert a (a.read n).hash n) else index) := by
  obtain ⟨i, rfl, hi, hgrown⟩ := h
  by_cases hleaf : (a.read n).type = .leaf
  · have hleaves : ∀ id ∈ leavesBelow a n, a.isLeaf id = true := by
      intro id hid
      obtain ⟨hlt, htype⟩ := Finset.mem_filter.mp hid
      have := Finset.mem_range.mp hlt
      exact NodeArena.isLeaf_eq_true.mpr (NodeArena.mem_leafIds.mpr ⟨by omega, htype⟩)
    have hnew : n ∉ leavesBelow a n := by simp [leavesBelow]
    obtain ⟨i', hrun, hi'⟩ := hi.insert hleaves hnew
    rw [if_pos hleaf]
    refine ⟨i', hrun, ?_, hgrown.insert hi hleaves hrun⟩
    rw [leavesBelow_succ, if_pos hleaf]
    exact hi'
  · rw [if_neg hleaf]
    refine ⟨i, rfl, ?_, hgrown⟩
    rw [leavesBelow_succ, if_neg hleaf]
    exact hi

/-- The state of the second pass inside window `k`, after `n` of its records. -/
structure Validating (a : NodeArena H) (c slots k n : Nat) (s : SecondPass H) : Prop where
  index : IndexedBelow a c (k * slots + n) s.index
  shown : Shown (k * slots) (windowOf slots a.next a.read (k * slots)) (innerEvents slots a.next a.read k n) s.window
  showable : Showable (k * slots) (windowOf slots a.next a.read (k * slots)) (innerEvents slots a.next a.read k n)

theorem decides_validateRecord (hslots : 0 < slots) {n : Nat} (hn : k * slots + n < a.next) {s : SecondPass H}
    (h : Validating a c slots k n s) :
    Decides (validateRecord a (k * slots) (windowOf slots a.next a.read (k * slots)) s (a.read (k * slots + n), n))
      (BranchOk slots a.next a.read k (k * slots + n) ∧
        Showable (k * slots) (windowOf slots a.next a.read (k * slots)) (innerEvents slots a.next a.read k (n + 1)))
      (Validating a c slots k (n + 1)) := by
  obtain ⟨index, hrun, hindex⟩ := h.index.record hn
  unfold validateRecord
  simp only [hrun]
  by_cases hbranch : (a.read (k * slots + n)).type = .branch
  · rw [if_neg (not_not.mpr hbranch)]
    have hchildren := decides_children hslots (k * slots + n) h.shown h.showable hbranch
    rw [← innerEvents_succ] at hchildren
    refine Decides.map hchildren.withProp fun w hw => ?_
    exact ⟨⟨index, rfl, hindex⟩, hw.2, hw.1.2⟩
  · have hsame : innerEvents slots a.next a.read k (n + 1) = innerEvents slots a.next a.read k n := by
      rw [innerEvents_succ, branchEvents, if_neg hbranch, List.append_nil]
    rw [if_pos hbranch, hsame]
    exact Decides.ok ⟨fun h => absurd h hbranch, h.showable⟩
      ⟨⟨index, rfl, hindex⟩, by rw [hsame]; exact h.shown, by rw [hsame]; exact h.showable⟩

/-! ## Windows -/

/-- All that window `k` is shown, with the edges `E` of the first pass. -/
def windowEvents (slots next : Nat) (r : Nat → NodeRecord H) (E : Nat → List (Edge H)) (k : Nat) : List (Edge H) :=
  innerEvents slots next r k (min slots (next - k * slots)) ++ E k

def BothShown (r : Nat → NodeRecord H) (events : List (Edge H)) (id : Nat) : Prop :=
  (∃ e ∈ events, e.parent = id ∧ sideOf (r id) e.child = 1) ∧ ∃ e ∈ events, e.parent = id ∧ sideOf (r id) e.child = 2

structure WindowOk (slots next : Nat) (r : Nat → NodeRecord H) (E : Nat → List (Edge H)) (k : Nat) : Prop where
  branches : ∀ id, InWindow slots next k id → BranchOk slots next r k id
  showable : Showable (k * slots) (windowOf slots next r (k * slots)) (windowEvents slots next r E k)
  both : ∀ id, InWindow slots next k id → (r id).type = .branch → BothShown r (windowEvents slots next r E k) id

omit [DecidableEq H] in
theorem seen_eq_three_iff (hslots : 0 < slots) (h : Shown (k * slots) (windowOf slots next r (k * slots)) shown w)
    {id : Nat} (hid : InWindow slots next k id) : w.seen (id - k * slots) = 3 ↔ BothShown r shown id := by
  obtain ⟨h0, h1, h2⟩ := h.bits id ((inWindow_iff hslots).mp hid).1
  rw [inWindow_windowOf hslots hid] at h1 h2
  rw [BothShown, ← h1, ← h2]
  rcases h0 with h0 | h0 | h0 | h0 <;> simp [h0]

omit [DecidableEq H] in
theorem decides_checkSeen (hslots : 0 < slots) (h : Shown (k * slots) (windowOf slots next r (k * slots)) shown w) :
    Decides (checkSeen (windowOf slots next r (k * slots)) w)
      (∀ id, InWindow slots next k id → (r id).type = .branch → BothShown r shown id) fun _ => True := by
  unfold checkSeen
  refine Decides.iff (Decides.guard fun _ => Decides.ok trivial trivial) ?_
  rw [windowOf_zipIdx]
  simp only [List.mem_map, List.mem_range]
  constructor
  · rintro ⟨hall, -⟩ id hid hbranch
    have hrange := (inWindow_iff hslots).mp hid
    rw [← seen_eq_three_iff hslots h hid]
    by_contra hne
    have hid' : k * slots + (id - k * slots) = id := by omega
    exact hall ⟨_, ⟨id - k * slots, by omega, rfl⟩, by rw [hid']; exact hbranch, hne⟩
  · intro hall
    refine ⟨?_, trivial⟩
    rintro ⟨_, ⟨i, hi, rfl⟩, hbranch, hne⟩
    have hid : InWindow slots next k (k * slots + i) := (inWindow_iff hslots).mpr (by omega)
    apply hne
    have := (seen_eq_three_iff hslots h hid).mpr (hall _ hid hbranch)
    rwa [Nat.add_sub_cancel_left] at this

theorem decides_records (hslots : 0 < slots) {s : SecondPass H} (hk : k * slots < a.next)
    (hindex : IndexedBelow a c (k * slots) s.index) :
    Decides ((windowOf slots a.next a.read (k * slots)).zipIdx.foldlM
        (validateRecord a (k * slots) (windowOf slots a.next a.read (k * slots)))
        { s with window := ⟨s.window.pending, fun _ => 0⟩ })
      ((∀ id, InWindow slots a.next k id → BranchOk slots a.next a.read k id) ∧
        Showable (k * slots) (windowOf slots a.next a.read (k * slots))
          (innerEvents slots a.next a.read k (min slots (a.next - k * slots))))
      (Validating a c slots k (min slots (a.next - k * slots))) := by
  rw [windowOf_zipIdx, List.foldlM_map]
  have hempty : Showable (k * slots) (windowOf slots a.next a.read (k * slots)) ([] : List (Edge H)) := ⟨by simp, by simp⟩
  refine Decides.iff (Decides.foldlM_range (fun i => BranchOk slots a.next a.read k (k * slots + i) ∧
    Showable (k * slots) (windowOf slots a.next a.read (k * slots)) (innerEvents slots a.next a.read k (i + 1)))
    (Validating a c slots k) _ ?_ ⟨hindex, shown_start _, hempty⟩) ?_
  · intro i hi _ s hs
    exact decides_validateRecord hslots (by omega) hs
  · constructor
    · intro hall
      refine ⟨fun id hid => ?_, ?_⟩
      · have hrange := (inWindow_iff hslots).mp hid
        have := (hall (id - k * slots) (by omega)).1
        rwa [Nat.add_sub_cancel' hrange.1] at this
      · have hlast := (hall (min slots (a.next - k * slots) - 1) (by omega)).2
        rwa [Nat.sub_add_cancel (by omega)] at hlast
    · rintro ⟨hbranches, hgood⟩ i hi
      refine ⟨hbranches _ ((inWindow_iff hslots).mpr (by omega)), ?_⟩
      -- the events of the first records are a front part of those of all
      obtain ⟨d, hd⟩ := Nat.exists_eq_add_of_le (show i + 1 ≤ min slots (a.next - k * slots) by omega)
      rw [hd] at hgood
      clear hd hi
      induction d with
      | zero => exact hgood
      | succ d ih => exact ih (by rw [← Nat.add_assoc, innerEvents_succ] at hgood; exact hgood.of_append)

theorem decides_validateWindow (hslots : 0 < slots) {s : SecondPass H} (hk : k * slots < a.next)
    (hindex : IndexedBelow a c (k * slots) s.index) (E : Nat → List (Edge H)) :
    Decides (validateWindow a slots E s (k * slots) (windowOf slots a.next a.read (k * slots)))
      (WindowOk slots a.next a.read E k)
      fun s' => IndexedBelow a c (k * slots + min slots (a.next - k * slots)) s'.index := by
  unfold validateWindow
  rcases decides_records hslots hk hindex with ⟨⟨hbranches, hgood⟩, ⟨_, w⟩, hrun, ⟨index, rfl, hi⟩, hshown, -⟩ | ⟨hbad, message, hrun⟩
  · simp only [hrun]
    rw [Nat.mul_div_cancel k hslots]
    rcases decides_foldlM_showChild (E k) hshown hgood with ⟨hall, w', hedges, hshown'⟩ | ⟨hbad, message, hedges⟩
    · simp only [hedges]
      refine Decides.iff (Decides.map (decides_checkSeen hslots hshown') fun _ _ => ⟨index, rfl, hi⟩) ?_
      exact ⟨fun hboth => ⟨hbranches, hall, hboth⟩, fun h => h.both⟩
    · simp only [hedges]
      exact Decides.error fun h => hbad h.showable
  · simp only [hrun]
    exact Decides.error fun h => hbad ⟨h.branches, h.showable.of_append⟩

theorem decides_secondPass (hslots : 0 < slots) {s : SecondPass H} (hindex : IndexedBelow a c 0 s.index)
    (E : Nat → List (Edge H)) :
    Decides ((List.range (windowCount slots a.next)).foldlM
        (fun s k => validateWindow a slots E s (k * slots) (windowOf slots a.next a.read (k * slots))) s)
      (∀ k < windowCount slots a.next, WindowOk slots a.next a.read E k)
      fun s' => IndexedBelow a c a.next s'.index := by
  have hend : min (windowCount slots a.next * slots) a.next = a.next := by
    have : ¬windowCount slots a.next * slots < a.next := mt (lt_windowCount hslots _).mpr (lt_irrefl _)
    omega
  refine Decides.congr (Decides.foldlM_range (WindowOk slots a.next a.read E)
    (fun k s => IndexedBelow a c (min (k * slots) a.next) s.index) _ ?_ (by simpa using hindex)) Iff.rfl
    fun s _ hs => by rwa [hend] at hs
  intro k hk _ s hs
  have hlt := (lt_windowCount hslots k).mp hk
  have hsucc : k * slots + min slots (a.next - k * slots) = min ((k + 1) * slots) a.next := by
    rw [Nat.succ_mul]
    omega
  rw [show min (k * slots) a.next = k * slots by omega] at hs
  rw [← hsucc]
  exact decides_validateWindow hslots hlt hs E

end Window

end UtreexoBridge
