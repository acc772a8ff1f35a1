import UtreexoBridge.Arena.Windows
import UtreexoBridge.Decides
import UtreexoBridge.Validate.Spec

/-!
# The first pass

What it asks of every record, and what it has collected after the ids below `n`.
-/

namespace UtreexoBridge

variable {H : Type} [ForestHash H]

/-! ## Windows by number -/

def windowOf (slots next : Nat) (r : Nat → NodeRecord H) (first : Nat) : List (NodeRecord H) :=
  (List.range (min slots (next - first))).map fun i => r (first + i)

def windowCount (slots next : Nat) : Nat := (next + slots - 1) / slots

theorem lt_windowCount {slots next : Nat} (hslots : 0 < slots) (k : Nat) : k < windowCount slots next ↔ k * slots < next := by
  unfold windowCount
  rw [← Nat.succ_le_iff, Nat.le_div_iff_mul_le hslots, Nat.succ_mul]
  omega

theorem readWindows_eq (a : NodeArena H) {slots : Nat} (hslots : 0 < slots) :
    a.readWindows slots a.next 0 =
      (List.range (windowCount slots a.next)).map fun k => (k * slots, windowOf slots a.next a.read (k * slots)) := by
  have hall : ∀ fuel k, a.next - k * slots ≤ fuel → a.readWindows slots fuel (k * slots) =
      (List.range' k (windowCount slots a.next - k)).map fun k => (k * slots, windowOf slots a.next a.read (k * slots)) := by
    intro fuel
    induction fuel with
    | zero =>
      intro k hfuel
      have hk : ¬k < windowCount slots a.next := by rw [lt_windowCount hslots]; omega
      rw [show windowCount slots a.next - k = 0 by omega]
      rfl
    | succ fuel ih =>
      intro k hfuel
      rw [NodeArena.readWindows]
      by_cases hlt : k * slots < a.next
      · have hk := (lt_windowCount hslots k).mpr hlt
        have hnext : k * slots + slots = (k + 1) * slots := by ring
        rw [if_pos hlt, hnext, ih (k + 1) (by omega),
          show windowCount slots a.next - k = windowCount slots a.next - (k + 1) + 1 by omega, List.range'_succ]
        rfl
      · have hk : ¬k < windowCount slots a.next := by rwa [lt_windowCount hslots]
        rw [if_neg hlt, show windowCount slots a.next - k = 0 by omega]
        rfl
  have := hall a.next 0 (by omega)
  rwa [Nat.zero_mul, Nat.sub_zero, ← List.range_eq_range'] at this

omit [ForestHash H] in
theorem windowOf_length (slots next : Nat) (r : Nat → NodeRecord H) (first : Nat) :
    (windowOf slots next r first).length = min slots (next - first) := by
  simp [windowOf]

omit [ForestHash H] in
theorem windowOf_zipIdx (slots next : Nat) (r : Nat → NodeRecord H) (first : Nat) :
    (windowOf slots next r first).zipIdx = (List.range (min slots (next - first))).map fun i => (r (first + i), i) := by
  apply List.ext_getElem?
  intro i
  by_cases hi : i < min slots (next - first)
  · simp [windowOf, hi]
  · simp [windowOf, hi]

theorem mem_window_iff {slots next k id : Nat} (hslots : 0 < slots) (hid : id < next) :
    k * slots ≤ id ∧ id < k * slots + min slots (next - k * slots) ↔ id / slots = k := by
  rw [Nat.div_eq_iff hslots]
  omega

theorem windowOf_getD {slots next k id : Nat} {r : Nat → NodeRecord H} (hslots : 0 < slots) (hid : id < next)
    (hk : id / slots = k) : (windowOf slots next r (k * slots)).getD (id - k * slots) .blank = r id := by
  obtain ⟨hge, hlt⟩ := (mem_window_iff hslots hid).mpr hk
  rw [List.getD_eq_getElem?_getD, windowOf, List.getElem?_map, List.getElem?_range (by omega)]
  show r (k * slots + (id - k * slots)) = r id
  rw [Nat.add_sub_cancel' hge]

/-! ## What is asked of a record -/

/-- The record is a branch with the child. -/
def Lists (parent : NodeRecord H) (child : Nat) : Prop :=
  parent.type = .branch ∧ (parent.left = child ∨ parent.right = child)

/-- The record is a leaf without children or a branch with two. -/
def KindOk (next : Nat) (record : NodeRecord H) : Prop :=
  record.type = .leaf ∧ record.left = noNode ∧ record.right = noNode ∨
    record.type = .branch ∧ record.left < next ∧ record.right < next ∧ record.left ≠ record.right

section Records

variable (roots : List Nat) (slots next : Nat) (r : Nat → NodeRecord H)

/-- A parent in the same window is checked at once. -/
def ParentOk (id : Nat) : Prop :=
  (r id).parent = noNode ∧ id ∈ roots ∨
    (r id).parent ≠ noNode ∧ (r id).parent < next ∧ (r id).parent ≠ id ∧
      ((r id).parent / slots = id / slots → Lists (r (r id).parent) id)

/-- The node is live and its parent is in another window. -/
def Crosses (id : Nat) : Prop :=
  (r id).type ≠ .free ∧ (r id).parent ≠ noNode ∧ (r id).parent / slots ≠ id / slots

instance (id : Nat) : Decidable (Crosses slots r id) := inferInstanceAs (Decidable (_ ∧ _ ∧ _))

def edgeOf (id : Nat) : Edge H := ⟨(r id).hash, id, (r id).parent⟩

def edgesTo (n bucket : Nat) : List (Edge H) :=
  ((List.range n).filter fun id => Crosses slots r id ∧ (r id).parent / slots = bucket).map (edgeOf r)

/-- The edge of `id` finds room in its bucket. -/
def Room (id : Nat) : Prop := Crosses slots r id → (edgesTo slots r id ((r id).parent / slots)).length < 2 * slots

def RecordOk (id : Nat) : Prop :=
  ((r id).type = .free ∨ KindOk next (r id) ∧ ParentOk roots slots next r id) ∧ Room slots r id

def scanned (n : Nat) : FirstPass H where
  edges := edgesTo slots r n
  leafCount := ((List.range n).filter fun id => (r id).type = .leaf).length
  freeIds := (List.range n).filter fun id => (r id).type = .free

end Records

variable {roots : List Nat} {slots next : Nat} {r : Nat → NodeRecord H}

/-! ## One record -/

omit [ForestHash H] in
theorem edgesTo_succ (id bucket : Nat) : edgesTo slots r (id + 1) bucket =
    edgesTo slots r id bucket ++ if Crosses slots r id ∧ (r id).parent / slots = bucket then [edgeOf r id] else [] := by
  unfold edgesTo
  rw [List.range_succ, List.filter_append, List.map_append]
  congr 1
  by_cases h : Crosses slots r id ∧ (r id).parent / slots = bucket
  · rw [if_pos h]
    simp [h]
  · rw [if_neg h]
    simp [h]

omit [ForestHash H] in
theorem edges_of_crosses {id : Nat} (h : Crosses slots r id) : edgesTo slots r (id + 1) =
    Function.update (edgesTo slots r id) ((r id).parent / slots)
      (edgesTo slots r id ((r id).parent / slots) ++ [edgeOf r id]) := by
  funext bucket
  rw [edgesTo_succ]
  by_cases hb : bucket = (r id).parent / slots
  · subst hb
    rw [Function.update_self, if_pos ⟨h, rfl⟩]
  · rw [Function.update_of_ne hb, if_neg fun h => hb h.2.symm, List.append_nil]

omit [ForestHash H] in
theorem edges_of_not_crosses {id : Nat} (h : ¬Crosses slots r id) : edgesTo slots r (id + 1) = edgesTo slots r id := by
  funext bucket
  rw [edgesTo_succ, if_neg fun hc => h hc.1, List.append_nil]

omit [ForestHash H] in
theorem decides_checkKind (record : NodeRecord H) (s : FirstPass H) : Decides (checkKind next record s) (KindOk next record)
    (· = { s with leafCount := s.leafCount + if record.type = .leaf then 1 else 0 }) := by
  unfold checkKind
  by_cases hleaf : record.type = .leaf
  · rw [if_pos hleaf]
    refine Decides.iff (Decides.guard fun _ => Decides.ok trivial (by rw [if_pos hleaf])) ?_
    simp [KindOk, hleaf]
  · rw [if_neg hleaf]
    by_cases hbranch : record.type = .branch
    · rw [if_pos hbranch]
      refine Decides.iff (Decides.guard fun _ => Decides.ok trivial (by rw [if_neg hleaf, Nat.add_zero])) ?_
      simp [KindOk, hbranch]
    · rw [if_neg hbranch]
      exact Decides.error (by simp [KindOk, hleaf, hbranch])

omit [ForestHash H] in
theorem FirstPass.decides_append {id : Nat} (hcross : Crosses slots r id) {s : FirstPass H}
    (hedges : s.edges = edgesTo slots r id) : Decides (s.append slots (edgeOf r id)) (Room slots r id)
      (· = { s with edges := edgesTo slots r (id + 1) }) := by
  unfold FirstPass.append
  dsimp only
  refine Decides.iff (Decides.guard fun _ => Decides.ok trivial ?_) ?_
  · show FirstPass.mk _ _ _ = _
    rw [edges_of_crosses hcross, hedges]
    rfl
  · rw [hedges]
    show ¬_ ≥ 2 * slots ∧ True ↔ (_ → _ < 2 * slots)
    constructor
    · intro h _
      exact not_le.mp h.1
    · intro h
      exact ⟨not_le.mpr (h hcross), trivial⟩

theorem decides_checkParent (hslots : 0 < slots) {id : Nat} (hlive : (r id).type ≠ .free)
    {s : FirstPass H} (hedges : s.edges = edgesTo slots r id) :
    Decides (checkParent roots slots next (id / slots * slots) (windowOf slots next r (id / slots * slots)) id (r id) s)
      (ParentOk roots slots next r id ∧ Room slots r id) (· = { s with edges := edgesTo slots r (id + 1) }) := by
  have hsame : ¬Crosses slots r id → s = { s with edges := edgesTo slots r (id + 1) } := fun hcross => by
    rw [edges_of_not_crosses hcross, ← hedges]
  have hroom : ¬Crosses slots r id → Room slots r id := fun hcross h => absurd h hcross
  unfold checkParent
  by_cases hroot : (r id).parent = noNode
  · have hcross : ¬Crosses slots r id := fun h => h.2.1 hroot
    rw [if_pos hroot]
    refine Decides.iff (Decides.guard fun _ => Decides.ok trivial (hsame hcross)) ?_
    simp [ParentOk, hroot, hroom hcross]
  · rw [if_neg hroot]
    by_cases hbad : (r id).parent ≥ next ∨ (r id).parent = id
    · rw [if_pos hbad]
      refine Decides.error ?_
      rintro ⟨⟨h, -⟩ | ⟨-, hlt, hne, -⟩, -⟩
      · exact hroot h
      · rcases hbad with hbad | hbad
        · omega
        · exact hne hbad
    · rw [if_neg hbad]
      push Not at hbad
      obtain ⟨hlt, hne⟩ := hbad
      have hwindow := mem_window_iff (k := id / slots) hslots hlt
      rw [windowOf_length]
      by_cases hin : (r id).parent / slots = id / slots
      · have hcross : ¬Crosses slots r id := fun h => h.2.2 hin
        have hrange := hwindow.mpr hin
        rw [if_neg (by omega), windowOf_getD hslots hlt hin]
        dsimp only
        refine Decides.iff (Decides.guard fun _ => Decides.ok trivial (hsame hcross)) ?_
        simp only [ParentOk, hroot, hlt, hin, Lists, hroom hcross]
        tauto
      · have hrange := mt hwindow.mp hin
        have hcross : Crosses slots r id := ⟨hlive, hroot, hin⟩
        rw [if_pos (by omega)]
        refine (FirstPass.decides_append hcross hedges).iff ?_
        simp [ParentOk, hroot, hlt, hne, hin]

theorem decides_scanRecord (hslots : 0 < slots) {id : Nat} :
    Decides (scanRecord roots slots next (id / slots * slots) (windowOf slots next r (id / slots * slots))
        (scanned slots r id) (r id, id - id / slots * slots))
      (RecordOk roots slots next r id) (· = scanned slots r (id + 1)) := by
  have hcancel : id / slots * slots + (id - id / slots * slots) = id := by
    have := Nat.div_mul_le_self id slots
    omega
  unfold scanRecord
  simp only [hcancel]
  by_cases hfree : (r id).type = .free
  · have hcross : ¬Crosses slots r id := fun h => h.1 hfree
    rw [if_pos hfree]
    refine Decides.ok ⟨Or.inl hfree, fun h => absurd h hcross⟩ ?_
    simp [scanned, edges_of_not_crosses hcross, List.range_succ, hfree]
  · rw [if_neg hfree]
    have hnext : { scanned slots r id with
        leafCount := (scanned slots r id).leafCount + if (r id).type = .leaf then 1 else 0,
        edges := edgesTo slots r (id + 1) } = scanned slots r (id + 1) := by
      by_cases hleaf : (r id).type = .leaf
      · simp [scanned, List.range_succ, hleaf]
      · simp [scanned, List.range_succ, hfree, hleaf]
    have hcheck : Decides (checkKind next (r id) (scanned slots r id)) _ _ := decides_checkKind _ _
    rcases hcheck with ⟨hkind, s, hrun, hs⟩ | ⟨hkind, message, hrun⟩
    · have hedges : s.edges = edgesTo slots r id := by rw [hs]; rfl
      simp only [hrun, ← hnext]
      refine Decides.congr (decides_checkParent hslots hfree hedges) ?_ fun s' _ hs' => ?_
      · simp [RecordOk, hfree, hkind]
      · rw [hs', hs]
    · simp only [hrun]
      exact Decides.error (by simp [RecordOk, hfree, hkind])

/-! ## All records -/

/-- What window `k` asks of a listed root. -/
def RootIn (slots next : Nat) (r : Nat → NodeRecord H) (k root : Nat) : Prop :=
  root ≠ noNode → root < next ∧ (root / slots = k → (r root).type ≠ .free ∧ (r root).parent = noNode)

theorem decides_checkRoot (hslots : 0 < slots) (k root : Nat) :
    Decides (checkRoot next (k * slots) (windowOf slots next r (k * slots)) root) (RootIn slots next r k root)
      fun _ => True := by
  unfold checkRoot
  by_cases hnone : root = noNode
  · rw [if_pos hnone]
    exact Decides.ok (fun h => absurd hnone h) trivial
  · rw [if_neg hnone]
    by_cases hge : root ≥ next
    · rw [if_pos hge]
      refine Decides.error fun h => ?_
      have := (h hnone).1
      omega
    · have hlt := not_le.mp hge
      have hwindow := mem_window_iff (k := k) hslots hlt
      rw [if_neg hge]
      dsimp only
      rw [windowOf_length]
      refine Decides.iff (Decides.guard fun _ => Decides.ok trivial trivial) ?_
      rw [← and_assoc, hwindow]
      by_cases hk : root / slots = k
      · rw [windowOf_getD hslots hlt hk]
        simp [RootIn, hnone, hk, hlt]
      · simp [RootIn, hnone, hk, hlt]

theorem decides_scanWindow (hslots : 0 < slots) {k : Nat} (hk : k * slots < next) :
    Decides (scanWindow roots slots next (scanned slots r (k * slots)) (k * slots) (windowOf slots next r (k * slots)))
      ((∀ root ∈ roots, RootIn slots next r k root) ∧
        ∀ i < min slots (next - k * slots), RecordOk roots slots next r (k * slots + i))
      (· = scanned slots r (k * slots + min slots (next - k * slots))) := by
  have hroots : Decides (roots.forM (checkRoot next (k * slots) (windowOf slots next r (k * slots)))) _ _ :=
    Decides.forM roots fun root _ => decides_checkRoot hslots k root
  unfold scanWindow
  rcases hroots with ⟨hroots, u, hrun, -⟩ | ⟨hroots, message, hrun⟩
  · simp only [hrun]
    rw [windowOf_zipIdx, List.foldlM_map]
    refine Decides.iff (Decides.foldlM_range (fun i => RecordOk roots slots next r (k * slots + i))
      (fun i s => s = scanned slots r (k * slots + i)) _ ?_ rfl) ⟨fun h => ⟨hroots, h⟩, fun h => h.2⟩
    rintro i hi - s rfl
    have hlt : k * slots + i < next := by omega
    have hdiv : (k * slots + i) / slots = k := (mem_window_iff hslots hlt).mp (by omega)
    have hrecord : Decides _ (RecordOk roots slots next r (k * slots + i)) _ := decides_scanRecord hslots
    rwa [hdiv, Nat.add_sub_cancel_left] at hrecord
  · simp only [hrun]
    exact Decides.error fun h => hroots h.1

/-- A listed root is a live node without a parent. -/
def RootOk (next : Nat) (r : Nat → NodeRecord H) (root : Nat) : Prop :=
  root ≠ noNode → root < next ∧ (r root).type ≠ .free ∧ (r root).parent = noNode

theorem decides_firstPass (hslots : 0 < slots) :
    Decides ((List.range (windowCount slots next)).foldlM
        (fun s k => scanWindow roots slots next s (k * slots) (windowOf slots next r (k * slots))) .start)
      ((0 < next → ∀ root ∈ roots, RootOk next r root) ∧ ∀ id < next, RecordOk roots slots next r id)
      (· = scanned slots r next) := by
  have hstart : FirstPass.start = scanned slots r (min (0 * slots) next) := by
    rw [Nat.zero_mul, Nat.zero_min]
    rfl
  have hend : min (windowCount slots next * slots) next = next := by
    have : ¬windowCount slots next * slots < next := mt (lt_windowCount hslots _).mpr (lt_irrefl _)
    omega
  refine Decides.congr (Decides.foldlM_range (fun k => (∀ root ∈ roots, RootIn slots next r k root) ∧
    ∀ i < min slots (next - k * slots), RecordOk roots slots next r (k * slots + i))
    (fun k s => s = scanned slots r (min (k * slots) next)) _ ?_ hstart) ?_ fun s _ hs => by rwa [hend] at hs
  · rintro k hk - s rfl
    have hlt := (lt_windowCount hslots k).mp hk
    have hsucc : k * slots + min slots (next - k * slots) = min ((k + 1) * slots) next := by
      rw [Nat.succ_mul]
      omega
    rw [show min (k * slots) next = k * slots by omega, ← hsucc]
    exact decides_scanWindow hslots hlt
  · constructor
    · intro h
      refine ⟨fun hpos root hroot hnone => ?_, fun id hid => ?_⟩
      · have hzero : 0 < windowCount slots next := (lt_windowCount hslots 0).mpr (by omega)
        have hlt := ((h 0 hzero).1 root hroot hnone).1
        have hk := (mem_window_iff (k := root / slots) hslots hlt).mpr rfl
        exact ⟨hlt, ((h (root / slots) ((lt_windowCount hslots _).mpr (by omega))).1 root hroot hnone).2 rfl⟩
      · have hk := (mem_window_iff (k := id / slots) hslots hid).mpr rfl
        have := (h (id / slots) ((lt_windowCount hslots _).mpr (by omega))).2 (id - id / slots * slots) (by omega)
        rwa [Nat.add_sub_cancel' hk.1] at this
    · rintro ⟨hroots, hrecords⟩ k hk
      have hlt := (lt_windowCount hslots k).mp hk
      refine ⟨fun root hroot hnone => ?_, fun i hi => hrecords _ (by omega)⟩
      obtain ⟨hr, hok⟩ := hroots (by omega) root hroot hnone
      exact ⟨hr, fun _ => hok⟩

end UtreexoBridge
