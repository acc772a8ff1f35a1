import UtreexoBridge.Wire.Positions
import UtreexoBridge.Forest.Prove
import UtreexoBridge.Verify.Alias

/-!
# The merge finds the proof positions

Before row `r` the pending positions are the targets from row `r` on and what
the closure has on row `r`. The siblings below row `r` are found.
-/

namespace UtreexoBridge.Wire

open Position

/-! ## Targets that lie apart -/

/-- The leaf offset `leaf` lies below the node `pos`. -/
def LeafBelow (rows pos leaf : Nat) : Prop := ∃ r o, r ≤ rows ∧ o < 2 ^ (rows - r) ∧ pos = rowPos rows r o ∧ leaf / 2 ^ r = o

/-- No leaf below both. -/
def Apart (rows x y : Nat) : Prop := ∀ leaf, ¬(LeafBelow rows x leaf ∧ LeafBelow rows y leaf)

section Apart

variable {n : Nat}

theorem apart_symm {rows x y : Nat} (h : Apart rows x y) : Apart rows y x := fun leaf hleaf => h leaf ⟨hleaf.2, hleaf.1⟩

theorem leafBelow_parent (hn : n ≤ 2 ^ 62) {x leaf : Nat} (hx : IsNode n x)
    (hroot : isRootPosition x n (treeRows n) = false) (h : LeafBelow (treeRows n) x leaf) :
    LeafBelow (treeRows n) (parent x (treeRows n)) leaf := by
  obtain ⟨r, o, hr, ho, rfl, rfl⟩ := h
  have hle := treeRows_le_62 hn
  obtain ⟨r', o', hr', ho', heq⟩ := (isNode_iff _ _).mp hx
  obtain ⟨rfl, rfl⟩ := rowPos_inj hr ho hr' (offset_lt_pow (le_two_pow_treeRows n) hr' ho') heq
  have hhalf := half_offset_lt hn hr' ho' hroot
  have hup := row_lt_of_half hr' hhalf
  refine ⟨r + 1, leaf / 2 ^ r / 2, hup, offset_lt_pow (le_two_pow_treeRows n) hup hhalf, parent_rowPos (by omega) hr ho, ?_⟩
  rw [pow_succ, ← Nat.div_div_eq_div_mul]

variable (hn : n ≤ 2 ^ 62) {targets : List Nat} (hnode : ∀ t ∈ targets, IsNode n t)
include hn hnode

theorem exists_target_below {x : Nat} (hx : Closure n (treeRows n) targets x) :
    ∃ t ∈ targets, detectRow t (treeRows n) ≤ detectRow x (treeRows n) ∧
      ∀ leaf, LeafBelow (treeRows n) t leaf → LeafBelow (treeRows n) x leaf := by
  induction hx with
  | target ht => exact ⟨_, ht, le_refl _, fun _ h => h⟩
  | parent hx hroot ih =>
    obtain ⟨t, ht, hrow, hbelow⟩ := ih
    have hxn := isNode_closure hn hnode hx
    refine ⟨t, ht, ?_, fun leaf hleaf => leafBelow_parent hn hxn hroot (hbelow leaf hleaf)⟩
    rw [row_parent hn hxn hroot]
    omega

/-- So no target is a parent in the closure. -/
theorem parent_not_target (hapart : targets.Pairwise (Apart (treeRows n))) {x : Nat}
    (hx : Closure n (treeRows n) targets x) (hroot : isRootPosition x n (treeRows n) = false) :
    parent x (treeRows n) ∉ targets := by
  intro hmem
  obtain ⟨t, ht, hrow, hbelow⟩ := exists_target_below hn hnode hx
  have hxn := isNode_closure hn hnode hx
  have hne : t ≠ parent x (treeRows n) := by
    rintro rfl
    rw [row_parent hn hxn hroot] at hrow
    omega
  obtain ⟨r, o, hr, ho, heq⟩ := (isNode_iff _ _).mp (hnode t ht)
  have hleaf : LeafBelow (treeRows n) t (o * 2 ^ r) :=
    ⟨r, o, hr, offset_lt_pow (le_two_pow_treeRows n) hr ho, heq, Nat.mul_div_cancel _ (Nat.pow_pos (by omega))⟩
  have : Std.Symm (Apart (treeRows n)) := ⟨fun _ _ => apart_symm⟩
  exact hapart.forall ht hmem hne (o * 2 ^ r)
    ⟨hleaf, leafBelow_parent hn hxn hroot (hbelow _ hleaf)⟩

end Apart

/-! ## The loop over the rows -/

/-- The positions pending before `row` and the siblings found below it. -/
structure Merging (n : Nat) (targets : List Nat) (row : Nat) (pending needed : List Nat) : Prop where
  sorted : pending.Pairwise (· < ·)
  mem_iff : ∀ x, x ∈ pending ↔ (x ∈ targets ∧ row ≤ detectRow x (treeRows n)) ∨
    Closure n (treeRows n) targets x ∧ detectRow x (treeRows n) = row
  needed_sorted : needed.Pairwise (· < ·)
  needed_iff : ∀ s, s ∈ needed ↔ s ∈ proofPositions targets n (treeRows n) ∧ detectRow s (treeRows n) < row

theorem sorted_of_nodup {l : List Nat} (h : l.Nodup) : (l.insertionSort (· ≤ ·)).Pairwise (· < ·) := by
  have hle := List.pairwise_insertionSort (· ≤ ·) l
  have hne : (l.insertionSort (· ≤ ·)).Nodup := (List.perm_insertionSort _ _).nodup_iff.mpr h
  exact (hle.and hne).imp fun h => lt_of_le_of_ne h.1 h.2

section Loop

variable {n : Nat} (hn : n ≤ 2 ^ 62) {targets : List Nat} (hnode : ∀ t ∈ targets, IsNode n t)
include hn hnode

/-- A position of the closure is a target or the parent of a position one row below. -/
theorem closure_cases {x : Nat} (hx : Closure n (treeRows n) targets x) : x ∈ targets ∨
    ∃ y, Closure n (treeRows n) targets y ∧ isRootPosition y n (treeRows n) = false ∧ x = parent y (treeRows n) ∧
      detectRow x (treeRows n) = detectRow y (treeRows n) + 1 := by
  cases hx with
  | target ht => exact Or.inl ht
  | parent hy hroot => exact Or.inr ⟨_, hy, hroot, rfl, row_parent hn (isNode_closure hn hnode hy) hroot⟩

theorem Merging.start (hdistinct : targets.Nodup) : Merging n targets 0 (targets.insertionSort (· ≤ ·)) [] := by
  refine ⟨sorted_of_nodup hdistinct, fun x => ?_, by simp, by simp⟩
  rw [(List.perm_insertionSort _ _).mem_iff]
  constructor
  · exact fun hx => Or.inl ⟨hx, Nat.zero_le _⟩
  · rintro (⟨hx, -⟩ | ⟨hx, hrow⟩)
    · exact hx
    · rcases closure_cases hn hnode hx with hx | ⟨y, -, -, -, hup⟩
      · exact hx
      · omega

omit hn hnode in
theorem Merging.closure {row : Nat} {pending needed : List Nat} (h : Merging n targets row pending needed) {x : Nat}
    (hx : x ∈ pending) : Closure n (treeRows n) targets x := by
  rcases (h.mem_iff x).mp hx with ⟨hx, -⟩ | ⟨hx, -⟩
  · exact .target hx
  · exact hx

theorem Merging.extra_iff {row : Nat} {pending needed next extra : List Nat} (h : Merging n targets row pending needed)
    (hmerged : RowMerged n row pending next extra) (s : Nat) :
    s ∈ extra ↔ s ∈ proofPositions targets n (treeRows n) ∧ detectRow s (treeRows n) = row := by
  rw [hmerged.extra_iff, mem_proofPositions_nodes hn hnode]
  constructor
  · rintro ⟨hs, y, hy, hrow, hroot, rfl⟩
    have hyc := h.closure hy
    have hsame := (row_sibling hn (isNode_closure hn hnode hyc) hroot).trans hrow
    rw [xor_one_xor_one]
    exact ⟨⟨hyc, hroot, fun hc => hs ((h.mem_iff _).mpr (Or.inr ⟨hc, hsame⟩))⟩, hsame⟩
  · rintro ⟨⟨hc, hroot, hs⟩, hrow⟩
    have hsame := row_sibling hn (isNode_closure hn hnode hc) hroot
    rw [xor_one_xor_one, hrow] at hsame
    exact ⟨fun hmem => hs (h.closure hmem), s ^^^ 1, (h.mem_iff _).mpr (Or.inr ⟨hc, hsame.symm⟩), hsame.symm, hroot,
      (xor_one_xor_one s).symm⟩

theorem Merging.step {row : Nat} {pending needed : List Nat} (hapart : targets.Pairwise (Apart (treeRows n)))
    (h : Merging n targets row pending needed) (hfit : (proofPositions targets n (treeRows n)).length ≤ maxHashes) :
    ∃ next needed', mergeRow n (treeRows n) row pending needed = .ok (next, needed') ∧
      Merging n targets (row + 1) (next.insertionSort (· ≤ ·)) needed' := by
  have hpending : ∀ x ∈ pending, IsNode n x := fun x hx => isNode_closure hn hnode (h.closure hx)
  have hrows : ∀ x ∈ pending, row ≤ detectRow x (treeRows n) := by
    intro x hx
    rcases (h.mem_iff x).mp hx with ⟨-, hrow⟩ | ⟨-, hrow⟩
    · exact hrow
    · omega
  have hparent : ∀ y ∈ pending, detectRow y (treeRows n) = row → isRootPosition y n (treeRows n) = false →
      parent y (treeRows n) ∉ pending := by
    intro y hy hrow hroot hmem
    rcases (h.mem_iff _).mp hmem with ⟨ht, -⟩ | ⟨-, hup⟩
    · exact parent_not_target hn hnode hapart (h.closure hy) hroot ht
    · rw [row_parent hn (hpending y hy) hroot] at hup
      omega
  obtain ⟨next, extra, hmerged, hrun⟩ := mergeRow_spec hn pending needed h.sorted hpending hrows hparent
  have hextra := h.extra_iff hn hnode hmerged
  have hsorted : (needed ++ extra).Pairwise (· < ·) := by
    rw [List.pairwise_append]
    refine ⟨h.needed_sorted, hmerged.extra_sorted, fun a ha b hb => ?_⟩
    obtain ⟨hap, har⟩ := (h.needed_iff a).mp ha
    obtain ⟨hbp, hbr⟩ := (hextra b).mp hb
    have hisNode : ∀ s ∈ proofPositions targets n (treeRows n), IsNode n s := fun s hs => by
      obtain ⟨hc, hroot, -⟩ := (mem_proofPositions_nodes hn hnode s).mp hs
      have := isNode_sibling hn (isNode_closure hn hnode hc) hroot
      rwa [xor_one_xor_one] at this
    by_contra hle
    have := row_le_of_le (hisNode b hbp) (hisNode a hap) (by omega)
    omega
  refine ⟨next, needed ++ extra, hrun ?_, sorted_of_nodup hmerged.next_nodup, fun x => ?_, hsorted, fun s => ?_⟩
  · have hsub : needed ++ extra ⊆ proofPositions targets n (treeRows n) := by
      intro s hs
      rcases List.mem_append.mp hs with hs | hs
      · exact ((h.needed_iff s).mp hs).1
      · exact ((hextra s).mp hs).1
    have hlen := (List.subperm_of_subset (hsorted.imp Nat.ne_of_lt) hsub).length_le
    rw [List.length_append] at hlen
    omega
  · rw [(List.perm_insertionSort _ _).mem_iff, hmerged.next_iff]
    constructor
    · rintro (⟨hx, hrow⟩ | ⟨y, hy, hrow, hroot, rfl⟩)
      · rcases (h.mem_iff x).mp hx with ⟨ht, hge⟩ | ⟨-, heq⟩
        · exact Or.inl ⟨ht, by omega⟩
        · exact absurd heq hrow
      · right
        exact ⟨.parent (h.closure hy) hroot, by rw [row_parent hn (hpending y hy) hroot, hrow]⟩
    · rintro (⟨ht, hge⟩ | ⟨hc, hrow⟩)
      · exact Or.inl ⟨(h.mem_iff x).mpr (Or.inl ⟨ht, by omega⟩), by omega⟩
      · rcases closure_cases hn hnode hc with ht | ⟨y, hy, hroot, rfl, hup⟩
        · exact Or.inl ⟨(h.mem_iff x).mpr (Or.inl ⟨ht, by omega⟩), by omega⟩
        · exact Or.inr ⟨y, (h.mem_iff y).mpr (Or.inr ⟨hy, by omega⟩), by omega, hroot, rfl⟩
  · rw [List.mem_append, h.needed_iff, hextra]
    constructor
    · rintro (⟨hs, hrow⟩ | ⟨hs, hrow⟩)
      · exact ⟨hs, by omega⟩
      · exact ⟨hs, by omega⟩
    · rintro ⟨hs, hrow⟩
      rcases Nat.lt_succ_iff_lt_or_eq.mp hrow with hrow | hrow
      · exact Or.inl ⟨hs, hrow⟩
      · exact Or.inr ⟨hs, hrow⟩

theorem Merging.done {row : Nat} {pending needed : List Nat} (h : Merging n targets row pending needed)
    (hdone : pending = [] ∨ treeRows n < row) : needed = proofPositions targets n (treeRows n) := by
  apply eq_of_sorted_of_mem_iff h.needed_sorted (proofPositions_sorted _ _ _)
  intro s
  rw [h.needed_iff]
  refine ⟨fun hs => hs.1, fun hs => ⟨hs, ?_⟩⟩
  obtain ⟨hc, hroot, -⟩ := (mem_proofPositions_nodes hn hnode s).mp hs
  have hcn := isNode_closure hn hnode hc
  have hsame := row_sibling hn hcn hroot
  rw [xor_one_xor_one] at hsame
  rw [hsame]
  rcases hdone with rfl | hlt
  · -- the closure is empty from `row` on
    have hnone : ∀ x, Closure n (treeRows n) targets x → detectRow x (treeRows n) < row := by
      intro x hx
      induction hx with
      | @target t ht =>
        by_contra hge
        exact absurd ((h.mem_iff t).mpr (Or.inl ⟨ht, by omega⟩)) (by simp)
      | @parent x hx hroot ih =>
        by_contra hge
        have hup := row_parent hn (isNode_closure hn hnode hx) hroot
        have hmem := (h.mem_iff (parent x (treeRows n))).mpr (Or.inr ⟨.parent hx hroot, by omega⟩)
        cases hmem
    exact hnone _ hc
  · obtain ⟨r, o, hr, ho, heq⟩ := (isNode_iff _ _).mp hcn
    rw [heq, detectRow_rowPos hr (offset_lt_pow (le_two_pow_treeRows n) hr ho)]
    omega

theorem Merging.run (hapart : targets.Pairwise (Apart (treeRows n)))
    (hfit : (proofPositions targets n (treeRows n)).length ≤ maxHashes) (fuel : Nat) {row : Nat}
    {pending needed : List Nat} (hfuel : treeRows n + 1 ≤ row + fuel) (h : Merging n targets row pending needed) :
    mergeRows n (treeRows n) fuel row pending needed = .ok (proofPositions targets n (treeRows n)) := by
  induction fuel generalizing row pending needed with
  | zero => rw [mergeRows, h.done hn hnode (Or.inr (by omega))]
  | succ fuel ih =>
    rw [mergeRows]
    by_cases hempty : pending = []
    · rw [if_pos hempty, h.done hn hnode (Or.inl hempty)]
    · obtain ⟨next, needed', hrow, hnext⟩ := h.step hn hnode hapart hfit
      rw [if_neg hempty, hrow]
      exact ih (by omega) hnext

end Loop

/-! ## The checks before the merge -/

instance : Std.Total pairLE := ⟨fun a b => by unfold pairLE; omega⟩

instance : IsTrans (Nat × Nat) pairLE := ⟨fun a b c hab hbc => by unfold pairLE at *; omega⟩

/-- First and last leaf offset below a node. -/
def leafSpan (rows pos : Nat) : Nat × Nat :=
  let row := detectRow pos rows
  let offset := pos - rowStart rows row
  (offset * 2 ^ row, offset * 2 ^ row + (2 ^ row - 1))

theorem leafSpan_rowPos {rows r o : Nat} (hr : r ≤ rows) (ho : o < 2 ^ (rows - r)) :
    leafSpan rows (rowPos rows r o) = (o * 2 ^ r, o * 2 ^ r + (2 ^ r - 1)) := by
  rw [leafSpan, detectRow_rowPos hr ho, rowPos, Nat.add_sub_cancel_left]

/-- The spans of two nodes that lie apart do not meet. -/
def SpansApart (a b : Nat × Nat) : Prop := a.1 ≤ a.2 ∧ b.1 ≤ b.2 ∧ (a.2 < b.1 ∨ b.2 < a.1)

theorem spansApart_symm {a b : Nat × Nat} (h : SpansApart a b) : SpansApart b a := ⟨h.2.1, h.1, h.2.2.symm⟩

theorem anyOverlap_eq_false {l : List (Nat × Nat)} (hsorted : l.Pairwise pairLE) (hapart : l.Pairwise SpansApart) :
    anyOverlap l = false := by
  induction l with
  | nil => rfl
  | cons a l ih =>
    rw [List.pairwise_cons] at hsorted hapart
    cases l with
    | nil => rfl
    | cons b l =>
      obtain ⟨h1, h2, h3⟩ := hapart.1 b (by simp)
      have hle := hsorted.1 b (by simp)
      rw [anyOverlap, ih hsorted.2 hapart.2, Bool.or_false, decide_eq_false_iff_not]
      unfold pairLE at hle
      omega

section Checks

variable {n : Nat} (hn : n ≤ 2 ^ 62) {targets : List Nat}

theorem spansApart_of_apart {x y : Nat} (hx : IsNode n x) (hy : IsNode n y) (h : Apart (treeRows n) x y) :
    SpansApart (leafSpan (treeRows n) x) (leafSpan (treeRows n) y) := by
  obtain ⟨r, o, hr, ho, rfl⟩ := (isNode_iff _ _).mp hx
  obtain ⟨r', o', hr', ho', rfl⟩ := (isNode_iff _ _).mp hy
  have hpow := offset_lt_pow (le_two_pow_treeRows n) hr ho
  have hpow' := offset_lt_pow (le_two_pow_treeRows n) hr' ho'
  have hpos : 0 < 2 ^ r := Nat.pow_pos (by omega)
  have hpos' : 0 < 2 ^ r' := Nat.pow_pos (by omega)
  rw [leafSpan_rowPos hr hpow, leafSpan_rowPos hr' hpow']
  -- a leaf in both spans lies below both nodes
  have hboth : ∀ leaf, ¬((o * 2 ^ r ≤ leaf ∧ leaf < o * 2 ^ r + 2 ^ r) ∧ o' * 2 ^ r' ≤ leaf ∧ leaf < o' * 2 ^ r' + 2 ^ r') := by
    rintro leaf ⟨⟨h1, h2⟩, h3, h4⟩
    refine h leaf ⟨⟨r, o, hr, hpow, rfl, ?_⟩, r', o', hr', hpow', rfl, ?_⟩
    · rw [Nat.div_eq_iff hpos]
      omega
    · rw [Nat.div_eq_iff hpos']
      omega
  have h1 := hboth (o * 2 ^ r)
  have h2 := hboth (o' * 2 ^ r')
  refine ⟨by omega, by omega, ?_⟩
  dsimp only
  omega

include hn

theorem targetIntervals_eq_ok (hnode : ∀ t ∈ targets, IsNode n t) :
    targetIntervals n (treeRows n) targets = .ok (targets.map (leafSpan (treeRows n))) := by
  induction targets with
  | nil => rfl
  | cons t targets ih =>
    obtain ⟨r, o, hr, ho, rfl⟩ := (isNode_iff _ _).mp (hnode t (by simp))
    have hok := (targetInterval_eq_ok (by omega)).mpr ⟨r, o, hr, ho, rfl, rfl⟩
    rw [targetIntervals, hok, ih fun t ht => hnode t (by simp [ht])]
    rw [List.map_cons, leafSpan_rowPos hr (offset_lt_pow (le_two_pow_treeRows n) hr ho)]

omit hn in
theorem noOverlap (hnode : ∀ t ∈ targets, IsNode n t) (hapart : targets.Pairwise (Apart (treeRows n))) :
    anyOverlap ((targets.map (leafSpan (treeRows n))).insertionSort pairLE) = false := by
  apply anyOverlap_eq_false (List.pairwise_insertionSort pairLE _)
  rw [(List.perm_insertionSort pairLE _).pairwise_iff spansApart_symm, List.pairwise_map]
  exact hapart.imp_of_mem fun hx hy h => spansApart_of_apart (hnode _ hx) (hnode _ hy) h

omit hn in
theorem nodup_of_apart (hnode : ∀ t ∈ targets, IsNode n t) (hapart : targets.Pairwise (Apart (treeRows n))) :
    targets.Nodup := by
  apply hapart.imp_of_mem
  rintro x y hx - h rfl
  obtain ⟨r, o, hr, ho, heq⟩ := (isNode_iff _ _).mp (hnode x hx)
  have hleaf : LeafBelow (treeRows n) x (o * 2 ^ r) :=
    ⟨r, o, hr, offset_lt_pow (le_two_pow_treeRows n) hr ho, heq, Nat.mul_div_cancel _ (Nat.pow_pos (by omega))⟩
  exact h _ ⟨hleaf, hleaf⟩

/-- The merge finds what `ProofPositions` finds. -/
theorem nativeProofPositions_eq {H : Type} {hashes : List H} (hnode : ∀ t ∈ targets, IsNode n t)
    (hapart : targets.Pairwise (Apart (treeRows n)))
    (hcount : hashes.length = (proofPositions targets n (treeRows n)).length) (hfit : hashes.length ≤ maxHashes) :
    nativeProofPositions ⟨targets, hashes⟩ n = .ok (proofPositions targets n (treeRows n)) := by
  have hstart := Merging.start hn hnode (nodup_of_apart hnode hapart)
  have hrun := hstart.run hn hnode hapart (hcount ▸ hfit) (treeRows n + 1) (by omega)
  rw [nativeProofPositions, if_neg (by omega)]
  simp only [targetIntervals_eq_ok hn hnode, noOverlap hnode hapart, hrun, hcount]
  simp

/-! ## Both translations -/

omit hn in
theorem wirePosition_lt (hn : n ≤ 2 ^ 62) {x y : Nat} (hx : IsNode n x) (hy : IsNode n y) (h : x < y) :
    wirePosition x (treeRows n) < wirePosition y (treeRows n) := by
  have hrows := treeRows_le_62 hn
  obtain ⟨r, o, hr, ho, rfl⟩ := (isNode_iff _ _).mp hx
  obtain ⟨r', o', hr', ho', rfl⟩ := (isNode_iff _ _).mp hy
  have hpow := offset_lt_pow (le_two_pow_treeRows n) hr ho
  have hpow' := offset_lt_pow (le_two_pow_treeRows n) hr' ho'
  have hwiden : ∀ {r o}, r ≤ treeRows n → o < 2 ^ (treeRows n - r) → o < 2 ^ (63 - r) := fun hr ho =>
    lt_of_lt_of_le ho (Nat.pow_le_pow_right (by omega) (by omega))
  rw [wirePosition_rowPos (by omega) hr hpow, wirePosition_rowPos (by omega) hr' hpow']
  rw [rowPos_lt_rowPos hr hpow hr' hpow'] at h
  exact (rowPos_lt_rowPos (by omega) (hwiden hr hpow) (by omega) (hwiden hr' hpow')).mpr h

theorem wirePosition_ne_padding {x : Nat} (hx : IsNode n x) : wirePosition x (treeRows n) ≠ padding := by
  have hrows := treeRows_le_62 hn
  obtain ⟨r, o, hr, ho, rfl⟩ := (isNode_iff _ _).mp hx
  have hpow := offset_lt_pow (le_two_pow_treeRows n) hr ho
  have hlt : rowPos 63 r o < 2 ^ 64 - 1 :=
    rowPos_lt (by omega) (lt_of_lt_of_le hpow (Nat.pow_le_pow_right (by omega) (by omega)))
  rw [wirePosition_rowPos (by omega) hr hpow]
  have hpadding : padding = 2 ^ 64 - 1 := rfl
  omega

/-- `MeasureUtreexoProof` accepts exactly the nodes and translates them the same way. -/
theorem wireTargetsLoop_eq_ok_iff (targets wire : List Nat) :
    wireTargetsLoop n (treeRows n) targets = .ok wire ↔
      (∀ t ∈ targets, IsNode n t) ∧ wire = targets.map (wirePosition · (treeRows n)) := by
  have hrows := treeRows_le_62 hn
  induction targets generalizing wire with
  | nil => simp [wireTargetsLoop, eq_comm]
  | cons t targets ih =>
    by_cases hmask : t ≥ positionMask (treeRows n)
    · rw [wireTargetsLoop, if_pos hmask]
      rw [positionMask_eq (by omega)] at hmask
      constructor
      · intro h
        cases h
      · rintro ⟨hnode, -⟩
        have := isNode_lt (hnode t (by simp))
        omega
    rw [wireTargetsLoop, if_neg hmask]
    rw [positionMask_eq (by omega)] at hmask
    obtain ⟨r, o, hr, ho, rfl⟩ := exists_rowPos (treeRows n) t (by omega)
    have hrow : countlOne (shl (rowPos (treeRows n) r o) (63 - treeRows n)) = r := wireRow_rowPos (by omega) hr ho
    have hoffset : rowPos (treeRows n) r o - (positionMask (treeRows n) ^^^ (positionMask (treeRows n) >>> r)) = o :=
      wireOffset_rowPos (by omega) hr
    have hwire : ((2 ^ 64 - 1) ^^^ ((2 ^ 64 - 1) >>> r)) + o = wirePosition (rowPos (treeRows n) r o) (treeRows n) := by
      rw [wirePosition_rowPos (by omega) hr ho, rowPos, ← wireRowStart_eq (le_refl 63) (by omega)]
      rfl
    have hisNode : IsNode n (rowPos (treeRows n) r o) ↔ ¬ o ≥ n >>> r := by
      rw [isNode_iff, Nat.shiftRight_eq_div_pow]
      constructor
      · rintro ⟨r', o', hr', ho', heq⟩
        obtain ⟨rfl, rfl⟩ := rowPos_inj hr ho hr' (offset_lt_pow (le_two_pow_treeRows n) hr' ho') heq
        omega
      · exact fun h => ⟨r, o, hr, by omega, rfl⟩
    simp only [hrow, hoffset, hwire]
    by_cases hpop : o ≥ n >>> r
    · rw [if_pos hpop]
      constructor
      · intro h
        cases h
      · rintro ⟨hnode, -⟩
        exact absurd hpop (hisNode.mp (hnode _ (by simp)))
    · rw [if_neg hpop]
      cases hrest : wireTargetsLoop n (treeRows n) targets with
      | error message =>
        constructor
        · intro h
          cases h
        · rintro ⟨hnode, -⟩
          have := (ih _).mpr ⟨fun t ht => hnode t (by simp [ht]), rfl⟩
          rw [hrest] at this
          cases this
      | ok rest =>
        obtain ⟨hnode, rfl⟩ := (ih rest).mp hrest
        simp only [Except.ok.injEq, List.map_cons, List.forall_mem_cons]
        constructor
        · rintro rfl
          exact ⟨⟨hisNode.mpr hpop, hnode⟩, rfl⟩
        · rintro ⟨-, rfl⟩
          rfl

end Checks

/-! ## Targets of the prover -/

section Prover

variable {H : Type} [ForestHash H] [DecidableEq H] {f : PackedForest H}

theorem contains_of_proveTargets {values : List H} {positions : List Nat}
    (h : f.proveTargets values = .ok (.ok positions)) : ∀ v ∈ values, f.contains v = true := by
  induction values generalizing positions with
  | nil => simp
  | cons v values ih =>
    rw [PackedForest.proveTargets] at h
    cases hfind : f.index.find f.arena v with
    | none => simp [hfind] at h
    | some id =>
      simp only [hfind] at h
      cases hrest : f.proveTargets values with
      | error fault => split at h <;> simp_all
      | ok rest =>
        cases rest with
        | error message => split at h <;> simp_all
        | ok rest =>
          rw [List.forall_mem_cons]
          exact ⟨by simp [PackedForest.contains, hfind], ih hrest⟩

theorem isNode_of_prove (hreach : Reachable f) (hn : f.numLeaves ≤ 2 ^ 62) {values : List H}
    {proof : Proof H} (h : f.prove values = .ok (.ok proof)) : ∀ t ∈ proof.targets, IsNode f.numLeaves t := by
  obtain ⟨trees, hrep⟩ := hreach.represents
  cases htargets : f.proveTargets values with
  | error fault => simp [PackedForest.prove, htargets] at h
  | ok r =>
    cases r with
    | error message => simp [PackedForest.prove, htargets] at h
    | ok positions =>
      obtain ⟨positions', hok, hall⟩ := proveTargets_spec hrep hn values (contains_of_proveTargets htargets)
      rw [htargets] at hok
      cases hok
      simp only [PackedForest.prove, htargets] at h
      cases hhashes : f.proofHashes (proofPositions positions f.numLeaves (treeRows f.numLeaves)) with
      | error message => simp [hhashes] at h
      | ok hashes =>
        simp only [hhashes, Except.ok.injEq] at h
        subst h
        intro t ht
        obtain ⟨v, -, x, -, -, -, hat⟩ := forall₂_exists hall.flip ht
        exact hat.isNode hrep.toStructured

end Prover

/-- The two ways to find proof positions agree, and so do the two translations to the wire. They take what is proved of a
forest whose run adds no live hash. -/
theorem positions_agree {H : Type} [ForestHash H] [DecidableEq H] {n : Nat} (hn : n ≤ 2 ^ 62) :
    (∀ (targets : List Nat) (hashes : List H), (∀ t ∈ targets, IsNode n t) → targets.Pairwise (Apart (treeRows n)) →
      hashes.length = (proofPositions targets n (treeRows n)).length → hashes.length ≤ maxHashes →
        nativeProofPositions ⟨targets, hashes⟩ n = .ok (proofPositions targets n (treeRows n)) ∧
          (proofPositions targets n (treeRows n)).Pairwise (· < ·)) ∧
    StrictMonoOn (wirePosition · (treeRows n)) {x | IsNode n x} ∧
    Set.InjOn (wirePosition · (treeRows n)) {x | IsNode n x} ∧
    (∀ x, IsNode n x → wirePosition x (treeRows n) ≠ padding) ∧
    (∀ targets wire, wireTargets n targets = .ok wire ↔
      (∀ t ∈ targets, IsNode n t) ∧ wire = targets.map (wirePosition · (treeRows n))) ∧
    ∀ (f : PackedForest H) (values : List H) (proof : Proof H), Reachable f → f.numLeaves = n →
      f.prove values = .ok (.ok proof) →
        wireTargets n proof.targets = .ok (proof.targets.map (wirePosition · (treeRows n))) := by
  have hmono : StrictMonoOn (wirePosition · (treeRows n)) {x | IsNode n x} := fun x hx y hy h => wirePosition_lt hn hx hy h
  have hwire : ∀ targets wire, wireTargets n targets = .ok wire ↔
      (∀ t ∈ targets, IsNode n t) ∧ wire = targets.map (wirePosition · (treeRows n)) := by
    intro targets wire
    rw [wireTargets, if_neg (by omega), wireTargetsLoop_eq_ok_iff hn]
  refine ⟨?_, hmono, hmono.injOn, fun x hx => wirePosition_ne_padding hn hx, hwire, ?_⟩
  · intro targets hashes hnode hapart hcount hfit
    exact ⟨nativeProofPositions_eq hn hnode hapart hcount hfit, proofPositions_sorted _ _ _⟩
  · rintro f values proof hreach rfl h
    exact (hwire _ _).mpr ⟨isNode_of_prove hreach hn h, rfl⟩

theorem positions_agree_three :
    nativeProofPositions ⟨[2, 0], [TermHash.leaf 1]⟩ 3 = .ok (proofPositions [2, 0] 3 (treeRows 3)) ∧
      wirePosition 2 (treeRows 3) < wirePosition 4 (treeRows 3) ∧
      wirePosition 4 (treeRows 3) ≠ padding ∧
      wireTargets 3 [2, 4] = .ok [2, 2 ^ 63] ∧
      ∀ proof, threeForest.prove [.leaf 3, .leaf 2] = .ok (.ok proof) →
        wireTargets 3 proof.targets = .ok (proof.targets.map (wirePosition · (treeRows 3))) := by
  obtain ⟨hmerge, hmono, -, hpadding, hwire, hprover⟩ := positions_agree (H := TermHash) (n := 3) (by decide)
  have hapart : Apart (treeRows 3) 2 0 := by
    rintro leaf ⟨⟨r, o, hr, ho, heq, hleaf⟩, r', o', hr', ho', heq', hleaf'⟩
    have h2 : 2 = rowPos (treeRows 3) 0 2 := by decide
    have h0 : 0 = rowPos (treeRows 3) 0 0 := by decide
    obtain ⟨rfl, rfl⟩ := rowPos_inj hr ho (by decide) (by decide) (heq.symm.trans h2)
    obtain ⟨rfl, rfl⟩ := rowPos_inj hr' ho' (by decide) (by decide) (heq'.symm.trans h0)
    omega
  refine ⟨(hmerge [2, 0] [.leaf 1] (by decide) (by simpa using hapart) (by decide +kernel) (by decide)).1,
    hmono (by decide) (by decide) (by decide), hpadding 4 (by decide), (hwire _ _).mpr ⟨by decide, by decide⟩, fun proof h => ?_⟩
  exact hprover threeForest _ proof reachable_threeForest (by decide +kernel) h

end UtreexoBridge.Wire
