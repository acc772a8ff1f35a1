import UtreexoBridge.Position.Closure

/-!
# The nodes of a forest

Parents and siblings of nodes are nodes, up to the roots. The facts about
`ProofPositions` follow for every list of node positions.
-/

namespace UtreexoBridge.Position

section Nodes

variable {leaves r o : Nat}

theorem treeRows_le_62 (h : leaves ≤ 2 ^ 62) : treeRows leaves ≤ 62 := treeRows_le h

theorem div_pow_succ (leaves r : Nat) :
    leaves / 2 ^ r = 2 * (leaves / 2 ^ (r + 1)) + (if leaves.testBit r then 1 else 0) := by
  rw [pow_succ, ← Nat.div_div_eq_div_mul]
  have hbit : leaves.testBit r = decide (leaves / 2 ^ r % 2 = 1) := Nat.testBit_eq_decide_div_mod_eq
  rw [hbit]
  split_ifs with h <;> simp only [decide_eq_true_eq] at h <;> omega

def rootOffset (leaves row : Nat) : Nat := 2 * (leaves / 2 ^ (row + 1))

theorem rootOffset_lt {row : Nat} (h : leaves.testBit row) : rootOffset leaves row < leaves / 2 ^ row := by
  have := div_pow_succ leaves row
  rw [if_pos h] at this
  unfold rootOffset; omega

theorem isRoot_node_iff (hle : leaves ≤ 2 ^ 62) (hr : r ≤ treeRows leaves) (ho : o < leaves / 2 ^ r) :
    isRootPosition (rowPos (treeRows leaves) r o) leaves (treeRows leaves) = true ↔
      leaves.testBit r ∧ o = rootOffset leaves r :=
  isRootPosition_rowPos (treeRows_le_62 hle) (le_two_pow_treeRows leaves) hr
    (offset_lt_pow (le_two_pow_treeRows leaves) hr ho)

theorem half_offset_lt (hle : leaves ≤ 2 ^ 62) (hr : r ≤ treeRows leaves) (ho : o < leaves / 2 ^ r)
    (hroot : isRootPosition (rowPos (treeRows leaves) r o) leaves (treeRows leaves) = false) :
    o / 2 < leaves / 2 ^ (r + 1) := by
  have hdiv := div_pow_succ leaves r
  have hno : ¬ (leaves.testBit r ∧ o = rootOffset leaves r) := by
    rw [← isRoot_node_iff hle hr ho, hroot]; simp
  unfold rootOffset at hno
  by_contra hge
  split at hdiv
  · exact hno ⟨by assumption, by omega⟩
  · omega

theorem row_lt_of_half (hr : r ≤ treeRows leaves) (h : o / 2 < leaves / 2 ^ (r + 1)) : r + 1 ≤ treeRows leaves := by
  by_contra hlt
  have hfr : r = treeRows leaves := by omega
  have h1 := le_two_pow_treeRows leaves
  have h2 : 2 ^ treeRows leaves < 2 ^ (r + 1) := Nat.pow_lt_pow_right (by omega) (by omega)
  have h3 : leaves / 2 ^ (r + 1) = 0 := Nat.div_eq_of_lt (by omega)
  omega

theorem isNode_rowPos (hr : r ≤ treeRows leaves) (ho : o < leaves / 2 ^ r) :
    IsNode leaves (rowPos (treeRows leaves) r o) := (isNode_iff _ _).mpr ⟨r, o, hr, ho, rfl⟩

variable {x : Nat}

theorem isNode_parent (hle : leaves ≤ 2 ^ 62) (hx : IsNode leaves x)
    (hroot : isRootPosition x leaves (treeRows leaves) = false) : IsNode leaves (parent x (treeRows leaves)) := by
  obtain ⟨r, o, hr, ho, rfl⟩ := (isNode_iff _ _).mp hx
  have h62 := treeRows_le_62 hle
  have hhalf := half_offset_lt hle hr ho hroot
  rw [parent_rowPos (by omega) hr (offset_lt_pow (le_two_pow_treeRows leaves) hr ho)]
  exact isNode_rowPos (row_lt_of_half hr hhalf) hhalf

theorem isNode_sibling (hle : leaves ≤ 2 ^ 62) (hx : IsNode leaves x)
    (hroot : isRootPosition x leaves (treeRows leaves) = false) : IsNode leaves (x ^^^ 1) := by
  obtain ⟨r, o, hr, ho, rfl⟩ := (isNode_iff _ _).mp hx
  have hhalf := half_offset_lt hle hr ho hroot
  have hdiv := div_pow_succ leaves r
  have hsame := xor_one_div o
  rw [sibling_rowPos hr]
  exact isNode_rowPos hr (by omega)

theorem not_isNode_root_sibling (hle : leaves ≤ 2 ^ 62) (hx : IsNode leaves x)
    (hroot : isRootPosition x leaves (treeRows leaves) = true) : ¬ IsNode leaves (x ^^^ 1) := by
  obtain ⟨r, o, hr, ho, rfl⟩ := (isNode_iff _ _).mp hx
  obtain ⟨hbit, rfl⟩ := (isRoot_node_iff hle hr ho).mp hroot
  have hpow := offset_lt_pow (le_two_pow_treeRows leaves) hr ho
  have hdiv := div_pow_succ leaves r
  rw [if_pos hbit] at hdiv
  rw [sibling_rowPos hr, xor_one_even (by unfold rootOffset; omega), isNode_iff]
  rintro ⟨r', o', hr', ho', heq⟩
  have hpow' := offset_lt_pow (le_two_pow_treeRows leaves) hr' ho'
  by_cases hlt : rootOffset leaves r + 1 < 2 ^ (treeRows leaves - r)
  · obtain ⟨rfl, h⟩ := rowPos_inj hr hlt hr' hpow' heq
    unfold rootOffset at h; omega
  · -- The sibling would be the last position of its row, at or past the next row's start.
    have h1 := rowStart_even hr
    have h2 := pow_row_succ hr
    have h3 : 2 ^ (treeRows leaves - r) = rootOffset leaves r + 1 := by omega
    have h4 : rootOffset leaves r = 0 := by
      rcases Nat.eq_zero_or_pos (treeRows leaves - r) with h0 | h0
      · rw [h0] at h3; omega
      · obtain ⟨k, hk⟩ : ∃ k, treeRows leaves - r = k + 1 := ⟨treeRows leaves - r - 1, by omega⟩
        rw [hk, pow_succ] at h3
        unfold rootOffset at h3; omega
    have h5 := rowPos_lt hr' hpow'
    have h6 := rowStart_add (treeRows leaves) r (by omega)
    have h7 : rowPos (treeRows leaves) r (rootOffset leaves r + 1) = rowStart (treeRows leaves) r + 1 := by
      rw [h4]; rfl
    omega

theorem isRootPosition_allOnes (leaves : Nat) :
    isRootPosition (2 ^ (treeRows leaves + 1) - 1) leaves (treeRows leaves) = false := by
  have hones : ∀ k row, k ≤ treeRows leaves + 1 →
      detectRowLoop (2 ^ (treeRows leaves + 1) - 1) k row = row + k := by
    intro k
    induction k with
    | zero => intro row _; rfl
    | succ k ih =>
      intro row hk
      rw [detectRowLoop, if_pos (by rw [Nat.testBit_two_pow_sub_one]; simp; omega), ih _ (by omega)]
      omega
  have hbit : leaves.testBit (treeRows leaves + 1) = false :=
    Nat.testBit_lt_two_pow (lt_of_le_of_lt (le_two_pow_treeRows leaves)
      (Nat.pow_lt_pow_right (by omega) (by omega)))
  simp only [isRootPosition, detectRow, hones _ 0 (le_refl _), Nat.zero_add, hbit, Bool.false_and]

theorem isNode_of_isRoot (hle : leaves ≤ 2 ^ 62) (h : isRootPosition x leaves (treeRows leaves) = true) :
    IsNode leaves x := by
  have h62 := treeRows_le_62 hle
  by_cases hhigh : 2 ^ (treeRows leaves + 1) ≤ x
  · rw [isRootPosition_high h62 hhigh] at h; cases h
  by_cases hones : x = 2 ^ (treeRows leaves + 1) - 1
  · rw [hones, isRootPosition_allOnes] at h; cases h
  obtain ⟨r, o, hr, ho, rfl⟩ := exists_rowPos (treeRows leaves) x (by omega)
  obtain ⟨hbit, rfl⟩ := (isRootPosition_rowPos h62 (le_two_pow_treeRows leaves) hr ho).mp h
  exact isNode_rowPos hr (rootOffset_lt hbit)

theorem isNode_lt (hx : IsNode leaves x) : x < 2 ^ (treeRows leaves + 1) - 1 := by
  obtain ⟨r, o, hr, ho, rfl⟩ := (isNode_iff _ _).mp hx
  exact rowPos_lt hr (offset_lt_pow (le_two_pow_treeRows leaves) hr ho)

/-- An ancestor of a position inside the rows is a node only if the position is one. -/
theorem isNode_of_parent (hle : leaves ≤ 2 ^ 62) (hx : x < 2 ^ (treeRows leaves + 1))
    (h : IsNode leaves (parent x (treeRows leaves))) : IsNode leaves x := by
  have h62 := treeRows_le_62 hle
  by_cases hones : x = 2 ^ (treeRows leaves + 1) - 1
  · have hlt := isNode_lt h
    have hpow : 2 ^ (treeRows leaves + 1) = 2 * 2 ^ treeRows leaves := pow_succ' 2 _
    rw [parent_eq (by omega) hx, hones] at hlt
    omega
  obtain ⟨r, o, hr, ho, rfl⟩ := exists_rowPos (treeRows leaves) x (by omega)
  rw [parent_rowPos (by omega) hr ho] at h
  obtain ⟨r', o', hr', ho', heq⟩ := (isNode_iff _ _).mp h
  have hdiv := div_pow_succ leaves r
  by_cases htop : r = treeRows leaves
  · -- The parent of the top row is the last position, which is no node.
    have hlt := isNode_lt h
    have h1 := rowStart_add (treeRows leaves) (r + 1) (by omega)
    rw [show treeRows leaves + 1 - (r + 1) = 0 by omega, pow_zero] at h1
    unfold rowPos at hlt; omega
  · have hhalf : o / 2 < 2 ^ (treeRows leaves - (r + 1)) := by
      rw [show treeRows leaves - r = treeRows leaves - (r + 1) + 1 by omega, pow_succ] at ho; omega
    obtain ⟨rfl, rfl⟩ := rowPos_inj (by omega) hhalf hr' (offset_lt_pow (le_two_pow_treeRows leaves) hr' ho') heq
    exact isNode_rowPos hr (by split at hdiv <;> omega)

end Nodes

/-! ## Node targets -/

section Targets

variable {leaves : Nat} {targets : List Nat}

theorem isNode_closure (hle : leaves ≤ 2 ^ 62) (hnodes : ∀ t ∈ targets, IsNode leaves t) {x : Nat}
    (hx : Closure leaves (treeRows leaves) targets x) : IsNode leaves x := by
  induction hx with
  | target ht => exact hnodes _ ht
  | parent _ hroot ih => exact isNode_parent hle ih hroot

theorem rootsAlone_of_nodes (hle : leaves ≤ 2 ^ 62) (hnodes : ∀ t ∈ targets, IsNode leaves t) :
    RootsAlone leaves (treeRows leaves) targets := by
  intro x hx hroot hsib
  exact not_isNode_root_sibling hle (isNode_closure hle hnodes hx) hroot (isNode_closure hle hnodes hsib)

theorem isNode_lt_word {x : Nat} (hle : leaves ≤ 2 ^ 62) (hx : IsNode leaves x) : x < 2 ^ 64 := by
  have h1 := isNode_lt hx
  have h2 : 2 ^ (treeRows leaves + 1) ≤ 2 ^ 63 :=
    Nat.pow_le_pow_right (by omega) (by have := treeRows_le_62 hle; omega)
  omega

theorem mem_proofPositions_nodes (hle : leaves ≤ 2 ^ 62) (hnodes : ∀ t ∈ targets, IsNode leaves t) (x : Nat) :
    x ∈ proofPositions targets leaves (treeRows leaves) ↔
      Closure leaves (treeRows leaves) targets (x ^^^ 1) ∧
        isRootPosition (x ^^^ 1) leaves (treeRows leaves) = false ∧
          ¬ Closure leaves (treeRows leaves) targets x :=
  mem_proofPositions (fun t ht => isNode_lt_word hle (hnodes t ht)) (rootsAlone_of_nodes hle hnodes) x

/-- **Proof positions.** On nodes they are, in ascending order, the siblings that the closure of the targets lacks.
On any `uint64_t` targets the loop ends. -/
theorem proofPositions_minimal :
    (∀ leaves ≤ 2 ^ 62, ∀ targets : List Nat, (∀ t ∈ targets, IsNode leaves t) →
      (∀ x, x ∈ proofPositions targets leaves (treeRows leaves) ↔
        ∃ s, Closure leaves (treeRows leaves) targets s ∧ isRootPosition s leaves (treeRows leaves) = false ∧
          x = s ^^^ 1 ∧ ¬Closure leaves (treeRows leaves) targets x) ∧
      (proofPositions targets leaves (treeRows leaves)).Pairwise (· < ·) ∧
      (∀ targets' : List Nat, (∀ t, t ∈ targets' ↔ t ∈ targets) →
        proofPositions targets' leaves (treeRows leaves) = proofPositions targets leaves (treeRows leaves)) ∧
      ∀ x ∈ proofPositions targets leaves (treeRows leaves), IsNode leaves x) ∧
    ∀ (leaves forestRows : Nat) (targets : List Nat), (∀ t ∈ targets, t < 2 ^ 64) →
      (proofLoop leaves forestRows (proofFuel targets) (proofStart targets)).queue = [] ∧
        ∀ fuel ≥ proofFuel targets, proofLoop leaves forestRows fuel (proofStart targets) =
          proofLoop leaves forestRows (proofFuel targets) (proofStart targets) := by
  refine ⟨fun leaves hle targets hnodes => ?_, fun leaves fr targets hlt => ?_⟩
  · have hmem := mem_proofPositions_nodes hle hnodes
    refine ⟨fun x => ?_, proofPositions_sorted _ _ _, fun targets' hsame => ?_, fun x hx => ?_⟩
    · rw [hmem]
      constructor
      · rintro ⟨hclosed, hroot, hlacks⟩
        exact ⟨x ^^^ 1, hclosed, hroot, (xor_one_xor_one x).symm, hlacks⟩
      · rintro ⟨s, hclosed, hroot, rfl, hlacks⟩
        rw [xor_one_xor_one]
        exact ⟨hclosed, hroot, hlacks⟩
    · have hnodes' : ∀ t ∈ targets', IsNode leaves t := fun t ht => hnodes t ((hsame t).mp ht)
      have hclosure : ∀ x, Closure leaves (treeRows leaves) targets' x ↔ Closure leaves (treeRows leaves) targets x :=
        fun x => ⟨Closure.congr fun t ht => (hsame t).mp ht, Closure.congr fun t ht => (hsame t).mpr ht⟩
      apply eq_of_sorted_of_mem_iff (proofPositions_sorted _ _ _) (proofPositions_sorted _ _ _)
      intro x
      rw [mem_proofPositions_nodes hle hnodes', hmem, hclosure, hclosure]
    · obtain ⟨hclosed, hroot, -⟩ := (hmem x).mp hx
      have hsibling := isNode_sibling hle (isNode_closure hle hnodes hclosed) hroot
      rwa [xor_one_xor_one] at hsibling
  · have hend := proofLoop_ends leaves fr hlt
    exact ⟨hend, fun fuel hfuel => proofLoop_of_le hend hfuel⟩

/-- Two leaves and an ancestor of one of them among eight leaves. -/
theorem proofPositions_minimal_eight :
    (∀ t ∈ [4, 0, 8, 4], IsNode 8 t) ∧ proofPositions [4, 0, 8, 4] 8 (treeRows 8) = proofPositions [8, 0, 4] 8 (treeRows 8) ∧
      (proofLoop 8 3 (proofFuel [2 ^ 64 - 1]) (proofStart [2 ^ 64 - 1])).queue = [] :=
  ⟨by decide, ((proofPositions_minimal.1 8 (by omega) [8, 0, 4] (by decide)).2.2.1 [4, 0, 8, 4] (by
    intro t
    simp only [List.mem_cons, List.not_mem_nil, or_false]
    tauto)), (proofPositions_minimal.2 8 3 [2 ^ 64 - 1] (by simp)).1⟩

end Targets

end UtreexoBridge.Position
