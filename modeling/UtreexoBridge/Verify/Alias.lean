import UtreexoBridge.Verify.Roots

/-!
# Which target positions an accepted proof can have

`VerifyProof` masks nothing: a target above the last row is paired with its
sibling, and the parent of the pair may be a root. Such an alias is the only
accepted target that is not a node of the forest.
-/

namespace UtreexoBridge.Verify

open Position

/-- A position past the last row whose parent is a root. -/
def RootAlias (numLeaves pos : Nat) : Prop :=
  2 ^ (treeRows numLeaves + 1) ≤ pos ∧
    isRootPosition (parent pos (treeRows numLeaves)) numLeaves (treeRows numLeaves) = true

instance (numLeaves pos : Nat) : Decidable (RootAlias numLeaves pos) := inferInstanceAs (Decidable (_ ∧ _))

variable {H : Type} {numLeaves : Nat}

/-! ## Position arithmetic past the last row -/

theorem or_le_add (a b : Nat) : a ||| b ≤ a + b := by
  induction a using Nat.strong_induction_on generalizing b with
  | _ a ih =>
  by_cases ha : a = 0
  · simp [ha]
  have hdiv := Nat.or_div_two (a := a) (b := b)
  have hmod := Nat.or_mod_two_eq_one (a := a) (b := b)
  have hhalf := ih (a / 2) (by omega) (b / 2)
  omega

theorem parent_le_of_high {fr x : Nat} (hfr : fr ≤ 62) (h : 2 ^ (fr + 1) ≤ x) : parent x fr ≤ x := by
  have hpow : 2 ^ (fr + 1) = 2 * 2 ^ fr := pow_succ' 2 fr
  have hor := or_le_add (x >>> 1) (2 ^ fr)
  rw [parent, shl_one (by omega)]
  rw [Nat.shiftRight_one] at hor ⊢
  omega

theorem parent_lt_of_low {fr x : Nat} (hfr : fr ≤ 62) (h : x < 2 ^ (fr + 1)) : parent x fr < 2 ^ (fr + 1) := by
  have hpow : 2 ^ (fr + 1) = 2 * 2 ^ fr := pow_succ' 2 fr
  rw [parent_eq (by omega) h]
  omega

theorem parent_succ_even {fr x : Nat} (h : x % 2 = 0) : parent (x + 1) fr = parent x fr := by
  rw [parent, parent, Nat.shiftRight_one, Nat.shiftRight_one, show (x + 1) / 2 = x / 2 by omega]

/-! ## Accepted positions -/

section Accepted

variable [DecidableEq H] [ForestHash H] {expected : List (Node H)}

/-- Inside the rows, the verifier reaches a root only from nodes below it. -/
theorem verifyLoop_low (hle : numLeaves ≤ 2 ^ 62) {fuel : Nat} {computed provided : List (Node H)}
    (h : verifyLoop numLeaves (treeRows numLeaves) expected fuel computed provided = .ok true) :
    ∀ n ∈ computed ++ provided, n.1 < 2 ^ (treeRows numLeaves + 1) → IsNode numLeaves n.1 := by
  have h62 := treeRows_le_62 hle
  apply verifyLoop_all (fun n => n.1 < 2 ^ (treeRows numLeaves + 1) → IsNode numLeaves n.1) _ _ _ _ _ h
  · intro n hr _ _
    exact isNode_of_isRoot hle hr
  · intro a b _ heven hb hp
    rw [hb, or_one_even heven]
    refine ⟨fun ha => isNode_of_parent hle ha (hp (parent_lt_of_low h62 ha)), fun ha => ?_⟩
    apply isNode_of_parent hle ha
    rw [parent_succ_even heven]
    exact hp (parent_lt_of_low h62 (by omega))

/-- Past the last row a pair is popped with nothing computed before it, and its parent is popped next.
It cannot be a left half: its right half would come before the pair. So it is a root. -/
theorem verifyLoop_high (hle : numLeaves ≤ 2 ^ 62) (fuel : Nat) (computed provided : List (Node H))
    (hlow : ∀ x ∈ computed, x.1 < 2 ^ (treeRows numLeaves + 1))
    (hsorted : provided.Pairwise (fun a b => a.1 < b.1))
    (h : verifyLoop numLeaves (treeRows numLeaves) expected fuel computed provided = .ok true) :
    ∀ x ∈ provided, 2 ^ (treeRows numLeaves + 1) ≤ x.1 → RootAlias numLeaves x.1 := by
  have h62 := treeRows_le_62 hle
  have hpow : 2 ^ (treeRows numLeaves + 1) = 2 * 2 ^ treeRows numLeaves := pow_succ' 2 _
  induction fuel using Nat.strong_induction_on generalizing computed provided with
  | _ fuel ih =>
  cases fuel with
  | zero => cases h
  | succ fuel =>
  rcases verifyLoop_cases h with ⟨rfl, rfl⟩ | ⟨n, c, p, hn, hr, -, hrest⟩ |
    ⟨n, c, p, s, c', p', hn, hr, heven, hs, hpos, hrest⟩
  · simp
  · obtain ⟨hc, hp, hmem⟩ := nextNode_sub hn
    intro x hx hhigh
    rcases hmem x hx with rfl | hx
    · rw [isRootPosition_high h62 hhigh] at hr; cases hr
    · exact ih fuel (by omega) c p (fun y hy => hlow y (hc.subset hy)) (hsorted.sublist hp) hrest x hx hhigh
  rw [or_one_even heven] at hpos
  obtain ⟨hc, hp, hmem⟩ := nextNode_sub hn
  obtain ⟨hc', hp', hmem'⟩ := nextNode_sub hs
  have hlow' : ∀ y ∈ c', y.1 < 2 ^ (treeRows numLeaves + 1) := fun y hy => hlow y (hc.subset (hc'.subset hy))
  by_cases hnhigh : 2 ^ (treeRows numLeaves + 1) ≤ n.1
  · -- a pair past the last row
    obtain ⟨rfl, rfl, rfl⟩ := nextNode_high _ hlow hn hnhigh
    obtain ⟨-, rfl, rfl⟩ := nextNode_high 0 (by simp) hs (by omega)
    have hafter : ∀ y ∈ p', s.1 < y.1 := (List.pairwise_cons.mp (List.pairwise_cons.mp hsorted).2).1
    have hle_n := parent_le_of_high h62 hnhigh
    cases fuel with
    | zero => cases hrest
    | succ fuel =>
    have hpop : nextNode ([] ++ [(parent n.1 (treeRows numLeaves), parentHash n.2 s.2)]) p' =
        some ((parent n.1 (treeRows numLeaves), parentHash n.2 s.2), [], p') := by
      cases p' with
      | nil => rfl
      | cons q p' =>
        have := hafter q (by simp)
        rw [List.nil_append, nextNode, if_pos (by omega)]
    rcases verifyLoop_cases hrest with ⟨hnil, -⟩ | ⟨m, c, p, hm, hmr, -, hrest'⟩ |
      ⟨m, c, p, s', c', p'', hm, -, hmeven, hs', hspos, -⟩
    · simp at hnil
    · rw [hpop] at hm
      cases hm
      intro x hx hhigh
      simp only [List.mem_cons] at hx
      rcases hx with rfl | rfl | hx
      · exact ⟨hhigh, hmr⟩
      · exact ⟨hhigh, by rw [hpos, parent_succ_even heven]; exact hmr⟩
      · exact ih fuel (by omega) [] p' (by simp) (hsorted.sublist (by simp)) hrest' x hx hhigh
    · rw [hpop] at hm
      cases hm
      obtain ⟨-, -, rfl⟩ := nextNode_high 0 (by simp) hs' (by omega)
      have := hafter s' (by simp)
      rw [or_one_even hmeven] at hspos
      simp only at hspos
      omega
  · have hall := ih fuel (by omega) _ p' (by
        intro y hy
        rcases List.mem_append.mp hy with hy | hy
        · exact hlow' y hy
        · rw [List.mem_singleton.mp hy]; exact parent_lt_of_low h62 (by omega))
      (hsorted.sublist (hp'.trans hp)) hrest
    intro x hx hhigh
    rcases hmem x hx with rfl | hx
    · omega
    rcases hmem' x hx with rfl | hx
    · omega
    · exact hall x hx hhigh

variable {proof : Proof H} {targetHashes roots : List H}

/-- A target of an accepted proof is a node of the forest or aliases a child of a root. -/
theorem verifyProof_positions (hle : numLeaves ≤ 2 ^ 62)
    (h : verifyProof proof targetHashes roots numLeaves = .ok true) :
    ∀ t ∈ proof.targets, IsNode numLeaves t ∨ RootAlias numLeaves t := by
  intro t ht
  obtain ⟨hlen, -, hsorted, hloop⟩ := verifyProof_accepted h (List.ne_nil_of_mem ht)
  obtain ⟨i, hi, rfl⟩ := List.getElem_of_mem ht
  have hmem := target_mem_provided (i := i) hlen (proofPositions proof.targets numLeaves (treeRows numLeaves)) hi
  by_cases hhigh : 2 ^ (treeRows numLeaves + 1) ≤ proof.targets[i]
  · exact Or.inr (verifyLoop_high hle _ _ _ (by simp) hsorted hloop _ hmem hhigh)
  · exact Or.inl (verifyLoop_low hle hloop _ (by simpa using hmem) (by omega))

/-! ## The aliases are accepted -/

variable {t : Nat}

theorem not_isRoot_alias (hle : numLeaves ≤ 2 ^ 62) (ht : RootAlias numLeaves t) :
    isRootPosition t numLeaves (treeRows numLeaves) = false :=
  isRootPosition_high (treeRows_le_62 hle) ht.1

theorem closure_alias (hle : numLeaves ≤ 2 ^ 62) (ht : RootAlias numLeaves t) (x : Nat) :
    Closure numLeaves (treeRows numLeaves) [t] x ↔ x = t ∨ x = parent t (treeRows numLeaves) := by
  constructor
  · intro hx
    induction hx with
    | target h => exact Or.inl (by simpa using h)
    | parent _ hroot ih =>
      rcases ih with rfl | rfl
      · exact Or.inr rfl
      · rw [ht.2] at hroot; cases hroot
  · rintro (rfl | rfl)
    · exact .target (by simp)
    · exact .parent (.target (by simp)) (not_isRoot_alias hle ht)

theorem xor_one_lt_even {x k : Nat} (h : x < 2 * k) : x ^^^ 1 < 2 * k := by
  have := xor_one_div x
  omega

/-- The walk from an alias stops at the root after one step: one sibling is needed. -/
theorem proofPositions_alias (hle : numLeaves ≤ 2 ^ 62) (ht : RootAlias numLeaves t) (hword : t < 2 ^ 64) :
    proofPositions [t] numLeaves (treeRows numLeaves) = [t ^^^ 1] := by
  have hpow : 2 ^ (treeRows numLeaves + 1) = 2 * 2 ^ treeRows numLeaves := pow_succ' 2 _
  have hplow : parent t (treeRows numLeaves) < 2 ^ (treeRows numLeaves + 1) := by
    have := isNode_lt (isNode_of_isRoot hle ht.2)
    omega
  have hslow := xor_one_lt_even (hpow ▸ hplow)
  have hthigh := ht.1
  have hself := xor_one_ne (parent t (treeRows numLeaves))
  have halone : RootsAlone numLeaves (treeRows numLeaves) [t] := by
    intro x hx hroot hsib
    rcases (closure_alias hle ht x).mp hx with rfl | rfl
    · rw [not_isRoot_alias hle ht] at hroot; cases hroot
    · rcases (closure_alias hle ht _).mp hsib with h | h
      · omega
      · exact hself h
  apply eq_of_sorted_of_mem_iff (proofPositions_sorted _ _ _) (List.pairwise_singleton _ _)
  intro x
  rw [mem_proofPositions (by simpa using hword) halone, closure_alias hle ht, closure_alias hle ht, List.mem_singleton]
  constructor
  · rintro ⟨h | h, hroot, -⟩
    · rw [← h, xor_one_xor_one]
    · rw [h, ht.2] at hroot; cases hroot
  · rintro rfl
    rw [xor_one_xor_one]
    refine ⟨Or.inl rfl, not_isRoot_alias hle ht, ?_⟩
    rintro (h | h)
    · exact xor_one_ne t h
    · have h1 := xor_one_div t
      omega

theorem verifyLoop_pair (hle : numLeaves ≤ 2 ^ 62) {a : Nat} {v : H} (ha : RootAlias numLeaves a) (heven : a % 2 = 0)
    (hroot : expected.lookup (parent a (treeRows numLeaves)) = some (parentHash v v)) :
    verifyLoop numLeaves (treeRows numLeaves) expected 3 [] [(a, v), (a + 1, v)] = .ok true := by
  have hodd : ¬ a % 2 = 1 := by omega
  simp [verifyLoop, nextNode, not_isRoot_alias hle ha, ha.2, or_one_even heven, hroot, hodd]

omit [DecidableEq H] [ForestHash H] in
/-- With equal hashes on both sides of the pair, the order of its two nodes does not matter. -/
theorem providedNodes_pair (v : H) (t : Nat) :
    providedNodes ⟨[t], [v]⟩ [v] [t ^^^ 1] = [(t / 2 * 2, v), (t / 2 * 2 + 1, v)] := by
  rcases Nat.mod_two_eq_zero_or_one t with h | h
  · rw [xor_one_even h, show t / 2 * 2 = t by omega]
    simp [providedNodes, posLE]
  · rw [xor_one_odd h, show t / 2 * 2 = t - 1 by omega, show t - 1 + 1 = t by omega]
    have : ¬ t ≤ t - 1 := by omega
    simp [providedNodes, posLE, this]

theorem verifyProof_alias (hpos : 1 ≤ numLeaves) (hle : numLeaves ≤ 2 ^ 62) (ht : RootAlias numLeaves t)
    (hword : t < 2 ^ 64) (v : H) :
    verifyProof ⟨[t], [v]⟩ [v] ((setRows numLeaves (treeRows numLeaves)).map fun _ => parentHash v v) numLeaves =
      .ok true := by
  have hpow : 2 ^ (treeRows numLeaves + 1) = 2 * 2 ^ treeRows numLeaves := pow_succ' 2 _
  have hparent : parent (t / 2 * 2) (treeRows numLeaves) = parent t (treeRows numLeaves) := by
    rw [parent, parent, Nat.shiftRight_one, Nat.shiftRight_one, show t / 2 * 2 / 2 = t / 2 by omega]
  have heven : RootAlias numLeaves (t / 2 * 2) := by
    have := ht.1
    exact ⟨by omega, by rw [hparent]; exact ht.2⟩
  have hroot : ∃ row, numLeaves.testBit row ∧
      rootPosition numLeaves row (treeRows numLeaves) = parent t (treeRows numLeaves) := by
    have := ht.2
    simp only [isRootPosition, Bool.and_eq_true, beq_iff_eq] at this
    exact ⟨_, this.1, this.2⟩
  obtain ⟨row, hbit, hrow⟩ := hroot
  have hlookup := expectedRoots_lookup hle (fun _ => parentHash v v) hbit
  rw [hrow, ← hparent] at hlookup
  have hloop := verifyLoop_pair hle heven (by omega) hlookup
  unfold verifyProof
  simp only [proofPositions_alias hle ht hword, providedNodes_pair, List.length_map, setRows_length hle]
  rw [if_neg (by simp), if_neg (by simp), if_neg (by omega), if_neg (by simp), if_neg (by simp),
    if_neg (by simp [hasDuplicate])]
  exact hloop

variable (H) in
/-- **Positions.** For every leaf count and target position: every accepted proof with that target has a
node there, exactly when the position is no alias. -/
theorem accepted_target_isNode_iff (hpos : 1 ≤ numLeaves) (hle : numLeaves ≤ 2 ^ 62) (hword : t < 2 ^ 64) :
    (∀ (proof : Proof H) (targetHashes roots : List H),
      verifyProof proof targetHashes roots numLeaves = .ok true → t ∈ proof.targets → IsNode numLeaves t) ↔
      ¬ RootAlias numLeaves t := by
  constructor
  · intro h ht
    have hnode := h _ _ _ (verifyProof_alias hpos hle ht hword ForestHash.null) (by simp)
    have hlt := isNode_lt hnode
    have hge := ht.1
    omega
  · intro hno proof targetHashes roots haccept ht
    exact (verifyProof_positions hle haccept t ht).resolve_right hno

end Accepted

theorem accepted_target_isNode_iff_one :
    (∀ (proof : Proof TermHash) (targetHashes roots : List TermHash),
      verifyProof proof targetHashes roots 2 = .ok true → 1 ∈ proof.targets → IsNode 2 1) ∧ ¬ RootAlias 2 1 :=
  ⟨(accepted_target_isNode_iff TermHash (by decide) (by decide) (by decide)).mpr (by decide), by decide⟩

/-- Two leaves: position 4 stands for position 0, and the proof of leaf 0 is accepted there. -/
theorem alias_four_accepted :
    verifyProof ⟨[4], [.leaf 1]⟩ [.leaf 0] [TermHash.parent (.leaf 0) (.leaf 1)] 2 = .ok true ∧ ¬ IsNode 2 4 := by
  decide

end UtreexoBridge.Verify
