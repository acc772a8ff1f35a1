import UtreexoBridge.Position.Nodes
import UtreexoBridge.Verify.Spec

/-!
# What an accepted proof implies

Each node that the verifier takes from its queues is compared with a root or
becomes half of a computed parent, and it returns `Ok(true)` only with both
queues empty. So whatever holds of the roots and passes from a parent to its
children holds of every provided node.
-/

namespace UtreexoBridge.Verify

open Position

variable {H : Type}

/-! ## The queues -/

theorem nextNode_perm {computed provided : List (Node H)} {n : Node H} {c p : List (Node H)}
    (h : nextNode computed provided = some (n, c, p)) : (computed ++ provided).Perm (n :: (c ++ p)) := by
  unfold nextNode at h
  split at h
  · cases h
  · cases h; simp
  · cases h; simp
  · split at h
    · cases h; simp
    · cases h; exact List.perm_middle

theorem nextNode_mem {computed provided : List (Node H)} {n : Node H} {c p : List (Node H)}
    (h : nextNode computed provided = some (n, c, p)) (x : Node H) :
    x ∈ computed ++ provided ↔ x = n ∨ x ∈ c ++ p := by
  rw [(nextNode_perm h).mem_iff, List.mem_cons]

theorem nextNode_length {computed provided : List (Node H)} {n : Node H} {c p : List (Node H)}
    (h : nextNode computed provided = some (n, c, p)) :
    computed.length + provided.length = c.length + p.length + 1 := by
  have := (nextNode_perm h).length_eq
  simpa using this

theorem nextNode_none {computed provided : List (Node H)} (h : nextNode computed provided = none) :
    computed = [] ∧ provided = [] := by
  unfold nextNode at h
  split at h
  · exact ⟨rfl, rfl⟩
  · cases h
  · cases h
  · split at h <;> cases h

theorem nextNode_high (bound : Nat) {computed provided : List (Node H)} (hlow : ∀ x ∈ computed, x.1 < bound)
    {n : Node H} {c p : List (Node H)} (h : nextNode computed provided = some (n, c, p)) (hn : bound ≤ n.1) :
    computed = [] ∧ c = [] ∧ provided = n :: p := by
  unfold nextNode at h
  split at h
  · cases h
  · cases h; have := hlow n (by simp); omega
  · cases h; exact ⟨rfl, rfl, rfl⟩
  · rename_i c' _ p' _
    have := hlow c' (by simp)
    split at h
    · cases h; omega
    · cases h; omega

theorem nextNode_sub {computed provided : List (Node H)} {n : Node H} {c p : List (Node H)}
    (h : nextNode computed provided = some (n, c, p)) : c.Sublist computed ∧ p.Sublist provided ∧
      ∀ x ∈ provided, x = n ∨ x ∈ p := by
  unfold nextNode at h
  split at h
  · cases h
  · cases h; exact ⟨List.sublist_cons_self _ _, .refl _, by simp⟩
  · cases h; exact ⟨.refl _, List.sublist_cons_self _ _, by simp⟩
  · split at h
    · cases h; exact ⟨List.sublist_cons_self _ _, .refl _, fun x hx => Or.inr hx⟩
    · cases h; exact ⟨.refl _, List.sublist_cons_self _ _, by simp⟩

section Loop

variable [DecidableEq H] [ForestHash H] {numLeaves fr : Nat} {expected : List (Node H)}

theorem verifyLoop_cases {fuel : Nat} {computed provided : List (Node H)}
    (h : verifyLoop numLeaves fr expected (fuel + 1) computed provided = .ok true) :
    (computed = [] ∧ provided = []) ∨
    (∃ n c p, nextNode computed provided = some (n, c, p) ∧ isRootPosition n.1 numLeaves fr = true ∧
      expected.lookup n.1 = some n.2 ∧ verifyLoop numLeaves fr expected fuel c p = .ok true) ∨
    (∃ n c p s c' p', nextNode computed provided = some (n, c, p) ∧ isRootPosition n.1 numLeaves fr = false ∧
      n.1 % 2 = 0 ∧ nextNode c p = some (s, c', p') ∧ s.1 = n.1 ||| 1 ∧
      verifyLoop numLeaves fr expected fuel (c' ++ [(parent n.1 fr, parentHash n.2 s.2)]) p' = .ok true) := by
  rw [verifyLoop] at h
  split at h
  · exact Or.inl (nextNode_none (by assumption))
  · rename_i pos hash c p hnext
    right
    split at h
    · rename_i hroot
      split at h
      · exact Or.inl ⟨(pos, hash), c, p, hnext, hroot, by assumption, h⟩
      · cases h
    · rename_i hroot
      split at h
      · cases h
      · split at h
        · cases h
        · rename_i hodd _ spos shash c' p' hsib
          split at h
          · exact Or.inr ⟨(pos, hash), c, p, (spos, shash), c', p', hnext, by simpa using hroot, by omega, hsib,
              by assumption, h⟩
          · cases h

/-- The rule for properties of nodes that start at the roots and pass down. -/
theorem verifyLoop_all (ok : Node H → Prop)
    (hroot : ∀ n, isRootPosition n.1 numLeaves fr = true → expected.lookup n.1 = some n.2 → ok n)
    (hpair : ∀ a b : Node H, isRootPosition a.1 numLeaves fr = false → a.1 % 2 = 0 → b.1 = a.1 ||| 1 →
      ok (parent a.1 fr, parentHash a.2 b.2) → ok a ∧ ok b)
    (fuel : Nat) (computed provided : List (Node H))
    (h : verifyLoop numLeaves fr expected fuel computed provided = .ok true) :
    ∀ n ∈ computed ++ provided, ok n := by
  induction fuel generalizing computed provided with
  | zero => cases h
  | succ fuel ih =>
    rcases verifyLoop_cases h with ⟨rfl, rfl⟩ | ⟨n, c, p, hn, hr, hl, hrest⟩ |
      ⟨n, c, p, s, c', p', hn, hr, heven, hs, hpos, hrest⟩
    · simp
    · intro x hx
      rcases (nextNode_mem hn x).mp hx with rfl | hx
      · exact hroot x hr hl
      · exact ih c p hrest x hx
    · have hall := ih _ _ hrest
      have hparent : ok (parent n.1 fr, parentHash n.2 s.2) := hall _ (by simp)
      obtain ⟨h1, h2⟩ := hpair n s hr heven hpos hparent
      intro x hx
      rcases (nextNode_mem hn x).mp hx with rfl | hx
      · exact h1
      rcases (nextNode_mem hs x).mp hx with rfl | hx
      · exact h2
      · exact hall x (by simp only [List.mem_append] at hx ⊢; tauto)

/-- More fuel than nodes changes nothing: the loop has ended by then. -/
theorem verifyLoop_fuel {fuel more : Nat} {computed provided : List (Node H)}
    (h : computed.length + provided.length < fuel) :
    verifyLoop numLeaves fr expected (fuel + more) computed provided =
      verifyLoop numLeaves fr expected fuel computed provided := by
  induction fuel generalizing computed provided with
  | zero => omega
  | succ fuel ih =>
    rw [show fuel + 1 + more = fuel + more + 1 by omega, verifyLoop, verifyLoop]
    split
    · rfl
    · rename_i pos hash c p hnext
      have hlen := nextNode_length hnext
      rw [ih (by omega)]
      split
      · rfl
      split
      · rfl
      · split
        · rfl
        · rename_i spos shash c' p' hsib
          have hlen' := nextNode_length hsib
          rw [ih (by simp only [List.length_append, List.length_singleton]; omega)]

end Loop

/-! ## The provided nodes -/

instance : Std.Total (posLE (H := H)) := ⟨fun a b => Nat.le_total a.1 b.1⟩
instance : IsTrans (Node H) posLE := ⟨fun _ _ _ h1 h2 => Nat.le_trans h1 h2⟩

theorem providedNodes_perm (proof : Proof H) (targetHashes : List H) (positions : List Nat) :
    (providedNodes proof targetHashes positions).Perm
      (proof.targets.zip targetHashes ++ positions.zip proof.hashes) :=
  List.perm_insertionSort _ _

theorem strict_of_no_duplicate {l : List (Node H)} (hsorted : l.Pairwise posLE) (hdup : hasDuplicate l = false) :
    l.Pairwise (fun a b => a.1 < b.1) := by
  induction l with
  | nil => exact .nil
  | cons a l ih =>
    obtain ⟨hhead, htail⟩ := List.pairwise_cons.mp hsorted
    cases l with
    | nil => exact List.pairwise_singleton _ _
    | cons b l =>
      simp only [hasDuplicate, Bool.or_eq_false_iff, beq_eq_false_iff_ne] at hdup
      have hstrict := ih htail hdup.2
      have hab : a.1 < b.1 := lt_of_le_of_ne (hhead b (by simp)) hdup.1
      refine List.pairwise_cons.mpr ⟨?_, hstrict⟩
      intro x hx
      rcases List.mem_cons.mp hx with rfl | hx
      · exact hab
      · exact lt_trans hab ((List.pairwise_cons.mp hstrict).1 x hx)

section Accepted

variable [DecidableEq H] [ForestHash H] {proof : Proof H} {targetHashes roots : List H} {numLeaves : Nat}

theorem verifyProof_accepted (h : verifyProof proof targetHashes roots numLeaves = .ok true)
    (hne : proof.targets ≠ []) :
    let fr := treeRows numLeaves
    let positions := proofPositions proof.targets numLeaves fr
    let provided := providedNodes proof targetHashes positions
    proof.targets.length = targetHashes.length ∧ positions.length = proof.hashes.length ∧
      provided.Pairwise (fun a b => a.1 < b.1) ∧
      verifyLoop numLeaves fr (expectedRoots roots numLeaves fr) (provided.length + 1) [] provided = .ok true := by
  unfold verifyProof at h
  dsimp only at h
  rw [if_neg hne] at h
  split_ifs at h with h1 h2 h3 h4 h5
  simp only [ne_eq, not_not] at h1 h4
  refine ⟨h1, h4, strict_of_no_duplicate ?_ (by simpa using h5), h⟩
  exact List.pairwise_insertionSort _ _

omit [DecidableEq H] [ForestHash H] in
theorem target_mem_provided (hlen : proof.targets.length = targetHashes.length) (positions : List Nat) {i : Nat}
    (hi : i < proof.targets.length) :
    (proof.targets[i], targetHashes[i]) ∈ providedNodes proof targetHashes positions := by
  rw [(providedNodes_perm _ _ _).mem_iff, List.mem_append]
  left
  have hz : i < (proof.targets.zip targetHashes).length := by rw [List.length_zip]; omega
  have := List.getElem_mem hz
  rwa [List.getElem_zip] at this

omit [DecidableEq H] [ForestHash H] in
theorem expectedRoots_value_mem {roots : List H} {numLeaves fr pos : Nat} {h : H}
    (hl : (expectedRoots roots numLeaves fr).lookup pos = some h) : h ∈ roots := by
  obtain ⟨l1, l2, heq, -⟩ := List.lookup_eq_some_iff.mp hl
  have hmem : (pos, h) ∈ expectedRoots roots numLeaves fr := by rw [heq]; simp
  simp only [expectedRoots, List.mem_map, Prod.mk.injEq] at hmem
  obtain ⟨⟨row, r⟩, hz, -, rfl⟩ := hmem
  exact (List.of_mem_zip hz).2

/-- **Hashes.** A property of hashes that the roots have and that passes from a parent hash to both
halves is a property of every target hash of an accepted proof. -/
theorem verifyProof_hashes (ok : H → Prop) (hroots : ∀ r ∈ roots, ok r)
    (hpair : ∀ a b : H, ok (parentHash a b) → ok a ∧ ok b)
    (h : verifyProof proof targetHashes roots numLeaves = .ok true) : ∀ t ∈ targetHashes, ok t := by
  intro t ht
  by_cases hne : proof.targets = []
  · unfold verifyProof at h
    split_ifs at h with h1
    simp only [ne_eq, not_not, hne, List.length_nil] at h1
    rw [List.eq_nil_of_length_eq_zero h1.symm] at ht
    cases ht
  obtain ⟨hlen, -, -, hloop⟩ := verifyProof_accepted h hne
  have hall := verifyLoop_all (fun n => ok n.2)
    (fun n _ hl => hroots _ (expectedRoots_value_mem hl)) (fun a b _ _ _ hp => hpair a.2 b.2 hp) _ _ _ hloop
  obtain ⟨i, hi, rfl⟩ := List.getElem_of_mem ht
  exact hall _ (by simpa using target_mem_provided (i := i) hlen _ (by omega))

end Accepted

end UtreexoBridge.Verify
