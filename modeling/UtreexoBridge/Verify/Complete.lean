import UtreexoBridge.Verify.Roots
import UtreexoBridge.Verify.Sound

/-!
# The verifier accepts what belongs together

The two queues hold a frontier: every position above it that is no root has its
sibling above it too, and no node of the frontier lies above another. The loop
then always finds the two children next to each other.
-/

namespace UtreexoBridge

open Position

namespace Position

variable {leaves x y : Nat}

theorem lt_parent (hle : leaves ≤ 2 ^ 62) (hx : IsNode leaves x)
    (hroot : isRootPosition x leaves (treeRows leaves) = false) : x < parent x (treeRows leaves) := by
  have hfr := treeRows_le_62 hle
  obtain ⟨r, o, hr, ho, rfl⟩ := (isNode_iff _ _).mp hx
  have hpow := offset_lt_pow (le_two_pow_treeRows leaves) hr ho
  have hup := row_lt_of_half hr (half_offset_lt hle hr ho hroot)
  rw [parent_rowPos (by omega) hr hpow, rowPos, rowPos]
  have h1 := rowStart_add (treeRows leaves) r (by omega)
  have h2 := rowStart_add (treeRows leaves) (r + 1) (by omega)
  have h3 := pow_row_succ hr
  rw [show treeRows leaves + 1 - (r + 1) = treeRows leaves - r by omega] at h2
  omega

theorem parent_node (hle : leaves ≤ 2 ^ 62) (hx : IsNode leaves x) :
    parent x (treeRows leaves) = x / 2 + 2 ^ treeRows leaves := by
  have := isNode_lt hx
  have := treeRows_le_62 hle
  exact parent_eq (by omega) (by omega)

theorem parent_mono (hle : leaves ≤ 2 ^ 62) (hx : IsNode leaves x) (hy : IsNode leaves y) (hxy : x ≤ y) :
    parent x (treeRows leaves) ≤ parent y (treeRows leaves) := by
  rw [parent_node hle hx, parent_node hle hy]
  omega

theorem parent_sibling (hle : leaves ≤ 2 ^ 62) (hx : IsNode leaves x) (hs : IsNode leaves (x ^^^ 1)) :
    parent (x ^^^ 1) (treeRows leaves) = parent x (treeRows leaves) := by
  rw [parent_node hle hx, parent_node hle hs, xor_one_div]

theorem eq_or_sibling_of_parent (hle : leaves ≤ 2 ^ 62) (hx : IsNode leaves x) (hy : IsNode leaves y)
    (h : parent x (treeRows leaves) = parent y (treeRows leaves)) : x = y ∨ x = y ^^^ 1 := by
  rw [parent_node hle hx, parent_node hle hy] at h
  rcases Nat.mod_two_eq_zero_or_one y with he | ho
  · rw [xor_one_even he]
    omega
  · rw [xor_one_odd ho]
    omega

theorem sibling_not_root (hle : leaves ≤ 2 ^ 62) (hx : IsNode leaves x) :
    isRootPosition (x ^^^ 1) leaves (treeRows leaves) = false := by
  by_contra h
  rw [Bool.not_eq_false] at h
  apply not_isNode_root_sibling hle (isNode_of_isRoot hle h) h
  rwa [xor_one_xor_one]

/-! ## Positions above a frontier -/

variable {targets targets' : List Nat}

theorem Closure.trans {fr : Nat} (hsub : ∀ t ∈ targets, Closure leaves fr targets' t)
    (h : Closure leaves fr targets x) : Closure leaves fr targets' x := by
  induction h with
  | target ht => exact hsub _ ht
  | parent _ hroot ih => exact .parent ih hroot

theorem Closure.ge (hle : leaves ≤ 2 ^ 62) (hnodes : ∀ t ∈ targets, IsNode leaves t) {m : Nat}
    (hm : ∀ t ∈ targets, m ≤ t) (h : Closure leaves (treeRows leaves) targets x) : m ≤ x := by
  induction h with
  | target ht => exact hm _ ht
  | parent h hroot ih => exact le_of_lt (lt_of_le_of_lt ih (lt_parent hle (isNode_closure hle hnodes h) hroot))

/-- The shape of a frontier. -/
structure Cut (leaves : Nat) (targets : List Nat) : Prop where
  node : ∀ x ∈ targets, IsNode leaves x
  sibling : ∀ x, Closure leaves (treeRows leaves) targets x → isRootPosition x leaves (treeRows leaves) = false →
    Closure leaves (treeRows leaves) targets (x ^^^ 1)
  antichain : ∀ x, Closure leaves (treeRows leaves) targets x → isRootPosition x leaves (treeRows leaves) = false →
    parent x (treeRows leaves) ∉ targets

namespace Cut

variable {m : Nat} {rest : List Nat}

theorem perm (h : Cut leaves targets) (hp : targets.Perm targets') : Cut leaves targets' := by
  have hsame : ∀ {x}, Closure leaves (treeRows leaves) targets' x → Closure leaves (treeRows leaves) targets x :=
    fun hx => hx.trans fun t ht => .target (hp.mem_iff.mpr ht)
  refine ⟨fun x hx => h.node x (hp.mem_iff.mpr hx), fun x hx hroot => ?_, fun x hx hroot hmem => ?_⟩
  · exact (h.sibling x (hsame hx) hroot).trans fun t ht => .target (hp.mem_iff.mp ht)
  · exact h.antichain x (hsame hx) hroot (hp.mem_iff.mpr hmem)

theorem dropRoot (hle : leaves ≤ 2 ^ 62) (h : Cut leaves (m :: rest))
    (hroot : isRootPosition m leaves (treeRows leaves) = true) : Cut leaves rest := by
  have hdown : ∀ {x}, Closure leaves (treeRows leaves) rest x → Closure leaves (treeRows leaves) (m :: rest) x :=
    fun hx => hx.trans fun t ht => .target (by simp [ht])
  have hup : ∀ {x}, Closure leaves (treeRows leaves) (m :: rest) x →
      x = m ∨ Closure leaves (treeRows leaves) rest x := by
    intro x hx
    induction hx with
    | target ht => exact (List.mem_cons.mp ht).imp_right .target
    | parent _ hnot ih =>
      rcases ih with rfl | ih
      · rw [hroot] at hnot; cases hnot
      · exact Or.inr (.parent ih hnot)
  have hnodes : ∀ t ∈ rest, IsNode leaves t := fun t ht => h.node t (by simp [ht])
  refine ⟨hnodes, fun x hx hnot => (hup (h.sibling x (hdown hx) hnot)).resolve_left fun he => ?_, fun x hx hnot hmem => ?_⟩
  · apply not_isNode_root_sibling hle (isNode_of_isRoot hle hroot) hroot
    rw [← he, xor_one_xor_one]
    exact isNode_closure hle hnodes hx
  · exact h.antichain x (hdown hx) hnot (by simp [hmem])

section Pair

variable (hle : leaves ≤ 2 ^ 62) (h : Cut leaves (m :: rest))
  (hroot : isRootPosition m leaves (treeRows leaves) = false) (hmin : ∀ x ∈ rest, m < x)
include hle h hroot hmin

/-- The least node of the frontier is a left child, and its sibling is in the frontier. -/
theorem least : m % 2 = 0 ∧ m ^^^ 1 ∈ rest := by
  have hge : ∀ {x}, Closure leaves (treeRows leaves) (m :: rest) x → m ≤ x := by
    intro x
    apply Closure.ge hle h.node
    intro t ht
    rcases List.mem_cons.mp ht with rfl | ht
    · exact le_refl _
    · exact le_of_lt (hmin t ht)
  have hself : Closure leaves (treeRows leaves) (m :: rest) m := .target (by simp)
  have hsib := h.sibling m hself hroot
  have heven : m % 2 = 0 := by
    by_contra hodd
    have := hge hsib
    rw [xor_one_odd (by omega)] at this
    omega
  refine ⟨heven, ?_⟩
  rw [xor_one_even heven] at hsib ⊢
  generalize hz : m + 1 = z at hsib
  cases hsib with
  | target ht =>
    rcases List.mem_cons.mp ht with rfl | ht
    · omega
    · exact ht
  | @parent x hx hnot =>
    -- a child of `m + 1` is smaller, so it is `m` itself, but the parent of `m` is above `m + 1`
    have hnode := isNode_closure hle h.node hx
    have hlt := lt_parent hle hnode hnot
    have hxm : x = m := by have := hge hx; omega
    subst hxm
    have hsibling := isNode_sibling hle hnode hnot
    have := lt_parent hle hsibling (sibling_not_root hle hnode)
    rw [parent_sibling hle hnode hsibling, xor_one_even heven] at this
    omega

theorem pair (rest' : List Nat) (hp : rest.Perm ((m ^^^ 1) :: rest')) (hmin' : ∀ x ∈ rest', m ^^^ 1 < x) :
    Cut leaves (parent m (treeRows leaves) :: rest') := by
  obtain ⟨heven, -⟩ := h.least hle hroot hmin
  have hm := h.node m (by simp)
  have hsib : IsNode leaves (m ^^^ 1) := h.node _ (by simp [hp.mem_iff])
  have hsame := parent_sibling hle hm hsib
  have habove : m ^^^ 1 < parent m (treeRows leaves) := by
    rw [← hsame]
    exact lt_parent hle hsib (sibling_not_root hle hm)
  have hself : Closure leaves (treeRows leaves) (m :: rest) m := .target (by simp)
  have hdown : ∀ {x}, Closure leaves (treeRows leaves) (parent m (treeRows leaves) :: rest') x →
      Closure leaves (treeRows leaves) (m :: rest) x := by
    intro x hx
    apply hx.trans
    intro t ht
    rcases List.mem_cons.mp ht with rfl | ht
    · exact .parent hself hroot
    · exact .target (by simp [hp.mem_iff, ht])
  have hup : ∀ {x}, Closure leaves (treeRows leaves) (m :: rest) x →
      (x = m ∨ x = m ^^^ 1) ∨ Closure leaves (treeRows leaves) (parent m (treeRows leaves) :: rest') x := by
    intro x hx
    induction hx with
    | target ht =>
      rw [List.mem_cons, hp.mem_iff, List.mem_cons] at ht
      rcases ht with rfl | rfl | ht
      · exact Or.inl (Or.inl rfl)
      · exact Or.inl (Or.inr rfl)
      · exact Or.inr (.target (by simp [ht]))
    | parent _ hnot ih =>
      rcases ih with (rfl | rfl) | ih
      · exact Or.inr (.target (by simp))
      · exact Or.inr (.target (by simp [hsame]))
      · exact Or.inr (.parent ih hnot)
  have hnodes : ∀ t ∈ parent m (treeRows leaves) :: rest', IsNode leaves t := by
    intro t ht
    rcases List.mem_cons.mp ht with rfl | ht
    · exact isNode_parent hle hm hroot
    · exact h.node t (by simp [hp.mem_iff, ht])
  have hgt : ∀ {x}, Closure leaves (treeRows leaves) (parent m (treeRows leaves) :: rest') x → m ^^^ 1 < x := by
    intro x
    apply Closure.ge hle hnodes
    intro t ht
    rcases List.mem_cons.mp ht with rfl | ht
    · exact habove
    · exact hmin' t ht
  have hne : ∀ {x}, Closure leaves (treeRows leaves) (parent m (treeRows leaves) :: rest') x →
      ¬ (x = m ∨ x = m ^^^ 1) := by
    rintro x hx (rfl | rfl)
    · have := hgt hx
      rw [xor_one_even heven] at this
      omega
    · exact lt_irrefl _ (hgt hx)
  refine ⟨hnodes, fun x hx hnot => (hup (h.sibling x (hdown hx) hnot)).resolve_left ?_, fun x hx hnot hmem => ?_⟩
  · rintro (he | he)
    · exact hne hx (Or.inr (by rw [← he, xor_one_xor_one]))
    · exact hne hx (Or.inl (by rw [← xor_one_xor_one x, he, xor_one_xor_one]))
  · rcases List.mem_cons.mp hmem with he | hmem
    · exact hne hx (eq_or_sibling_of_parent hle (isNode_closure hle hnodes hx) hm he)
    · exact h.antichain x (hdown hx) hnot (by simp [hp.mem_iff, hmem])

end Pair

end Cut

end Position

namespace Verify

variable {H : Type}

/-! ## The queues -/

/-- Both queues ascend and share no position. -/
structure Queues (computed provided : List (Node H)) : Prop where
  sortedComputed : computed.Pairwise fun a b => a.1 < b.1
  sortedProvided : provided.Pairwise fun a b => a.1 < b.1
  disjoint : ∀ c ∈ computed, ∀ p ∈ provided, c.1 ≠ p.1

theorem nextNode_least {computed provided c p : List (Node H)} {n : Node H} (hq : Queues computed provided)
    (h : nextNode computed provided = some (n, c, p)) : Queues c p ∧ ∀ x ∈ c ++ p, n.1 < x.1 := by
  obtain ⟨hc, hp, hdis⟩ := hq
  match computed, provided with
  | [], [] => cases h
  | a :: computed, [] =>
    cases h
    exact ⟨⟨hc.of_cons, hp, by simp⟩, fun x hx => List.rel_of_pairwise_cons hc (by simpa using hx)⟩
  | [], b :: provided =>
    cases h
    exact ⟨⟨hc, hp.of_cons, by simp⟩, fun x hx => List.rel_of_pairwise_cons hp (by simpa using hx)⟩
  | a :: computed, b :: provided =>
    have hab := hdis a (by simp) b (by simp)
    rw [nextNode] at h
    split_ifs at h with hlt
    · cases h
      refine ⟨⟨hc.of_cons, hp, fun x hx => hdis x (by simp [hx])⟩, fun x hx => ?_⟩
      rcases List.mem_append.mp hx with hx | hx
      · exact List.rel_of_pairwise_cons hc hx
      · rcases List.mem_cons.mp hx with rfl | hx
        · exact hlt
        · exact hlt.trans (List.rel_of_pairwise_cons hp hx)
    · cases h
      refine ⟨⟨hc, hp.of_cons, fun x hx y hy => hdis x hx y (by simp [hy])⟩, fun x hx => ?_⟩
      rcases List.mem_append.mp hx with hx | hx
      · have hba : n.1 < a.1 := by omega
        rcases List.mem_cons.mp hx with rfl | hx
        · exact hba
        · exact hba.trans (List.rel_of_pairwise_cons hc hx)
      · exact List.rel_of_pairwise_cons hp hx

section Accept

variable [DecidableEq H] [ForestHash H]

/-- What is true of the nodes: `good pos h` says that `h` is the hash at `pos`. -/
structure Hashing (numLeaves : Nat) (expected : List (Node H)) (good : Nat → H → Prop) : Prop where
  root : ∀ x h, good x h → isRootPosition x numLeaves (treeRows numLeaves) = true → expected.lookup x = some h
  pair : ∀ x a b, x % 2 = 0 → good x a → good (x ^^^ 1) b → isRootPosition x numLeaves (treeRows numLeaves) = false →
    good (parent x (treeRows numLeaves)) (parentHash a b)

/-- The invariant of the verifier's loop. -/
structure Frontier (numLeaves : Nat) (good : Nat → H → Prop) (computed provided : List (Node H)) : Prop where
  queues : Queues computed provided
  hashes : ∀ n ∈ computed ++ provided, good n.1 n.2
  cut : Cut numLeaves ((computed ++ provided).map (·.1))
  /-- Computed nodes are parents of nodes already taken. -/
  low : ∀ c ∈ computed, ∀ y ∈ computed ++ provided, c.1 ≤ parent y.1 (treeRows numLeaves)

variable {numLeaves : Nat} {expected : List (Node H)} {good : Nat → H → Prop} {computed provided c p : List (Node H)}
  {n : Node H}

omit [DecidableEq H] [ForestHash H] in
theorem Frontier.drop (hle : numLeaves ≤ 2 ^ 62) (h : Frontier numLeaves good computed provided)
    (hnext : nextNode computed provided = some (n, c, p))
    (hroot : isRootPosition n.1 numLeaves (treeRows numLeaves) = true) : Frontier numLeaves good c p := by
  have hperm := nextNode_perm hnext
  obtain ⟨hc, -, -⟩ := nextNode_sub hnext
  have hmem : ∀ x ∈ c ++ p, x ∈ computed ++ provided := fun x hx => hperm.mem_iff.mpr (by simp only [List.mem_cons, hx, or_true])
  refine ⟨(nextNode_least h.queues hnext).1, fun x hx => h.hashes x (hmem x hx), ?_,
    fun x hx y hy => h.low x (hc.subset hx) y (hmem y hy)⟩
  exact (h.cut.perm (hperm.map (·.1))).dropRoot hle hroot

omit [DecidableEq H] in
theorem Frontier.join (hle : numLeaves ≤ 2 ^ 62) (hh : Hashing numLeaves expected good)
    (h : Frontier numLeaves good computed provided) (hnext : nextNode computed provided = some (n, c, p))
    (hroot : isRootPosition n.1 numLeaves (treeRows numLeaves) = false) :
    n.1 % 2 = 0 ∧ ∃ s c' p', nextNode c p = some (s, c', p') ∧ s.1 = n.1 ||| 1 ∧
      Frontier numLeaves good (c' ++ [(parent n.1 (treeRows numLeaves), parentHash n.2 s.2)]) p' := by
  have hperm := nextNode_perm hnext
  obtain ⟨hq, hmin⟩ := nextNode_least h.queues hnext
  have hcut := h.cut.perm (hperm.map (·.1))
  rw [List.map_cons] at hcut
  have hmin' : ∀ x ∈ (c ++ p).map (·.1), n.1 < x := List.forall_mem_map.mpr hmin
  obtain ⟨heven, hsib⟩ := hcut.least hle hroot hmin'
  refine ⟨heven, ?_⟩
  cases hs : nextNode c p with
  | none =>
    obtain ⟨rfl, rfl⟩ := nextNode_none hs
    cases hsib
  | some q =>
    obtain ⟨s, c', p'⟩ := q
    have hperm' := nextNode_perm hs
    obtain ⟨hq', hleast⟩ := nextNode_least hq hs
    have hspos : s.1 = n.1 ^^^ 1 := by
      obtain ⟨y, hy, hy1⟩ := List.mem_map.mp hsib
      have hsn := hmin s (hperm'.mem_iff.mpr (by simp))
      rw [xor_one_even heven] at hy1 ⊢
      rcases List.mem_cons.mp (hperm'.mem_iff.mp hy) with rfl | hy
      · exact hy1
      · have := hleast y hy
        omega
    have hmemR : ∀ x ∈ n :: s :: (c' ++ p'), x ∈ computed ++ provided := by
      intro x hx
      apply hperm.mem_iff.mpr
      rcases List.mem_cons.mp hx with rfl | hx
      · simp
      · exact List.mem_cons_of_mem _ (hperm'.mem_iff.mpr hx)
    obtain ⟨hc, -, -⟩ := nextNode_sub hnext
    obtain ⟨hc', -, -⟩ := nextNode_sub hs
    have hnew : ∀ y ∈ c' ++ p', y.1 ≠ parent n.1 (treeRows numLeaves) := by
      intro y hy he
      apply hcut.antichain n.1 (.target (by simp)) hroot
      rw [← he, List.mem_cons]
      exact Or.inr (List.mem_map.mpr ⟨y, hperm'.mem_iff.mpr (List.mem_cons_of_mem _ hy), rfl⟩)
    have hlow : ∀ x ∈ c', x.1 ≤ parent n.1 (treeRows numLeaves) := fun x hx =>
      h.low x (hc.subset (hc'.subset hx)) n (hmemR n (by simp))
    have hpair := hcut.pair hle hroot hmin' ((c' ++ p').map (·.1))
      (by rw [← hspos]; exact hperm'.map (·.1)) (by rw [← hspos]; exact List.forall_mem_map.mpr hleast)
    refine ⟨s, c', p', rfl, ?_, ?_, ?_, ?_, ?_⟩
    · rw [hspos, xor_one_even heven, or_one_even heven]
    · refine ⟨List.pairwise_append.mpr ⟨hq'.sortedComputed, by simp, fun x hx y hy => ?_⟩, hq'.sortedProvided, fun x hx y hy => ?_⟩
      · rw [List.mem_singleton.mp hy]
        exact lt_of_le_of_ne (hlow x hx) (hnew x (List.mem_append_left _ hx))
      · rcases List.mem_append.mp hx with hx | hx
        · exact hq'.disjoint x hx y hy
        · rw [List.mem_singleton.mp hx]
          exact (hnew y (List.mem_append_right _ hy)).symm
    · intro x hx
      rw [List.append_assoc, List.mem_append, List.singleton_append, List.mem_cons] at hx
      rcases hx with hx | rfl | hx
      · exact h.hashes x (hmemR x (by simp [hx]))
      · exact hh.pair _ _ _ heven (h.hashes n (hmemR n (by simp)))
          (by rw [← hspos]; exact h.hashes s (hmemR s (by simp))) hroot
      · exact h.hashes x (hmemR x (by simp [hx]))
    · refine hpair.perm ?_
      rw [List.append_assoc, List.map_append, List.map_append, List.singleton_append, List.map_cons]
      exact List.perm_middle.symm
    · have hnode : ∀ y ∈ computed ++ provided, IsNode numLeaves y.1 := fun y hy =>
        h.cut.node y.1 (List.mem_map.mpr ⟨y, hy, rfl⟩)
      have hnn := hnode n (hmemR n (by simp))
      have hparent := isNode_parent hle hnn hroot
      -- every node still queued is above `n`, so its parent is not below the new one
      have hupper : ∀ y ∈ c' ++ p', parent n.1 (treeRows numLeaves) ≤ parent y.1 (treeRows numLeaves) := by
        intro y hy
        have hy' : y ∈ c ++ p := hperm'.mem_iff.mpr (List.mem_cons_of_mem _ hy)
        exact parent_mono hle hnn (hnode y (hmemR y (by simp only [List.mem_cons, hy, or_true])))
          (le_of_lt (hmin y hy'))
      have hmono : parent n.1 (treeRows numLeaves) ≤ parent (parent n.1 (treeRows numLeaves)) (treeRows numLeaves) := by
        rw [parent_node hle hparent]
        have := isNode_lt hparent
        omega
      intro x hx y hy
      have hxle : x.1 ≤ parent n.1 (treeRows numLeaves) := by
        rcases List.mem_append.mp hx with hx | hx
        · exact hlow x hx
        · rw [List.mem_singleton.mp hx]
      rw [List.append_assoc, List.mem_append, List.singleton_append, List.mem_cons] at hy
      rcases hy with hy | rfl | hy
      · exact hxle.trans (hupper y (List.mem_append_left _ hy))
      · exact hxle.trans hmono
      · exact hxle.trans (hupper y (List.mem_append_right _ hy))

theorem verifyLoop_accepts (hle : numLeaves ≤ 2 ^ 62) (hh : Hashing numLeaves expected good) (fuel : Nat)
    (computed provided : List (Node H)) (h : Frontier numLeaves good computed provided)
    (hfuel : computed.length + provided.length < fuel) :
    verifyLoop numLeaves (treeRows numLeaves) expected fuel computed provided = .ok true := by
  induction fuel generalizing computed provided with
  | zero => omega
  | succ fuel ih =>
    rw [verifyLoop]
    cases hnext : nextNode computed provided with
    | none => rfl
    | some q =>
      obtain ⟨⟨pos, hash⟩, c, p⟩ := q
      have hlen := nextNode_length hnext
      simp only
      cases hroot : isRootPosition pos numLeaves (treeRows numLeaves) with
      | true =>
        have hgood := h.hashes (pos, hash) ((nextNode_mem hnext _).mpr (Or.inl rfl))
        rw [if_pos rfl, if_pos (hh.root pos hash hgood hroot)]
        exact ih c p (h.drop hle hnext hroot) (by omega)
      | false =>
        obtain ⟨heven, ⟨s1, s2⟩, c', p', hs, hspos, hfr⟩ := h.join hle hh hnext hroot
        have hlen' := nextNode_length hs
        simp only at heven hspos
        rw [if_neg (by simp), if_neg (by omega), hs]
        simp only [hspos, if_true]
        exact ih _ _ hfr (by simp; omega)

end Accept

end Verify

end UtreexoBridge
