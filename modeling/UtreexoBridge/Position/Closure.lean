import Mathlib.Data.Finset.Card
import Mathlib.Data.Finset.Prod
import Mathlib.Logic.Function.Iterate
import UtreexoBridge.Position.Rows

/-!
# What `ProofPositions` computes

The loop walks the upward closure of the targets. It stops for every list of
`uint64_t` targets, and on node positions it collects exactly the siblings that
the closure lacks.
-/

namespace UtreexoBridge.Position

/-- The targets and their ancestors, up to a root. -/
inductive Closure (leaves fr : Nat) (targets : List Nat) : Nat → Prop
  | target {t : Nat} (h : t ∈ targets) : Closure leaves fr targets t
  | parent {x : Nat} (h : Closure leaves fr targets x) (hroot : isRootPosition x leaves fr = false) :
      Closure leaves fr targets (parent x fr)

/-! ## Termination -/

theorem testBit_parent (fr x j : Nat) :
    (parent x fr).testBit j = (x.testBit (j + 1) || (shl 1 fr).testBit j) := by
  rw [parent, Nat.testBit_or, Nat.testBit_shiftRight, Nat.add_comm]

theorem testBit_iterate_parent (fr x : Nat) (k j : Nat) :
    ((parent · fr)^[k] x).testBit j = true ↔
      x.testBit (j + k) = true ∨ ∃ i < k, (shl 1 fr).testBit (j + i) = true := by
  induction k generalizing j with
  | zero => simp
  | succ k ih =>
    rw [Function.iterate_succ_apply', testBit_parent, Bool.or_eq_true, ih]
    constructor
    · rintro ((h | ⟨i, hi, h⟩) | h)
      · left; rwa [show j + (k + 1) = j + 1 + k by omega]
      · right; exact ⟨i + 1, by omega, by rwa [show j + (i + 1) = j + 1 + i by omega]⟩
      · right; exact ⟨0, by omega, by simpa using h⟩
    · rintro (h | ⟨i, hi, h⟩)
      · left; left; rwa [show j + 1 + k = j + (k + 1) by omega]
      · cases i with
        | zero => right; simpa using h
        | succ i => left; right; exact ⟨i, by omega, by rwa [show j + 1 + i = j + (i + 1) by omega]⟩

theorem testBit_of_lt_word {a j : Nat} (h : a < 2 ^ 64) (hj : 64 ≤ j) : a.testBit j = false :=
  Nat.testBit_lt_two_pow (lt_of_lt_of_le h (Nat.pow_le_pow_right (by omega) hj))

/-- After 64 steps the ancestor chain of a `uint64_t` stands still. -/
theorem iterate_parent_fixed (fr : Nat) {x : Nat} (hx : x < 2 ^ 64) :
    (parent · fr)^[65] x = (parent · fr)^[64] x := by
  have htop : shl 1 fr < 2 ^ 64 := Nat.mod_lt _ (by omega)
  apply Nat.eq_of_testBit_eq
  intro j
  apply Bool.eq_iff_iff.mpr
  rw [testBit_iterate_parent, testBit_iterate_parent, testBit_of_lt_word hx (by omega),
    testBit_of_lt_word hx (by omega)]
  simp only [Bool.false_eq_true, false_or]
  constructor
  · rintro ⟨i, hi, h⟩
    refine ⟨i, ?_, h⟩
    by_contra hge
    rw [testBit_of_lt_word htop (by omega)] at h
    simp at h
  · rintro ⟨i, hi, h⟩; exact ⟨i, by omega, h⟩

/-- Everything the loop can ever put into `known`. -/
def reachable (fr : Nat) (targets : List Nat) : Finset Nat :=
  (targets.toFinset ×ˢ Finset.range 65).image fun p => (parent · fr)^[p.2] p.1

theorem target_mem_reachable (fr : Nat) {targets : List Nat} {t : Nat} (h : t ∈ targets) :
    t ∈ reachable fr targets := by
  simp only [reachable, Finset.mem_image, Finset.mem_product, List.mem_toFinset, Finset.mem_range]
  exact ⟨(t, 0), ⟨h, by omega⟩, rfl⟩

theorem parent_mem_reachable (fr : Nat) {targets : List Nat} (hlt : ∀ t ∈ targets, t < 2 ^ 64) {x : Nat}
    (h : x ∈ reachable fr targets) : parent x fr ∈ reachable fr targets := by
  simp only [reachable, Finset.mem_image, Finset.mem_product, List.mem_toFinset, Finset.mem_range] at h ⊢
  obtain ⟨⟨t, k⟩, ⟨ht, hk⟩, rfl⟩ := h
  simp only at ht hk
  have hsucc : parent ((parent · fr)^[k] t) fr = (parent · fr)^[k + 1] t :=
    (Function.iterate_succ_apply' (parent · fr) k t).symm
  by_cases hlast : k = 64
  · subst hlast
    exact ⟨(t, 64), ⟨ht, by omega⟩, by rw [hsucc, ← iterate_parent_fixed fr (hlt t ht)]⟩
  · exact ⟨(t, k + 1), ⟨ht, by omega⟩, hsucc.symm⟩

theorem card_reachable_sdiff (fr : Nat) (targets : List Nat) :
    (reachable fr targets \ targets.toFinset).card ≤ targets.length * 65 := by
  calc (reachable fr targets \ targets.toFinset).card
      ≤ (reachable fr targets).card := Finset.card_le_card Finset.sdiff_subset
    _ ≤ (targets.toFinset ×ˢ Finset.range 65).card := Finset.card_image_le
    _ = targets.toFinset.card * 65 := by rw [Finset.card_product, Finset.card_range]
    _ ≤ targets.length * 65 := Nat.mul_le_mul_right _ (List.toFinset_card_le targets)

/-! ### One iteration -/

theorem proofStep_root {leaves fr pos : Nat} (h : isRootPosition pos leaves fr = true) (w : ProofWalk) :
    proofStep leaves fr pos w = w := by
  rw [proofStep, if_pos h]

theorem proofStep_inner {leaves fr pos : Nat} (h : isRootPosition pos leaves fr = false) (w : ProofWalk) :
    proofStep leaves fr pos w =
      ⟨if parent pos fr ∈ w.known then w.queue else w.queue ++ [parent pos fr], insert (parent pos fr) w.known,
        if pos ^^^ 1 ∈ w.known then w.proofPositions.erase pos else w.proofPositions.insert (pos ^^^ 1)⟩ := by
  rw [proofStep, if_neg (by simp [h])]
  simp only
  by_cases hpar : parent pos fr ∈ w.known
  · simp only [if_pos hpar, Finset.insert_eq_of_mem hpar]
  · simp only [if_neg hpar]

/-- Work left: the queue and the positions that can still enter it. -/
def walkMeasure (fr : Nat) (targets : List Nat) (w : ProofWalk) : Nat :=
  w.queue.length + (reachable fr targets \ w.known).card

theorem proofStep_measure (leaves fr pos : Nat) {targets : List Nat} (hlt : ∀ t ∈ targets, t < 2 ^ 64)
    (hpos : pos ∈ reachable fr targets) (w : ProofWalk) :
    walkMeasure fr targets (proofStep leaves fr pos w) ≤ walkMeasure fr targets w := by
  cases hroot : isRootPosition pos leaves fr with
  | true => rw [proofStep_root hroot]
  | false =>
    rw [proofStep_inner hroot]
    by_cases hpar : parent pos fr ∈ w.known
    · simp only [walkMeasure, if_pos hpar, Finset.insert_eq_of_mem hpar, le_refl]
    · -- A new parent leaves the reachable rest when it enters the queue.
      have hmem : parent pos fr ∈ reachable fr targets \ w.known :=
        Finset.mem_sdiff.mpr ⟨parent_mem_reachable fr hlt hpos, hpar⟩
      have herase : reachable fr targets \ insert (parent pos fr) w.known =
          (reachable fr targets \ w.known).erase (parent pos fr) := by
        ext x; simp only [Finset.mem_sdiff, Finset.mem_insert, Finset.mem_erase]; tauto
      have hcard := Finset.card_erase_of_mem hmem
      have hone := Finset.card_pos.mpr ⟨_, hmem⟩
      simp only [walkMeasure, if_neg hpar, List.length_append, List.length_singleton, herase]
      omega

theorem proofStep_queue_mem (leaves fr pos : Nat) {targets : List Nat} (hlt : ∀ t ∈ targets, t < 2 ^ 64)
    (hpos : pos ∈ reachable fr targets) (w : ProofWalk) (hq : ∀ x ∈ w.queue, x ∈ reachable fr targets) :
    ∀ x ∈ (proofStep leaves fr pos w).queue, x ∈ reachable fr targets := by
  cases hroot : isRootPosition pos leaves fr with
  | true => rw [proofStep_root hroot]; exact hq
  | false =>
    rw [proofStep_inner hroot]
    intro x hx
    simp only at hx
    split at hx
    · exact hq x hx
    · rcases List.mem_append.mp hx with hx | hx
      · exact hq x hx
      · rw [List.mem_singleton.mp hx]; exact parent_mem_reachable fr hlt hpos

theorem proofLoop_queue_nil (leaves fr : Nat) {targets : List Nat} (hlt : ∀ t ∈ targets, t < 2 ^ 64) (fuel : Nat)
    (w : ProofWalk) (hq : ∀ x ∈ w.queue, x ∈ reachable fr targets) (hfuel : walkMeasure fr targets w ≤ fuel) :
    (proofLoop leaves fr fuel w).queue = [] := by
  induction fuel generalizing w with
  | zero =>
    apply List.eq_nil_of_length_eq_zero
    unfold walkMeasure at hfuel
    simp only [proofLoop]
    omega
  | succ fuel ih =>
    rw [proofLoop]
    split
    · assumption
    · rename_i pos rest hw
      have hpos : pos ∈ reachable fr targets := hq pos (by rw [hw]; simp)
      have hrest : ∀ x ∈ rest, x ∈ reachable fr targets := fun x hx => hq x (by rw [hw]; simp [hx])
      apply ih _ (proofStep_queue_mem leaves fr pos hlt hpos _ hrest)
      have h1 := proofStep_measure leaves fr pos hlt hpos { w with queue := rest }
      have h2 : walkMeasure fr targets w = walkMeasure fr targets { w with queue := rest } + 1 := by
        simp only [walkMeasure, hw, List.length_cons]; omega
      omega

theorem proofLoop_ends (leaves fr : Nat) {targets : List Nat} (hlt : ∀ t ∈ targets, t < 2 ^ 64) :
    (proofLoop leaves fr (proofFuel targets) (proofStart targets)).queue = [] := by
  apply proofLoop_queue_nil leaves fr hlt
  · intro x hx; exact target_mem_reachable fr hx
  · have := card_reachable_sdiff fr targets
    simp only [walkMeasure, proofStart, proofFuel]
    omega

/-! ## The result -/

/-- `done` are the positions the loop has left behind. -/
structure WalkInv (leaves fr : Nat) (targets done : List Nat) (w : ProofWalk) : Prop where
  known_iff : ∀ x, x ∈ w.known ↔ x ∈ done ∨ x ∈ w.queue
  target_known : ∀ t ∈ targets, t ∈ w.known
  closed : ∀ x ∈ w.known, Closure leaves fr targets x
  parent_known : ∀ x ∈ done, isRootPosition x leaves fr = false → parent x fr ∈ w.known
  sound : ∀ x ∈ w.proofPositions, x ^^^ 1 ∈ done ∧ isRootPosition (x ^^^ 1) leaves fr = false ∧ x ∉ done
  complete : ∀ x, x ^^^ 1 ∈ done → isRootPosition (x ^^^ 1) leaves fr = false → x ∉ w.known → x ∈ w.proofPositions

/-- A root of the closure has no sibling in it. On node positions this always holds. -/
def RootsAlone (leaves fr : Nat) (targets : List Nat) : Prop :=
  ∀ x, Closure leaves fr targets x → isRootPosition x leaves fr = true → ¬ Closure leaves fr targets (x ^^^ 1)

theorem xor_one_ne (x : Nat) : x ^^^ 1 ≠ x := by
  rcases Nat.mod_two_eq_zero_or_one x with h | h
  · rw [xor_one_even h]; omega
  · rw [xor_one_odd h]; omega

section Step

variable {leaves fr : Nat} {targets done rest : List Nat} {pos : Nat} {w : ProofWalk}

theorem walkInv_root (halone : RootsAlone leaves fr targets) (hw : w.queue = pos :: rest)
    (hroot : isRootPosition pos leaves fr = true) (h : WalkInv leaves fr targets done w) :
    WalkInv leaves fr targets (pos :: done) { w with queue := rest } := by
  have hclos := h.closed pos ((h.known_iff pos).mpr (Or.inr (by rw [hw]; simp)))
  refine ⟨?_, h.target_known, h.closed, ?_, ?_, ?_⟩
  · intro x; rw [h.known_iff, hw]; simp only [List.mem_cons]; tauto
  · intro x hx hx'
    rcases List.mem_cons.mp hx with rfl | hx
    · rw [hroot] at hx'; cases hx'
    · exact h.parent_known x hx hx'
  · intro x hx
    obtain ⟨h1, h2, h3⟩ := h.sound x hx
    refine ⟨List.mem_cons_of_mem _ h1, h2, ?_⟩
    rw [List.mem_cons, not_or]
    refine ⟨?_, h3⟩
    rintro rfl
    exact halone x hclos hroot (h.closed _ ((h.known_iff _).mpr (Or.inl h1)))
  · intro x hx hx' hk
    rcases List.mem_cons.mp hx with hx | hx
    · rw [hx, hroot] at hx'; cases hx'
    · exact h.complete x hx hx' hk

theorem walkInv_inner (hw : w.queue = pos :: rest) (hroot : isRootPosition pos leaves fr = false)
    (h : WalkInv leaves fr targets done w) :
    WalkInv leaves fr targets (pos :: done) (proofStep leaves fr pos { w with queue := rest }) := by
  have hposk : pos ∈ w.known := (h.known_iff pos).mpr (Or.inr (by rw [hw]; simp))
  have hdone : ∀ x ∈ done, x ∈ w.known := fun x hx => (h.known_iff x).mpr (Or.inl hx)
  rw [proofStep_inner hroot]
  refine ⟨?_, ?_, ?_, ?_, ?_, ?_⟩
  · intro x
    simp only [Finset.mem_insert, h.known_iff, hw, List.mem_cons]
    split
    · rename_i hpar
      constructor
      · rintro (rfl | h) <;> tauto
      · tauto
    · simp only [List.mem_append, List.mem_singleton]; tauto
  · intro t ht; exact Finset.mem_insert_of_mem (h.target_known t ht)
  · intro x hx
    rcases Finset.mem_insert.mp hx with rfl | hx
    · exact .parent (h.closed pos hposk) hroot
    · exact h.closed x hx
  · intro x hx hx'
    rcases List.mem_cons.mp hx with rfl | hx
    · exact Finset.mem_insert_self _ _
    · exact Finset.mem_insert_of_mem (h.parent_known x hx hx')
  · intro x hx
    simp only at hx
    split at hx
    · -- The sibling is known: `pos` leaves the proof positions.
      simp only [Std.ExtTreeSet.mem_erase, ne_eq, Nat.compare_eq_eq] at hx
      obtain ⟨h1, h2, h3⟩ := h.sound x hx.2
      exact ⟨List.mem_cons_of_mem _ h1, h2, by simp [h3, Ne.symm (a := pos) hx.1]⟩
    · rename_i hsib
      simp only [Std.ExtTreeSet.mem_insert, Nat.compare_eq_eq] at hx
      rcases hx with rfl | hx
      · rw [xor_one_xor_one]
        exact ⟨List.mem_cons_self, hroot, by simpa [xor_one_ne] using fun h => hsib (hdone _ h)⟩
      · obtain ⟨h1, h2, h3⟩ := h.sound x hx
        refine ⟨List.mem_cons_of_mem _ h1, h2, ?_⟩
        rw [List.mem_cons, not_or]
        exact ⟨fun he => hsib (hdone _ (he ▸ h1)), h3⟩
  · intro x hx hx' hk
    simp only [Finset.mem_insert, not_or] at hk ⊢
    have hxpos : x ≠ pos := fun he => hk.2 (he ▸ hposk)
    rcases List.mem_cons.mp hx with hx | hx
    · have hxs : x = pos ^^^ 1 := by rw [← hx, xor_one_xor_one]
      rw [if_neg (by rw [← hxs]; exact hk.2), hxs]
      simp
    · have hmem := h.complete x hx hx' hk.2
      split
      · simp only [Std.ExtTreeSet.mem_erase, ne_eq, Nat.compare_eq_eq]; exact ⟨Ne.symm hxpos, hmem⟩
      · simp only [Std.ExtTreeSet.mem_insert]; exact Or.inr hmem

end Step

theorem walkInv_loop {leaves fr : Nat} {targets : List Nat} (halone : RootsAlone leaves fr targets) (fuel : Nat)
    (w : ProofWalk) (done : List Nat) (h : WalkInv leaves fr targets done w) :
    ∃ done, WalkInv leaves fr targets done (proofLoop leaves fr fuel w) := by
  induction fuel generalizing w done with
  | zero => exact ⟨done, h⟩
  | succ fuel ih =>
    rw [proofLoop]
    split
    · exact ⟨done, h⟩
    · rename_i pos rest hw
      cases hroot : isRootPosition pos leaves fr with
      | true => rw [proofStep_root hroot]; exact ih _ _ (walkInv_root halone hw hroot h)
      | false => exact ih _ _ (walkInv_inner hw hroot h)

theorem walkInv_start (leaves fr : Nat) (targets : List Nat) :
    WalkInv leaves fr targets [] (proofStart targets) := by
  refine ⟨?_, ?_, ?_, ?_, ?_, ?_⟩ <;> simp [proofStart]
  exact fun x hx => .target hx

theorem mem_proofPositions {leaves fr : Nat} {targets : List Nat} (hlt : ∀ t ∈ targets, t < 2 ^ 64)
    (halone : RootsAlone leaves fr targets) (x : Nat) :
    x ∈ proofPositions targets leaves fr ↔
      Closure leaves fr targets (x ^^^ 1) ∧ isRootPosition (x ^^^ 1) leaves fr = false ∧
        ¬ Closure leaves fr targets x := by
  obtain ⟨done, h⟩ := walkInv_loop halone (proofFuel targets) _ _ (walkInv_start leaves fr targets)
  have hend := proofLoop_ends leaves fr hlt
  have hknown : ∀ y, y ∈ (proofLoop leaves fr (proofFuel targets) (proofStart targets)).known ↔ y ∈ done := by
    intro y; rw [h.known_iff, hend]; simp
  have hclosure : ∀ y, Closure leaves fr targets y ↔ y ∈ done := by
    intro y
    constructor
    · intro hy
      induction hy with
      | target ht => exact (hknown _).mp (h.target_known _ ht)
      | parent _ hroot ih => exact (hknown _).mp (h.parent_known _ ih hroot)
    · intro hy; exact h.closed y ((hknown y).mpr hy)
  rw [proofPositions, Std.ExtTreeSet.mem_toList, hclosure, hclosure]
  constructor
  · intro hx; exact h.sound x hx
  · rintro ⟨h1, h2, h3⟩; exact h.complete x h1 h2 (by rw [hknown]; exact h3)

theorem proofPositions_sorted (targets : List Nat) (leaves fr : Nat) :
    (proofPositions targets leaves fr).Pairwise (· < ·) := by
  have h := Std.ExtTreeSet.ordered_toList
    (t := (proofLoop leaves fr (proofFuel targets) (proofStart targets)).proofPositions)
  exact h.imp fun hab => Nat.compare_eq_lt.mp hab

theorem eq_of_sorted_of_mem_iff {l m : List Nat} (hl : l.Pairwise (· < ·)) (hm : m.Pairwise (· < ·))
    (h : ∀ x, x ∈ l ↔ x ∈ m) : l = m := by
  have hperm : l.Perm m :=
    (List.perm_ext_iff_of_nodup (hl.imp Nat.ne_of_lt) (hm.imp Nat.ne_of_lt)).mpr h
  exact hperm.eq_of_pairwise (fun a b _ _ hab hba => absurd hab (Nat.lt_asymm hba)) hl hm

/-- The closure depends on which positions are targets, not on their order or number. -/
theorem Closure.congr {leaves fr : Nat} {targets targets' : List Nat} (h : ∀ t ∈ targets, t ∈ targets') {x : Nat}
    (hx : Closure leaves fr targets x) : Closure leaves fr targets' x := by
  induction hx with
  | target ht => exact .target (h _ ht)
  | parent _ hroot ih => exact .parent ih hroot

theorem proofLoop_of_le {leaves fr fuel fuel' : Nat} {w : ProofWalk} (h : (proofLoop leaves fr fuel w).queue = [])
    (hle : fuel ≤ fuel') : proofLoop leaves fr fuel' w = proofLoop leaves fr fuel w := by
  induction fuel generalizing w fuel' with
  | zero =>
    simp only [proofLoop] at h
    cases fuel' with
    | zero => rfl
    | succ fuel' => simp only [proofLoop, h]
  | succ fuel ih =>
    obtain ⟨fuel', rfl⟩ : ∃ k, fuel' = k + 1 := ⟨fuel' - 1, by omega⟩
    cases hw : w.queue with
    | nil => simp only [proofLoop, hw]
    | cons pos rest =>
      simp only [proofLoop, hw] at h ⊢
      exact ih h (by omega)

end UtreexoBridge.Position
