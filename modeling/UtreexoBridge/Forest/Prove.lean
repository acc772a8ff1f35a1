import UtreexoBridge.Forest.Locate
import UtreexoBridge.Forest.Membership
import UtreexoBridge.Verify.Complete

/-!
# Every proof of live leaves is accepted

`Prove` reads positions and hashes out of the trees, the verifier rebuilds
them from positions alone. Both sides meet in `At`.
-/

namespace UtreexoBridge

open IdTree Position Verify

variable {H : Type} [ForestHash H] {f : PackedForest H} {trees : Nat → Option (IdTree H)}

/-! ## Neighbours of a placed node -/

namespace At

variable {pos : Nat} {t : IdTree H}

theorem isNode (h : Structured f trees) (hat : At trees f.numLeaves pos t) : IsNode f.numLeaves pos := by
  obtain ⟨r, o, hp, rfl⟩ := hat
  exact isNode_rowPos (hp.row_le h) (hp.offset_lt h)

theorem unique (h : Structured f trees) (hat : At trees f.numLeaves pos t) {t' : IdTree H}
    (hat' : At trees f.numLeaves pos t') : t = t' := by
  obtain ⟨r, o, hp, rfl⟩ := hat
  obtain ⟨r', o', hp', heq⟩ := hat'
  obtain ⟨rfl, rfl⟩ := rowPos_inj (hp.row_le h) (hp.offset_lt_pow h) (hp'.row_le h) (hp'.offset_lt_pow h) heq
  exact hp.unique h hp'

theorem hash_eq (h : Structured f trees) (hat : At trees f.numLeaves pos t) : (f.arena.read t.id).hash = t.hash := by
  obtain ⟨r, o, hp, -⟩ := hat
  obtain ⟨parent, hl⟩ := hp.linked h
  exact hl.hash_eq

theorem children (h : Structured f trees) (hle : f.numLeaves ≤ 2 ^ 62) {r o id : Nat} {l s : IdTree H}
    (hp : Placed trees f.numLeaves (r + 1) o (.node id l s)) :
    let x := rowPos (treeRows f.numLeaves) r (2 * o)
    x % 2 = 0 ∧ At trees f.numLeaves x l ∧ At trees f.numLeaves (x ^^^ 1) s ∧
      parent x (treeRows f.numLeaves) = rowPos (treeRows f.numLeaves) (r + 1) o ∧
      rowPos (treeRows f.numLeaves) r (2 * o + 1) = x ^^^ 1 := by
  have hfr := treeRows_le_62 hle
  have hl := Placed.left hp
  have hr := hl.row_le h
  have hsib : rowPos (treeRows f.numLeaves) r (2 * o) ^^^ 1 = rowPos (treeRows f.numLeaves) r (2 * o + 1) := by
    rw [sibling_rowPos hr, xor_one_even (by omega)]
  refine ⟨?_, ⟨r, _, hl, rfl⟩, ⟨r, _, Placed.right hp, hsib⟩, ?_, hsib.symm⟩
  · have := rowStart_even hr
    unfold rowPos
    omega
  · rw [parent_rowPos (by omega) hr (hl.offset_lt_pow h), Nat.mul_div_cancel_left _ (by omega)]

theorem root_or_child (h : Structured f trees) (hle : f.numLeaves ≤ 2 ^ 62) (hat : At trees f.numLeaves pos t) :
    (∃ row, trees row = some t ∧ pos = rootPosition f.numLeaves row (treeRows f.numLeaves)) ∨
    (isRootPosition pos f.numLeaves (treeRows f.numLeaves) = false ∧
      ∃ id l s x, x % 2 = 0 ∧ At trees f.numLeaves x l ∧ At trees f.numLeaves (x ^^^ 1) s ∧
        At trees f.numLeaves (parent x (treeRows f.numLeaves)) (.node id l s) ∧
        (pos = x ∧ t = l ∨ pos = x ^^^ 1 ∧ t = s)) := by
  have hfr := treeRows_le_62 hle
  obtain ⟨r, o, hp, rfl⟩ := hat
  have hinner : ∀ {r o' : Nat} {t' : IdTree H}, Placed trees f.numLeaves r o' t' → o' ≠ rootOffset f.numLeaves r →
      isRootPosition (rowPos (treeRows f.numLeaves) r o') f.numLeaves (treeRows f.numLeaves) = false := by
    intro r o' t' hp hne
    rw [← Bool.not_eq_true, isRoot_node_iff hle (hp.row_le h) (hp.offset_lt h)]
    exact fun hroot => hne hroot.2
  cases hp with
  | root ht =>
    refine Or.inl ⟨r, ht, ?_⟩
    rw [rootPosition_eq hfr (testBit_le_treeRows (h.bits r t ht)) (le_two_pow_treeRows _)]
    rfl
  | left hp =>
    obtain ⟨heven, hl, hs, hparent, -⟩ := children h hle hp
    have := Placed.child_lt (hp.offset_lt h)
    exact Or.inr ⟨hinner (.left hp) (by omega), _, _, _, _, heven, hl, hs, ⟨_, _, hp, hparent⟩, Or.inl ⟨rfl, rfl⟩⟩
  | right hp =>
    obtain ⟨heven, hl, hs, hparent, hright⟩ := children h hle hp
    have := Placed.child_lt (hp.offset_lt h)
    exact Or.inr ⟨hinner (.right hp) (by omega), _, _, _, _, heven, hl, hs, ⟨_, _, hp, hparent⟩,
      Or.inr ⟨hright, rfl⟩⟩

end At

/-! ## The positions above the targets -/

section Closure

variable {targets : List Nat} {x : Nat}

theorem root_not_inner (h : Structured f trees) (hle : f.numLeaves ≤ 2 ^ 62) {t : IdTree H} {row : Nat}
    (ht : trees row = some t) :
    isRootPosition (rootPosition f.numLeaves row (treeRows f.numLeaves)) f.numLeaves (treeRows f.numLeaves) = true := by
  have hbit := h.bits row t ht
  have hrow := testBit_le_treeRows hbit
  rw [rootPosition_eq (treeRows_le_62 hle) hrow (le_two_pow_treeRows _)]
  exact (isRoot_node_iff hle hrow (rootOffset_lt hbit)).mpr ⟨hbit, rfl⟩

theorem At.up (h : Structured f trees) (hle : f.numLeaves ≤ 2 ^ 62) {t : IdTree H} (hat : At trees f.numLeaves x t)
    (hroot : isRootPosition x f.numLeaves (treeRows f.numLeaves) = false) :
    (∃ id l s, At trees f.numLeaves (parent x (treeRows f.numLeaves)) (.node id l s)) ∧
      ∃ s, At trees f.numLeaves (x ^^^ 1) s := by
  rcases hat.root_or_child h hle with ⟨row, ht, rfl⟩ | ⟨-, id, l, s, y, -, hl, hs, hup, hside⟩
  · rw [root_not_inner h hle ht] at hroot
    cases hroot
  · rcases hside with ⟨rfl, -⟩ | ⟨rfl, -⟩
    · exact ⟨⟨id, l, s, hup⟩, s, hs⟩
    · rw [parent_sibling hle (hl.isNode h) (hs.isNode h), xor_one_xor_one]
      exact ⟨⟨id, l, s, hup⟩, l, hl⟩

theorem At.closure (h : Structured f trees) (hle : f.numLeaves ≤ 2 ^ 62)
    (htargets : ∀ x ∈ targets, ∃ t, At trees f.numLeaves x t)
    (hx : Closure f.numLeaves (treeRows f.numLeaves) targets x) : ∃ t, At trees f.numLeaves x t := by
  induction hx with
  | target ht => exact htargets _ ht
  | parent _ hroot ih =>
    obtain ⟨t, hat⟩ := ih
    obtain ⟨⟨id, l, s, hup⟩, -⟩ := hat.up h hle hroot
    exact ⟨_, hup⟩

variable (h : Structured f trees) (hle : f.numLeaves ≤ 2 ^ 62)
  (htargets : ∀ x ∈ targets, ∃ id v, At trees f.numLeaves x (.leaf id v))
include h hle htargets

omit hle in
theorem target_isNode : ∀ x ∈ targets, IsNode f.numLeaves x := by
  intro x hx
  obtain ⟨id, v, hat⟩ := htargets x hx
  exact hat.isNode h

theorem proofPosition_at (hx : x ∈ proofPositions targets f.numLeaves (treeRows f.numLeaves)) :
    ∃ t, At trees f.numLeaves x t := by
  obtain ⟨hc, hroot, -⟩ := (mem_proofPositions_nodes hle (target_isNode h htargets) x).mp hx
  have hsome : ∀ x ∈ targets, ∃ t, At trees f.numLeaves x t := fun x hx => by
    obtain ⟨id, v, hat⟩ := htargets x hx
    exact ⟨_, hat⟩
  obtain ⟨t, hat⟩ := At.closure h hle hsome hc
  obtain ⟨-, s, hs⟩ := hat.up h hle hroot
  rw [xor_one_xor_one] at hs
  exact ⟨s, hs⟩

theorem cut_provided : Cut f.numLeaves (targets ++ proofPositions targets f.numLeaves (treeRows f.numLeaves)) := by
  have hnodes := target_isNode h htargets
  have hmem := mem_proofPositions_nodes hle hnodes
  have hproof : ∀ x ∈ proofPositions targets f.numLeaves (treeRows f.numLeaves), IsNode f.numLeaves x := by
    intro x hx
    obtain ⟨t, hat⟩ := proofPosition_at h hle htargets hx
    exact hat.isNode h
  have hsome : ∀ x ∈ targets, ∃ t, At trees f.numLeaves x t := fun x hx => by
    obtain ⟨id, v, hat⟩ := htargets x hx
    exact ⟨_, hat⟩
  have hlift : ∀ {x}, Closure f.numLeaves (treeRows f.numLeaves) targets x →
      Closure f.numLeaves (treeRows f.numLeaves)
        (targets ++ proofPositions targets f.numLeaves (treeRows f.numLeaves)) x :=
    fun hx => hx.trans fun t ht => .target (by simp [ht])
  -- a proof position is the sibling of a position above the targets
  have hcases : ∀ {x}, Closure f.numLeaves (treeRows f.numLeaves)
      (targets ++ proofPositions targets f.numLeaves (treeRows f.numLeaves)) x →
      Closure f.numLeaves (treeRows f.numLeaves) targets x ∨
        x ∈ proofPositions targets f.numLeaves (treeRows f.numLeaves) := by
    intro x hx
    induction hx with
    | target ht => exact (List.mem_append.mp ht).imp_left .target
    | parent _ hroot ih =>
      rcases ih with ih | ih
      · exact Or.inl (.parent ih hroot)
      · obtain ⟨hc, hnot, -⟩ := (hmem _).mp ih
        have hup := Closure.parent hc hnot
        rw [parent_sibling hle (hproof _ ih) (isNode_closure hle hnodes hc)] at hup
        exact Or.inl hup
  refine ⟨?_, fun x hx hroot => ?_, fun x hx hroot hin => ?_⟩
  · intro x hx
    rcases List.mem_append.mp hx with hx | hx
    · exact hnodes x hx
    · exact hproof x hx
  · rcases hcases hx with hc | hp
    · by_cases hsib : Closure f.numLeaves (treeRows f.numLeaves) targets (x ^^^ 1)
      · exact hlift hsib
      · refine .target (List.mem_append_right _ ((hmem _).mpr ⟨?_, ?_, hsib⟩))
        · rwa [xor_one_xor_one]
        · rwa [xor_one_xor_one]
    · exact hlift ((hmem x).mp hp).1
  · have hup : Closure f.numLeaves (treeRows f.numLeaves) targets (parent x (treeRows f.numLeaves)) := by
      rcases hcases hx with hc | hp
      · exact .parent hc hroot
      · obtain ⟨hc, hnot, -⟩ := (hmem x).mp hp
        have := Closure.parent hc hnot
        rwa [parent_sibling hle (hproof x hp) (isNode_closure hle hnodes hc)] at this
    rcases List.mem_append.mp hin with hin | hin
    · -- a target holds a leaf, a parent holds a branch
      obtain ⟨id, v, hleaf⟩ := htargets _ hin
      obtain ⟨t, hat⟩ : ∃ t, At trees f.numLeaves x t := by
        rcases hcases hx with hc | hp
        · exact At.closure h hle hsome hc
        · exact proofPosition_at h hle htargets hp
      obtain ⟨⟨id', l, s, hbranch⟩, -⟩ := hat.up h hle hroot
      cases hleaf.unique h hbranch
    · exact ((hmem _).mp hin).2.2 hup

end Closure

/-! ## The prover -/

def LeafAt (f : PackedForest H) (trees : Nat → Option (IdTree H)) (v : H) (pos : Nat) : Prop :=
  ∃ x ∈ f.arena.leafIds, (f.arena.read x).hash = v ∧ f.positionOf x = .ok (.ok pos) ∧
    At trees f.numLeaves pos (.leaf x v)

theorem proofHashes_spec (h : Structured f trees) (hle : f.numLeaves ≤ 2 ^ 62) (positions : List Nat)
    (hat : ∀ x ∈ positions, ∃ t, At trees f.numLeaves x t) :
    ∃ hashes, f.proofHashes positions = .ok hashes ∧
      List.Forall₂ (fun pos hash => ∃ t, At trees f.numLeaves pos t ∧ hash = t.hash ∧
        f.nodeAt pos = .ok t.id ∧ (f.arena.read t.id).hash = hash) positions hashes := by
  induction positions with
  | nil => exact ⟨[], rfl, .nil⟩
  | cons pos positions ih =>
    obtain ⟨t, ht⟩ := hat pos (by simp)
    obtain ⟨hashes, hok, hall⟩ := ih fun x hx => hat x (by simp [hx])
    have hnode := ht.nodeAt h hle
    refine ⟨t.hash :: hashes, ?_, .cons ⟨t, ht, rfl, hnode, ht.hash_eq h⟩ hall⟩
    simp only [PackedForest.proofHashes, hnode, hok, ht.hash_eq h]

variable [DecidableEq H]

theorem proveTargets_spec (h : Represents f trees) (hle : f.numLeaves ≤ 2 ^ 62) (targets : List H)
    (hlive : ∀ v ∈ targets, f.contains v = true) :
    ∃ positions, f.proveTargets targets = .ok (.ok positions) ∧ List.Forall₂ (LeafAt f trees) targets positions := by
  induction targets with
  | nil => exact ⟨[], rfl, .nil⟩
  | cons v targets ih =>
    obtain ⟨x, hx⟩ := h.mem_iff.mp ((h.contains_iff v).mp (hlive v (by simp)))
    obtain ⟨pos, hpos, hat⟩ := h.positionOf_at hle hx
    obtain ⟨positions, hok, hall⟩ := ih fun w hw => hlive w (by simp [hw])
    have hleaf := (mem_leafIds_iff h.shape).mpr ⟨v, hx⟩
    refine ⟨pos :: positions, ?_, .cons ⟨x, hleaf, (h.shape.mem_leaves_iff.mp hx).2.2, hpos, hat⟩ hall⟩
    simp only [PackedForest.proveTargets, h.find_eq_some hx, hpos, hok]

omit [DecidableEq H] in
theorem positions_nodup (h : Structured f trees) {targets : List H} {positions : List Nat} (hnodup : targets.Nodup)
    (hall : List.Forall₂ (LeafAt f trees) targets positions) : positions.Nodup := by
  induction hall with
  | nil => exact List.nodup_nil
  | @cons v pos targets positions hv hall ih =>
    obtain ⟨hnot, hnodup⟩ := List.nodup_cons.mp hnodup
    refine List.nodup_cons.mpr ⟨fun hmem => hnot ?_, ih hnodup⟩
    obtain ⟨x, -, -, -, hat⟩ := hv
    obtain ⟨w, hw, y, -, -, -, hat'⟩ := forall₂_exists hall.flip hmem
    cases hat.unique h hat'
    exact hw

/-! ## The verifier's input -/

/-- A root as the caller lists it: anything stands for an emptied row. -/
def RootListed (value : H) : Option H → Prop
  | some root => value = root
  | none => True

omit [DecidableEq H] in
theorem roots_eq_map (h : Structured f trees) {roots : List H} (hroots : List.Forall₂ RootListed roots f.rootHashes) :
    ∃ value : Nat → H, roots = (setRows f.numLeaves (treeRows f.numLeaves)).map value ∧
      ∀ row t, trees row = some t → value row = t.hash := by
  have hlist : ∀ (rows : List Nat) (g : Nat → Option H) (roots : List H), rows.Nodup →
      List.Forall₂ RootListed roots (rows.map g) →
      ∃ value : Nat → H, roots = rows.map value ∧ ∀ row ∈ rows, RootListed (value row) (g row) := by
    intro rows g
    induction rows with
    | nil =>
      intro roots _ hall
      cases hall
      exact ⟨fun _ => ForestHash.null, rfl, by simp⟩
    | cons row rows ih =>
      intro roots hnodup hall
      obtain ⟨hnot, hnodup⟩ := List.nodup_cons.mp hnodup
      cases hall with
      | @cons v _ roots _ hv hall =>
        obtain ⟨value, rfl, hvalue⟩ := ih roots hnodup hall
        have hother : ∀ r ∈ rows, Function.update value row v r = value r := fun r hr =>
          Function.update_of_ne (fun he : r = row => hnot (he ▸ hr)) _ _
        refine ⟨Function.update value row v, ?_, fun r hr => ?_⟩
        · rw [List.map_cons, Function.update_self, List.map_congr_left hother]
        · rcases List.mem_cons.mp hr with rfl | hr
          · rw [Function.update_self]
            exact hv
          · rw [hother r hr]
            exact hvalue r hr
  have hnodup : (setRows f.numLeaves (treeRows f.numLeaves)).Nodup :=
    (List.nodup_reverse.mpr List.nodup_range).filter _
  rw [h.rootHashes_eq] at hroots
  obtain ⟨value, hmap, hvalue⟩ := hlist _ _ roots hnodup hroots
  refine ⟨value, hmap, fun row t ht => ?_⟩
  have hlisted := hvalue row (mem_setRows_treeRows.mpr (h.bits row t ht))
  simp only [accumulatorOf, ht, Option.map_some, hash_toTree] at hlisted
  exact hlisted

omit [DecidableEq H] in
theorem hashing_trees (h : Structured f trees) (hle : f.numLeaves ≤ 2 ^ 62) {value : Nat → H}
    (hvalue : ∀ row t, trees row = some t → value row = t.hash) :
    Hashing f.numLeaves (expectedRoots ((setRows f.numLeaves (treeRows f.numLeaves)).map value) f.numLeaves
      (treeRows f.numLeaves)) fun pos hash => ∃ t, At trees f.numLeaves pos t ∧ hash = t.hash := by
  refine ⟨?_, ?_⟩
  · rintro x _ ⟨t, hat, rfl⟩ hroot
    rcases hat.root_or_child h hle with ⟨row, ht, rfl⟩ | ⟨hnot, -⟩
    · rw [expectedRoots_lookup hle value (h.bits row t ht), hvalue row t ht]
    · rw [hnot] at hroot
      cases hroot
  · rintro x _ _ heven ⟨l, hl, rfl⟩ ⟨r, hr, rfl⟩ hroot
    rcases hl.root_or_child h hle with ⟨row, ht, rfl⟩ | ⟨-, id, l', s, y, hy, hl', hs, hup, hside⟩
    · rw [root_not_inner h hle ht] at hroot
      cases hroot
    · rcases hside with ⟨rfl, rfl⟩ | ⟨rfl, -⟩
      · cases hr.unique h hs
        exact ⟨_, hup, rfl⟩
      · rw [xor_one_even hy] at heven
        omega

omit [DecidableEq H] [ForestHash H] in
theorem hasDuplicate_of_strict {l : List (Node H)} (h : l.Pairwise fun a b => a.1 < b.1) : hasDuplicate l = false := by
  induction l with
  | nil => rfl
  | cons a l ih =>
    cases l with
    | nil => rfl
    | cons b l =>
      rw [hasDuplicate, ih h.of_cons, Bool.or_false, beq_eq_false_iff_ne]
      exact Nat.ne_of_lt (List.rel_of_pairwise_cons h (by simp))

omit [DecidableEq H] [ForestHash H] in
theorem strict_of_nodup {l : List (Node H)} (hsorted : l.Pairwise posLE) (hnodup : (l.map (·.1)).Nodup) :
    l.Pairwise fun a b => a.1 < b.1 :=
  hsorted.imp₂ (fun _ _ hle hne => lt_of_le_of_ne hle hne) (List.pairwise_map.mp hnodup)

variable {positions : List Nat} {hashes targets : List H}

omit [DecidableEq H] in
theorem frontier_provided (h : Structured f trees) (hle : f.numLeaves ≤ 2 ^ 62) (hnodup : targets.Nodup)
    (htargets : List.Forall₂ (LeafAt f trees) targets positions)
    (hhashes : List.Forall₂ (fun pos hash => ∃ t, At trees f.numLeaves pos t ∧ hash = t.hash)
      (proofPositions positions f.numLeaves (treeRows f.numLeaves)) hashes) :
    let needed := proofPositions positions f.numLeaves (treeRows f.numLeaves)
    Frontier f.numLeaves (fun pos hash => ∃ t, At trees f.numLeaves pos t ∧ hash = t.hash) []
      (providedNodes ⟨positions, hashes⟩ targets needed) := by
  intro needed
  have hleaf : ∀ x ∈ positions, ∃ id v, At trees f.numLeaves x (.leaf id v) := fun x hx => by
    obtain ⟨v, -, id, -, -, -, hat⟩ := forall₂_exists htargets.flip hx
    exact ⟨id, v, hat⟩
  have hcut := cut_provided h hle hleaf
  have hperm := providedNodes_perm ⟨positions, hashes⟩ targets needed
  have hfst : (positions.zip targets ++ needed.zip hashes).map (·.1) = positions ++ needed := by
    rw [List.map_append, List.map_fst_zip (le_of_eq htargets.length_eq.symm),
      List.map_fst_zip (le_of_eq hhashes.length_eq)]
  have hposperm := hperm.map (·.1)
  rw [hfst] at hposperm
  have hdistinct : (positions ++ needed).Nodup := by
    rw [List.nodup_append]
    refine ⟨positions_nodup h hnodup htargets, (proofPositions_sorted _ _ _).imp Nat.ne_of_lt, ?_⟩
    rintro x hx _ hy rfl
    exact ((mem_proofPositions_nodes hle (target_isNode h hleaf) x).mp hy).2.2 (.target hx)
  have hstrict := strict_of_nodup (List.pairwise_insertionSort posLE _) (hposperm.nodup_iff.mpr hdistinct)
  refine ⟨⟨List.Pairwise.nil, hstrict, by simp⟩, ?_, ?_, by simp⟩
  · rintro ⟨x, v⟩ hx
    rw [List.nil_append, hperm.mem_iff] at hx
    rcases List.mem_append.mp hx with hx | hx
    · obtain ⟨id, -, -, -, hat⟩ := List.forall₂_zip htargets.flip hx
      exact ⟨_, hat, rfl⟩
    · exact List.forall₂_zip hhashes hx
  · exact hcut.perm hposperm.symm

theorem verifyProof_accepts (h : Structured f trees) (hle : f.numLeaves ≤ 2 ^ 62) (hnodup : targets.Nodup)
    (htargets : List.Forall₂ (LeafAt f trees) targets positions)
    (hhashes : List.Forall₂ (fun pos hash => ∃ t, At trees f.numLeaves pos t ∧ hash = t.hash)
      (proofPositions positions f.numLeaves (treeRows f.numLeaves)) hashes)
    {roots : List H} (hroots : List.Forall₂ RootListed roots f.rootHashes) :
    verifyProof ⟨positions, hashes⟩ targets roots f.numLeaves = .ok true := by
  obtain ⟨value, rfl, hvalue⟩ := roots_eq_map h hroots
  have hfrontier := frontier_provided h hle hnodup htargets hhashes
  rw [verifyProof, if_neg (by simp [htargets.length_eq])]
  by_cases hempty : positions = []
  · rw [if_pos hempty]
  · have hne : f.numLeaves ≠ 0 := by
      obtain ⟨pos, hpos⟩ := List.exists_mem_of_ne_nil _ hempty
      obtain ⟨v, -, id, -, -, -, r, o, hp, -⟩ := forall₂_exists htargets.flip hpos
      have := hp.offset_lt h
      rintro hz
      rw [hz, Nat.zero_div] at this
      omega
    rw [if_neg hempty, if_neg hne, if_neg (by simp [setRows_length hle])]
    simp only
    rw [if_neg (by simp [hhashes.length_eq]), hasDuplicate_of_strict hfrontier.queues.sortedProvided,
      if_neg (by simp)]
    exact verifyLoop_accepts hle (hashing_trees h hle hvalue) _ _ _ hfrontier (by simp)

/-- `Prove` on distinct live leaves: the proof it returns is accepted. -/
theorem Represents.prove_spec (h : Represents f trees) (hle : f.numLeaves ≤ 2 ^ 62) (targets : List H)
    (hnodup : targets.Nodup) (hlive : ∀ v ∈ targets, f.contains v = true) :
    ∃ positions hashes, f.prove targets = .ok (.ok ⟨positions, hashes⟩) ∧
      List.Forall₂ (LeafAt f trees) targets positions ∧
      List.Forall₂ (fun pos hash => ∃ x, f.nodeAt pos = .ok x ∧ (f.arena.read x).hash = hash)
        (proofPositions positions f.numLeaves (treeRows f.numLeaves)) hashes ∧
      ∀ roots, List.Forall₂ RootListed roots f.rootHashes →
        verifyProof ⟨positions, hashes⟩ targets roots f.numLeaves = .ok true := by
  obtain ⟨positions, hpositions, htargets⟩ := proveTargets_spec h hle targets hlive
  have hleaf : ∀ x ∈ positions, ∃ id v, At trees f.numLeaves x (.leaf id v) := fun x hx => by
    obtain ⟨v, -, id, -, -, -, hat⟩ := forall₂_exists htargets.flip hx
    exact ⟨id, v, hat⟩
  obtain ⟨hashes, hok, hhashes⟩ := proofHashes_spec h.toStructured hle _ fun x hx => proofPosition_at h.toStructured hle hleaf hx
  refine ⟨positions, hashes, ?_, htargets, ?_, fun roots hroots => ?_⟩
  · simp only [PackedForest.prove, hpositions, hok]
  · exact hhashes.imp fun pos hash ⟨t, _, _, hnode, hv⟩ => ⟨t.id, hnode, hv⟩
  · exact verifyProof_accepts h.toStructured hle hnodup htargets (hhashes.imp fun pos hash ⟨t, hat, hv, _⟩ => ⟨t, hat, hv⟩) hroots

/-- **Proof completeness.** For distinct live leaves in any order `Prove` returns one position for each target and
one hash for each proof position, and `VerifyProof` accepts, whatever stands for the emptied rows. -/
theorem prove_complete (hreach : Reachable f) (hbound : f.numLeaves < 2 ^ 62) (targets : List H)
    (hnodup : targets.Nodup) (hlive : ∀ v ∈ targets, f.contains v = true) :
    ∃ proof, f.prove targets = .ok (.ok proof) ∧
      List.Forall₂ (fun v pos => ∃ x ∈ f.arena.leafIds, (f.arena.read x).hash = v ∧ f.positionOf x = .ok (.ok pos))
        targets proof.targets ∧
      (proofPositions proof.targets f.numLeaves (treeRows f.numLeaves)).Pairwise (· < ·) ∧
      List.Forall₂ (fun pos hash => ∃ x, f.nodeAt pos = .ok x ∧ (f.arena.read x).hash = hash)
        (proofPositions proof.targets f.numLeaves (treeRows f.numLeaves)) proof.hashes ∧
      ∀ roots, List.Forall₂ RootListed roots f.rootHashes →
        verifyProof proof targets roots f.numLeaves = .ok true := by
  obtain ⟨trees, h⟩ := hreach.represents
  obtain ⟨positions, hashes, hok, htargets, hhashes, haccept⟩ := h.prove_spec (le_of_lt hbound) targets hnodup hlive
  refine ⟨⟨positions, hashes⟩, hok, ?_, proofPositions_sorted _ _ _, hhashes, haccept⟩
  exact htargets.imp fun v pos ⟨x, hx, hv, hpos, _⟩ => ⟨x, hx, hv, hpos⟩

theorem prove_complete_three :
    ∃ proof, threeForest.prove [.leaf 3, .leaf 2] = .ok (.ok proof) ∧
      ∀ roots, List.Forall₂ RootListed roots threeForest.rootHashes →
        verifyProof proof [.leaf 3, .leaf 2] roots threeForest.numLeaves = .ok true := by
  obtain ⟨proof, hok, -, -, -, haccept⟩ := prove_complete reachable_threeForest (by decide +kernel)
    [TermHash.leaf 3, TermHash.leaf 2] (by decide) (by decide +kernel)
  exact ⟨proof, hok, haccept⟩

end UtreexoBridge
