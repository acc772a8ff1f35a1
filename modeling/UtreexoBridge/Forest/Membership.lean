import UtreexoBridge.Forest.Reachable
import UtreexoBridge.Forest.Refines
import UtreexoBridge.Verify.Sound

/-!
# An accepted proof names live nodes only

The verifier's argument runs from the roots down: a parent hash that is stored
in the forest splits into the two hashes stored below it.
-/

namespace UtreexoBridge

open IdTree

variable {H : Type} [ForestHash H]

def Stored (f : PackedForest H) (h : H) : Prop := ∃ x ∈ f.arena.liveIds, (f.arena.read x).hash = h

theorem Structured.type_cases {f : PackedForest H} {trees : Nat → Option (IdTree H)} (h : Structured f trees) {x : Nat}
    (hx : x ∈ f.arena.liveIds) : (f.arena.read x).type = .leaf ∨ (f.arena.read x).type = .branch := by
  obtain ⟨t, ht, hxt⟩ := List.mem_flatMap.mp ((h.shape.live_iff x).mp hx)
  obtain ⟨fs, s, rfl, rfl⟩ := exists_plug_id hxt
  obtain ⟨hl, -⟩ := (linked_plug fs s).mp (h.shape.linked _ ht)
  cases s with
  | leaf id v => exact Or.inl (congrArg NodeRecord.type hl)
  | node id l r => exact Or.inr (congrArg NodeRecord.type hl.1)

/-- A root value as the caller passes it: the stored root, or a placeholder for an emptied row. -/
def RootValue (targetHashes : List H) (value : H) : Option H → Prop
  | some root => value = root
  | none => (∀ a b, value ≠ parentHash a b) ∧ value ∉ targetHashes

theorem forall₂_exists {α β : Type} {R : α → β → Prop} {xs : List α} {ys : List β} (hall : List.Forall₂ R xs ys)
    {x : α} (hx : x ∈ xs) : ∃ y ∈ ys, R x y := by
  induction hall with
  | nil => cases hx
  | cons hab _ ih =>
    rcases List.mem_cons.mp hx with rfl | hx
    · exact ⟨_, by simp, hab⟩
    · obtain ⟨y, hy, hxy⟩ := ih hx
      exact ⟨y, by simp [hy], hxy⟩

theorem Structured.root_stored {f : PackedForest H} {trees : Nat → Option (IdTree H)} (h : Structured f trees) {r : H}
    (hr : some r ∈ f.rootHashes) : Stored f r := by
  simp only [PackedForest.rootHashes, List.mem_map] at hr
  obtain ⟨row, hrow, hr⟩ := hr
  split_ifs at hr with hne
  cases hr
  have hbit : f.numLeaves.testBit row := by
    simp only [setRows, List.mem_filter] at hrow
    exact hrow.2
  have hroot := h.roots row (h.bit_lt hbit)
  cases ht : trees row with
  | none => rw [hroot, ht] at hne; exact absurd rfl hne
  | some t =>
    rw [ht, Option.elim_some] at hroot
    exact ⟨t.id, h.shape.mem_live (h.mem_rows ht) t.id_mem_ids, by rw [hroot]⟩

section Sound

variable [DecidableEq H] {f : PackedForest H} {isLeaf : H → Prop}

/-- **Membership.** With an injective `ParentHash` whose range has no leaf hash, `VerifyProof` accepts only
hashes of live nodes, whatever the run, the positions and the proof hashes are. -/
theorem verifyProof_membership (hinj : ∀ a b c d : H, parentHash a b = parentHash c d → a = c ∧ b = d)
    (hrange : ∀ h, isLeaf h → ∀ a b : H, h ≠ parentHash a b) {calls : List (Call H)} {results : List Res}
    (hrun : PackedForest.new.run calls = .ok (results, f))
    (hleaves : ∀ x ∈ f.arena.leafIds, isLeaf (f.arena.read x).hash) (proof : Proof H) (targetHashes roots : List H)
    (hroots : List.Forall₂ (RootValue targetHashes) roots f.rootHashes)
    (haccept : verifyProof proof targetHashes roots f.numLeaves = .ok true) :
    ∀ t ∈ targetHashes, Stored f t ∧ (isLeaf t → ∃ x ∈ f.arena.leafIds, (f.arena.read x).hash = t) := by
  obtain ⟨trees, hrep⟩ := represents_new.toStructured.run hrun
  have hlinked := hrep.wellLinked
  have hleafIds : ∀ x ∈ f.arena.liveIds, (f.arena.read x).type = .leaf → x ∈ f.arena.leafIds :=
    fun x hx htype => NodeArena.mem_leafIds.mpr ⟨(NodeArena.mem_liveIds.mp hx).1, htype⟩
  have hall : ∀ t ∈ targetHashes, Stored f t ∨ ((∀ a b, t ≠ parentHash a b) ∧ t ∉ targetHashes) := by
    apply Verify.verifyProof_hashes (fun h => Stored f h ∨ ((∀ a b, h ≠ parentHash a b) ∧ h ∉ targetHashes)) _ _
      haccept
    · intro r hr
      obtain ⟨o, ho, hro⟩ := forall₂_exists hroots hr
      cases o with
      | none => exact Or.inr hro
      | some root => exact Or.inl (by rw [show r = root from hro]; exact hrep.root_stored ho)
    · rintro a b (⟨x, hx, hhash⟩ | hno)
      · rcases hrep.type_cases hx with htype | htype
        · exact absurd hhash (hrange _ (hleaves x (hleafIds x hx htype)) a b)
        · have hsplit := hlinked.branch_hash x hx htype
          rw [hhash] at hsplit
          obtain ⟨ha, hb⟩ := hinj _ _ _ _ hsplit
          obtain ⟨⟨hl, -⟩, hr, -⟩ := hlinked.children x hx htype
          exact ⟨Or.inl ⟨_, hl, ha.symm⟩, Or.inl ⟨_, hr, hb.symm⟩⟩
      · exact absurd rfl (hno.1 a b)
  intro t ht
  have hstored : Stored f t := (hall t ht).resolve_right fun h => h.2 ht
  refine ⟨hstored, fun hleaf => ?_⟩
  obtain ⟨x, hx, hhash⟩ := hstored
  rcases hrep.type_cases hx with htype | htype
  · exact ⟨x, hleafIds x hx htype, hhash⟩
  · exact absurd (hhash.symm.trans (hlinked.branch_hash x hx htype)) (hrange t hleaf _ _)

end Sound

def threeForest : PackedForest TermHash :=
  match (PackedForest.new : PackedForest TermHash).run threeCalls with
  | .ok (_, f) => f
  | .error _ => .new

theorem run_threeCalls : ∃ results, PackedForest.new.run threeCalls = .ok (results, threeForest) := by
  have hok : ((PackedForest.new : PackedForest TermHash).run threeCalls).isOk = true := by decide +kernel
  unfold threeForest
  cases h : (PackedForest.new : PackedForest TermHash).run threeCalls with
  | error fault => rw [h] at hok; cases hok
  | ok p => exact ⟨p.1, rfl⟩

theorem reachable_threeForest : Reachable threeForest := by
  obtain ⟨results, hrun⟩ := run_threeCalls
  exact ⟨threeCalls, results, freshRun_threeCalls, hrun⟩

theorem verifyProof_membership_three :
    verifyProof ⟨[2], []⟩ [TermHash.leaf 3] [TermHash.leaf 2, TermHash.leaf 3] threeForest.numLeaves = .ok true ∧
      ∀ t ∈ [TermHash.leaf 3], Stored threeForest t ∧
        ((∃ n, t = .leaf n) → ∃ x ∈ threeForest.arena.leafIds, (threeForest.arena.read x).hash = t) := by
  have hleaves : ∀ x ∈ threeForest.arena.leafIds, ∃ n, (threeForest.arena.read x).hash = .leaf n := by
    have h : ∀ x ∈ threeForest.arena.leafIds,
        (match (threeForest.arena.read x).hash with | .leaf _ => true | _ => false) = true := by decide +kernel
    intro x hx
    have := h x hx
    split at this
    · exact ⟨_, by assumption⟩
    · cases this
  have hroots : threeForest.rootHashes = [some (TermHash.leaf 2), some (TermHash.leaf 3)] := by decide +kernel
  have haccept : verifyProof ⟨[2], []⟩ [TermHash.leaf 3] [TermHash.leaf 2, TermHash.leaf 3] threeForest.numLeaves = .ok true := by
    decide +kernel
  obtain ⟨results, hrun⟩ := run_threeCalls
  refine ⟨haccept, verifyProof_membership ?_ ?_ hrun hleaves _ _ [TermHash.leaf 2, TermHash.leaf 3] ?_ haccept⟩
  · intro a b c d h
    exact TermHash.parent.inj h
  · rintro h ⟨n, rfl⟩ a b hn
    cases hn
  · rw [hroots]
    exact .cons rfl (.cons rfl .nil)

end UtreexoBridge
