import UtreexoBridge.Forest.Delete
import UtreexoBridge.Position.Nodes

/-! # Walking up to the root -/

namespace UtreexoBridge

open IdTree Position

variable {H : Type} [ForestHash H]

/-- The bit that `PositionOf` notes for a frame: 1 if the hole is on the right. -/
def IdTree.Frame.bit (f : Frame H) : Nat := if f.left then 0 else 1

/-- The directions after climbing through the frames. -/
def directionsOf (directions : Nat) : List (Frame H) → Nat
  | [] => directions
  | f :: fs => directionsOf (shl directions 1 ||| f.bit) fs

omit [ForestHash H] in
theorem length_le_height (fs : List (Frame H)) (t : IdTree H) : fs.length + t.height ≤ (plug fs t).height := by
  induction fs generalizing t with
  | nil => simp [plug]
  | cons f fs ih =>
    have hfill : t.height + 1 ≤ (f.fill t).height := by
      unfold Frame.fill
      split_ifs <;> simp only [IdTree.height] <;> omega
    have := ih (f.fill t)
    rw [plug, List.length_cons]
    omega

theorem climb_spec {a : NodeArena H} (fs : List (Frame H)) (t : IdTree H) (fuel directions distance : Nat)
    (hfuel : fs.length < fuel) (hd : distance < 256) (hlinked : Linked a.read (plug fs t) noNode)
    (hnodup : (plug fs t).ids.Nodup) (hne : ∀ x ∈ (plug fs t).ids, x ≠ noNode) :
    PackedForest.climb a fuel t.id directions distance =
      .ok (.ok ((plug fs t).id, directionsOf directions fs, (distance + fs.length) % 256)) := by
  induction fs generalizing t fuel directions distance with
  | nil =>
    obtain ⟨fuel, rfl⟩ : ∃ k, fuel = k + 1 := ⟨fuel - 1, by simp at hfuel; omega⟩
    have hparent := (show Linked a.read t noNode from hlinked).parent_eq
    rw [PackedForest.climb, if_pos hparent]
    simp only [plug, directionsOf, List.length_nil, Nat.add_zero]
    rw [Nat.mod_eq_of_lt (by omega)]
  | cons f fs ih =>
    obtain ⟨fuel, rfl⟩ : ∃ k, fuel = k + 1 := ⟨fuel - 1, by simp at hfuel; omega⟩
    have hids := ids_plug (f :: fs) t
    have hnd := hids.nodup_iff.mp hnodup
    rw [frameIds, List.nodup_append] at hnd
    obtain ⟨hl, hframes⟩ := (linked_plug (f :: fs) t).mp hlinked
    have hparent : (a.read t.id).parent = f.id := hl.parent_eq
    have hfne : f.id ≠ noNode := hne f.id (hids.mem_iff.mpr (by simp [frameIds]))
    have hsib : f.sibling.id ≠ t.id := fun he =>
      hnd.2.2 t.id t.id_mem_ids f.sibling.id (by simp [f.sibling.id_mem_ids]) he.symm
    have hup := ih (f.fill t) fuel (shl directions 1 ||| f.bit) ((distance + 1) % 256) (by simpa using hfuel)
      (by omega) hlinked hnodup hne
    rw [fill_id] at hup
    have hcount : ((distance + 1) % 256 + fs.length) % 256 = (distance + (f :: fs).length) % 256 := by
      rw [List.length_cons]; omega
    rw [hcount] at hup
    rw [PackedForest.climb]
    simp only [hparent, if_neg hfne]
    obtain ⟨hrec, -, -⟩ := hframes
    rw [hrec, Frame.record]
    rw [directionsOf, plug]
    unfold IdTree.Frame.bit at hup ⊢
    cases hdir : f.left with
    | true =>
      rw [hdir] at hup
      simp only [if_true] at hup ⊢
      rw [if_neg hsib, if_neg (by simp), ← hup, Nat.or_zero]
    | false =>
      rw [hdir] at hup
      simp only [Bool.false_eq_true, if_false, if_true] at hup ⊢
      exact hup

namespace Structured

variable {f : PackedForest H} {trees : Nat → Option (IdTree H)}

theorem bit_lt (h : Structured f trees) {row : Nat} (hbit : f.numLeaves.testBit row) : row < 64 := by
  by_contra hge
  rw [Nat.testBit_lt_two_pow (lt_of_lt_of_le h.bound (Nat.pow_le_pow_right (by omega) (by omega)))] at hbit
  cases hbit

theorem positionOf_eq (h : Structured f trees) {row : Nat} {fs : List (Frame H)} {t : IdTree H}
    (ht : trees row = some (plug fs t)) :
    f.positionOf t.id = .ok (.ok (PackedForest.descend (treeRows f.numLeaves) fs.length (directionsOf 0 fs)
      (rootPosition f.numLeaves row (treeRows f.numLeaves)))) := by
  have hmem := h.mem_rows ht
  have hheight := h.height row _ ht
  have hrow := h.row_lt ht
  have hlen := length_le_height fs t
  have hclimb := climb_spec (a := f.arena) fs t PackedForest.chainFuel 0 0 (by unfold PackedForest.chainFuel; omega)
    (by omega) (h.shape.linked _ hmem) (h.shape.ids_nodup hmem)
    (fun x hx => Nat.ne_of_lt (h.id_lt (h.shape.mem_live hmem hx)))
  rw [Nat.zero_add, Nat.mod_eq_of_lt (by omega)] at hclimb
  have hbit := h.bits row _ ht
  have hfind : (List.range (treeRows f.numLeaves + 1)).find?
      (fun r => f.numLeaves.testBit r && rootAt f.roots r = (plug fs t).id) = some row := by
    apply find?_range_eq
    · have := testBit_le_treeRows hbit
      omega
    · rw [h.roots row hrow, ht, hbit]
      simp
    · intro r _ hp
      simp only [Bool.and_eq_true, decide_eq_true_eq] at hp
      have hr := h.bit_lt hp.1
      have hroot := hp.2
      rw [h.roots r hr] at hroot
      cases hs : trees r with
      | none =>
        rw [hs, Option.elim_none] at hroot
        exact absurd hroot.symm (Nat.ne_of_lt (h.id_lt (h.shape.mem_live hmem (plug fs t).id_mem_ids)))
      | some s =>
        rw [hs, Option.elim_some] at hroot
        exact h.row_unique hs ht (by rw [← hroot]; exact s.id_mem_ids) (plug fs t).id_mem_ids
  rw [PackedForest.positionOf, hclimb]
  simp only [hfind]

theorem positionOf_leaf (h : Structured f trees) {x : Nat} {v : H} (hx : (x, v) ∈ leavesOf (rowTrees trees)) :
    ∃ pos, f.positionOf x = .ok (.ok pos) := by
  obtain ⟨t, ht, hxt⟩ := List.mem_flatMap.mp hx
  obtain ⟨row, -, hrow⟩ := mem_rowTrees.mp ht
  obtain ⟨fs, rfl⟩ := exists_plug hxt
  exact ⟨_, h.positionOf_eq (t := .leaf x v) hrow⟩

end Structured

end UtreexoBridge
