import UtreexoBridge.Forest.Prove
import UtreexoBridge.Forest.Reachable
import UtreexoBridge.Forest.RoundTrip

/-!
# `PositionOf` and `NodeAt` are inverse

Every live node is placed once. `PositionOf` computes its place from the parent
links and `NodeAt` finds the node at its place.
-/

namespace UtreexoBridge

open IdTree Position

section Places

variable {H : Type} [ForestHash H] {f : PackedForest H} {trees : Nat → Option (IdTree H)}

omit [ForestHash H] in
theorem Placed.exists_plug {numLeaves r o : Nat} {t : IdTree H} (hp : Placed trees numLeaves r o t) :
    ∃ row fs, trees row = some (plug fs t) ∧ r + fs.length = row ∧ o = offsetOf (rootOffset numLeaves row) fs := by
  induction hp with
  | @root row t ht => exact ⟨row, [], ht, rfl, rfl⟩
  | @left r o id l s _ ih =>
    obtain ⟨row, fs, ht, hrow, ho⟩ := ih
    refine ⟨row, ⟨id, true, s⟩ :: fs, ht, ?_, ?_⟩
    · rw [List.length_cons]
      omega
    · rw [offsetOf, ← ho]
      rfl
  | @right r o id l s _ ih =>
    obtain ⟨row, fs, ht, hrow, ho⟩ := ih
    refine ⟨row, ⟨id, false, l⟩ :: fs, ht, ?_, ?_⟩
    · rw [List.length_cons]
      omega
    · rw [offsetOf, ← ho]
      rfl

theorem At.positionOf (h : Structured f trees) (hle : f.numLeaves ≤ 2 ^ 62) {pos : Nat} {t : IdTree H}
    (hat : At trees f.numLeaves pos t) : f.positionOf t.id = .ok (.ok pos) := by
  obtain ⟨r, o, hp, rfl⟩ := hat
  obtain ⟨row, fs, ht, hrow, rfl⟩ := hp.exists_plug
  rw [h.positionOf_eq ht, descend_plug h hle fs t ht, show row - fs.length = r by omega]

theorem Structured.exists_at (h : Structured f trees) {x : Nat} (hx : x ∈ f.arena.liveIds) :
    ∃ pos t, At trees f.numLeaves pos t ∧ t.id = x := by
  obtain ⟨row, fs, s, ht, hs, -⟩ := h.exists_linked hx
  exact ⟨_, s, ⟨_, _, placed_plug h fs s ht, rfl⟩, hs⟩

theorem Structured.branch_at (h : Structured f trees) (hle : f.numLeaves ≤ 2 ^ 62) {x : Nat}
    (hx : x ∈ f.arena.liveIds) (htype : (f.arena.read x).type = .branch) :
    ∃ pos l s, f.positionOf x = .ok (.ok pos) ∧ (f.arena.read x).left = l.id ∧ (f.arena.read x).right = s.id ∧
      At trees f.numLeaves (leftChild pos (treeRows f.numLeaves)) l ∧
      At trees f.numLeaves (rightChild pos (treeRows f.numLeaves)) s ∧
      rightChild pos (treeRows f.numLeaves) = leftChild pos (treeRows f.numLeaves) ^^^ 1 ∧
      parent (leftChild pos (treeRows f.numLeaves)) (treeRows f.numLeaves) = pos ∧
      parent (rightChild pos (treeRows f.numLeaves)) (treeRows f.numLeaves) = pos := by
  obtain ⟨pos, t, hat, rfl⟩ := h.exists_at hx
  have hpos := hat.positionOf h hle
  obtain ⟨r, o, hp, rfl⟩ := hat
  obtain ⟨up, hlinked⟩ := hp.linked h
  cases t with
  | leaf id v =>
    rw [IdTree.id, show f.arena.read id = _ from hlinked] at htype
    cases htype
  | node id l s =>
    have hrec := hlinked.1
    have hheight := hp.height_le h
    rw [IdTree.height] at hheight
    obtain ⟨r, rfl⟩ : ∃ k, r = k + 1 := ⟨r - 1, by omega⟩
    have hfr := treeRows_le_62 hle
    have hrow := hp.row_le h
    have hoff := hp.offset_lt_pow h
    obtain ⟨heven, hl, hs, hup, hright⟩ := At.children h hle hp
    have hleft := leftChild_rowPos hfr hrow hoff
    have hsibling : rightChild (rowPos (treeRows f.numLeaves) (r + 1) o) (treeRows f.numLeaves) =
        rowPos (treeRows f.numLeaves) r (2 * o) ^^^ 1 := by
      rw [rightChild_rowPos hfr hrow hoff, hright]
    refine ⟨_, l, s, hpos, ?_, ?_, ?_, ?_, ?_, ?_, ?_⟩
    · rw [IdTree.id, hrec]
    · rw [IdTree.id, hrec]
    · rwa [hleft]
    · rwa [hsibling]
    · rw [hsibling, hleft]
    · rwa [hleft]
    · rw [hsibling, parent_sibling hle (hl.isNode h) (hs.isNode h), hup]

end Places

/-- **Positions and nodes.** After any run below 2^62 leaves each live node has one position, `NodeAt` finds it there,
and the children of a branch are at the child positions. -/
theorem positions_nodes_inverse {H : Type} [ForestHash H] [DecidableEq H] {f : PackedForest H} {calls : List (Call H)}
    {results : List Res} (hrun : PackedForest.new.run calls = .ok (results, f)) (hbound : f.numLeaves < 2 ^ 62) :
    ∃ position : Nat → Nat,
      (∀ x ∈ f.arena.liveIds, f.positionOf x = .ok (.ok (position x)) ∧ IsNode f.numLeaves (position x) ∧
        f.nodeAt (position x) = .ok x) ∧
      (∀ x ∈ f.arena.liveIds, ∀ y ∈ f.arena.liveIds, position x = position y → x = y) ∧
      ∀ x ∈ f.arena.liveIds, (f.arena.read x).type = .branch →
        let rows := treeRows f.numLeaves
        let left := (f.arena.read x).left
        let right := (f.arena.read x).right
        left ∈ f.arena.liveIds ∧ right ∈ f.arena.liveIds ∧
          position left = leftChild (position x) rows ∧ position right = rightChild (position x) rows ∧
          position right = position left ^^^ 1 ∧
          parent (position left) rows = position x ∧ parent (position right) rows = position x := by
  have hle := le_of_lt hbound
  obtain ⟨trees, h⟩ := represents_new.toStructured.run hrun
  have hplaces : ∀ x, ∃ pos, x ∈ f.arena.liveIds → ∃ t, At trees f.numLeaves pos t ∧ t.id = x := by
    intro x
    by_cases hx : x ∈ f.arena.liveIds
    · obtain ⟨pos, hat⟩ := h.exists_at hx
      exact ⟨pos, fun _ => hat⟩
    · exact ⟨0, fun hlive => absurd hlive hx⟩
  choose position hposition using hplaces
  have hof : ∀ x ∈ f.arena.liveIds, f.positionOf x = .ok (.ok (position x)) := by
    intro x hx
    obtain ⟨t, hat, rfl⟩ := hposition x hx
    exact hat.positionOf h hle
  have hat_eq : ∀ {pos t}, At trees f.numLeaves pos t → t.id ∈ f.arena.liveIds ∧ position t.id = pos := by
    intro pos t hat
    have hlive : t.id ∈ f.arena.liveIds := by
      obtain ⟨r, o, hp, -⟩ := hat
      exact hp.live h _ t.id_mem_ids
    have heq := (hof _ hlive).symm.trans (hat.positionOf h hle)
    simp only [Except.ok.injEq] at heq
    exact ⟨hlive, heq⟩
  refine ⟨position, fun x hx => ?_, fun x hx y hy heq => ?_, fun x hx htype => ?_⟩
  · obtain ⟨t, hat, rfl⟩ := hposition x hx
    exact ⟨hof _ hx, hat.isNode h, hat.nodeAt h hle⟩
  · obtain ⟨t, hat, rfl⟩ := hposition x hx
    obtain ⟨t', hat', rfl⟩ := hposition y hy
    rw [heq] at hat
    rw [hat.unique h hat']
  · obtain ⟨pos, l, s, hpos, hleft, hright, hl, hs, hsibling, hupLeft, hupRight⟩ := h.branch_at hle hx htype
    have hx' := (hof x hx).symm.trans hpos
    simp only [Except.ok.injEq] at hx'
    obtain ⟨hlLive, hlPos⟩ := hat_eq hl
    obtain ⟨hsLive, hsPos⟩ := hat_eq hs
    dsimp only
    rw [hleft, hright, hlPos, hsPos, hx']
    exact ⟨hlLive, hsLive, rfl, rfl, hsibling, hupLeft, hupRight⟩

/-- Four leaves, one of them spent: its sibling is promoted. -/
theorem positions_nodes_inverse_spending :
    (∃ x ∈ (reached spendingCalls).arena.liveIds, ((reached spendingCalls).arena.read x).type = .branch) ∧
    ∃ position : Nat → Nat,
      (∀ x ∈ (reached spendingCalls).arena.liveIds, (reached spendingCalls).positionOf x = .ok (.ok (position x)) ∧
        IsNode (reached spendingCalls).numLeaves (position x) ∧ (reached spendingCalls).nodeAt (position x) = .ok x) ∧
      ∀ x ∈ (reached spendingCalls).arena.liveIds, ∀ y ∈ (reached spendingCalls).arena.liveIds,
        position x = position y → x = y := by
  refine ⟨by decide +kernel, ?_⟩
  obtain ⟨position, hinverse, hinj, -⟩ := positions_nodes_inverse run_spendingCalls (by decide +kernel)
  exact ⟨position, hinverse, hinj⟩

end UtreexoBridge
