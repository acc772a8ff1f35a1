import UtreexoBridge.Forest.Refines
import UtreexoBridge.Validate.Rebuild

/-! # A forest of trees passes the full validation -/

namespace UtreexoBridge

open IdTree

variable {H : Type} [ForestHash H]

theorem WellFormed.congr {roots : List Nat} {next : Nat} {r r' : Nat → NodeRecord H} (h : WellFormed roots next r)
    (hsame : ∀ id < next, r' id = r id) : WellFormed roots next r' := by
  refine ⟨?_, ?_, ?_, ?_, ?_, ?_, ?_, ?_⟩
  · intro root hroot hnone
    have hok := h.listed root hroot hnone
    rw [hsame root hok.1]
    exact hok
  · intro id hid
    rw [hsame id hid]
    exact h.known id hid
  · intro id hid htype
    rw [hsame id hid] at htype ⊢
    exact h.leaf id hid htype
  · intro id hid htype
    rw [hsame id hid] at htype ⊢
    exact h.distinct id hid htype
  · intro id hid htype child hchild
    rw [hsame id hid] at htype hchild
    have hok := h.children id hid htype child hchild
    rw [hsame child hok.1]
    exact hok
  · intro id hid htype
    rw [hsame id hid] at htype ⊢
    rw [hsame _ (h.children id hid htype _ (Or.inl rfl)).1, hsame _ (h.children id hid htype _ (Or.inr rfl)).1]
    exact h.hash id hid htype
  · intro id hid hlive hparent
    rw [hsame id hid] at hlive hparent
    exact h.parentless id hid hlive hparent
  · intro id hid hlive hparent
    rw [hsame id hid] at hlive hparent ⊢
    have hok := h.parented id hid hlive hparent
    rw [hsame _ hok.1]
    exact hok

namespace Structured

variable {f : PackedForest H} {trees : Nat → Option (IdTree H)}

theorem root_mem (h : Structured f trees) {row : Nat} {t : IdTree H} (ht : trees row = some t) : t.id ∈ f.roots.toList := by
  have hrow := h.row_lt ht
  have hroot := h.roots row hrow
  rw [ht, Option.elim_some] at hroot
  unfold rootAt at hroot
  rw [Vector.getElem?_eq_getElem hrow, Option.getD_some] at hroot
  rw [← hroot]
  exact Vector.mem_toList_iff.mpr (Vector.getElem_mem hrow)

theorem exists_root (h : Structured f trees) {root : Nat} (hroot : root ∈ f.roots.toList) (hnone : root ≠ noNode) :
    ∃ row t, trees row = some t ∧ t.id = root := by
  obtain ⟨row, hrow, rfl⟩ := List.getElem_of_mem hroot
  have hlt : row < 64 := by simpa using hrow
  have heq := h.roots row hlt
  unfold rootAt at heq
  rw [Vector.getElem?_eq_getElem hlt, Option.getD_some] at heq
  rw [Vector.getElem_toList] at hnone ⊢
  rw [heq] at hnone ⊢
  cases ht : trees row with
  | none =>
    rw [ht] at hnone
    exact absurd rfl hnone
  | some t => exact ⟨row, t, ht, rfl⟩

theorem wellFormed (h : Structured f trees) : WellFormed f.roots.toList f.arena.next f.arena.read := by
  have hw := h.wellLinked
  have hlive : ∀ id < f.arena.next, (f.arena.read id).type ≠ .free → id ∈ f.arena.liveIds :=
    fun id hid hfree => NodeArena.mem_liveIds.mpr ⟨hid, hfree⟩
  have hnodes : ∀ x ∈ f.arena.liveIds, ∃ row fs s, trees row = some (plug fs s) ∧ s.id = x ∧
      Linked f.arena.read s (holeParent noNode fs) ∧ (s.ids ++ frameIds fs).Nodup := by
    intro x hx
    obtain ⟨row, fs, s, hrow, hs, hl⟩ := h.exists_linked hx
    exact ⟨row, fs, s, hrow, hs, hl, (ids_plug fs s).nodup_iff.mp (h.shape.ids_nodup (h.mem_rows hrow))⟩
  refine ⟨?_, ?_, ?_, ?_, ?_, ?_, ?_, ?_⟩
  · intro root hroot hnone
    obtain ⟨row, t, ht, rfl⟩ := h.exists_root hroot hnone
    have hmem := h.mem_rows ht
    obtain ⟨hlt, htype⟩ := NodeArena.mem_liveIds.mp (h.shape.mem_live hmem t.id_mem_ids)
    exact ⟨hlt, htype, (h.shape.linked t hmem).parent_eq⟩
  · intro id hid
    by_cases hfree : (f.arena.read id).type = .free
    · exact Or.inl hfree
    · obtain ⟨row, fs, s, -, rfl, hl, -⟩ := hnodes id (hlive id hid hfree)
      cases s with
      | leaf id v => exact Or.inr (Or.inl (congrArg NodeRecord.type (show f.arena.read id = _ from hl)))
      | node id l r => exact Or.inr (Or.inr (congrArg NodeRecord.type hl.1))
  · intro id hid htype
    obtain ⟨row, fs, s, -, rfl, hl, -⟩ := hnodes id (hlive id hid (by rw [htype]; simp))
    cases s with
    | leaf id v =>
      rw [IdTree.id, show f.arena.read id = _ from hl]
      exact ⟨rfl, rfl⟩
    | node id l r =>
      rw [IdTree.id, hl.1] at htype
      cases htype
  · intro id hid htype
    obtain ⟨row, fs, s, -, rfl, hl, hnodup⟩ := hnodes id (hlive id hid (by rw [htype]; simp))
    cases s with
    | leaf id v =>
      rw [IdTree.id, show f.arena.read id = _ from hl] at htype
      cases htype
    | node id l r =>
      rw [IdTree.id, hl.1]
      rw [ids, List.cons_append, List.nodup_cons, List.append_assoc, List.nodup_append] at hnodup
      exact fun heq => hnodup.2.2.2 l.id l.id_mem_ids r.id (List.mem_append_left _ r.id_mem_ids) heq
  · intro id hid htype child hchild
    obtain ⟨⟨hl, hlp⟩, hr, hrp⟩ := hw.children id (hlive id hid (by rw [htype]; simp)) htype
    rcases hchild with rfl | rfl
    · exact ⟨(NodeArena.mem_liveIds.mp hl).1, (NodeArena.mem_liveIds.mp hl).2, hlp⟩
    · exact ⟨(NodeArena.mem_liveIds.mp hr).1, (NodeArena.mem_liveIds.mp hr).2, hrp⟩
  · intro id hid htype
    exact (hw.branch_hash id (hlive id hid (by rw [htype]; simp)) htype).symm
  · intro id hid hfree hparent
    obtain ⟨row, fs, s, hrow, rfl, hl, -⟩ := hnodes id (hlive id hid hfree)
    -- a node below a frame has the frame for its parent
    cases fs with
    | nil => exact h.root_mem hrow
    | cons g fs =>
      have hg : g.id ∈ f.arena.liveIds :=
        h.shape.mem_live (h.mem_rows hrow) ((ids_plug (g :: fs) s).mem_iff.mpr (by simp [frameIds]))
      exact absurd (hl.parent_eq.symm.trans hparent) (Nat.ne_of_lt (h.id_lt hg))
  · intro id hid hfree hparent
    have hid' := hlive id hid hfree
    obtain ⟨hp, htype, hside⟩ := hw.parent id hid' hparent
    refine ⟨(NodeArena.mem_liveIds.mp hp).1, ?_, htype, hside⟩
    obtain ⟨row, fs, s, -, rfl, hl, hnodup⟩ := hnodes id hid'
    cases fs with
    | nil => exact absurd hl.parent_eq hparent
    | cons g fs =>
      rw [hl.parent_eq]
      rw [frameIds, List.nodup_append] at hnodup
      exact fun heq => hnodup.2.2 s.id s.id_mem_ids g.id (by simp) heq.symm

theorem rebuilt [DecidableEq H] (h : Structured f trees) {u g : PackedForest H} (hmapped : u.arena.Mapped)
    (hread : u.arena.read = f.arena.read) (hnext : u.arena.next = f.arena.next) (hroots : u.roots = f.roots)
    (hnum : u.numLeaves = f.numLeaves) (hg : u.Rebuilt g) : Structured g trees := by
  have harena : g.arena = u.arena.booked := congrArg PackedForest.arena hg.eq
  have hlive : g.arena.liveIds = f.arena.liveIds := by
    unfold NodeArena.liveIds
    rw [harena, NodeArena.booked_read, hread]
    exact congrArg (Finset.filter _ <| Finset.range ·) hnext
  have hgroots : g.roots = f.roots := (congrArg PackedForest.roots hg.eq).trans hroots
  have hgnum : g.numLeaves = f.numLeaves := (congrArg PackedForest.numLeaves hg.eq).trans hnum
  refine ⟨?_, ?_, ?_, ?_, h.height, ?_, ?_⟩
  · rw [harena]
    exact NodeArena.booked_bookkeeping hmapped
  · rw [hlive, harena, NodeArena.booked_read, hread]
    exact h.shape
  · rw [hgroots]
    exact h.roots
  · rw [hgnum]
    exact h.bits
  · rw [harena]
    exact hg.indexes
  · rw [hgnum]
    exact h.bound

end Structured

end UtreexoBridge
