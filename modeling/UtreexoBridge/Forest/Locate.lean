import UtreexoBridge.Forest.Placed
import UtreexoBridge.Verify.Roots

/-!
# From a position to its node

`DetectOffset` finds the tree of a position and the path inside it, `NodeAt`
walks that path.
-/

namespace UtreexoBridge

open IdTree Position

/-! ## The tree of a position -/

theorem treeSize_eq {leaves row : Nat} (hrow : row ≤ 62) :
    shl 1 row &&& leaves = if leaves.testBit row then 2 ^ row else 0 := by
  rw [shl_one (by omega), Nat.two_pow_and]
  cases leaves.testBit row <;> simp

theorem offset_test_iff {leaves marker nodeRow row : Nat} (hrow : row ≤ 62) (hn : nodeRow ≤ row) :
    shl marker nodeRow &&& rowMask row ≥ shl 1 row &&& leaves ↔ (leaves.testBit row → marker.testBit (row - nodeRow)) := by
  have hbit : (shl marker nodeRow % 2 ^ (row + 1)).testBit row = marker.testBit (row - nodeRow) := by
    rw [Nat.testBit_mod_two_pow, shl, word, Nat.testBit_mod_two_pow, Nat.testBit_shiftLeft]
    simp [show row < 64 by omega, hn]
  have hlt : shl marker nodeRow % 2 ^ (row + 1) < 2 * 2 ^ row := by
    rw [← pow_succ']
    exact Nat.mod_lt _ (by positivity)
  rw [and_rowMask hrow, treeSize_eq hrow, ← hbit]
  generalize shl marker nodeRow % 2 ^ (row + 1) = v at hlt
  split_ifs with h
  · refine ⟨fun hge _ => ?_, fun hv => ?_⟩
    · have hone : v / 2 ^ row = 1 := Nat.div_eq_of_lt_le (by omega) (by omega)
      rw [Nat.testBit_eq_decide_div_mod_eq, decide_eq_true_eq, hone]
    · exact Nat.ge_two_pow_of_testBit (hv h)
  · simp [h]

theorem testBit_wsub_pow {marker row j : Nat} (hrow : row ≤ 62) (hj : j < row) :
    (wsub marker (2 ^ row)).testBit j = marker.testBit j := by
  have hmod : wsub marker (2 ^ row) % 2 ^ row = marker % 2 ^ row := by
    have hsplit : (2 : Nat) ^ 64 = 2 ^ row * (2 ^ (64 - row) - 1) + 2 ^ row := by
      have hpos : 1 ≤ 2 ^ (64 - row) := Nat.one_le_two_pow
      have : (2 : Nat) ^ 64 = 2 ^ row * 2 ^ (64 - row) := by rw [← pow_add]; congr 1; omega
      rw [this, Nat.mul_sub_one, Nat.sub_add_cancel (Nat.le_mul_of_pos_right _ (by omega))]
    rw [wsub, word, Nat.mod_mod_of_dvd _ (Nat.pow_dvd_pow 2 (by omega))]
    rw [show marker + 2 ^ 64 - 2 ^ row = marker + 2 ^ row * (2 ^ (64 - row) - 1) by omega, Nat.add_mul_mod_self_left]
  have h1 := Nat.testBit_mod_two_pow (wsub marker (2 ^ row)) row j
  have h2 := Nat.testBit_mod_two_pow marker row j
  rw [hmod] at h1
  rw [h1] at h2
  simpa [hj] using h2

theorem setRows_succ (numLeaves k : Nat) :
    setRows numLeaves (k + 1) =
      if numLeaves.testBit (k + 1) then (k + 1) :: setRows numLeaves k else setRows numLeaves k := by
  unfold setRows
  rw [List.range_succ, List.reverse_append, List.reverse_singleton, List.singleton_append, List.filter_cons]

theorem setRows_head {numLeaves row : Nat} (h : numLeaves.testBit row) : (setRows numLeaves row)[0]? = some row := by
  unfold setRows
  rw [List.range_succ, List.reverse_append, List.reverse_singleton, List.singleton_append, List.filter_cons, if_pos h]
  rfl

/-- The loop skips every higher tree and stops at `row`, the tree of a node at offset `o` of `nodeRow`. -/
theorem detectOffsetLoop_spec {leaves nodeRow row o : Nat} (hleaves : leaves.testBit row) (hn : nodeRow ≤ row)
    (hstop : nodeRow < row → o.testBit (row - nodeRow) = false)
    (hgo : ∀ j, row < j → leaves.testBit j → o.testBit (j - nodeRow)) (k bigger marker : Nat) (hk : row ≤ k)
    (hk62 : k ≤ 62) (hmarker : ∀ j ≤ k - nodeRow, marker.testBit j = o.testBit j) :
    ∃ c m, detectOffsetLoop leaves nodeRow k bigger marker = (bigger + c, row, m) ∧
      (setRows leaves k)[c]? = some row ∧ ∀ j ≤ row - nodeRow, m.testBit j = o.testBit j := by
  induction k generalizing bigger marker with
  | zero =>
    obtain rfl : row = 0 := by omega
    exact ⟨0, marker, rfl, setRows_head hleaves, hmarker⟩
  | succ k ih =>
    rw [detectOffsetLoop]
    rcases Nat.lt_or_ge row (k + 1) with hlt | hge
    · have htest : leaves.testBit (k + 1) → marker.testBit (k + 1 - nodeRow) := fun hb => by
        rw [hmarker _ (le_refl _)]
        exact hgo _ hlt hb
      rw [if_pos ⟨by omega, (offset_test_iff hk62 (by omega)).mpr htest⟩]
      simp only
      rw [treeSize_eq hk62, setRows_succ]
      by_cases hb : leaves.testBit (k + 1)
      · rw [if_pos hb, if_pos hb, if_pos (by positivity)]
        obtain ⟨c, m, hloop, hrow, hm⟩ := ih (bigger + 1) (wsub marker (2 ^ (k + 1))) (by omega) (by omega)
          fun j hj => by rw [testBit_wsub_pow hk62 (by omega)]; exact hmarker j (by omega)
        exact ⟨c + 1, m, by rw [hloop]; congr 1; omega, hrow, hm⟩
      · rw [if_neg hb, if_neg hb, if_neg (by simp)]
        exact ih bigger marker (by omega) (by omega) fun j hj => hmarker j (by omega)
    · obtain rfl : row = k + 1 := by omega
      rw [if_neg]
      · exact ⟨0, marker, rfl, setRows_head hleaves, hmarker⟩
      · rintro ⟨hgt, htest⟩
        have hbit := (offset_test_iff hk62 (by omega)).mp htest hleaves
        rw [hmarker _ (le_refl _), hstop hgt] at hbit
        cases hbit

theorem testBit_complement {marker j : Nat} (hj : j < 64) : (complement marker).testBit j = !marker.testBit j := by
  have hlt : word marker < 2 ^ 64 := Nat.mod_lt _ (by positivity)
  have h := Nat.testBit_two_pow_sub_succ hlt j
  rw [show 2 ^ 64 - (word marker + 1) = complement marker by unfold complement; omega] at h
  rw [h, word, Nat.testBit_mod_two_pow]
  simp [hj]

/-! ## The walk down -/

variable {H : Type} [ForestHash H]

open PackedForest (walkDown)

theorem walkDown_succ (a : NodeArena H) (bits d node : Nat) :
    walkDown a bits (d + 1) node = (walkDown a (bits >>> 1) d node).bind (walkDown a bits 1) := by
  induction d generalizing node with
  | zero => rfl
  | succ d ih =>
    rw [walkDown, walkDown, ← Nat.shiftRight_add, Nat.add_comm 1 d]
    by_cases hpast : (!a.isLive node || a.isLeaf node) = true
    · rw [if_pos hpast, if_pos hpast]
      rfl
    · rw [if_neg hpast, if_neg hpast]
      dsimp only
      generalize (if bits >>> (d + 1) % 2 = 0 then (a.read node).right else (a.read node).left) = child
      by_cases hnone : child = noNode
      · rw [if_pos hnone, if_pos hnone]
        rfl
      · rw [if_neg hnone, if_neg hnone]
        exact ih child

theorem walkDown_branch {f : PackedForest H} {trees : Nat → Option (IdTree H)} (h : Structured f trees)
    {r o id : Nat} {l s : IdTree H} (hp : Placed trees f.numLeaves r o (.node id l s)) (bits : Nat) :
    walkDown f.arena bits 1 id = .ok (if bits.testBit 0 then l.id else s.id) := by
  obtain ⟨parent, hrec, -, -⟩ := hp.linked h
  have hlive := NodeArena.mem_liveIds.mp (hp.live h id (by simp [ids]))
  have hl : l.id ≠ noNode := Nat.ne_of_lt (h.id_lt (hp.live h l.id (by simp [ids, l.id_mem_ids])))
  have hs : s.id ≠ noNode := Nat.ne_of_lt (h.id_lt (hp.live h s.id (by simp [ids, s.id_mem_ids])))
  have hcheck : (!f.arena.isLive id || f.arena.isLeaf id) = false := by
    simp [NodeArena.isLive, NodeArena.isLeaf, hrec, hlive.1]
  rw [walkDown, hcheck, hrec]
  simp only [Bool.false_eq_true, if_false, Nat.shiftRight_zero, Nat.testBit_zero]
  rcases Nat.mod_two_eq_zero_or_one bits with hb | hb
  · simp [hb, hs, walkDown]
  · simp [hb, hl, walkDown]

theorem Placed.path {f : PackedForest H} {trees : Nat → Option (IdTree H)} (h : Structured f trees) {r o : Nat}
    {t : IdTree H} (hp : Placed trees f.numLeaves r o t) :
    ∃ row root, trees row = some root ∧ r ≤ row ∧ o / 2 ^ (row - r) = rootOffset f.numLeaves row ∧
      ∀ bits, (∀ j < row - r, bits.testBit j = !o.testBit j) →
        walkDown f.arena bits (row - r) root.id = .ok t.id := by
  have hchild : ∀ (r o b row : Nat), b ≤ 1 → r + 1 ≤ row →
      (2 * o + b) / 2 ^ (row - r) = o / 2 ^ (row - (r + 1)) := by
    intro r o b row hb hr
    rw [show row - r = (row - (r + 1)) + 1 by omega, pow_succ', ← Nat.div_div_eq_div_mul]
    congr 1
    omega
  induction hp with
  | @root row t ht => exact ⟨row, t, ht, le_refl _, by simp, fun bits _ => by rw [Nat.sub_self]; rfl⟩
  | @left r o id l s hp ih =>
    obtain ⟨row, root, hrow, hr, hoff, hwalk⟩ := ih
    refine ⟨row, root, hrow, by omega, (hchild r o 0 row (by omega) hr).trans hoff, fun bits hbits => ?_⟩
    rw [show row - r = (row - (r + 1)) + 1 by omega, walkDown_succ, hwalk, Except.bind]
    · rw [show (IdTree.node id l s).id = id from rfl, walkDown_branch h hp, hbits 0 (by omega)]
      simp
    · intro j hj
      rw [Nat.testBit_shiftRight, Nat.add_comm, hbits (j + 1) (by omega), Nat.testBit_succ]
      congr 2
      omega
  | @right r o id l s hp ih =>
    obtain ⟨row, root, hrow, hr, hoff, hwalk⟩ := ih
    refine ⟨row, root, hrow, by omega, (hchild r o 1 row (by omega) hr).trans hoff, fun bits hbits => ?_⟩
    rw [show row - r = (row - (r + 1)) + 1 by omega, walkDown_succ, hwalk, Except.bind]
    · rw [show (IdTree.node id l s).id = id from rfl, walkDown_branch h hp, hbits 0 (by omega)]
      simp
    · intro j hj
      rw [Nat.testBit_shiftRight, Nat.add_comm, hbits (j + 1) (by omega), Nat.testBit_succ]
      congr 2
      omega

theorem At.nodeAt {f : PackedForest H} {trees : Nat → Option (IdTree H)} (h : Structured f trees)
    (hle : f.numLeaves ≤ 2 ^ 62) {pos : Nat} {t : IdTree H} (hat : At trees f.numLeaves pos t) :
    f.nodeAt pos = .ok t.id := by
  obtain ⟨r, o, hp, rfl⟩ := hat
  obtain ⟨row, root, hrow, hr, hoff, hwalk⟩ := hp.path h
  have hbit := h.bits row root hrow
  have hrows := testBit_le_treeRows hbit
  have hfr := treeRows_le_62 hle
  have hrr := hp.row_le h
  have ho := hp.offset_lt_pow h
  have hhigh : ∀ j, row ≤ j → o.testBit (j - r) = (rootOffset f.numLeaves row).testBit (j - row) := by
    intro j hj
    rw [← hoff, Nat.testBit_div_two_pow]
    congr 1
    omega
  obtain ⟨c, m, hloop, hindex, hm⟩ := detectOffsetLoop_spec hbit hr (o := o)
    (fun _ => by rw [hhigh row (le_refl _)]; simp [rootOffset])
    (fun j hj hb => by
      rw [hhigh j (by omega), rootOffset, show j - row = (j - row - 1) + 1 by omega, Nat.testBit_succ,
        Nat.mul_div_cancel_left _ (by omega), Nat.testBit_div_two_pow, show j - row - 1 + (row + 1) = j by omega]
      exact hb)
    (treeRows f.numLeaves) 0 (rowPos (treeRows f.numLeaves) r o) hrows hfr
    (fun j hj => by rw [testBit_rowPos hrr ho, if_pos (by omega)])
  have hdetect : detectOffset (rowPos (treeRows f.numLeaves) r o) f.numLeaves = ⟨c, row - r, complement m⟩ := by
    rw [detectOffset, detectRow_rowPos hrr ho]
    simp only [hloop, Nat.zero_add]
    rw [if_neg (by omega)]
  have hroot : rootAt f.roots row = root.id := by rw [h.roots row (h.row_lt hrow), hrow]; rfl
  have hne : root.id ≠ noNode :=
    Nat.ne_of_lt (h.id_lt (h.shape.mem_live (h.mem_rows hrow) root.id_mem_ids))
  have hpos : f.numLeaves ≠ 0 := by
    rintro hz
    rw [hz] at hbit
    simp at hbit
  rw [PackedForest.nodeAt, if_neg hpos, hdetect]
  simp only [hindex, hroot, if_neg hne]
  apply hwalk
  intro j hj
  rw [testBit_complement (by omega), hm j (by omega)]

end UtreexoBridge
