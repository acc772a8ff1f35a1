import UtreexoBridge.Verify.Sound

/-! # The verifier's table of expected roots -/

namespace UtreexoBridge.Verify

open Position

variable {H : Type} {numLeaves : Nat}

theorem mem_setRows {fr row : Nat} : row ∈ setRows numLeaves fr ↔ row ≤ fr ∧ numLeaves.testBit row := by
  simp only [setRows, List.mem_filter, List.mem_reverse, List.mem_range, Nat.lt_succ_iff]

theorem mem_setRows_treeRows {row : Nat} : row ∈ setRows numLeaves (treeRows numLeaves) ↔ numLeaves.testBit row :=
  mem_setRows.trans ⟨fun h => h.2, fun h => ⟨testBit_le_treeRows h, h⟩⟩

theorem setRows_length (hle : numLeaves ≤ 2 ^ 62) :
    (setRows numLeaves (treeRows numLeaves)).length = popcount numLeaves := by
  have h62 := treeRows_le_62 hle
  have hsplit : List.range 64 = List.range (treeRows numLeaves + 1) ++
      (List.range (63 - treeRows numLeaves)).map (treeRows numLeaves + 1 + ·) := by
    rw [← List.range_add]; congr 1; omega
  have hhigh : ((List.range (63 - treeRows numLeaves)).map (treeRows numLeaves + 1 + ·)).countP
      numLeaves.testBit = 0 := by
    rw [List.countP_eq_zero]
    intro row hrow hbit
    obtain ⟨k, -, rfl⟩ := List.mem_map.mp hrow
    have := testBit_le_treeRows hbit
    omega
  rw [popcount, hsplit, List.countP_append, hhigh, Nat.add_zero, setRows, List.countP_eq_length_filter, List.filter_reverse,
    List.length_reverse]

theorem rootPosition_inj (hle : numLeaves ≤ 2 ^ 62) {r r' : Nat} (hr : numLeaves.testBit r)
    (hr' : numLeaves.testBit r')
    (h : rootPosition numLeaves r (treeRows numLeaves) = rootPosition numLeaves r' (treeRows numLeaves)) :
    r = r' := by
  have h62 := treeRows_le_62 hle
  have hpow := le_two_pow_treeRows numLeaves
  have hrow := testBit_le_treeRows hr
  have hrow' := testBit_le_treeRows hr'
  rw [rootPosition_eq h62 hrow hpow, rootPosition_eq h62 hrow' hpow] at h
  exact (rowPos_inj hrow (offset_lt_pow hpow hrow (rootOffset_lt hr)) hrow'
    (offset_lt_pow hpow hrow' (rootOffset_lt hr')) h).1

theorem lookup_map_eq {α β γ : Type} [DecidableEq β] (key : α → β) (val : α → γ) (l : List α) {a : α} (ha : a ∈ l)
    (hinj : ∀ b ∈ l, key a = key b → a = b) : (l.map fun x => (key x, val x)).lookup (key a) = some (val a) := by
  induction l with
  | nil => cases ha
  | cons b l ih =>
    rw [List.map_cons, List.lookup_cons]
    by_cases hkey : key a = key b
    · rw [hinj b (by simp) hkey]; simp
    · have hne : a ≠ b := fun h => hkey (by rw [h])
      rw [beq_eq_false_iff_ne.mpr hkey]
      exact ih ((List.mem_cons.mp ha).resolve_left hne) fun b hb => hinj b (by simp [hb])

theorem expectedRoots_lookup (hle : numLeaves ≤ 2 ^ 62) (value : Nat → H) {row : Nat} (hrow : numLeaves.testBit row) :
    (expectedRoots ((setRows numLeaves (treeRows numLeaves)).map value) numLeaves (treeRows numLeaves)).lookup
      (rootPosition numLeaves row (treeRows numLeaves)) = some (value row) := by
  have hzip : ∀ l : List Nat, l.zip (l.map value) = l.map fun r => (r, value r) := by
    intro l
    induction l with
    | nil => rfl
    | cons r l ih => rw [List.map_cons, List.zip_cons_cons, ih, List.map_cons]
  rw [expectedRoots, hzip, List.map_map]
  apply lookup_map_eq (fun r => rootPosition numLeaves r (treeRows numLeaves)) value _ (mem_setRows_treeRows.mpr hrow)
  intro r' hr' h
  exact rootPosition_inj hle hrow (mem_setRows_treeRows.mp hr') h

end UtreexoBridge.Verify
