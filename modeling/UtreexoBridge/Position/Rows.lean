import Mathlib.Tactic.Ring
import Mathlib.Tactic.Linarith
import UtreexoBridge.Position.Spec

/-!
# Rows and offsets

A position below `2 ^ (forestRows + 1) - 1` is a row and an offset in it. On
these the bit tricks of `position.cpp` are plain arithmetic.
-/

namespace UtreexoBridge.Position

/-! ## The truncated operators, where nothing is cut off -/

theorem word_of_lt {a : Nat} (h : a < 2 ^ 64) : word a = a := Nat.mod_eq_of_lt h

theorem shl_one {fr : Nat} (h : fr ≤ 63) : shl 1 fr = 2 ^ fr := by
  rw [shl, Nat.one_shiftLeft, word_of_lt (Nat.pow_lt_pow_right (by omega) (by omega))]

theorem rowMask_eq {fr : Nat} (h : fr ≤ 62) : rowMask fr = 2 ^ (fr + 1) - 1 := by
  have hlt : 2 ^ (fr + 1) < 2 ^ 64 := Nat.pow_lt_pow_right (by omega) (by omega)
  have hpos : 0 < 2 ^ (fr + 1) := Nat.pow_pos (by omega)
  have hshl : shl 2 fr = 2 ^ (fr + 1) := by
    rw [shl, Nat.shiftLeft_eq, pow_succ, mul_comm, word_of_lt (by rw [← pow_succ]; exact hlt)]
  rw [rowMask, hshl, wsub, word]
  rw [show 2 ^ (fr + 1) + 2 ^ 64 - 1 = 2 ^ (fr + 1) - 1 + 2 ^ 64 by omega, Nat.add_mod_right]
  exact Nat.mod_eq_of_lt (by omega)

theorem and_rowMask {fr : Nat} (h : fr ≤ 62) (a : Nat) : a &&& rowMask fr = a % 2 ^ (fr + 1) := by
  rw [rowMask_eq h, Nat.and_two_pow_sub_one_eq_mod]

/-! ## Rows -/

def rowStart (fr r : Nat) : Nat := 2 ^ (fr + 1 - r) * (2 ^ r - 1)

def rowPos (fr r o : Nat) : Nat := rowStart fr r + o

theorem rowStart_add (fr r : Nat) (h : r ≤ fr + 1) :
    rowStart fr r + 2 ^ (fr + 1 - r) = 2 ^ (fr + 1) := by
  have hpos : 0 < 2 ^ r := Nat.pow_pos (by omega)
  calc rowStart fr r + 2 ^ (fr + 1 - r)
      = 2 ^ (fr + 1 - r) * (2 ^ r - 1 + 1) := by rw [rowStart, Nat.mul_add, Nat.mul_one]
    _ = 2 ^ (fr + 1 - r) * 2 ^ r := by rw [Nat.sub_add_cancel hpos]
    _ = 2 ^ (fr + 1) := by rw [← pow_add]; congr 1; omega

@[simp] theorem rowStart_zero (fr : Nat) : rowStart fr 0 = 0 := by simp [rowStart]

theorem pow_row_succ {fr r : Nat} (h : r ≤ fr) : 2 ^ (fr + 1 - r) = 2 * 2 ^ (fr - r) := by
  rw [← pow_succ']; congr 1; omega

theorem rowStart_succ (fr r : Nat) (h : r ≤ fr) :
    2 * rowStart fr (r + 1) = rowStart fr r + 2 ^ (fr + 1) := by
  have h1 := rowStart_add fr r (by omega)
  have h2 := rowStart_add fr (r + 1) (by omega)
  have h3 := pow_row_succ h
  rw [show fr + 1 - (r + 1) = fr - r by omega] at h2
  omega

theorem rowStart_even {fr r : Nat} (h : r ≤ fr) : rowStart fr r % 2 = 0 := by
  have h1 := rowStart_succ fr r h
  have h2 : 2 ^ (fr + 1) = 2 * 2 ^ fr := pow_succ' 2 fr
  omega

theorem rowPos_lt {fr r o : Nat} (hr : r ≤ fr) (ho : o < 2 ^ (fr - r)) :
    rowPos fr r o < 2 ^ (fr + 1) - 1 := by
  have h1 := rowStart_add fr r (by omega)
  have h2 := pow_row_succ hr
  unfold rowPos
  omega

theorem exists_rowPos (fr pos : Nat) (h : pos < 2 ^ (fr + 1) - 1) :
    ∃ r o, r ≤ fr ∧ o < 2 ^ (fr - r) ∧ pos = rowPos fr r o := by
  induction fr generalizing pos with
  | zero => exact ⟨0, pos, le_refl _, by simpa using h, by simp [rowPos]⟩
  | succ fr ih =>
    by_cases hlow : pos < 2 ^ (fr + 1)
    · exact ⟨0, pos, by omega, by simpa using hlow, by simp [rowPos]⟩
    · have hpow : 2 ^ (fr + 1 + 1) = 2 * 2 ^ (fr + 1) := pow_succ' 2 (fr + 1)
      obtain ⟨r, o, hr, ho, hpos⟩ := ih (pos - 2 ^ (fr + 1)) (by omega)
      refine ⟨r + 1, o, by omega, by simpa using ho, ?_⟩
      have h1 := rowStart_add fr r (by omega)
      have h2 := rowStart_add (fr + 1) (r + 1) (by omega)
      rw [show fr + 1 + 1 - (r + 1) = fr + 1 - r by omega] at h2
      unfold rowPos at hpos ⊢
      omega

theorem testBit_rowPos {fr r o : Nat} (hr : r ≤ fr) (ho : o < 2 ^ (fr - r)) (j : Nat) :
    (rowPos fr r o).testBit j = if j < fr + 1 - r then o.testBit j else decide (j - (fr + 1 - r) < r) := by
  have hlt : o < 2 ^ (fr + 1 - r) := lt_of_lt_of_le ho (Nat.pow_le_pow_right (by omega) (by omega))
  rw [rowPos, rowStart, Nat.testBit_two_pow_mul_add _ hlt, Nat.testBit_two_pow_sub_one]

theorem detectRowLoop_ones (pos : Nat) (j : Nat) : ∀ k row, j < k → (∀ i, k - 1 - j < i → i < k → pos.testBit i) →
    pos.testBit (k - 1 - j) = false → detectRowLoop pos k row = row + j := by
  induction j with
  | zero =>
    intro k row hk _ hstop
    obtain ⟨k, rfl⟩ : ∃ m, k = m + 1 := ⟨k - 1, by omega⟩
    simp only [Nat.add_sub_cancel, Nat.sub_zero] at hstop
    simp [detectRowLoop, hstop]
  | succ j ih =>
    intro k row hk hones hstop
    obtain ⟨k, rfl⟩ : ∃ m, k = m + 1 := ⟨k - 1, by omega⟩
    have htop : pos.testBit k := hones k (by omega) (by omega)
    rw [detectRowLoop, if_pos htop, ih k (row + 1) (by omega)]
    · omega
    · intro i h1 h2; exact hones i (by omega) (by omega)
    · rw [← hstop]; congr 1; omega

theorem detectRow_rowPos {fr r o : Nat} (hr : r ≤ fr) (ho : o < 2 ^ (fr - r)) :
    detectRow (rowPos fr r o) fr = r := by
  unfold detectRow
  rw [detectRowLoop_ones _ r _ _ (by omega), Nat.zero_add]
  · intro i h1 h2
    rw [testBit_rowPos hr ho, if_neg (by omega)]
    simpa using by omega
  · rw [testBit_rowPos hr ho, if_pos (by omega)]
    exact Nat.testBit_lt_two_pow (by rw [show fr + 1 - 1 - r = fr - r by omega]; exact ho)

theorem rowPos_inj {fr r o r' o' : Nat} (hr : r ≤ fr) (ho : o < 2 ^ (fr - r)) (hr' : r' ≤ fr)
    (ho' : o' < 2 ^ (fr - r')) (h : rowPos fr r o = rowPos fr r' o') : r = r' ∧ o = o' := by
  have hrow : r = r' := by rw [← detectRow_rowPos hr ho, h, detectRow_rowPos hr' ho']
  subst hrow
  exact ⟨rfl, Nat.add_left_cancel h⟩

/-! ## Relatives -/

theorem parent_eq {fr pos : Nat} (hfr : fr ≤ 63) (h : pos < 2 ^ (fr + 1)) : parent pos fr = pos / 2 + 2 ^ fr := by
  have hlt : pos / 2 < 2 ^ fr := by rw [pow_succ] at h; omega
  have hor : 2 ^ fr + pos / 2 = 2 ^ fr ||| pos / 2 := by simpa using Nat.two_pow_add_eq_or_of_lt hlt 1
  rw [parent, shl_one hfr, Nat.shiftRight_one, Nat.or_comm, ← hor, Nat.add_comm]

theorem parent_rowPos {fr r o : Nat} (hfr : fr ≤ 63) (hr : r ≤ fr) (ho : o < 2 ^ (fr - r)) :
    parent (rowPos fr r o) fr = rowPos fr (r + 1) (o / 2) := by
  rw [parent_eq hfr (by have := rowPos_lt hr ho; omega)]
  have h1 := rowStart_succ fr r hr
  have h2 : 2 ^ (fr + 1) = 2 * 2 ^ fr := pow_succ' 2 fr
  have h3 := rowStart_even hr
  unfold rowPos
  omega

theorem leftChild_rowPos {fr r o : Nat} (hfr : fr ≤ 62) (hr : r + 1 ≤ fr) (ho : o < 2 ^ (fr - (r + 1))) :
    leftChild (rowPos fr (r + 1) o) fr = rowPos fr r (2 * o) := by
  have hlt := rowPos_lt hr ho
  have hpow : 2 ^ (fr + 1) < 2 ^ 64 := Nat.pow_lt_pow_right (by omega) (by omega)
  have hpow2 : 2 ^ (fr + 1) ≤ 2 ^ 63 := Nat.pow_le_pow_right (by omega) (by omega)
  have hshl : shl (rowPos fr (r + 1) o) 1 = 2 * rowPos fr (r + 1) o := by
    rw [shl, Nat.shiftLeft_eq, pow_one, mul_comm, word_of_lt (by omega)]
  have ho2 : 2 * o < 2 ^ (fr - r) := by
    rw [show fr - r = fr - (r + 1) + 1 by omega, pow_succ]; omega
  rw [leftChild, and_rowMask hfr, hshl]
  have h1 := rowStart_succ fr r (by omega)
  have h2 : 2 * rowPos fr (r + 1) o = rowPos fr r (2 * o) + 2 ^ (fr + 1) := by unfold rowPos; omega
  rw [h2, Nat.add_mod_right]
  exact Nat.mod_eq_of_lt (lt_of_lt_of_le (rowPos_lt (by omega) ho2) (Nat.sub_le _ _))

theorem rightChild_rowPos {fr r o : Nat} (hfr : fr ≤ 62) (hr : r + 1 ≤ fr) (ho : o < 2 ^ (fr - (r + 1))) :
    rightChild (rowPos fr (r + 1) o) fr = rowPos fr r (2 * o + 1) := by
  rw [rightChild, leftChild_rowPos hfr hr ho]; rfl

theorem xor_one_even {x : Nat} (h : x % 2 = 0) : x ^^^ 1 = x + 1 := by
  obtain ⟨k, rfl⟩ : ∃ k, x = 2 * k := ⟨x / 2, by omega⟩
  apply Nat.eq_of_testBit_eq
  intro i
  cases i with
  | zero => simp
  | succ i =>
    simp [Nat.testBit_succ]

theorem or_one_even {x : Nat} (h : x % 2 = 0) : x ||| 1 = x + 1 := by
  have hdiv : (x ||| 1) / 2 = x / 2 := by rw [Nat.or_div_two, show 1 / 2 = 0 from rfl, Nat.or_zero]
  have hmod : (x ||| 1) % 2 = 1 := Nat.or_mod_two_eq_one.mpr (Or.inr rfl)
  omega

theorem xor_one_odd {x : Nat} (h : x % 2 = 1) : x ^^^ 1 = x - 1 := by
  have h1 := xor_one_even (x := x - 1) (by omega)
  rw [show x - 1 + 1 = x by omega] at h1
  rw [← h1, Nat.xor_assoc, Nat.xor_self, Nat.xor_zero, h1]

theorem xor_one_xor_one (x : Nat) : x ^^^ 1 ^^^ 1 = x := by
  rw [Nat.xor_assoc, Nat.xor_self, Nat.xor_zero]

theorem sibling_rowPos {fr r o : Nat} (hr : r ≤ fr) : rowPos fr r o ^^^ 1 = rowPos fr r (o ^^^ 1) := by
  have h := rowStart_even hr
  rcases Nat.mod_two_eq_zero_or_one o with ho | ho
  · rw [xor_one_even ho, xor_one_even (by unfold rowPos; omega)]; rfl
  · rw [xor_one_odd ho, xor_one_odd (by unfold rowPos; omega)]; unfold rowPos; omega

theorem xor_one_div (o : Nat) : (o ^^^ 1) / 2 = o / 2 := by
  rcases Nat.mod_two_eq_zero_or_one o with ho | ho
  · rw [xor_one_even ho]; omega
  · rw [xor_one_odd ho]; omega

/-! ## Roots -/

theorem shl_rowMask {fr k : Nat} (hfr : fr ≤ 62) (j : Nat) :
    (shl (rowMask fr) k).testBit j = (decide (j < 64) && decide (k ≤ j) && decide (j - k < fr + 1)) := by
  rw [shl, word, rowMask_eq hfr, Nat.testBit_mod_two_pow, Nat.testBit_shiftLeft, Nat.testBit_two_pow_sub_one]
  simp [Bool.and_assoc]

theorem rootPosition_eq {leaves row fr : Nat} (hfr : fr ≤ 62) (hrow : row ≤ fr) (hleaves : leaves ≤ 2 ^ fr) :
    rootPosition leaves row fr = rowPos fr row (2 * (leaves / 2 ^ (row + 1))) := by
  have hlt : leaves < 2 ^ (fr + 1) := lt_of_le_of_lt hleaves (Nat.pow_lt_pow_right (by omega) (by omega))
  have hoff : 2 * (leaves / 2 ^ (row + 1)) < 2 ^ (fr + 1 - row) := by
    have h1 : leaves / 2 ^ (row + 1) < 2 ^ (fr + 1 - (row + 1)) := by
      rw [Nat.div_lt_iff_lt_mul (Nat.pow_pos (by omega)), ← pow_add,
        show fr + 1 - (row + 1) + (row + 1) = fr + 1 by omega]
      exact hlt
    rw [pow_row_succ hrow]
    simp only [Nat.reduceSubDiff] at h1
    omega
  apply Nat.eq_of_testBit_eq
  intro j
  simp only [rootPosition, Nat.testBit_and, Nat.testBit_or, Nat.testBit_shiftRight, shl_rowMask hfr]
  rw [rowMask_eq hfr, Nat.testBit_two_pow_sub_one, rowPos, rowStart, Nat.testBit_two_pow_mul_add _ hoff,
    Nat.testBit_two_pow_sub_one]
  by_cases hj : j < fr + 1 - row
  · rw [if_pos hj]
    cases j with
    | zero =>
      simp
      omega
    | succ j =>
      have hdiv : (2 * (leaves / 2 ^ (row + 1))).testBit (j + 1) = leaves.testBit (j + (row + 1)) := by
        rw [Nat.testBit_succ, Nat.mul_div_cancel_left _ (by omega), Nat.testBit_div_two_pow]
      rw [hdiv, show row + (j + 1) = j + (row + 1) by omega]
      have h1 : j + (row + 1) < 64 := by omega
      have h2 : j + (row + 1) - (row + 1) < fr + 1 := by omega
      have h3 : ¬ fr + 1 - row ≤ j + 1 := by omega
      have h4 : j + 1 < fr + 1 := by omega
      simp only [h1, h2, h3, h4, decide_true, decide_false, Bool.and_true, Bool.and_false, Bool.false_and,
        Bool.or_false, Bool.true_and]
      simp
  · rw [if_neg hj]
    have hhigh : leaves.testBit (row + j) = false :=
      Nat.testBit_lt_two_pow (lt_of_lt_of_le hlt (Nat.pow_le_pow_right (by omega) (by omega)))
    simp only [hhigh, Bool.false_and, Bool.false_or]
    by_cases hj2 : j < fr + 1
    · have h1 : j < 64 := by omega
      have h2 : fr + 1 - row ≤ j := by omega
      have h3 : j - (fr + 1 - row) < fr + 1 := by omega
      have h4 : j - (fr + 1 - row) < row := by omega
      simp [h1, h2, h3, h4, hj2]
    · have h4 : ¬ j - (fr + 1 - row) < row := by omega
      simp [hj2, h4]

theorem rootPosition_lt (leaves row : Nat) {fr : Nat} (hfr : fr ≤ 62) : rootPosition leaves row fr < 2 ^ (fr + 1) := by
  simp only [rootPosition]
  rw [and_rowMask hfr]
  exact Nat.mod_lt _ (Nat.pow_pos (by omega))

theorem isRootPosition_rowPos {leaves fr r o : Nat} (hfr : fr ≤ 62) (hleaves : leaves ≤ 2 ^ fr) (hr : r ≤ fr)
    (ho : o < 2 ^ (fr - r)) :
    isRootPosition (rowPos fr r o) leaves fr = true ↔ leaves.testBit r ∧ o = 2 * (leaves / 2 ^ (r + 1)) := by
  simp only [isRootPosition, detectRow_rowPos hr ho, Bool.and_eq_true, beq_iff_eq,
    rootPosition_eq hfr hr hleaves]
  constructor
  · rintro ⟨h1, h2⟩; exact ⟨h1, (Nat.add_left_cancel h2).symm⟩
  · rintro ⟨h1, rfl⟩; exact ⟨h1, rfl⟩

/-- A position with a bit above the forest's rows is never a root. -/
theorem isRootPosition_high {leaves fr pos : Nat} (hfr : fr ≤ 62) (h : 2 ^ (fr + 1) ≤ pos) :
    isRootPosition pos leaves fr = false := by
  have hlt := rootPosition_lt leaves (detectRow pos fr) hfr
  simp only [isRootPosition, Bool.and_eq_false_iff, beq_eq_false_iff_ne]
  right; omega

/-! ## The rows of a forest -/

theorem le_two_pow_treeRows (leaves : Nat) : leaves ≤ 2 ^ treeRows leaves := by
  unfold treeRows bitWidth
  split_ifs with h1 h2
  · omega
  · simp; omega
  · have := Nat.lt_log2_self (n := leaves - 1)
    omega

theorem treeRows_le {leaves k : Nat} (h : leaves ≤ 2 ^ k) : treeRows leaves ≤ k := by
  unfold treeRows bitWidth
  split_ifs with h1 h2
  · omega
  · omega
  · have : (leaves - 1).log2 < k := (Nat.log2_lt h2).mpr (by omega)
    omega

theorem testBit_le_treeRows {leaves row : Nat} (h : leaves.testBit row) : row ≤ treeRows leaves := by
  by_contra hlt
  have h1 := le_two_pow_treeRows leaves
  have h2 : 2 ^ treeRows leaves < 2 ^ row := Nat.pow_lt_pow_right (by omega) (by omega)
  rw [Nat.testBit_lt_two_pow (by omega)] at h
  simp at h

/-- `pos` is a node of a forest with this many leaves: the offset in its row is below
`leaves >> row`. -/
def IsNode (leaves pos : Nat) : Prop :=
  let fr := treeRows leaves
  let row := detectRow pos fr
  row ≤ fr ∧ rowStart fr row ≤ pos ∧ pos - rowStart fr row < leaves >>> row

instance (leaves pos : Nat) : Decidable (IsNode leaves pos) := inferInstanceAs (Decidable (_ ∧ _ ∧ _))

theorem offset_lt_pow {leaves fr r o : Nat} (hleaves : leaves ≤ 2 ^ fr) (hr : r ≤ fr) (ho : o < leaves / 2 ^ r) :
    o < 2 ^ (fr - r) := by
  apply lt_of_lt_of_le ho
  rw [Nat.div_le_iff_le_mul_add_pred (Nat.pow_pos (by omega)), ← pow_add, show r + (fr - r) = fr by omega]
  omega

theorem isNode_iff (leaves pos : Nat) :
    IsNode leaves pos ↔ ∃ r o, r ≤ treeRows leaves ∧ o < leaves / 2 ^ r ∧ pos = rowPos (treeRows leaves) r o := by
  have hle := le_two_pow_treeRows leaves
  constructor
  · rintro ⟨h1, h2, h3⟩
    rw [Nat.shiftRight_eq_div_pow] at h3
    exact ⟨_, _, h1, h3, by unfold rowPos; omega⟩
  · rintro ⟨r, o, hr, ho, rfl⟩
    have hrow := detectRow_rowPos hr (offset_lt_pow hle hr ho)
    refine ⟨by rw [hrow]; exact hr, by rw [hrow]; simp [rowPos], ?_⟩
    rw [hrow, Nat.shiftRight_eq_div_pow]
    simpa [rowPos] using ho

end UtreexoBridge.Position
