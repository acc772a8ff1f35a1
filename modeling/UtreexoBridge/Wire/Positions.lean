import UtreexoBridge.Position.Nodes
import UtreexoBridge.Verify.Complete
import UtreexoBridge.Wire.Groups
import Mathlib.Data.List.Sort

/-!
# Positions on the wire (`NativeProofPositions`, `WirePosition`)

On the wire every forest has 63 rows. The siblings a proof needs are found by
merging the targets row by row. `MeasureUtreexoProof` of `p2p.cpp` has its own
copy of the checks and of the translation.
-/

namespace UtreexoBridge.Wire

open Position

/-! ## The source -/

/-- `std::countl_one` on `uint64_t`. -/
def countlOne (value : Nat) : Nat := detectRowLoop value 64 0

/-- `rows == 63 ? UINT64_MAX : (uint64_t{1} << (rows + 1)) - 1`. -/
def positionMask (rows : Nat) : Nat := if rows = 63 then 2 ^ 64 - 1 else shl 1 (rows + 1) - 1

def wireRowStart (row rows : Nat) : Nat := positionMask rows ^^^ (positionMask rows >>> row)

def wireRow (pos rows : Nat) : Nat := countlOne (shl pos (63 - rows))

def wirePosition (pos rows : Nat) : Nat :=
  let row := wireRow pos rows
  wireRowStart row 63 + (pos - wireRowStart row rows)

/-- The checks on a target and the leaves below it, first and last. -/
def targetInterval (numLeaves rows target : Nat) : Except String (Nat × Nat) :=
  if target ≥ positionMask rows then .error "target outside forest position space"
  else
    let row := wireRow target rows
    let offset := target - wireRowStart row rows
    if offset ≥ numLeaves >>> row then .error "target outside populated forest"
    else .ok (shl offset row, shl offset row + (shl 1 row - 1))

def targetIntervals (numLeaves rows : Nat) : List Nat → Except String (List (Nat × Nat))
  | [] => .ok []
  | target :: targets =>
    match targetInterval numLeaves rows target with
    | .error message => .error message
    | .ok interval =>
      match targetIntervals numLeaves rows targets with
      | .error message => .error message
      | .ok intervals => .ok (interval :: intervals)

/-- `intervals[i].first <= intervals[i - 1].second`, for some `i`. -/
def anyOverlap : List (Nat × Nat) → Bool
  | a :: b :: rest => decide (b.1 ≤ a.2) || anyOverlap (b :: rest)
  | _ => false

/-- The order of `std::pair`. -/
def pairLE (a b : Nat × Nat) : Prop := a.1 < b.1 ∨ a.1 = b.1 ∧ a.2 ≤ b.2

instance : DecidableRel pairLE := fun _ _ => inferInstanceAs (Decidable (_ ∨ _ ∧ _))

/-- One row of the merge: the pending positions of the next row and the siblings needed so far. -/
def mergeRow (numLeaves rows row : Nat) : List Nat → List Nat → Except String (List Nat × List Nat)
  | [], needed => .ok ([], needed)
  | pos :: rest, needed =>
    if wireRow pos rows ≠ row then (mergeRow numLeaves rows row rest needed).map fun p => (pos :: p.1, p.2)
    else if (numLeaves >>> row) % 2 = 1 ∧ pos - wireRowStart row rows = numLeaves >>> row - 1 then
      mergeRow numLeaves rows row rest needed
    else
      match rest with
      | [] =>
        if needed.length ≥ maxHashes then .error "too many transaction proof hashes"
        else .ok ([(pos >>> 1) ||| shl 1 rows], needed ++ [pos ^^^ 1])
      | other :: rest =>
        if pos ^^^ 1 = other then
          (mergeRow numLeaves rows row rest needed).map fun p => (((pos >>> 1) ||| shl 1 rows) :: p.1, p.2)
        else if needed.length ≥ maxHashes then .error "too many transaction proof hashes"
        else
          (mergeRow numLeaves rows row (other :: rest) (needed ++ [pos ^^^ 1])).map fun p =>
            (((pos >>> 1) ||| shl 1 rows) :: p.1, p.2)

/-- The rows from `row` on, one fuel for each. -/
def mergeRows (numLeaves rows : Nat) : Nat → Nat → List Nat → List Nat → Except String (List Nat)
  | 0, _, _, needed => .ok needed
  | fuel + 1, row, pending, needed =>
    if pending = [] then .ok needed
    else
      match mergeRow numLeaves rows row pending needed with
      | .error message => .error message
      | .ok (next, needed) => mergeRows numLeaves rows fuel (row + 1) (next.insertionSort (· ≤ ·)) needed

def nativeProofPositions {H : Type} (proof : Proof H) (numLeaves : Nat) : Except String (List Nat) :=
  if numLeaves > 2 ^ 63 then .error "unsupported forest leaf count"
  else
    let rows := treeRows numLeaves
    match targetIntervals numLeaves rows proof.targets with
    | .error message => .error message
    | .ok intervals =>
      if anyOverlap (intervals.insertionSort pairLE) then .error "duplicate or overlapping proof targets"
      else
        match mergeRows numLeaves rows (rows + 1) 0 (proof.targets.insertionSort (· ≤ ·)) [] with
        | .error message => .error message
        | .ok needed =>
          if needed.length ≠ proof.hashes.length then .error "full proof hash count does not match targets"
          else .ok needed

/-- The loop of `MeasureUtreexoProof` over the targets. -/
def wireTargetsLoop (numLeaves rows : Nat) : List Nat → Except String (List Nat)
  | [] => .ok []
  | target :: targets =>
    let mask := positionMask rows
    if target ≥ mask then .error "block target outside forest position space"
    else
      let row := countlOne (shl target (63 - rows))
      let offset := target - (mask ^^^ (mask >>> row))
      if offset ≥ numLeaves >>> row then .error "block target outside populated forest"
      else
        match wireTargetsLoop numLeaves rows targets with
        | .error message => .error message
        | .ok wire => .ok ((((2 ^ 64 - 1) ^^^ ((2 ^ 64 - 1) >>> row)) + offset) :: wire)

/-- The wire targets of `MeasureUtreexoProof`. -/
def wireTargets (numLeaves : Nat) (targets : List Nat) : Except String (List Nat) :=
  if numLeaves > 2 ^ 63 then .error "unsupported forest leaf count"
  else wireTargetsLoop numLeaves (treeRows numLeaves) targets

/-! ## Rows and offsets -/

theorem positionMask_eq {rows : Nat} (h : rows ≤ 63) : positionMask rows = 2 ^ (rows + 1) - 1 := by
  unfold positionMask
  split_ifs with h63
  · rw [h63]
  · have hlt : 2 ^ (rows + 1) < 2 ^ 64 := Nat.pow_lt_pow_right (by omega) (by omega)
    rw [shl, Nat.one_shiftLeft, word_of_lt hlt]

theorem wireRowStart_eq {row rows : Nat} (h : rows ≤ 63) (hrow : row ≤ rows + 1) :
    wireRowStart row rows = rowStart rows row := by
  apply Nat.eq_of_testBit_eq
  intro j
  rw [wireRowStart, positionMask_eq h, Nat.testBit_xor, Nat.testBit_shiftRight, Nat.testBit_two_pow_sub_one,
    Nat.testBit_two_pow_sub_one, rowStart, Nat.testBit_two_pow_mul, Nat.testBit_two_pow_sub_one]
  by_cases h1 : j < rows + 1
  · by_cases h2 : row + j < rows + 1
    · simp [h1, h2]
      omega
    · simp [h1, h2]
      omega
  · have h2 : ¬ row + j < rows + 1 := by omega
    simp [h1, h2]
    omega

theorem detectRowLoop_congr {pos pos' n : Nat} (h : ∀ j < n, pos.testBit j = pos'.testBit j) (row : Nat) :
    detectRowLoop pos n row = detectRowLoop pos' n row := by
  induction n generalizing row with
  | zero => rfl
  | succ n ih =>
    rw [detectRowLoop, detectRowLoop, h n (Nat.lt_succ_self n), ih fun j hj => h j (by omega)]

theorem detectRowLoop_shl (pos k n row : Nat) : detectRowLoop (pos <<< k) (n + k) row = detectRowLoop pos n row := by
  induction n generalizing row with
  | zero =>
    rw [Nat.zero_add]
    cases k with
    | zero => rfl
    | succ k =>
      have hlow : (pos <<< (k + 1)).testBit k = false := by
        rw [Nat.testBit_shiftLeft]
        simp
      show (if (pos <<< (k + 1)).testBit k then _ else row) = row
      rw [hlow, if_neg (by simp)]
  | succ n ih =>
    rw [Nat.succ_add, detectRowLoop, detectRowLoop, ih, Nat.testBit_shiftLeft, Nat.add_sub_cancel]
    simp

theorem wireRow_eq {rows : Nat} (h : rows ≤ 63) (pos : Nat) : wireRow pos rows = detectRow pos rows := by
  rw [wireRow, countlOne, detectRow, show 64 = (rows + 1) + (63 - rows) by omega, ← detectRowLoop_shl pos (63 - rows)]
  apply detectRowLoop_congr
  intro j hj
  rw [shl, word, Nat.testBit_mod_two_pow]
  simp
  omega

section Nodes

variable {rows r o : Nat}

theorem wireRow_rowPos (h : rows ≤ 63) (hr : r ≤ rows) (ho : o < 2 ^ (rows - r)) : wireRow (rowPos rows r o) rows = r := by
  rw [wireRow_eq h, detectRow_rowPos hr ho]

theorem wireOffset_rowPos (h : rows ≤ 63) (hr : r ≤ rows) : rowPos rows r o - wireRowStart r rows = o := by
  rw [wireRowStart_eq h (by omega), rowPos, Nat.add_sub_cancel_left]

theorem wirePosition_rowPos (h : rows ≤ 63) (hr : r ≤ rows) (ho : o < 2 ^ (rows - r)) :
    wirePosition (rowPos rows r o) rows = rowPos 63 r o := by
  rw [wirePosition]
  simp only [wireRow_rowPos h hr ho, wireOffset_rowPos h hr]
  rw [wireRowStart_eq (le_refl _) (by omega)]
  rfl

theorem rowPos_lt_rowPos {r' o' : Nat} (hr : r ≤ rows) (ho : o < 2 ^ (rows - r)) (hr' : r' ≤ rows)
    (ho' : o' < 2 ^ (rows - r')) : rowPos rows r o < rowPos rows r' o' ↔ r < r' ∨ r = r' ∧ o < o' := by
  have hstep : ∀ {a b x y : Nat}, a ≤ rows → x < 2 ^ (rows - a) → a < b → b ≤ rows → rowPos rows a x < rowPos rows b y := by
    intro a b x y ha hx hab hb
    have h1 := rowStart_add rows a (by omega)
    have h2 := rowStart_add rows b (by omega)
    have h3 : 2 ^ (rows + 1 - b) ≤ 2 ^ (rows - a) := Nat.pow_le_pow_right (by omega) (by omega)
    have h4 := pow_row_succ ha
    unfold rowPos
    omega
  rcases Nat.lt_trichotomy r r' with hlt | rfl | hgt
  · exact ⟨fun _ => Or.inl hlt, fun _ => hstep hr ho hlt hr'⟩
  · unfold rowPos
    omega
  · have := hstep (x := o') (y := o) hr' ho' hgt hr
    constructor
    · intro h
      omega
    · rintro (h | ⟨h, -⟩) <;> omega

end Nodes

/-! ## One row of the merge -/

section Merge

variable {n : Nat}

/-- A target that the checks let pass is a node, and its interval is that of the leaves below it. -/
theorem targetInterval_eq_ok (hn : n ≤ 2 ^ 63) {t : Nat} {i : Nat × Nat} :
    targetInterval n (treeRows n) t = .ok i ↔ ∃ r o, r ≤ treeRows n ∧ o < n / 2 ^ r ∧ t = rowPos (treeRows n) r o ∧
      i = (o * 2 ^ r, o * 2 ^ r + (2 ^ r - 1)) := by
  have hrows : treeRows n ≤ 63 := treeRows_le hn
  have hinterval : ∀ {r o}, r ≤ treeRows n → o < n / 2 ^ r →
      (shl o r, shl o r + (shl 1 r - 1)) = (o * 2 ^ r, o * 2 ^ r + (2 ^ r - 1)) := by
    intro r o hr ho
    have hmul : o * 2 ^ r < 2 ^ 64 := by
      have h1 : (o + 1) * 2 ^ r ≤ n / 2 ^ r * 2 ^ r := Nat.mul_le_mul_right _ ho
      have h2 := Nat.div_mul_le_self n (2 ^ r)
      have h3 : 0 < 2 ^ r := Nat.pow_pos (by omega)
      rw [Nat.succ_mul] at h1
      omega
    rw [shl_one (by omega), shl, Nat.shiftLeft_eq, word_of_lt hmul]
  rw [targetInterval, positionMask_eq hrows]
  constructor
  · intro h
    split_ifs at h with hmask
    obtain ⟨r, o, hr, ho, rfl⟩ := exists_rowPos (treeRows n) t (by omega)
    simp only [wireRow_rowPos hrows hr ho, wireOffset_rowPos hrows hr, Nat.shiftRight_eq_div_pow] at h
    split_ifs at h with hpop
    cases h
    exact ⟨r, o, hr, by omega, rfl, hinterval hr (by omega)⟩
  · rintro ⟨r, o, hr, ho, rfl, rfl⟩
    have hpow := offset_lt_pow (le_two_pow_treeRows n) hr ho
    rw [if_neg (by have := rowPos_lt hr hpow; omega)]
    simp only [wireRow_rowPos hrows hr hpow, wireOffset_rowPos hrows hr, Nat.shiftRight_eq_div_pow]
    rw [if_neg (by omega), hinterval hr ho]

variable (hn : n ≤ 2 ^ 62)
include hn

theorem wireRow_node {x : Nat} : wireRow x (treeRows n) = detectRow x (treeRows n) :=
  wireRow_eq (by have := treeRows_le_62 hn; omega) x

omit hn in
theorem row_le_of_le {x y : Nat} (hx : IsNode n x) (hy : IsNode n y) (h : x ≤ y) :
    detectRow x (treeRows n) ≤ detectRow y (treeRows n) := by
  obtain ⟨r, o, hr, ho, rfl⟩ := (isNode_iff _ _).mp hx
  obtain ⟨r', o', hr', ho', rfl⟩ := (isNode_iff _ _).mp hy
  have hpow := offset_lt_pow (le_two_pow_treeRows n) hr ho
  have hpow' := offset_lt_pow (le_two_pow_treeRows n) hr' ho'
  rw [detectRow_rowPos hr hpow, detectRow_rowPos hr' hpow']
  by_contra hlt
  have := (rowPos_lt_rowPos hr' hpow' hr hpow).mpr (Or.inl (by omega))
  omega

theorem mergeRoot_iff {x : Nat} (hx : IsNode n x) :
    ((n >>> detectRow x (treeRows n)) % 2 = 1 ∧
      x - wireRowStart (detectRow x (treeRows n)) (treeRows n) = n >>> detectRow x (treeRows n) - 1) ↔
        isRootPosition x n (treeRows n) = true := by
  obtain ⟨r, o, hr, ho, rfl⟩ := (isNode_iff _ _).mp hx
  have hrows : treeRows n ≤ 63 := by have := treeRows_le_62 hn; omega
  rw [detectRow_rowPos hr (offset_lt_pow (le_two_pow_treeRows n) hr ho), wireOffset_rowPos hrows hr,
    isRoot_node_iff hn hr ho, Nat.shiftRight_eq_div_pow]
  have hdiv := div_pow_succ n r
  have hbit : n.testBit r = decide (n / 2 ^ r % 2 = 1) := Nat.testBit_eq_decide_div_mod_eq
  rw [hbit, decide_eq_true_eq]
  unfold rootOffset
  by_cases hodd : n / 2 ^ r % 2 = 1
  · rw [hbit, if_pos (by simpa using hodd)] at hdiv
    simp only [hodd, true_and]
    omega
  · simp [hodd]

theorem row_parent {x : Nat} (hx : IsNode n x) (hroot : isRootPosition x n (treeRows n) = false) :
    detectRow (parent x (treeRows n)) (treeRows n) = detectRow x (treeRows n) + 1 := by
  obtain ⟨r, o, hr, ho, rfl⟩ := (isNode_iff _ _).mp hx
  have hhalf := half_offset_lt hn hr ho hroot
  have hr' := row_lt_of_half hr hhalf
  have hpow := offset_lt_pow (le_two_pow_treeRows n) hr ho
  rw [parent_rowPos (by have := treeRows_le_62 hn; omega) hr hpow, detectRow_rowPos hr hpow,
    detectRow_rowPos hr' (offset_lt_pow (le_two_pow_treeRows n) hr' hhalf)]

theorem row_sibling {x : Nat} (hx : IsNode n x) (hroot : isRootPosition x n (treeRows n) = false) :
    detectRow (x ^^^ 1) (treeRows n) = detectRow x (treeRows n) := by
  have hsib := isNode_sibling hn hx hroot
  obtain ⟨r, o, hr, ho, rfl⟩ := (isNode_iff _ _).mp hx
  have hpow := offset_lt_pow (le_two_pow_treeRows n) hr ho
  have hxor : o ^^^ 1 < 2 ^ (treeRows n - r) := by
    have hhalf := half_offset_lt hn hr ho hroot
    have hr' := row_lt_of_half hr hhalf
    have h1 := offset_lt_pow (le_two_pow_treeRows n) hr' hhalf
    have h2 : 2 ^ (treeRows n - r) = 2 * 2 ^ (treeRows n - (r + 1)) := by
      rw [← pow_succ']
      congr 1
      omega
    have h3 := xor_one_div o
    omega
  rw [sibling_rowPos hr, detectRow_rowPos hr hpow, detectRow_rowPos hr hxor]

theorem parent_inj {x y : Nat} (hx : IsNode n x) (hy : IsNode n y)
    (h : parent x (treeRows n) = parent y (treeRows n)) : y = x ∨ y = x ^^^ 1 := by
  have hrows := treeRows_le_62 hn
  have hx' := isNode_lt hx
  have hy' := isNode_lt hy
  rw [parent_eq (by omega) (by omega), parent_eq (by omega) (by omega)] at h
  rcases Nat.mod_two_eq_zero_or_one x with ho | ho
  · rw [xor_one_even ho]
    omega
  · rw [xor_one_odd ho]
    omega

omit hn in
theorem mergeRow_wait {rows row pos : Nat} (h : wireRow pos rows ≠ row) (rest needed : List Nat) :
    mergeRow n rows row (pos :: rest) needed = (mergeRow n rows row rest needed).map fun p => (pos :: p.1, p.2) := by
  cases rest <;> (conv_lhs => rw [mergeRow]) <;> rw [if_pos h]

omit hn in
theorem mergeRow_root {rows row pos : Nat} (h : wireRow pos rows = row)
    (hroot : (n >>> row) % 2 = 1 ∧ pos - wireRowStart row rows = n >>> row - 1) (rest needed : List Nat) :
    mergeRow n rows row (pos :: rest) needed = mergeRow n rows row rest needed := by
  cases rest <;> (conv_lhs => rw [mergeRow]) <;> rw [if_neg (by simpa using h), if_pos hroot]

/-- What one row of the merge gives. -/
structure RowMerged (n row : Nat) (l next extra : List Nat) : Prop where
  next_nodup : next.Nodup
  next_iff : ∀ x, x ∈ next ↔ (x ∈ l ∧ detectRow x (treeRows n) ≠ row) ∨
    ∃ y ∈ l, detectRow y (treeRows n) = row ∧ isRootPosition y n (treeRows n) = false ∧ x = parent y (treeRows n)
  extra_sorted : extra.Pairwise (· < ·)
  extra_iff : ∀ s, s ∈ extra ↔ s ∉ l ∧
    ∃ y ∈ l, detectRow y (treeRows n) = row ∧ isRootPosition y n (treeRows n) = false ∧ s = y ^^^ 1

section RowMerged

variable {row pos : Nat} {rest next extra : List Nat}

omit hn in
theorem RowMerged.wait (h : RowMerged n row rest next extra) (hlt : ∀ y ∈ rest, pos < y)
    (hother : detectRow pos (treeRows n) ≠ row) (hnone : ∀ y ∈ rest, detectRow y (treeRows n) ≠ row) :
    RowMerged n row (pos :: rest) (pos :: next) extra := by
  refine ⟨?_, fun x => ?_, h.extra_sorted, fun s => ?_⟩
  · rw [List.nodup_cons]
    refine ⟨fun hmem => ?_, h.next_nodup⟩
    rcases (h.next_iff pos).mp hmem with ⟨hin, -⟩ | ⟨y, hy, hrow, -⟩
    · exact absurd (hlt pos hin) (Nat.lt_irrefl _)
    · exact hnone y hy hrow
  · rw [List.mem_cons, h.next_iff, List.mem_cons]
    constructor
    · rintro (rfl | ⟨hx, hrow⟩ | ⟨y, hy, hrow, -⟩)
      · exact Or.inl ⟨Or.inl rfl, hother⟩
      · exact Or.inl ⟨Or.inr hx, hrow⟩
      · exact absurd hrow (hnone y hy)
    · rintro (⟨rfl | hx, hrow⟩ | ⟨y, hy, hrow, -⟩)
      · exact Or.inl rfl
      · exact Or.inr (Or.inl ⟨hx, hrow⟩)
      · rcases List.mem_cons.mp hy with rfl | hy
        · exact absurd hrow hother
        · exact absurd hrow (hnone y hy)
  · rw [h.extra_iff]
    constructor
    · rintro ⟨-, y, hy, hrow, -⟩
      exact absurd hrow (hnone y hy)
    · rintro ⟨-, y, hy, hrow, -⟩
      rcases List.mem_cons.mp hy with rfl | hy
      · exact absurd hrow hother
      · exact absurd hrow (hnone y hy)

theorem RowMerged.root (h : RowMerged n row rest next extra) (hpos : IsNode n pos) (hnode : ∀ y ∈ rest, IsNode n y)
    (hother : detectRow pos (treeRows n) = row) (hroot : isRootPosition pos n (treeRows n) = true) :
    RowMerged n row (pos :: rest) next extra := by
  refine ⟨h.next_nodup, fun x => ?_, h.extra_sorted, fun s => ?_⟩
  · rw [h.next_iff]
    constructor
    · rintro (⟨hx, hrow⟩ | ⟨y, hy, hrow⟩)
      · exact Or.inl ⟨by simp [hx], hrow⟩
      · exact Or.inr ⟨y, by simp [hy], hrow⟩
    · rintro (⟨hx, hrow⟩ | ⟨y, hy, h1, h2, h3⟩)
      · rcases List.mem_cons.mp hx with rfl | hx
        · exact absurd hother hrow
        · exact Or.inl ⟨hx, hrow⟩
      · rcases List.mem_cons.mp hy with rfl | hy
        · rw [hroot] at h2
          cases h2
        · exact Or.inr ⟨y, hy, h1, h2, h3⟩
  · rw [h.extra_iff]
    constructor
    · rintro ⟨hs, y, hy, h1, h2, rfl⟩
      refine ⟨fun hmem => ?_, y, by simp [hy], h1, h2, rfl⟩
      rcases List.mem_cons.mp hmem with heq | hmem
      · apply not_isNode_root_sibling hn hpos hroot
        rw [← heq, xor_one_xor_one]
        exact hnode y hy
      · exact hs hmem
    · rintro ⟨hs, y, hy, h1, h2, h3⟩
      rcases List.mem_cons.mp hy with rfl | hy
      · rw [hroot] at h2
        cases h2
      · exact ⟨fun hmem => hs (by simp [hmem]), y, hy, h1, h2, h3⟩

theorem RowMerged.pair (h : RowMerged n row rest next extra) (hpos : IsNode n pos) (hsib : IsNode n (pos ^^^ 1))
    (hnode : ∀ y ∈ rest, IsNode n y) (hother : detectRow pos (treeRows n) = row)
    (hroot : isRootPosition pos n (treeRows n) = false) (hup : parent pos (treeRows n) ∉ rest)
    (hfar : ∀ y ∈ rest, y ≠ pos ∧ y ≠ pos ^^^ 1) :
    RowMerged n row (pos :: (pos ^^^ 1) :: rest) (parent pos (treeRows n) :: next) extra := by
  have hsame := row_sibling hn hpos hroot
  refine ⟨?_, fun x => ?_, h.extra_sorted, fun s => ?_⟩
  · rw [List.nodup_cons]
    refine ⟨fun hmem => ?_, h.next_nodup⟩
    rcases (h.next_iff _).mp hmem with ⟨hin, -⟩ | ⟨y, hy, -, -, heq⟩
    · exact hup hin
    · rcases parent_inj hn hpos (hnode y hy) heq with rfl | rfl
      · exact (hfar _ hy).1 rfl
      · exact (hfar _ hy).2 rfl
  · rw [List.mem_cons, h.next_iff]
    constructor
    · rintro (rfl | ⟨hx, hrow⟩ | ⟨y, hy, hrow⟩)
      · exact Or.inr ⟨pos, by simp, hother, hroot, rfl⟩
      · exact Or.inl ⟨by simp [hx], hrow⟩
      · exact Or.inr ⟨y, by simp [hy], hrow⟩
    · rintro (⟨hx, hrow⟩ | ⟨y, hy, h1, h2, rfl⟩)
      · rcases List.mem_cons.mp hx with rfl | hx
        · exact absurd hother hrow
        rcases List.mem_cons.mp hx with rfl | hx
        · exact absurd (hsame.trans hother) hrow
        · exact Or.inr (Or.inl ⟨hx, hrow⟩)
      · rcases List.mem_cons.mp hy with rfl | hy
        · exact Or.inl rfl
        rcases List.mem_cons.mp hy with rfl | hy
        · left
          rw [parent_sibling hn hpos hsib]
        · exact Or.inr (Or.inr ⟨y, hy, h1, h2, rfl⟩)
  · rw [h.extra_iff]
    constructor
    · rintro ⟨hs, y, hy, h1, h2, rfl⟩
      refine ⟨fun hmem => ?_, y, by simp [hy], h1, h2, rfl⟩
      rcases List.mem_cons.mp hmem with heq | hmem
      · apply (hfar y hy).2
        rw [← heq, xor_one_xor_one]
      rcases List.mem_cons.mp hmem with heq | hmem
      · apply (hfar y hy).1
        rw [← xor_one_xor_one y, heq, xor_one_xor_one]
      · exact hs hmem
    · rintro ⟨hs, y, hy, h1, h2, rfl⟩
      rcases List.mem_cons.mp hy with rfl | hy
      · exact absurd (by simp) hs
      rcases List.mem_cons.mp hy with rfl | hy
      · rw [xor_one_xor_one] at hs
        exact absurd (by simp) hs
      · exact ⟨fun hmem => hs (by simp [hmem]), y, hy, h1, h2, rfl⟩

omit hn in
theorem sibling_lt_sibling {y : Nat} (hlt : pos < y) (hne : y ≠ pos ^^^ 1) : pos ^^^ 1 < y ^^^ 1 := by
  rcases Nat.mod_two_eq_zero_or_one pos with ho | ho <;>
    rcases Nat.mod_two_eq_zero_or_one y with ho' | ho'
  · rw [xor_one_even ho, xor_one_even ho'] at *
    omega
  · rw [xor_one_even ho] at *
    rw [xor_one_odd ho']
    omega
  · rw [xor_one_odd ho, xor_one_even ho'] at *
    omega
  · rw [xor_one_odd ho, xor_one_odd ho'] at *
    omega

theorem RowMerged.single (h : RowMerged n row rest next extra) (hpos : IsNode n pos) (hnode : ∀ y ∈ rest, IsNode n y)
    (hlt : ∀ y ∈ rest, pos < y) (hother : detectRow pos (treeRows n) = row)
    (hroot : isRootPosition pos n (treeRows n) = false) (hup : parent pos (treeRows n) ∉ rest)
    (hsib : pos ^^^ 1 ∉ rest) :
    RowMerged n row (pos :: rest) (parent pos (treeRows n) :: next) ((pos ^^^ 1) :: extra) := by
  have hless : ∀ s ∈ extra, pos ^^^ 1 < s := by
    intro s hs
    obtain ⟨-, y, hy, -, -, rfl⟩ := (h.extra_iff s).mp hs
    exact sibling_lt_sibling (hlt y hy) fun heq => hsib (heq ▸ hy)
  refine ⟨?_, fun x => ?_, List.pairwise_cons.mpr ⟨hless, h.extra_sorted⟩, fun s => ?_⟩
  · rw [List.nodup_cons]
    refine ⟨fun hmem => ?_, h.next_nodup⟩
    rcases (h.next_iff _).mp hmem with ⟨hin, -⟩ | ⟨y, hy, -, -, heq⟩
    · exact hup hin
    · rcases parent_inj hn hpos (hnode y hy) heq with rfl | rfl
      · exact absurd (hlt _ hy) (Nat.lt_irrefl _)
      · exact hsib hy
  · rw [List.mem_cons, h.next_iff]
    constructor
    · rintro (rfl | ⟨hx, hrow⟩ | ⟨y, hy, hrow⟩)
      · exact Or.inr ⟨pos, by simp, hother, hroot, rfl⟩
      · exact Or.inl ⟨by simp [hx], hrow⟩
      · exact Or.inr ⟨y, by simp [hy], hrow⟩
    · rintro (⟨hx, hrow⟩ | ⟨y, hy, h1, h2, rfl⟩)
      · rcases List.mem_cons.mp hx with rfl | hx
        · exact absurd hother hrow
        · exact Or.inr (Or.inl ⟨hx, hrow⟩)
      · rcases List.mem_cons.mp hy with rfl | hy
        · exact Or.inl rfl
        · exact Or.inr (Or.inr ⟨y, hy, h1, h2, rfl⟩)
  · rw [List.mem_cons, h.extra_iff]
    constructor
    · rintro (rfl | ⟨hs, y, hy, h1, h2, rfl⟩)
      · refine ⟨fun hmem => ?_, pos, by simp, hother, hroot, rfl⟩
        rcases List.mem_cons.mp hmem with heq | hmem
        · exact xor_one_ne pos heq
        · exact hsib hmem
      · refine ⟨fun hmem => ?_, y, by simp [hy], h1, h2, rfl⟩
        rcases List.mem_cons.mp hmem with heq | hmem
        · apply hsib
          rw [← heq, xor_one_xor_one]
          exact hy
        · exact hs hmem
    · rintro ⟨hs, y, hy, h1, h2, rfl⟩
      rcases List.mem_cons.mp hy with rfl | hy
      · exact Or.inl rfl
      · exact Or.inr ⟨fun hmem => hs (by simp [hmem]), y, hy, h1, h2, rfl⟩

end RowMerged

theorem mergeRow_spec {row : Nat} (l needed : List Nat) (hsorted : l.Pairwise (· < ·)) (hnode : ∀ x ∈ l, IsNode n x)
    (hrow : ∀ x ∈ l, row ≤ detectRow x (treeRows n))
    (hparent : ∀ y ∈ l, detectRow y (treeRows n) = row → isRootPosition y n (treeRows n) = false →
      parent y (treeRows n) ∉ l) :
    ∃ next extra, RowMerged n row l next extra ∧ (needed.length + extra.length ≤ maxHashes →
      mergeRow n (treeRows n) row l needed = .ok (next, needed ++ extra)) := by
  induction hlen : l.length using Nat.strong_induction_on generalizing l needed with
  | _ len ih =>
    cases l with
    | nil => exact ⟨[], [], ⟨by simp, by simp, by simp, by simp⟩, fun _ => by simp [mergeRow]⟩
    | cons pos rest =>
      obtain ⟨hlt, hsorted⟩ := List.pairwise_cons.mp hsorted
      have hpos := hnode pos (by simp)
      have hrest : ∀ y ∈ rest, IsNode n y := fun y hy => hnode y (by simp [hy])
      have hrec := fun needed => ih rest.length (by simp at hlen; omega) rest needed hsorted hrest
        (fun x hx => hrow x (by simp [hx]))
        (fun y hy h1 h2 hmem => hparent y (by simp [hy]) h1 h2 (by simp [hmem])) rfl
      have hwire := wireRow_node hn (x := pos)
      by_cases hother : detectRow pos (treeRows n) = row
      swap
      · -- this position and all after it wait for a later row
        have hnone : ∀ y ∈ rest, detectRow y (treeRows n) ≠ row := by
          intro y hy h
          have := row_le_of_le hpos (hrest y hy) (Nat.le_of_lt (hlt y hy))
          have := hrow pos (by simp)
          omega
        obtain ⟨next, extra, hmerged, hrun⟩ := hrec needed
        refine ⟨pos :: next, extra, hmerged.wait hlt hother hnone, fun hfit => ?_⟩
        rw [mergeRow_wait (by rw [hwire]; exact hother), hrun hfit]
        rfl
      have hstart := mergeRoot_iff hn hpos
      rw [hother] at hstart
      by_cases hroot : isRootPosition pos n (treeRows n) = true
      · obtain ⟨next, extra, hmerged, hrun⟩ := hrec needed
        refine ⟨next, extra, hmerged.root hn hpos hrest hother hroot, fun hfit => ?_⟩
        rw [mergeRow_root (hwire.trans hother) (hstart.mpr hroot)]
        exact hrun hfit
      rw [Bool.not_eq_true] at hroot
      have hnoroot : ¬((n >>> row) % 2 = 1 ∧ pos - wireRowStart row (treeRows n) = n >>> row - 1) := by
        rw [hstart, hroot]
        simp
      have hup := hparent pos (by simp) hother hroot
      by_cases hsib : pos ^^^ 1 ∈ rest
      · -- the sibling follows, and both give way to their parent
        obtain ⟨other, rest', rfl⟩ : ∃ other rest', rest = other :: rest' := by
          cases rest with
          | nil => cases hsib
          | cons other rest' => exact ⟨other, rest', rfl⟩
        obtain ⟨hlt', hsorted'⟩ := List.pairwise_cons.mp hsorted
        have heq : pos ^^^ 1 = other := by
          rcases List.mem_cons.mp hsib with heq | hmem
          · exact heq
          · have h1 := hlt' _ hmem
            have h2 := hlt other (by simp)
            rcases Nat.mod_two_eq_zero_or_one pos with ho | ho
            · rw [xor_one_even ho] at h1
              omega
            · rw [xor_one_odd ho] at h1
              omega
        subst heq
        obtain ⟨next, extra, hmerged, hrun⟩ := ih rest'.length (by simp at hlen; omega) rest' needed hsorted'
          (fun x hx => hnode x (by simp [hx])) (fun x hx => hrow x (by simp [hx]))
          (fun y hy h1 h2 hmem => hparent y (by simp [hy]) h1 h2 (by simp [hmem])) rfl
        have hfar : ∀ y ∈ rest', y ≠ pos ∧ y ≠ pos ^^^ 1 := fun y hy =>
          ⟨fun h => absurd (hlt y (by simp [hy])) (by omega), fun h => absurd (hlt' y hy) (by omega)⟩
        refine ⟨parent pos (treeRows n) :: next, extra, hmerged.pair hn hpos (hnode _ (by simp))
          (fun y hy => hrest y (by simp [hy])) hother hroot (fun hmem => hup (by simp [hmem])) hfar, fun hfit => ?_⟩
        rw [mergeRow, hwire, if_neg (by simpa using hother), if_neg hnoroot]
        simp only [if_true]
        rw [hrun hfit]
        rfl
      · -- the sibling is needed
        obtain ⟨next, extra, hmerged, hrun⟩ := hrec (needed ++ [pos ^^^ 1])
        refine ⟨parent pos (treeRows n) :: next, (pos ^^^ 1) :: extra, hmerged.single hn hpos hrest hlt hother hroot
          (fun hmem => hup (by simp [hmem])) hsib, fun hfit => ?_⟩
        rw [List.length_cons] at hfit
        have hroom : ¬needed.length ≥ maxHashes := by omega
        have hrun := hrun (by rw [List.length_append, List.length_singleton]; omega)
        cases rest with
        | nil =>
          rw [mergeRow, Except.ok.injEq, Prod.mk.injEq] at hrun
          obtain ⟨hnext, hextra⟩ := hrun
          rw [mergeRow, hwire, if_neg (by simpa using hother), if_neg hnoroot]
          rw [if_neg hroom, ← hnext]
          have : extra = [] := by simpa using hextra
          rw [this]
          rfl
        | cons other rest' =>
          have hne : pos ^^^ 1 ≠ other := fun h => hsib (by simp [h])
          rw [mergeRow, hwire, if_neg (by simpa using hother), if_neg hnoroot]
          rw [if_neg hne, if_neg hroom, hrun, List.append_assoc]
          rfl

end Merge

end UtreexoBridge.Wire
