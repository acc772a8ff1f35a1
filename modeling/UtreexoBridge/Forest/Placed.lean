import UtreexoBridge.Forest.Climb

/-!
# Where the nodes of the trees lie

`Placed trees numLeaves r o t` puts the subtree `t` at row `r` and offset `o`:
a row's tree at the row's root, a child below its parent. `PositionOf`
computes the position of this place.
-/

namespace UtreexoBridge

open IdTree Position

variable {H : Type}

inductive Placed (trees : Nat → Option (IdTree H)) (numLeaves : Nat) : Nat → Nat → IdTree H → Prop
  | root {row : Nat} {t : IdTree H} (h : trees row = some t) : Placed trees numLeaves row (rootOffset numLeaves row) t
  | left {r o id : Nat} {l s : IdTree H} (h : Placed trees numLeaves (r + 1) o (.node id l s)) :
      Placed trees numLeaves r (2 * o) l
  | right {r o id : Nat} {l s : IdTree H} (h : Placed trees numLeaves (r + 1) o (.node id l s)) :
      Placed trees numLeaves r (2 * o + 1) s

variable [ForestHash H] {f : PackedForest H} {trees : Nat → Option (IdTree H)} {r o : Nat} {t : IdTree H}

namespace Placed

theorem offset_lt (h : Structured f trees) (hp : Placed trees f.numLeaves r o t) : o < f.numLeaves / 2 ^ r := by
  induction hp with
  | root ht => exact rootOffset_lt (h.bits _ _ ht)
  | @left r o _ _ _ _ ih =>
    have := div_pow_succ f.numLeaves r
    omega
  | @right r o _ _ _ _ ih =>
    have := div_pow_succ f.numLeaves r
    omega

omit [ForestHash H] in
theorem child_lt {numLeaves r o : Nat} (ho : o < numLeaves / 2 ^ (r + 1)) : 2 * o + 1 < rootOffset numLeaves r := by
  unfold rootOffset
  omega

theorem row_le (h : Structured f trees) (hp : Placed trees f.numLeaves r o t) : r ≤ treeRows f.numLeaves := by
  induction hp with
  | root ht => exact testBit_le_treeRows (h.bits _ _ ht)
  | left _ ih => omega
  | right _ ih => omega

theorem height_le (h : Structured f trees) (hp : Placed trees f.numLeaves r o t) : t.height ≤ r := by
  induction hp with
  | root ht => exact h.height _ _ ht
  | left _ ih => rw [height] at ih; omega
  | right _ ih => rw [height] at ih; omega

theorem offset_lt_pow (h : Structured f trees) (hp : Placed trees f.numLeaves r o t) :
    o < 2 ^ (treeRows f.numLeaves - r) :=
  Position.offset_lt_pow (le_two_pow_treeRows _) (hp.row_le h) (hp.offset_lt h)

theorem unique (h : Structured f trees) (hp : Placed trees f.numLeaves r o t) {t' : IdTree H}
    (hp' : Placed trees f.numLeaves r o t') : t = t' := by
  induction hp generalizing t' with
  | @root row t ht =>
    generalize ho : rootOffset f.numLeaves row = o at hp'
    cases hp' with
    | root ht' => exact Option.some.inj (ht.symm.trans ht')
    | left hp' => have := child_lt (hp'.offset_lt h); omega
    | right hp' => have := child_lt (hp'.offset_lt h); omega
  | left hp ih =>
    generalize ho : 2 * _ = o at hp'
    cases hp' with
    | root ht' => have := child_lt (hp.offset_lt h); omega
    | left hp' =>
      obtain rfl := Nat.eq_of_mul_eq_mul_left (by omega) ho
      cases ih hp'
      rfl
    | right hp' => omega
  | right hp ih =>
    generalize ho : 2 * _ + 1 = o at hp'
    cases hp' with
    | root ht' => have := child_lt (hp.offset_lt h); omega
    | left hp' => omega
    | right hp' =>
      obtain rfl : _ = _ := Nat.eq_of_mul_eq_mul_left (by omega) (Nat.succ.inj ho)
      cases ih hp'
      rfl

theorem linked (h : Structured f trees) (hp : Placed trees f.numLeaves r o t) :
    ∃ parent, Linked f.arena.read t parent := by
  induction hp with
  | root ht => exact ⟨_, h.shape.linked _ (h.mem_rows ht)⟩
  | left _ ih => obtain ⟨_, hl⟩ := ih; exact ⟨_, hl.2.1⟩
  | right _ ih => obtain ⟨_, hl⟩ := ih; exact ⟨_, hl.2.2⟩

theorem live (h : Structured f trees) (hp : Placed trees f.numLeaves r o t) : ∀ x ∈ t.ids, x ∈ f.arena.liveIds := by
  induction hp with
  | root ht => exact fun x hx => h.shape.mem_live (h.mem_rows ht) hx
  | left _ ih => exact fun x hx => ih x (by simp [ids, hx])
  | right _ ih => exact fun x hx => ih x (by simp [ids, hx])

end Placed

/-! ## The path of a hole -/

omit [ForestHash H] in
def offsetOf (base : Nat) : List (Frame H) → Nat
  | [] => base
  | f :: fs => 2 * offsetOf base fs + f.bit

omit [ForestHash H] in
theorem bit_le_one (f : Frame H) : f.bit ≤ 1 := by
  unfold Frame.bit
  split_ifs <;> omega

theorem placed_plug (h : Structured f trees) {row : Nat} (fs : List (Frame H)) (t : IdTree H)
    (ht : trees row = some (plug fs t)) :
    Placed trees f.numLeaves (row - fs.length) (offsetOf (rootOffset f.numLeaves row) fs) t := by
  induction fs generalizing t with
  | nil => exact .root ht
  | cons g fs ih =>
    have hup := ih (g.fill t) ht
    have hheight := hup.height_le h
    have hpos : 1 ≤ (g.fill t).height := by
      unfold Frame.fill
      split_ifs <;> simp [height]
    rw [offsetOf]
    obtain ⟨r, hr⟩ : ∃ r, row - fs.length = r + 1 := ⟨row - fs.length - 1, by omega⟩
    rw [show row - (g :: fs).length = r by simp; omega]
    rw [hr] at hup
    unfold Frame.fill Frame.bit at *
    split_ifs with hleft
    · rw [if_pos hleft] at hup
      exact .left hup
    · rw [if_neg hleft] at hup
      exact .right hup

omit [ForestHash H] in
theorem directionsOf_eq (fs : List (Frame H)) (d k : Nat) (hd : d < 2 ^ k) (hk : k + fs.length ≤ 64) :
    directionsOf d fs = d * 2 ^ fs.length + directionsOf 0 fs ∧ directionsOf 0 fs < 2 ^ fs.length := by
  induction fs generalizing d k with
  | nil => simp [directionsOf]
  | cons f fs ih =>
    rw [List.length_cons] at hk
    have hshift : ∀ e j, e < 2 ^ j → j + (fs.length + 1) ≤ 64 → shl e 1 ||| f.bit = 2 * e + f.bit := by
      intro e j he hj
      have hlt : e <<< 1 < 2 ^ 64 := by
        rw [Nat.shiftLeft_eq]
        calc e * 2 ^ 1 < 2 ^ j * 2 ^ 1 := by omega
          _ = 2 ^ (j + 1) := (pow_succ 2 j).symm
          _ ≤ 2 ^ 64 := Nat.pow_le_pow_right (by omega) (by omega)
      rw [shl, word_of_lt hlt]
      have hbit := bit_le_one f
      have := Nat.two_pow_add_eq_or_of_lt (i := 1) (b := f.bit) (by omega) e
      rw [Nat.shiftLeft_eq, Nat.mul_comm e, ← this, pow_one]
    have hbit := bit_le_one f
    have hfirst := ih (2 * d + f.bit) (k + 1) (by rw [pow_succ]; omega) (by omega)
    have hzero := ih f.bit 1 (by omega) (by omega)
    rw [directionsOf, hshift d k hd hk, directionsOf, hshift 0 0 (by omega) (by omega), Nat.mul_zero, Nat.zero_add,
      hfirst.1, hzero.1, List.length_cons, pow_succ]
    refine ⟨by ring, ?_⟩
    have := hzero.2
    calc f.bit * 2 ^ fs.length + directionsOf 0 fs < f.bit * 2 ^ fs.length + 2 ^ fs.length := by omega
      _ ≤ 1 * 2 ^ fs.length + 2 ^ fs.length := by gcongr
      _ = 2 ^ fs.length * 2 := by ring

theorem descend_succ (fr distance directions pos : Nat) :
    PackedForest.descend fr (distance + 1) directions pos =
      if (directions >>> distance) % 2 = 0 then leftChild (PackedForest.descend fr distance directions pos) fr
      else rightChild (PackedForest.descend fr distance directions pos) fr := by
  induction distance generalizing directions pos with
  | zero => simp [PackedForest.descend]
  | succ d ih =>
    rw [PackedForest.descend, ih, PackedForest.descend, ← Nat.shiftRight_add, Nat.add_comm 1 d]

theorem descend_mod (fr distance directions high pos : Nat) :
    PackedForest.descend fr distance (high * 2 ^ distance + directions) pos =
      PackedForest.descend fr distance directions pos := by
  induction distance generalizing directions pos with
  | zero => simp [PackedForest.descend]
  | succ d ih =>
    have hmod : (high * 2 ^ (d + 1) + directions) % 2 = directions % 2 := by
      rw [pow_succ, ← Nat.mul_assoc]; omega
    have hdiv : (high * 2 ^ (d + 1) + directions) >>> 1 = high * 2 ^ d + directions >>> 1 := by
      rw [Nat.shiftRight_eq_div_pow, Nat.shiftRight_eq_div_pow, pow_succ, ← Nat.mul_assoc]; omega
    rw [PackedForest.descend, PackedForest.descend, hmod, hdiv, ih]

theorem descend_plug (h : Structured f trees) (hle : f.numLeaves ≤ 2 ^ 62) {row : Nat} (fs : List (Frame H))
    (t : IdTree H) (ht : trees row = some (plug fs t)) :
    PackedForest.descend (treeRows f.numLeaves) fs.length (directionsOf 0 fs)
        (rootPosition f.numLeaves row (treeRows f.numLeaves)) =
      rowPos (treeRows f.numLeaves) (row - fs.length) (offsetOf (rootOffset f.numLeaves row) fs) := by
  have hfr := treeRows_le_62 hle
  induction fs generalizing t with
  | nil =>
    exact rootPosition_eq hfr (testBit_le_treeRows (h.bits row _ ht)) (le_two_pow_treeRows _)
  | cons g fs ih =>
    have hup := placed_plug h fs (g.fill t) ht
    have hpos : 1 ≤ (g.fill t).height := by
      unfold Frame.fill
      split_ifs <;> simp [height]
    have hheight := hup.height_le h
    have hrow := testBit_le_treeRows (h.bits row _ ht)
    obtain ⟨r, hr⟩ : ∃ r, row - fs.length = r + 1 := ⟨row - fs.length - 1, by omega⟩
    have hlen : (g :: fs).length = fs.length + 1 := rfl
    have hrow' : row - (g :: fs).length = r := by rw [hlen]; omega
    have hbit := bit_le_one g
    obtain ⟨hdir, hlt⟩ := directionsOf_eq fs g.bit 1 (by omega) (by omega)
    have hstep : directionsOf 0 (g :: fs) = g.bit * 2 ^ fs.length + directionsOf 0 fs := by
      rw [directionsOf, ← hdir]
      simp [shl, word]
    have hhigh : (g.bit * 2 ^ fs.length + directionsOf 0 fs) >>> fs.length = g.bit := by
      rw [Nat.shiftRight_eq_div_pow, Nat.add_comm, Nat.add_mul_div_right _ _ (by positivity), Nat.div_eq_of_lt hlt,
        Nat.zero_add]
    have hrec := ih (g.fill t) ht
    have hrr := hup.row_le h
    have hoff := hup.offset_lt_pow h
    rw [hr] at hrr hoff hrec
    rw [hrow', hlen, hstep, descend_succ, hhigh, descend_mod, hrec, offsetOf]
    split_ifs with hzero
    · rw [leftChild_rowPos hfr hrr hoff, show g.bit = 0 by omega, Nat.add_zero]
    · rw [rightChild_rowPos hfr hrr hoff, show g.bit = 1 by omega]

omit [ForestHash H] in
def At (trees : Nat → Option (IdTree H)) (numLeaves pos : Nat) (t : IdTree H) : Prop :=
  ∃ r o, Placed trees numLeaves r o t ∧ pos = rowPos (treeRows numLeaves) r o

theorem Structured.positionOf_at (h : Structured f trees) (hle : f.numLeaves ≤ 2 ^ 62) {x : Nat} {v : H}
    (hx : (x, v) ∈ leavesOf (rowTrees trees)) :
    ∃ pos, f.positionOf x = .ok (.ok pos) ∧ At trees f.numLeaves pos (.leaf x v) := by
  obtain ⟨t, ht, hxt⟩ := List.mem_flatMap.mp hx
  obtain ⟨row, -, hrow⟩ := mem_rowTrees.mp ht
  obtain ⟨fs, rfl⟩ := exists_plug hxt
  refine ⟨_, h.positionOf_eq (t := .leaf x v) hrow, _, _, placed_plug h fs _ hrow, ?_⟩
  exact descend_plug h hle fs _ hrow

end UtreexoBridge
