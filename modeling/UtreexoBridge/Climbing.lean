import Mathlib.Data.Finset.Card
import Mathlib.Data.Finset.Sum
import Mathlib.Logic.Relation

/-!
# Climbing along parent links

A relation that leads from each element to one other at most, its parent. What
leads to an element without a parent is on no cycle, and without cycles the way
up ends.
-/

namespace Climbing

open Relation

variable {α : Type} {up : α → α → Prop} {x y top : α}

/-! ## Tops -/

section Above

variable (up) (S : Finset α)

open Classical in
noncomputable def above (x : α) : Finset α := S.filter (TransGen up x)

open Classical in
theorem card_above_le (x : α) : (above up S x).card ≤ S.card := Finset.card_filter_le _ _

variable {up S}

open Classical in
theorem mem_above : y ∈ above up S x ↔ y ∈ S ∧ TransGen up x y := Finset.mem_filter

theorem card_above_lt (hstep : up x y) (hy : y ∈ S) (hcycle : ¬TransGen up y y) : (above up S y).card < (above up S x).card := by
  apply Finset.card_lt_card
  rw [Finset.ssubset_iff_of_subset]
  · refine ⟨y, mem_above.mpr ⟨hy, TransGen.single hstep⟩, fun hmem => ?_⟩
    exact hcycle (mem_above.mp hmem).2
  · intro z hz
    obtain ⟨hz, hclimb⟩ := mem_above.mp hz
    exact mem_above.mpr ⟨hz, TransGen.head hstep hclimb⟩

end Above

end Climbing
