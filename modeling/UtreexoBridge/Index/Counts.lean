import UtreexoBridge.Index.Sound

/-!
# How the index grows

What each operation does to the capacity and to the counts of the load test.
-/

namespace UtreexoBridge

namespace OpenAddressing.Table

variable {α : Type} {home : α → Nat} {t t' : Table α}

theorem backShift_capacity (fuel : Nat) {hole cursor : Nat} (hok : backShift home fuel t hole cursor = some t') :
    t'.capacity = t.capacity := by
  induction fuel generalizing t hole cursor with
  | zero => cases hok
  | succ fuel ih =>
    rw [backShift] at hok
    split at hok
    · cases hok
      rfl
    · exact ih hok
    · split_ifs at hok
      · rw [ih hok, set_capacity]
      · exact ih hok

theorem refill_capacity (entries : List α) (hok : refill home entries t = some t') : t'.capacity = t.capacity := by
  induction entries generalizing t with
  | nil =>
    cases hok
    rfl
  | cons a entries ih =>
    rw [refill] at hok
    split at hok
    · cases hok
    · rw [ih hok, set_capacity]

end OpenAddressing.Table

namespace KeylessLeafIndex

open OpenAddressing

variable {H : Type} [ForestHash H] {index index' : KeylessLeafIndex} {a : NodeArena H} {S : Finset Nat} {hash : H} {id : Nat}

theorem place_counts (hok : index.place hash id = some index') :
    index'.table.capacity = index.table.capacity ∧ index'.size = index.size + 1 ∧
      index'.tombstones ≤ index.tombstones := by
  unfold place at hok
  obtain ⟨⟨slot, tombstone⟩, -, rfl⟩ := Option.map_eq_some_iff.mp hok
  refine ⟨rfl, rfl, ?_⟩
  dsimp only
  split_ifs <;> omega

theorem rehash_counts {capacity : Nat} (hok : index.rehash a capacity = some index') :
    index'.table.capacity = max 16 (bitCeil capacity) ∧ index'.tombstones = 0 := by
  unfold rehash at hok
  obtain ⟨table, hrefill, rfl⟩ := Option.map_eq_some_iff.mp hok
  exact ⟨Table.refill_capacity _ hrefill, rfl⟩

theorem erase_counts {found : Bool} (hok : index.erase a hash id = some (found, index')) :
    index'.table.capacity = index.table.capacity ∧ index'.size ≤ index.size ∧ index'.tombstones = index.tombstones := by
  unfold erase at hok
  dsimp only at hok
  split at hok
  · cases hok
  · cases hok
    exact ⟨rfl, le_rfl, rfl⟩
  · obtain ⟨table, hshift, heq⟩ := Option.map_eq_some_iff.mp hok
    cases heq
    exact ⟨Table.backShift_capacity _ hshift, Nat.sub_le _ _, rfl⟩

/-! ## The load test -/

/-- The next `Insert` rehashes. -/
def Full (index : KeylessLeafIndex) : Prop := (index.size + index.tombstones + 1) * 10 ≥ index.table.capacity * 8

def Room (index : KeylessLeafIndex) (count : Nat) : Prop :=
  (index.size + index.tombstones + count) * 10 < index.table.capacity * 8

theorem Room.not_full {count : Nat} (h : index.Room (count + 1)) : ¬index.Full := by
  unfold Room Full at *
  omega

theorem Room.place {count : Nat} (h : index.Room (count + 1)) (hok : index.place hash id = some index') :
    index'.Room count := by
  obtain ⟨hcapacity, hsize, htombstones⟩ := place_counts hok
  unfold Room at *
  rw [hcapacity, hsize]
  omega

theorem Room.insert {count : Nat} (h : index.Room (count + 1)) (hok : index.insert a hash id = some index') :
    index'.Room count := by
  unfold KeylessLeafIndex.insert at hok
  dsimp only at hok
  have hfull := h.not_full
  unfold Full at hfull
  rw [if_neg hfull] at hok
  exact h.place hok

/-- The entries of an index are leaves, so a rehash keeps them all. -/
theorem Indexes.rehash_size (h : index.Indexes a S) (hleaf : ∀ id ∈ S, a.isLeaf id = true) {capacity : Nat}
    (hok : index.rehash a capacity = some index') : index'.size = index.size := by
  unfold KeylessLeafIndex.rehash at hok
  obtain ⟨table, -, rfl⟩ := Option.map_eq_some_iff.mp hok
  have hentries : index.table.entries.filter a.isLeaf = index.table.entries := by
    apply List.filter_eq_self.mpr
    intro x hx
    obtain ⟨i, hi, hs⟩ := Table.mem_entries.mp hx
    exact hleaf x (h.holds.mem i hi x hs)
  rw [hentries, h.holds.entries_length, h.size_eq]

theorem Indexes.room (h : index.Indexes a S) (hleaf : ∀ id ∈ S, a.isLeaf id = true) {additions : Nat}
    (hok : index.prepareInsertions a additions = some index') : index'.Room additions := by
  unfold KeylessLeafIndex.prepareInsertions at hok
  dsimp only at hok
  unfold Room
  by_cases hneeded : ((index.size + index.tombstones + additions + 1) * 10 + 7) / 8 > index.table.capacity
  · rw [if_pos hneeded] at hok
    obtain ⟨hcapacity, htombstones⟩ := rehash_counts hok
    have hsize := h.rehash_size hleaf hok
    have hceil := le_bitCeil (max index.table.capacity (((index.size + additions + 1) * 10 + 7) / 8))
    rw [hcapacity, hsize, htombstones]
    omega
  · rw [if_neg hneeded] at hok
    cases hok
    omega

/-! ## An index filled from empty -/

/-- No id was ever erased, and the capacity is still `c` or filled up. -/
structure Grown (index : KeylessLeafIndex) (c : Nat) : Prop where
  tombstones : index.tombstones = 0
  capacity : index.table.capacity = c ∨ c * 8 ≤ index.size * 10

theorem grown_clear (capacity : Nat) : (clear capacity).Grown (max 16 (bitCeil capacity)) := ⟨rfl, Or.inl rfl⟩

theorem Grown.place {c : Nat} (h : index.Grown c) (hok : index.place hash id = some index') :
    index'.Grown c := by
  obtain ⟨hcap, hsize, htomb⟩ := place_counts hok
  have := h.tombstones
  refine ⟨by omega, ?_⟩
  rw [hcap, hsize]
  exact h.capacity.imp_right fun hfull => by omega

theorem Grown.insert {c : Nat} (h : index.Grown c) (hindex : index.Indexes a S) (hleaf : ∀ id ∈ S, a.isLeaf id = true)
    (hok : index.insert a hash id = some index') : index'.Grown c := by
  unfold KeylessLeafIndex.insert at hok
  dsimp only at hok
  have htomb := h.tombstones
  by_cases hfull : (index.size + index.tombstones + 1) * 10 ≥ index.table.capacity * 8
  · rw [if_pos hfull] at hok
    obtain ⟨grown, hrehash, hplace⟩ := Option.bind_eq_some_iff.mp hok
    obtain ⟨hcap, hsize, htomb'⟩ := place_counts hplace
    have hrecount := hindex.rehash_size hleaf hrehash
    have hzero := (rehash_counts hrehash).2
    refine ⟨by omega, Or.inr ?_⟩
    rcases h.capacity with hc | hc <;> omega
  · rw [if_neg hfull] at hok
    exact h.place hok

end KeylessLeafIndex

end UtreexoBridge
