import UtreexoBridge.Index.Spec

/-! # The leaf index is a set of ids -/

namespace UtreexoBridge.KeylessLeafIndex

open OpenAddressing

variable {H : Type} [ForestHash H] {index : KeylessLeafIndex} {a a' : NodeArena H} {S : Finset Nat}

/-! ## Capacities -/

theorem bitCeil_eq_pow (n : Nat) : ∃ k, bitCeil n = 2 ^ k := by
  unfold bitCeil
  split_ifs
  · exact ⟨0, rfl⟩
  · exact ⟨_, rfl⟩

theorem le_bitCeil (n : Nat) : n ≤ bitCeil n := by
  unfold bitCeil Position.bitWidth
  split_ifs with h1 h2
  · exact h1
  · omega
  · have := Nat.lt_log2_self (n := n - 1)
    omega

theorem bitCeil_pow (k : Nat) : bitCeil (2 ^ k) = 2 ^ k := by
  have hpos : 0 < 2 ^ k := Nat.pow_pos (by omega)
  unfold bitCeil Position.bitWidth
  cases k with
  | zero => simp
  | succ k =>
    have hsucc : 2 ^ (k + 1) = 2 * 2 ^ k := pow_succ' 2 k
    have hk : 0 < 2 ^ k := Nat.pow_pos (by omega)
    have hlog : (2 ^ (k + 1) - 1).log2 = k := (Nat.log2_eq_iff (by omega)).mpr ⟨by omega, by omega⟩
    rw [if_neg (by omega), if_neg (by omega), hlog]

/-- The index holds the ids `S`, each under the bucket of its hash, with room to spare. -/
structure Indexes (index : KeylessLeafIndex) (a : NodeArena H) (S : Finset Nat) : Prop where
  pow : ∃ k, index.table.capacity = 2 ^ k
  cap : 16 ≤ index.table.capacity
  holds : index.table.Holds (home a index.table.capacity) S
  size_eq : index.size = S.card
  tombstones_eq : index.tombstones = index.table.deletedCount
  load : (index.size + index.tombstones) * 10 < index.table.capacity * 8

theorem capacity_eq_pow (capacity : Nat) : ∃ k, max 16 (bitCeil capacity) = 2 ^ k := by
  obtain ⟨k, hk⟩ := bitCeil_eq_pow capacity
  rcases Nat.le_total 16 (bitCeil capacity) with hle | hle
  · exact ⟨k, by rw [max_eq_right hle, hk]⟩
  · exact ⟨4, max_eq_left hle⟩

theorem indexes_clear (a : NodeArena H) (capacity : Nat) : (clear capacity).Indexes a ∅ := by
  have hcap : (clear capacity).table.capacity = max 16 (bitCeil capacity) := rfl
  refine ⟨?_, ?_, Table.holds_clear _ _, rfl, (Table.deletedCount_clear _).symm, ?_⟩
  · rw [hcap]
    exact capacity_eq_pow capacity
  · rw [hcap]
    exact le_max_left _ _
  · rw [hcap]
    show (0 + 0) * 10 < _
    omega

theorem indexes_new (a : NodeArena H) : new.Indexes a ∅ := indexes_clear a 16

theorem home_lt (h : 16 ≤ index.table.capacity) (id : Nat) :
    home a index.table.capacity id < index.table.capacity := Nat.mod_lt _ (by omega)

theorem Indexes.congr (h : index.Indexes a S) (hsame : ∀ id ∈ S, (a'.read id).hash = (a.read id).hash) :
    index.Indexes a' S := by
  have hhome : ∀ id ∈ S, home a' index.table.capacity id = home a index.table.capacity id := by
    intro id hid
    rw [home, home, hsame id hid]
  refine ⟨h.pow, h.cap, ⟨fun id _ => home_lt h.cap id, h.holds.mem, h.holds.placed, h.holds.once, ?_⟩, h.size_eq,
    h.tombstones_eq, h.load⟩
  intro i hi id hs
  rw [hhome id (h.holds.mem i hi id hs)]
  exact h.holds.reach i hi id hs

theorem Indexes.exists_empty (h : index.Indexes a S) : ∃ i < index.table.capacity, index.table.slot i = .empty := by
  apply Table.exists_empty h.holds
  have := h.load
  rw [← h.size_eq, ← h.tombstones_eq]
  omega

/-! ## Lookup -/

variable [DecidableEq H]

theorem Indexes.find_eq_some (h : index.Indexes a S) (hleaf : ∀ id ∈ S, a.isLeaf id = true) {id : Nat} (hid : id ∈ S)
    (huniq : ∀ j ∈ S, (a.read j).hash = (a.read id).hash → j = id) : index.find a (a.read id).hash = some id := by
  apply h.holds.find_eq_some (p := fun j => a.isLeaf j && decide ((a.read j).hash = (a.read id).hash)) hid
  · simp [hleaf id hid]
  · intro j hj hp
    simp only [Bool.and_eq_true, decide_eq_true_eq] at hp
    exact huniq j hj hp.2

theorem Indexes.mem_of_find (h : index.Indexes a S) {hash : H} {id : Nat} (hfind : index.find a hash = some id) :
    id ∈ S ∧ (a.read id).hash = hash := by
  obtain ⟨hp, hmem⟩ := h.holds.mem_of_find (Nat.mod_lt _ (by have := h.cap; omega)) hfind
  rw [Bool.and_eq_true, decide_eq_true_eq] at hp
  exact ⟨hmem, hp.2⟩

theorem Indexes.find_isSome_iff (h : index.Indexes a S) (hleaf : ∀ id ∈ S, a.isLeaf id = true) {hash : H} :
    (index.find a hash).isSome = true ↔ ∃ id ∈ S, (a.read id).hash = hash := by
  constructor
  · intro hsome
    obtain ⟨id, hid⟩ := Option.isSome_iff_exists.mp hsome
    exact ⟨id, h.mem_of_find hid⟩
  · rintro ⟨id, hid, rfl⟩
    exact h.holds.find_isSome (p := fun j => a.isLeaf j && decide ((a.read j).hash = (a.read id).hash)) hid
      (by simp [hleaf id hid])

theorem Indexes.find_eq_none (h : index.Indexes a S) {hash : H} (hno : ∀ id ∈ S, (a.read id).hash ≠ hash) :
    index.find a hash = none := by
  apply h.holds.find_eq_none
  · intro id hid
    simp [hno id hid]
  · exact Nat.mod_lt _ (by have := h.cap; omega)

omit [DecidableEq H]

/-! ## Rehash and insertion -/

theorem Indexes.rehash (h : index.Indexes a S) (hleaf : ∀ id ∈ S, a.isLeaf id = true) (capacity : Nat)
    (hload : S.card * 10 < max 16 (bitCeil capacity) * 8) :
    ∃ index', index.rehash a capacity = some index' ∧ index'.Indexes a S ∧ index'.tombstones = 0 ∧
      index'.table.capacity = max 16 (bitCeil capacity) := by
  have hentries : index.table.entries.filter a.isLeaf = index.table.entries := by
    apply List.filter_eq_self.mpr
    intro id hid
    obtain ⟨i, hi, hs⟩ := Table.mem_entries.mp hid
    exact hleaf id (h.holds.mem i hi id hs)
  have hlen := h.holds.entries_length
  have hcap : (Table.clear (max 16 (bitCeil capacity)) : Table Nat).capacity = max 16 (bitCeil capacity) := rfl
  obtain ⟨t, hrun, htcap, hholds, hdel⟩ := Table.refill_spec index.table.entries
    (Table.holds_clear (home a (max 16 (bitCeil capacity))) (max 16 (bitCeil capacity))) (Table.deletedCount_clear _)
    h.holds.entries_nodup (by simp) (fun id _ => Nat.mod_lt _ (by omega))
    (by rw [Finset.card_empty, hcap]; omega)
  rw [Finset.empty_union, h.holds.entries_toFinset] at hholds
  rw [hcap] at htcap
  refine ⟨⟨t, S.card, 0⟩, ?_, ⟨by rw [htcap]; exact capacity_eq_pow capacity, by rw [htcap]; omega, by rw [htcap]; exact hholds, rfl,
    hdel.symm, ?_⟩, rfl, htcap⟩
  · rw [KeylessLeafIndex.rehash, hentries, hrun, hlen]
    rfl
  · rw [htcap]
    omega

theorem Indexes.place (h : index.Indexes a S) {id : Nat} (hid : id ∉ S)
    (hroom : (index.size + index.tombstones + 1) * 10 < index.table.capacity * 8) :
    ∃ index', index.place (a.read id).hash id = some index' ∧ index'.Indexes a (Insert.insert id S) := by
  have hb : bucket (a.read id).hash % index.table.capacity < index.table.capacity := home_lt h.cap id
  obtain ⟨d, used, hslot, hd, hds, hreach⟩ := Table.insertSlot_of_empty hb h.exists_empty
  have hfree : ∀ b, index.table.slot d ≠ .full b := by
    intro b hb
    rw [hb] at hds
    cases used <;> simp at hds
  have hplace : index.place (a.read id).hash id = some ⟨index.table.set d (.full id), index.size + 1,
      if used then index.tombstones - 1 else index.tombstones⟩ := by
    rw [KeylessLeafIndex.place, hslot]
    rfl
  refine ⟨_, hplace, h.pow, h.cap, h.holds.insert hid hd hfree hb hreach, ?_, ?_, ?_⟩
  · show index.size + 1 = _
    rw [Finset.card_insert_of_notMem hid, h.size_eq]
  · show (if used then index.tombstones - 1 else index.tombstones) = _
    rw [Table.deletedCount_set_full id hd, h.tombstones_eq, hds]
    cases used <;> simp [Slot.isDeleted]
  · show (index.size + 1 + if used then index.tombstones - 1 else index.tombstones) * 10 < index.table.capacity * 8
    split_ifs <;> omega

theorem Indexes.insert (h : index.Indexes a S) (hleaf : ∀ id ∈ S, a.isLeaf id = true) {id : Nat} (hid : id ∉ S) :
    ∃ index', index.insert a (a.read id).hash id = some index' ∧ index'.Indexes a (Insert.insert id S) := by
  have hload := h.load
  have hcap := h.cap
  rw [KeylessLeafIndex.insert]
  split_ifs with hfull hkeep
  · -- tombstones fill the table: rehash in place
    obtain ⟨k, hk⟩ := h.pow
    have hceil : max 16 (bitCeil index.table.capacity) = index.table.capacity := by
      rw [hk, bitCeil_pow, ← hk]; omega
    obtain ⟨index', hrun, hindexes, htomb, hcap'⟩ := h.rehash hleaf index.table.capacity
      (by rw [hceil, ← h.size_eq]; omega)
    rw [hrun]
    apply hindexes.place hid
    rw [hindexes.size_eq, htomb, hcap', hceil, ← h.size_eq]
    omega
  · obtain ⟨k, hk⟩ := h.pow
    have hceil : max 16 (bitCeil (index.table.capacity * 2)) = index.table.capacity * 2 := by
      rw [hk, ← pow_succ, bitCeil_pow, pow_succ, ← hk]; omega
    obtain ⟨index', hrun, hindexes, htomb, hcap'⟩ := h.rehash hleaf (index.table.capacity * 2)
      (by rw [hceil, ← h.size_eq]; omega)
    rw [hrun]
    apply hindexes.place hid
    rw [hindexes.size_eq, htomb, hcap', hceil, ← h.size_eq]
    omega
  · exact h.place hid (by omega)

theorem Indexes.erase (h : index.Indexes a S) {id : Nat} (hid : id ∈ S) :
    ∃ index', index.erase a (a.read id).hash id = some (true, index') ∧ index'.Indexes a (S.erase id) := by
  obtain ⟨j, hj, hslot, hlocate⟩ := h.holds.locate_eq hid
  have hcap := h.cap
  obtain ⟨z, hz, hempty⟩ := h.exists_empty
  obtain ⟨t, hrun, htcap, hholds, hdel⟩ := Table.backShift_spec index.table.capacity index.table j
    (index.table.next j) (by omega) hz hempty (Table.Shifting.start h.holds hj hslot (by omega))
    (Table.dist_lt (Table.next_lt _ hj) hz)
  have hpos : 0 < S.card := Finset.card_pos.mpr ⟨id, hid⟩
  have hlocate' : index.table.locate id index.table.capacity
      (bucket (a.read id).hash % index.table.capacity) = some (some j) := hlocate
  refine ⟨⟨t, index.size - 1, index.tombstones⟩, ?_, ?_⟩
  · rw [KeylessLeafIndex.erase]
    simp only [hlocate', hrun, Option.map_some]
  · refine ⟨by rw [htcap]; exact h.pow, by rw [htcap]; exact h.cap, by rw [htcap]; exact hholds, ?_, ?_, ?_⟩
    · rw [Finset.card_erase_of_mem hid, h.size_eq]
    · rw [h.tombstones_eq, hdel]
    · rw [htcap]
      have := h.load
      simp only
      omega

theorem Indexes.prepareInsertions (h : index.Indexes a S) (hleaf : ∀ id ∈ S, a.isLeaf id = true) (additions : Nat) :
    ∃ index', index.prepareInsertions a additions = some index' ∧ index'.Indexes a S := by
  rw [KeylessLeafIndex.prepareInsertions]
  simp only
  split_ifs with hmore
  · have hload := h.load
    have hle := le_bitCeil (max index.table.capacity (((index.size + additions + 1) * 10 + 7) / 8))
    obtain ⟨index', hrun, hindexes, -, -⟩ := h.rehash hleaf
      (max index.table.capacity (((index.size + additions + 1) * 10 + 7) / 8))
      (by rw [← h.size_eq]; omega)
    exact ⟨index', hrun, hindexes⟩
  · exact ⟨index, rfl, h⟩

end UtreexoBridge.KeylessLeafIndex
