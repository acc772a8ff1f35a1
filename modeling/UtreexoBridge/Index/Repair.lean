import UtreexoBridge.Index.Counts
import UtreexoBridge.OpenAddressing.Repair

/-!
# Any calls on the leaf index

Insertions, deletions, reservations, rehashing and the repair of a loaded table
keep the index a set of leaf ids. The arena changes in between, but not under an
id that is stored.
-/

namespace UtreexoBridge

open OpenAddressing

namespace KeylessLeafIndex

variable {H : Type} [ForestHash H]

/-! ## The repair of a loaded table. Here `none` is also the result `false`. -/

def validationHome (hash : H) : Nat := bucket hash % 2 ^ 32

def insertValidationHome (index : KeylessLeafIndex) (home id : Nat) : Option KeylessLeafIndex :=
  (index.table.emptySlot index.table.capacity (home % index.table.capacity)).map fun slot =>
    ⟨index.table.set slot (.full id), index.size + 1, index.tombstones⟩

def insertSurvivors (a : NodeArena H) : List Nat → KeylessLeafIndex → Option KeylessLeafIndex
  | [], index => some index
  | id :: rest, index =>
    (index.insertValidationHome (validationHome (a.read id).hash) id).bind (insertSurvivors a rest)

/-- The loop over the clusters, `remaining` slots from `slot` on. -/
def repairClusters (a : NodeArena H) : Nat → Nat → Nat → KeylessLeafIndex → Option KeylessLeafIndex
  | 0, _, _, index => some index
  | fuel + 1, remaining, slot, index =>
    if remaining = 0 then some index
    else if index.table.slot slot = .empty then
      repairClusters a fuel (remaining - 1) (index.table.next slot) index
    else
      let c := index.table.cluster remaining slot
      if c.deleted = 0 then repairClusters a fuel (remaining - c.size) c.after index
      else
        (insertSurvivors a c.survivors ⟨Table.clearSlots c.size slot index.table, index.size - c.survivors.length,
          index.tombstones - c.deleted⟩).bind (repairClusters a fuel (remaining - c.size) c.after)

def repairValidationDeletions (index : KeylessLeafIndex) (a : NodeArena H) : Option KeylessLeafIndex :=
  if index.tombstones = 0 then some index
  else
    match (List.range index.table.capacity).find? fun i => index.table.slot i = .empty with
    | none => none
    | some empty =>
      (repairClusters a index.table.capacity (index.table.capacity - 1) (index.table.next empty) index).bind fun index =>
        if index.tombstones = 0 then some index else none

variable {a : NodeArena H} {index : KeylessLeafIndex} {S : Finset Nat}

/-! ## One cluster -/

theorem validationHome_mod {capacity : Nat} (hpow : ∃ k, capacity = 2 ^ k) (hle : capacity ≤ 2 ^ 32) (id : Nat) :
    validationHome (a.read id).hash % capacity = home a capacity id := by
  obtain ⟨k, rfl⟩ := hpow
  have hk : k ≤ 32 := (Nat.pow_le_pow_iff_right (by omega)).mp hle
  exact Nat.mod_mod_of_dvd _ (Nat.pow_dvd_pow 2 hk)

theorem insertSurvivors_eq {capacity : Nat} (hpow : ∃ k, capacity = 2 ^ k) (hle : capacity ≤ 2 ^ 32) (ids : List Nat)
    {t t' : Table Nat} (hcap : t.capacity = capacity) (size tombstones : Nat)
    (hrun : Table.reinsert (home a capacity) ids t = some t') :
    insertSurvivors a ids ⟨t, size, tombstones⟩ = some ⟨t', size + ids.length, tombstones⟩ := by
  induction ids generalizing t size with
  | nil =>
    cases hrun
    rfl
  | cons id ids ih =>
    rw [Table.reinsert] at hrun
    cases hslot : t.emptySlot t.capacity (home a capacity id) with
    | none =>
      rw [hslot] at hrun
      cases hrun
    | some d =>
      rw [hslot] at hrun
      have hhome : validationHome (a.read id).hash % t.capacity = home a capacity id := by
        rw [hcap]
        exact validationHome_mod hpow hle id
      have hinsert : insertValidationHome ⟨t, size, tombstones⟩ (validationHome (a.read id).hash) id =
          some ⟨t.set d (.full id), size + 1, tombstones⟩ := by
        unfold insertValidationHome
        dsimp only
        rw [hhome, hslot]
        rfl
      rw [insertSurvivors, hinsert, Option.bind_some, ih (t := t.set d (.full id)) hcap (size + 1) hrun, List.length_cons,
        Nat.add_right_comm, Nat.add_assoc]

/-! ## All clusters -/

/-- The loop has come round to `slot`, with `remaining` slots to go to the empty slot `z` it started behind. -/
structure Repairing (index : KeylessLeafIndex) (a : NodeArena H) (S : Finset Nat) (z remaining slot : Nat) : Prop where
  indexes : index.Indexes a S
  slot_lt : slot < index.table.capacity
  z_lt : z < index.table.capacity
  z_empty : index.table.slot z = .empty
  dist_eq : dist index.table.capacity slot z = remaining
  front : index.table.slot slot = .empty ∨ index.table.slot (index.table.ahead slot (index.table.capacity - 1)) = .empty
  behind : ∀ i < index.table.capacity, remaining ≤ dist index.table.capacity slot i → index.table.slot i ≠ .deleted

variable {z remaining slot : Nat}

theorem Repairing.done (h : index.Repairing a S z 0 slot) : index.tombstones = 0 := by
  rw [h.indexes.tombstones_eq, Table.deletedCount, Finset.card_eq_zero, Finset.filter_eq_empty_iff]
  intro i hi hdeleted
  have hne := h.behind i (Finset.mem_range.mp hi) (Nat.zero_le _)
  cases hslot : index.table.slot i with
  | empty =>
    rw [hslot] at hdeleted
    cases hdeleted
  | full id =>
    rw [hslot] at hdeleted
    cases hdeleted
  | deleted => exact hne hslot

theorem Repairing.skipEmpty (h : index.Repairing a S z remaining slot) (hpos : remaining ≠ 0)
    (hempty : index.table.slot slot = .empty) :
    index.Repairing a S z (remaining - 1) (index.table.next slot) := by
  have hslot := h.slot_lt
  have hz := h.z_lt
  have hdist := h.dist_eq
  have hnext := Table.next_eq index.table hslot
  refine ⟨h.indexes, Table.next_lt _ hslot, hz, h.z_empty, ?_, Or.inr ?_, fun i hi hle => ?_⟩
  · rw [hnext]
    unfold OpenAddressing.dist at *
    split_ifs at * <;> omega
  · rw [Table.ahead_next_last hslot, hempty]
  · by_cases his : i = slot
    · rw [his, hempty]
      simp
    · refine h.behind i hi ?_
      rw [hnext] at hle
      unfold OpenAddressing.dist at *
      split_ifs at * <;> omega

/-- Past a cluster: nothing outside it has changed, and no tombstone is left in it. -/
theorem Repairing.pass (h : index.Repairing a S z remaining slot) {index' : KeylessLeafIndex} (hindexes : index'.Indexes a S)
    (hcap : index'.table.capacity = index.table.capacity) {size : Nat} (hle : size ≤ remaining)
    (hend : index.table.slot (index.table.ahead slot size) = .empty)
    (hsame : ∀ i < index.table.capacity, size ≤ dist index.table.capacity slot i → index'.table.slot i = index.table.slot i)
    (hclean : ∀ k < size, index'.table.slot (index.table.ahead slot k) ≠ .deleted) :
    index'.Repairing a S z (remaining - size) (index.table.ahead slot size) := by
  have hslot := h.slot_lt
  have hz := h.z_lt
  have hdist := h.dist_eq
  have hlt : remaining < index.table.capacity := by
    rw [← hdist]
    exact Table.dist_lt hslot hz
  have hahead : dist index.table.capacity slot (index.table.ahead slot size) = size := Table.dist_ahead hslot (by omega)
  refine ⟨hindexes, ?_, ?_, ?_, ?_, Or.inl ?_, fun i hi hout => ?_⟩
  · rw [hcap]
    exact Table.ahead_lt hslot _
  · rw [hcap]
    exact hz
  · rw [hsame z hz (by omega), h.z_empty]
  · have hrest := Table.dist_ahead_ahead hslot hle hlt
    have hzahead := Table.ahead_dist hslot hz
    rw [hdist] at hzahead
    rw [hzahead] at hrest
    rw [hcap, hrest]
  · rw [hsame _ (Table.ahead_lt hslot _) (by omega), hend]
  · rw [hcap] at hi hout
    have hk := Table.dist_lt hslot hi
    have hiahead := Table.ahead_dist hslot hi
    by_cases hin : dist index.table.capacity slot i < size
    · rw [← hiahead]
      exact hclean _ hin
    · rw [hsame i hi (by omega)]
      have hrest := Table.dist_ahead_ahead hslot (not_lt.mp hin) hk
      rw [hiahead] at hrest
      exact h.behind i hi (by omega)

theorem repairClusters_spec (fuel : Nat) (hfuel : remaining ≤ fuel) (hle : index.table.capacity ≤ 2 ^ 32)
    (h : index.Repairing a S z remaining slot) :
    ∃ index', repairClusters a fuel remaining slot index = some index' ∧ index'.Indexes a S ∧ index'.tombstones = 0 ∧
      index'.table.capacity = index.table.capacity := by
  induction fuel generalizing index remaining slot with
  | zero =>
    cases Nat.le_zero.mp hfuel
    exact ⟨index, rfl, h.indexes, h.done, rfl⟩
  | succ fuel ih =>
    rw [repairClusters]
    by_cases hzero : remaining = 0
    · subst hzero
      exact ⟨index, rfl, h.indexes, h.done, rfl⟩
    rw [if_neg hzero]
    by_cases hempty : index.table.slot slot = .empty
    · rw [if_pos hempty]
      exact ih (by omega) hle (h.skipEmpty hzero hempty)
    rw [if_neg hempty]
    dsimp only
    have hslot := h.slot_lt
    have hsize := Table.cluster_size_le index.table remaining slot
    have hpos := Table.cluster_size_pos (Nat.pos_of_ne_zero hzero) hempty
    have hafter := Table.cluster_after index.table remaining hslot
    have hlt : remaining < index.table.capacity := by
      rw [← h.dist_eq]
      exact Table.dist_lt hslot h.z_lt
    have hend : index.table.slot (index.table.ahead slot (index.table.cluster remaining slot).size) = .empty := by
      rcases Table.cluster_ends index.table remaining hslot with hall | hend
      · -- the cluster goes on to the slot that the loop started behind
        have hz := Table.ahead_dist hslot h.z_lt
        rw [h.dist_eq] at hz
        rw [hall, hz, h.z_empty]
      · rwa [← hafter]
    by_cases hdeleted : (index.table.cluster remaining slot).deleted = 0
    · rw [if_pos hdeleted, hafter]
      exact ih (by omega) hle (h.pass h.indexes rfl hsize hend (fun _ _ _ => rfl) (Table.cluster_clean hslot hdeleted))
    · rw [if_neg hdeleted, hafter]
      obtain ⟨t', hrun, hcap, hholds, hlength, hcount, hsame, hclean⟩ := h.indexes.holds.rebuild hslot (by omega)
        (h.front.resolve_left hempty) hend
      have hload := h.indexes.load
      have htombstones := h.indexes.tombstones_eq
      have hcard := h.indexes.size_eq
      rw [insertSurvivors_eq h.indexes.pow hle _ (Table.clearSlots_capacity _ _ _) _ _ hrun, Option.bind_some]
      have hindexes : Indexes ⟨t', index.size - (index.table.cluster remaining slot).survivors.length +
          (index.table.cluster remaining slot).survivors.length, index.tombstones - (index.table.cluster remaining slot).deleted⟩
          a S := by
        refine ⟨by rw [hcap]; exact h.indexes.pow, by rw [hcap]; exact h.indexes.cap, by rw [hcap]; exact hholds, ?_, ?_, ?_⟩
        · dsimp only
          omega
        · dsimp only
          omega
        · dsimp only
          rw [hcap]
          omega
      obtain ⟨index', hloop, hindexes', hclean', hcap'⟩ := ih (by omega) (by rw [hcap]; exact hle)
        (h.pass hindexes hcap hsize hend hsame hclean)
      exact ⟨index', hloop, hindexes', hclean', hcap'.trans hcap⟩

theorem Indexes.repairValidationDeletions (h : index.Indexes a S) (hle : index.tombstones ≠ 0 → index.table.capacity ≤ 2 ^ 32) :
    ∃ index', index.repairValidationDeletions a = some index' ∧ index'.Indexes a S ∧ index'.tombstones = 0 := by
  unfold KeylessLeafIndex.repairValidationDeletions
  by_cases hzero : index.tombstones = 0
  · rw [if_pos hzero]
    exact ⟨index, rfl, h, hzero⟩
  rw [if_neg hzero]
  have hcap := h.cap
  cases hfind : (List.range index.table.capacity).find? fun i => index.table.slot i = .empty with
  | none =>
    obtain ⟨i, hi, hempty⟩ := h.exists_empty
    have := List.find?_eq_none.mp hfind i (List.mem_range.mpr hi)
    simp [hempty] at this
  | some z =>
    have hz : z < index.table.capacity := List.mem_range.mp (List.mem_of_find?_eq_some hfind)
    have hempty : index.table.slot z = .empty := by simpa using List.find?_some hfind
    have hnext := Table.next_eq index.table hz
    have hstart : index.Repairing a S z (index.table.capacity - 1) (index.table.next z) := by
      refine ⟨h, Table.next_lt _ hz, hz, hempty, ?_, Or.inr ?_, fun i hi hout => ?_⟩
      · rw [hnext]
        unfold OpenAddressing.dist
        split_ifs <;> omega
      · rw [Table.ahead_next_last hz, hempty]
      · have hiz : i = z := by
          rw [hnext] at hout
          unfold OpenAddressing.dist at hout
          split_ifs at hout <;> omega
        rw [hiz, hempty]
        simp
    obtain ⟨index', hrun, hindexes, hclean, -⟩ := repairClusters_spec index.table.capacity (by omega) (hle hzero) hstart
    dsimp only
    rw [hrun, Option.bind_some, if_pos hclean]
    exact ⟨index', rfl, hindexes, hclean⟩

theorem Indexes.erase_absent (h : index.Indexes a S) {id : Nat} (hid : id ∉ S) (hash : H) :
    index.erase a hash id = some (false, index) := by
  obtain ⟨z, hz, hempty⟩ := h.exists_empty
  have hhome : bucket hash % index.table.capacity < index.table.capacity := Nat.mod_lt _ (by have := h.cap; omega)
  have hlocate := Table.locate_absent hhome hz hempty (fun i hi hfull => hid (h.holds.mem i hi id hfull))
    index.table.capacity _ hhome (Table.reach_home _) (by rw [Table.dist_self]; omega)
  rw [KeylessLeafIndex.erase, hlocate]

end KeylessLeafIndex

/-! ## Runs -/

/-- The index with its arena. `stored` is what a caller knows to be in it. -/
structure IndexState (H : Type) where
  arena : NodeArena H
  index : KeylessLeafIndex
  stored : Finset Nat

inductive IndexOp (H : Type)
  | insert (hash : H) (id : Nat)
  | erase (hash : H) (id : Nat)
  | prepareInsertions (additions : Nat)
  | rehash (capacity : Nat)
  | repairValidationDeletions
  /-- The arena changes between two calls. -/
  | change (arena : NodeArena H)

namespace IndexState

variable {H : Type} [ForestHash H]

/-- `none`: a loop that never ends, or a repair that fails. -/
def step (s : IndexState H) : IndexOp H → Option (IndexState H)
  | .insert hash id =>
    (s.index.insert s.arena hash id).map fun index => { s with index, stored := insert id s.stored }
  | .erase hash id =>
    (s.index.erase s.arena hash id).map fun (_, index) => { s with index, stored := s.stored.erase id }
  | .prepareInsertions additions => (s.index.prepareInsertions s.arena additions).map fun index => { s with index }
  | .rehash capacity => (s.index.rehash s.arena capacity).map fun index => { s with index }
  | .repairValidationDeletions => (s.index.repairValidationDeletions s.arena).map fun index => { s with index }
  | .change arena => some { s with arena }

/-- How the index is called: an id goes in once, with its hash in the arena and no other stored id of that hash. Its
record stays until it is erased. `Rehash` is called with a capacity that the ids do not fill. -/
def Allows (s : IndexState H) : IndexOp H → Prop
  | .insert hash id => id ∉ s.stored ∧ s.arena.isLeaf id = true ∧ (s.arena.read id).hash = hash ∧
      ∀ j ∈ s.stored, (s.arena.read j).hash ≠ hash
  | .erase hash id => id ∈ s.stored → (s.arena.read id).hash = hash
  | .rehash capacity => s.stored.card * 10 < max 16 (bitCeil capacity) * 8
  | .change arena => ∀ id ∈ s.stored, arena.read id = s.arena.read id ∧ arena.isLeaf id = true
  | _ => True

def run (s : IndexState H) : List (IndexOp H) → Option (IndexState H)
  | [] => some s
  | op :: ops => (s.step op).bind (run · ops)

def AllowsRun (s : IndexState H) : List (IndexOp H) → Prop
  | [] => True
  | op :: ops => s.Allows op ∧ ∀ s', s.step op = some s' → s'.AllowsRun ops

/-- A table with tombstones was loaded from a cache, whose home slots have 32 bits. -/
structure Valid (s : IndexState H) : Prop where
  indexes : s.index.Indexes s.arena s.stored
  leaf : ∀ id ∈ s.stored, s.arena.isLeaf id = true
  distinct : ∀ id ∈ s.stored, ∀ j ∈ s.stored, (s.arena.read j).hash = (s.arena.read id).hash → j = id
  loaded : s.index.tombstones ≠ 0 → s.index.table.capacity ≤ 2 ^ 32

theorem valid_new (arena : NodeArena H) : (⟨arena, .new, ∅⟩ : IndexState H).Valid :=
  ⟨KeylessLeafIndex.indexes_new arena, by simp, by simp, fun hne => absurd rfl hne⟩

variable {s : IndexState H}

/-! ### One call -/

/-- Only a table that keeps its capacity keeps tombstones. -/
def Kept (index index' : KeylessLeafIndex) : Prop :=
  index'.tombstones = 0 ∨ (index'.table.capacity = index.table.capacity ∧ index'.tombstones ≤ index.tombstones)

omit [ForestHash H] in
theorem Kept.loaded {index index' : KeylessLeafIndex} (h : Kept index index')
    (hloaded : index.tombstones ≠ 0 → index.table.capacity ≤ 2 ^ 32) :
    index'.tombstones ≠ 0 → index'.table.capacity ≤ 2 ^ 32 := by
  intro hne
  rcases h with hzero | ⟨hcap, hle⟩
  · exact absurd hzero hne
  · rw [hcap]
    exact hloaded (by omega)

theorem kept_insert {a : NodeArena H} {index index' : KeylessLeafIndex} {hash : H} {id : Nat}
    (hok : index.insert a hash id = some index') : Kept index index' := by
  unfold KeylessLeafIndex.insert at hok
  dsimp only at hok
  by_cases hfull : (index.size + index.tombstones + 1) * 10 ≥ index.table.capacity * 8
  · rw [if_pos hfull] at hok
    obtain ⟨rehashed, hrehash, hplace⟩ := Option.bind_eq_some_iff.mp hok
    have hzero := (KeylessLeafIndex.rehash_counts hrehash).2
    have hle := (KeylessLeafIndex.place_counts hplace).2.2
    exact Or.inl (by omega)
  · rw [if_neg hfull] at hok
    obtain ⟨hcap, -, hle⟩ := KeylessLeafIndex.place_counts hok
    exact Or.inr ⟨hcap, hle⟩

theorem kept_prepareInsertions {a : NodeArena H} {index index' : KeylessLeafIndex} {additions : Nat}
    (hok : index.prepareInsertions a additions = some index') : Kept index index' := by
  unfold KeylessLeafIndex.prepareInsertions at hok
  dsimp only at hok
  split_ifs at hok with hmore
  · exact Or.inl (KeylessLeafIndex.rehash_counts hok).2
  · cases hok
    exact Or.inr ⟨rfl, le_refl _⟩

theorem Valid.same (h : s.Valid) {index' : KeylessLeafIndex} (hindexes : index'.Indexes s.arena s.stored)
    (hkept : Kept s.index index') : ({ s with index := index' } : IndexState H).Valid :=
  ⟨hindexes, h.leaf, h.distinct, hkept.loaded h.loaded⟩

theorem Valid.insert (h : s.Valid) {hash : H} {id : Nat} (hallowed : s.Allows (.insert hash id)) :
    ∃ s', s.step (.insert hash id) = some s' ∧ s'.Valid := by
  obtain ⟨hnew, hleaf, rfl, hdistinct⟩ := hallowed
  obtain ⟨index', hrun, hindexes⟩ := h.indexes.insert h.leaf hnew
  refine ⟨⟨s.arena, index', Insert.insert id s.stored⟩, by rw [step, hrun]; rfl, hindexes, fun j hj => ?_,
    fun j hj k hk hsame => ?_, (kept_insert hrun).loaded h.loaded⟩
  · rcases Finset.mem_insert.mp hj with rfl | hj
    · exact hleaf
    · exact h.leaf j hj
  · rcases Finset.mem_insert.mp hj with hj | hj <;> rcases Finset.mem_insert.mp hk with hk | hk
    · rw [hj, hk]
    · rw [hj] at hsame
      exact absurd hsame (hdistinct k hk)
    · rw [hk] at hsame
      exact absurd hsame.symm (hdistinct j hj)
    · exact h.distinct j hj k hk hsame

theorem Valid.erase_index (h : s.Valid) {hash : H} {id : Nat} (hallowed : s.Allows (.erase hash id)) :
    ∃ index', s.index.erase s.arena hash id = some (decide (id ∈ s.stored), index') ∧
      index'.Indexes s.arena (s.stored.erase id) ∧ index'.tombstones = s.index.tombstones ∧
      index'.table.capacity = s.index.table.capacity := by
  by_cases hid : id ∈ s.stored
  · obtain ⟨index', hrun, hindexes⟩ := h.indexes.erase hid
    rw [hallowed hid] at hrun
    obtain ⟨hcap, -, htombstones⟩ := KeylessLeafIndex.erase_counts hrun
    exact ⟨index', by rw [hrun, decide_eq_true hid], hindexes, htombstones, hcap⟩
  · refine ⟨s.index, by rw [h.indexes.erase_absent hid, decide_eq_false hid], ?_, rfl, rfl⟩
    rw [Finset.erase_eq_of_notMem hid]
    exact h.indexes

theorem Valid.erase (h : s.Valid) {hash : H} {id : Nat} (hallowed : s.Allows (.erase hash id)) :
    ∃ s', s.step (.erase hash id) = some s' ∧ s'.Valid := by
  obtain ⟨index', hrun, hindexes, htombstones, hcap⟩ := h.erase_index hallowed
  refine ⟨⟨s.arena, index', s.stored.erase id⟩, by rw [step, hrun]; rfl, hindexes,
    fun j hj => h.leaf j (Finset.mem_of_mem_erase hj),
    fun j hj k hk => h.distinct j (Finset.mem_of_mem_erase hj) k (Finset.mem_of_mem_erase hk), ?_⟩
  exact Kept.loaded (Or.inr ⟨hcap, htombstones.le⟩) h.loaded

theorem Valid.change (h : s.Valid) {arena : NodeArena H} (hallowed : s.Allows (.change arena)) :
    ({ s with arena } : IndexState H).Valid := by
  refine ⟨h.indexes.congr fun id hid => by rw [(hallowed id hid).1], fun id hid => (hallowed id hid).2,
    fun id hid j hj hsame => ?_, h.loaded⟩
  dsimp only at hsame
  rw [(hallowed id hid).1, (hallowed j hj).1] at hsame
  exact h.distinct id hid j hj hsame

theorem Valid.step (h : s.Valid) {op : IndexOp H} (hallowed : s.Allows op) : ∃ s', s.step op = some s' ∧ s'.Valid := by
  cases op with
  | insert hash id => exact h.insert hallowed
  | erase hash id => exact h.erase hallowed
  | prepareInsertions additions =>
    obtain ⟨index', hrun, hindexes⟩ := h.indexes.prepareInsertions h.leaf additions
    exact ⟨_, by rw [IndexState.step, hrun]; rfl, h.same hindexes (kept_prepareInsertions hrun)⟩
  | rehash capacity =>
    obtain ⟨index', hrun, hindexes, htombstones, -⟩ := h.indexes.rehash h.leaf capacity hallowed
    exact ⟨_, by rw [IndexState.step, hrun]; rfl, h.same hindexes (Or.inl htombstones)⟩
  | repairValidationDeletions =>
    obtain ⟨index', hrun, hindexes, htombstones⟩ := h.indexes.repairValidationDeletions h.loaded
    exact ⟨_, by rw [IndexState.step, hrun]; rfl, h.same hindexes (Or.inl htombstones)⟩
  | change arena => exact ⟨_, rfl, h.change hallowed⟩

theorem Valid.run (h : s.Valid) {ops : List (IndexOp H)} (hallowed : s.AllowsRun ops) :
    ∃ s', s.run ops = some s' ∧ s'.Valid := by
  induction ops generalizing s with
  | nil => exact ⟨s, rfl, h⟩
  | cons op ops ih =>
    obtain ⟨s1, hstep, hvalid⟩ := h.step hallowed.1
    obtain ⟨s', hrun, hvalid'⟩ := ih hvalid (hallowed.2 s1 hstep)
    exact ⟨s', by rw [IndexState.run, hstep]; exact hrun, hvalid'⟩

/-! ### A set of ids -/

/-- What a valid index is worth to a caller. -/
structure IsSet [DecidableEq H] (s : IndexState H) : Prop where
  stored : ∀ id, id ∈ s.stored ↔ ∃ i < s.index.table.capacity, s.index.table.slot i = .full id
  reachable : ∀ i < s.index.table.capacity, ∀ id, s.index.table.slot i = .full id →
    s.index.table.Reach (bucket (s.arena.read id).hash % s.index.table.capacity) i
  size : s.index.size = ((Finset.range s.index.table.capacity).filter fun i => (s.index.table.slot i).entry.isSome).card
  empty : ∃ i < s.index.table.capacity, s.index.table.slot i = .empty
  find : ∀ hash id, s.index.find s.arena hash = some id ↔ id ∈ s.stored ∧ (s.arena.read id).hash = hash
  erase : ∀ id ∈ s.stored, ∃ index', s.index.erase s.arena (s.arena.read id).hash id = some (true, index') ∧
    (∀ j, (∃ i < index'.table.capacity, index'.table.slot i = .full j) ↔ j ∈ s.stored ∧ j ≠ id) ∧
    index'.table.deletedCount = s.index.table.deletedCount
  repair : ∃ index', s.index.repairValidationDeletions s.arena = some index' ∧ index'.table.deletedCount = 0 ∧
    ∀ j, (∃ i < index'.table.capacity, index'.table.slot i = .full j) ↔ j ∈ s.stored

omit [ForestHash H] in
theorem holds_stored {t : Table Nat} {home : Nat → Nat} {S : Finset Nat} (h : t.Holds home S) (id : Nat) :
    id ∈ S ↔ ∃ i < t.capacity, t.slot i = .full id :=
  ⟨h.placed id, fun ⟨i, hi, hslot⟩ => h.mem i hi id hslot⟩

omit [ForestHash H] in
theorem holds_fullCount {t : Table Nat} {home : Nat → Nat} {S : Finset Nat} (h : t.Holds home S) :
    S.card = ((Finset.range t.capacity).filter fun i => (t.slot i).entry.isSome).card := by
  symm
  apply Finset.card_nbij fun i => ((t.slot i).entry).getD 0
  · intro i hi
    obtain ⟨hi, hsome⟩ := Finset.mem_filter.mp hi
    obtain ⟨id, hid⟩ := Option.isSome_iff_exists.mp hsome
    show ((t.slot i).entry).getD 0 ∈ S
    rw [hid]
    exact h.mem i (Finset.mem_range.mp hi) id (Slot.entry_eq_some.mp hid)
  · intro i hi j hj hsame
    obtain ⟨hi, hisome⟩ := Finset.mem_filter.mp hi
    obtain ⟨hj, hjsome⟩ := Finset.mem_filter.mp hj
    obtain ⟨id, hid⟩ := Option.isSome_iff_exists.mp hisome
    obtain ⟨id', hid'⟩ := Option.isSome_iff_exists.mp hjsome
    have heq : id = id' := by simpa [hid, hid'] using hsame
    rw [← heq] at hid'
    exact h.once i (Finset.mem_range.mp hi) j (Finset.mem_range.mp hj) id (Slot.entry_eq_some.mp hid)
      (Slot.entry_eq_some.mp hid')
  · intro id hid
    obtain ⟨i, hi, hslot⟩ := h.placed id hid
    refine ⟨i, Finset.mem_filter.mpr ⟨Finset.mem_range.mpr hi, by rw [hslot]; rfl⟩, ?_⟩
    show ((t.slot i).entry).getD 0 = id
    rw [hslot]
    rfl

theorem Valid.isSet [DecidableEq H] (h : s.Valid) : s.IsSet := by
  have hfind : ∀ id ∈ s.stored, s.index.find s.arena (s.arena.read id).hash = some id :=
    fun id hid => h.indexes.find_eq_some h.leaf hid fun j hj hsame => h.distinct id hid j hj hsame
  refine ⟨holds_stored h.indexes.holds, h.indexes.holds.reach, h.indexes.size_eq.trans (holds_fullCount h.indexes.holds),
    h.indexes.exists_empty, fun hash id => ⟨fun hsome => ?_, ?_⟩, fun id hid => ?_, ?_⟩
  · by_cases hexists : ∃ j ∈ s.stored, (s.arena.read j).hash = hash
    · obtain ⟨j, hj, rfl⟩ := hexists
      rw [hfind j hj] at hsome
      cases hsome
      exact ⟨hj, rfl⟩
    · rw [h.indexes.find_eq_none fun j hj hsame => hexists ⟨j, hj, hsame⟩] at hsome
      cases hsome
  · rintro ⟨hid, rfl⟩
    exact hfind id hid
  · have hallowed : s.Allows (.erase (s.arena.read id).hash id) := fun _ => rfl
    obtain ⟨index', hrun, hindexes, htombstones, -⟩ := h.erase_index hallowed
    rw [decide_eq_true hid] at hrun
    refine ⟨index', hrun, fun j => ?_, ?_⟩
    · rw [← holds_stored hindexes.holds, Finset.mem_erase, and_comm]
    · rw [← hindexes.tombstones_eq, htombstones, h.indexes.tombstones_eq]
  · obtain ⟨index', hrun, hindexes, htombstones⟩ := h.indexes.repairValidationDeletions h.loaded
    refine ⟨index', hrun, ?_, fun j => ?_⟩
    · rw [← hindexes.tombstones_eq, htombstones]
    · rw [← holds_stored hindexes.holds]

/-- **The leaf index is a set.** A new index is valid. Any run of allowed calls from a valid index ends, and leaves a set
of the ids that were inserted and not erased: each found by its hash, and nothing else found. -/
theorem run_isSet (H : Type) [ForestHash H] [DecidableEq H] :
    (∀ arena : NodeArena H, (⟨arena, .new, ∅⟩ : IndexState H).Valid) ∧
      ∀ (s : IndexState H) (ops : List (IndexOp H)), s.Valid → s.AllowsRun ops →
        ∃ s', s.run ops = some s' ∧ s'.Valid ∧ s'.IsSet := by
  refine ⟨valid_new, fun s ops h hallowed => ?_⟩
  obtain ⟨s', hrun, hvalid⟩ := h.run hallowed
  exact ⟨s', hrun, hvalid, hvalid.isSet⟩

def leavesArena (count : Nat) : NodeArena TermHash :=
  { (NodeArena.new : NodeArena TermHash) with slots := fun id => ⟨.leaf id, noNode, noNode, noNode, .leaf⟩, next := count }

theorem run_isSet_small : ∃ s', (⟨leavesArena 3, .new, ∅⟩ : IndexState TermHash).run
    [.insert (.leaf 0) 0, .insert (.leaf 2) 2, .erase (.leaf 0) 0, .prepareInsertions 40, .repairValidationDeletions] = some s' ∧
      s'.Valid ∧ s'.IsSet := by
  refine (run_isSet TermHash).2 _ _ ((run_isSet TermHash).1 _) ?_
  refine ⟨⟨by simp, rfl, rfl, by simp⟩, fun s1 h1 => ?_⟩
  simp only [step, Option.map_eq_some_iff] at h1
  obtain ⟨index1, -, rfl⟩ := h1
  refine ⟨⟨by simp, rfl, rfl, ?_⟩, fun s2 h2 => ?_⟩
  · intro j hj
    obtain rfl : j = 0 := by simpa using hj
    exact (by decide : ((leavesArena 3).read 0).hash ≠ TermHash.leaf 2)
  simp only [step, Option.map_eq_some_iff] at h2
  obtain ⟨index2, -, rfl⟩ := h2
  refine ⟨fun _ => rfl, fun s3 h3 => ?_⟩
  simp only [step, Option.map_eq_some_iff] at h3
  obtain ⟨index3, -, rfl⟩ := h3
  refine ⟨trivial, fun s4 h4 => ⟨trivial, fun s5 _ => trivial⟩⟩

end IndexState

end UtreexoBridge
