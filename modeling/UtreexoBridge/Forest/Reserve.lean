import UtreexoBridge.Forest.Effects
import UtreexoBridge.Forest.Reachable

/-!
# `PrepareModify` reserves enough

After its reservations no addition of the block rehashes the index, and none
makes the RAM arena grow.
-/

namespace UtreexoBridge

open KeylessLeafIndex NodeArena PackedForest

variable {H : Type} [ForestHash H]

/-! ## What suffices -/

/-- No `Add` in this sequence rehashes the index. -/
def PackedForest.NoRehash (f : PackedForest H) : List H → Prop
  | [] => True
  | hash :: hashes => ¬f.index.Full ∧ ∀ f', f.add hash = .ok f' → NoRehash f' hashes

def PackedForest.neededSlots (f : PackedForest H) (additions : Nat) : Nat :=
  additions + ((List.range additions).map fun i => countrOne 64 (word (f.numLeaves + i))).sum

/-- From the first deletion on the index keeps its slots and the arena its chunks. -/
structure PackedForest.Reserved [DecidableEq H] (f : PackedForest H) (additions deletions : List H) : Prop where
  index : ∀ f' prepared deleted nodes, ModifySteps f additions deletions f' prepared deleted nodes →
    deleted.index.table.capacity = prepared.index.table.capacity ∧ deleted.NoRehash additions
  arena : ∀ f' prepared deleted nodes, ModifySteps f additions deletions f' prepared deleted nodes → ∀ chunks,
    prepared.arena.ensureNew f'.arena (f.arena.ensureAllocations chunks (f.neededSlots additions.length)) =
      f.arena.ensureAllocations chunks (f.neededSlots additions.length)

/-! ## The index -/

theorem addAll_noRehash {f : PackedForest H} {hashes : List H} (h : f.index.Room hashes.length) : f.NoRehash hashes := by
  induction hashes generalizing f with
  | nil => trivial
  | cons hash hashes ih =>
    refine ⟨Room.not_full h, fun f' hok => ih ?_⟩
    obtain ⟨node, a, hsteps⟩ := add_steps hok
    exact Room.insert h hsteps.inserted

theorem KeylessLeafIndex.Shrinks.room {index index' : KeylessLeafIndex} {count : Nat} (h : index.Shrinks index')
    (hroom : index.Room count) : index'.Room count := by
  obtain ⟨hcapacity, hsize, htombstones⟩ := h
  unfold Room at *
  rw [hcapacity, htombstones]
  omega

/-! ## Counting ids in RAM -/

/-- From `a` to `a'` by `count` allocations in RAM. -/
structure Takes (count : Nat) (a a' : NodeArena H) : Prop where
  ram : a'.mapped = false
  next : a'.next = a.next + (count - a.freeStack.length)
  free : a'.freeStack.length = a.freeStack.length - count

section Takes

variable {a a' a'' : NodeArena H} {m n : Nat}

omit [ForestHash H] in
theorem Takes.refl (hram : a.mapped = false) : Takes 0 a a := ⟨hram, by omega, by omega⟩

omit [ForestHash H] in
theorem Takes.trans (h : Takes m a a') (h' : Takes n a' a'') : Takes (m + n) a a'' := by
  obtain ⟨-, hnext, hfree⟩ := h
  obtain ⟨hram, hnext', hfree'⟩ := h'
  exact ⟨hram, by omega, by omega⟩

theorem Takes.setParent (h : Takes n a a') (id parent : Nat) : Takes n a (a'.setParent id parent) := by
  unfold NodeArena.setParent
  exact ⟨by rw [write_mapped, h.ram], by rw [write_next, h.next], by rw [write_freeStack, h.free]⟩

theorem takes_allocate (hram : a.mapped = false) {type : NodeType} {hash : H} {left right id : Nat}
    (hok : a.allocate type hash left right = .ok (id, a')) : Takes 1 a a' := by
  rcases allocate_counts hram type hash left right with ⟨herr, -⟩ | ⟨id', b, hal, htake, hram'⟩
  · rw [herr] at hok
    cases hok
  · rw [hal] at hok
    cases hok
    unfold takeSlot at htake
    split_ifs at htake with hfree
    all_goals
      simp only [Option.some.injEq, Prod.mk.injEq] at htake
      exact ⟨hram', by omega, by omega⟩

theorem addLoop_takes (fuel : Nat) {leaves row node : Nat} {roots roots' : Vector Nat 64} (hram : a.mapped = false)
    (hok : addLoop fuel leaves row node a roots = .ok (a', roots')) :
    ∃ count ≤ countrOne fuel leaves, Takes count a a' := by
  induction fuel generalizing leaves row node a roots with
  | zero => cases hok
  | succ fuel ih =>
    rw [countrOne]
    rcases addLoop_steps hok with ⟨hodd, -, branch, b, hal, hrest⟩ | ⟨hodd, -, hrest⟩ | ⟨heven, rfl, -⟩
    · have htake := ((takes_allocate hram hal).setParent (rootAt roots row) branch).setParent node branch
      obtain ⟨count, hle, hmore⟩ := ih htake.ram hrest
      rw [if_pos hodd]
      exact ⟨1 + count, by omega, htake.trans hmore⟩
    · obtain ⟨count, hle, hmore⟩ := ih hram hrest
      rw [if_pos hodd]
      exact ⟨count, by omega, hmore⟩
    · rw [if_neg heven]
      exact ⟨0, Nat.zero_le _, .refl hram⟩

end Takes

theorem countrOne_word (fuel n : Nat) : countrOne fuel (n % 2 ^ fuel) = countrOne fuel n := by
  induction fuel generalizing n with
  | zero => rfl
  | succ fuel ih =>
    have hbit : n % 2 ^ (fuel + 1) % 2 = n % 2 := Nat.mod_mod_of_dvd n (Dvd.intro_left (2 ^ fuel) rfl)
    have hrest : n % 2 ^ (fuel + 1) / 2 = n / 2 % 2 ^ fuel := by
      rw [Nat.pow_succ, Nat.mul_comm, Nat.mod_mul_right_div_self]
    rw [countrOne, countrOne, hbit, hrest, ih]

omit [ForestHash H] in
theorem neededSlots_succ {f f' : PackedForest H} (hnum : f'.numLeaves = f.numLeaves + 1) (count : Nat) :
    f.neededSlots (count + 1) = 1 + countrOne 64 f.numLeaves + f'.neededSlots count := by
  have hshift : ∀ i, word (f.numLeaves + (i + 1)) = word (f'.numLeaves + i) := fun i => by
    rw [hnum, Nat.add_assoc, Nat.add_comm 1 i]
  have hfirst : countrOne 64 (word (f.numLeaves + 0)) = countrOne 64 f.numLeaves := countrOne_word 64 f.numLeaves
  unfold PackedForest.neededSlots
  rw [List.range_succ_eq_map, List.map_cons, List.sum_cons, List.map_map, hfirst]
  simp only [Function.comp_def, hshift]
  omega

theorem addAll_takes {f f' : PackedForest H} {hashes : List H} (hram : f.arena.mapped = false)
    (hok : f.addAll hashes = .ok f') : ∃ count ≤ f.neededSlots hashes.length, Takes count f.arena f'.arena := by
  induction hashes generalizing f with
  | nil =>
    cases hok
    exact ⟨0, Nat.zero_le _, .refl hram⟩
  | cons hash hashes ih =>
    rw [PackedForest.addAll] at hok
    cases hadd : f.add hash with
    | error fault =>
      rw [hadd] at hok
      cases hok
    | ok f1 =>
      rw [hadd] at hok
      obtain ⟨node, a, hsteps⟩ := add_steps hadd
      have hleaf := takes_allocate hram hsteps.allocated
      obtain ⟨branches, hbranches, hloop⟩ := addLoop_takes 64 hleaf.ram hsteps.linked
      obtain ⟨count, hle, hrest⟩ := ih hloop.ram hok
      refine ⟨1 + branches + count, ?_, (hleaf.trans hloop).trans hrest⟩
      rw [List.length_cons, neededSlots_succ hsteps.numLeaves]
      omega

theorem stable_freed (next count : Nat) :
    Stable fun a : NodeArena H => a.mapped = false ∧ a.next = next ∧ count ≤ a.freeStack.length := by
  refine ⟨fun {a} h id r => ?_, fun {a} h id => ?_⟩
  · rw [write_mapped, write_next, write_freeStack]
    exact h
  · obtain ⟨hram, hnext, hcount⟩ := h
    unfold NodeArena.free
    simp only [hram, Bool.false_eq_true, if_false, write_mapped, write_next, write_freeStack, List.length_cons, true_and]
    exact ⟨hnext, by omega⟩

/-! ## Growth -/

omit [ForestHash H] in
theorem ensureNew_mapped {a a' : NodeArena H} (h : a.mapped = true) (chunks : Nat) : a.ensureNew a' chunks = chunks := by
  unfold ensureNew
  generalize List.range' a.next (a'.next - a.next) = ids
  induction ids with
  | nil => rfl
  | cons id ids ih =>
    rw [List.foldl_cons, show a.ensure chunks id = chunks from if_pos h]
    exact ih

omit [ForestHash H] in
theorem ensureNew_of_le {a a' : NodeArena H} {chunks : Nat} (h : a'.next ≤ chunks * chunkSize) :
    a.ensureNew a' chunks = chunks := by
  have hids : ∀ id ∈ List.range' a.next (a'.next - a.next), id < chunks * chunkSize := by
    intro id hid
    rw [List.mem_range'_1] at hid
    omega
  unfold ensureNew
  generalize List.range' a.next (a'.next - a.next) = ids at hids
  induction ids with
  | nil => rfl
  | cons id ids ih =>
    have hlt := (Nat.div_lt_iff_lt_mul (by unfold chunkSize; omega)).mpr (hids id List.mem_cons_self)
    have hsame : a.ensure chunks id = chunks := by
      unfold ensure
      split_ifs
      · rfl
      · omega
    rw [List.foldl_cons, hsame]
    exact ih fun x hx => hids x (List.mem_cons_of_mem _ hx)

omit [ForestHash H] in
theorem le_ensure {a : NodeArena H} (hram : a.mapped = false) (chunks id : Nat) :
    id + 1 ≤ a.ensure chunks id * chunkSize := by
  have hdiv : id < (id / chunkSize + 1) * chunkSize := by
    unfold chunkSize
    omega
  unfold ensure
  rw [hram, if_neg Bool.false_ne_true]
  exact hdiv.trans_le (Nat.mul_le_mul_right _ (le_max_right _ _))

variable [DecidableEq H] {f : PackedForest H} {trees : Nat → Option (IdTree H)}

/-- **Reservation.** What `PrepareModify` reserves covers the whole block. -/
theorem Structured.reserved (h : Structured f trees) (additions deletions : List H) : f.Reserved additions deletions := by
  refine ⟨fun f' prepared deleted nodes hsteps => ?_, fun f' prepared deleted nodes hsteps chunks => ?_⟩
  · obtain ⟨index, hindex, rfl, -⟩ := prepareModify_steps hsteps.prepares
    have hroom := h.index.room (fun x hx => NodeArena.isLeaf_eq_true.mpr hx) hindex
    have hdel := deleteAll_deletes (I := fun _ => True) ⟨fun _ _ _ => trivial, fun _ _ => trivial⟩ trivial hsteps.deletes
    exact ⟨hdel.index.capacity, addAll_noRehash (hdel.index.room hroom)⟩
  · obtain ⟨index, -, rfl, -⟩ := prepareModify_steps hsteps.prepares
    by_cases hmapped : f.arena.mapped = true
    · exact ensureNew_mapped hmapped _
    have hram : f.arena.mapped = false := by simpa using hmapped
    have hdel := deleteAll_deletes (stable_freed f.arena.next f.arena.freeStack.length) (f := { f with index })
      ⟨hram, rfl, le_rfl⟩ hsteps.deletes
    obtain ⟨hdram, hdnext, hdfree⟩ := hdel.arena
    obtain ⟨count, hle, htakes⟩ := addAll_takes hdram hsteps.adds
    have hneeded : deleted.neededSlots additions.length = f.neededSlots additions.length := by
      unfold PackedForest.neededSlots
      rw [hdel.numLeaves]
    have hnext : f'.arena.next ≤ f.arena.next + (f.neededSlots additions.length - f.arena.freeStack.length) := by
      rw [htakes.next]
      omega
    have hcount : f.arena.freeCount = f.arena.freeStack.length := by
      unfold freeCount
      rw [if_neg hmapped]
    unfold ensureAllocations
    rw [hcount]
    split_ifs with hfits
    · -- no new id at all
      unfold ensureNew
      rw [show f'.arena.next - f.arena.next = 0 by omega]
      rfl
    · apply ensureNew_of_le
      have := le_ensure hram chunks
        (f.arena.next + (f.neededSlots additions.length - f.arena.freeStack.length) - 1)
      omega

end UtreexoBridge
