import UtreexoBridge.Archive.Refine

/-!
# The queue, the serializers and the writer

Which blocks are where between `Enqueue` and the commit, in any interleaving.
-/

namespace UtreexoBridge.Archive

open Bytes

variable {H : Type}

/-! ## Where the blocks are -/

def WriterPhase.batch : WriterPhase H → List (PreparedProof H)
  | .idle => []
  | .collected batch => batch
  | .dataWritten batch _ => batch
  | .walWritten batch _ => batch

/-- The part of it that is in the data file and not yet durable. -/
def WriterPhase.written : WriterPhase H → List (PreparedProof H)
  | .dataWritten batch _ => batch
  | .walWritten batch _ => batch
  | _ => []

/-- The queued blocks and those that serializers hold. -/
def ProofStore.items (store : ProofStore H) : List (WorkItem H) := store.input ++ store.serializing

/-- How many blocks have left the queue for the writer. -/
def ProofStore.taken (store : ProofStore H) : Nat := store.index.length + store.writer.batch.length

variable [ArchiveHash H] [DecidableEq H]

/-- The blocks behind the durable ones: first the writer's batch, the others queued, held or ready, each once. -/
structure Pipeline (maxRecordBytes : Nat) (store : ProofStore H) (blocks : List (ArchiveBlock H)) : Prop where
  pending : Pending maxRecordBytes blocks store.writer.batch store.index.length
  busy : store.writer ≠ .idle → store.writer.batch ≠ []
  ready : ∀ (height : Nat) (prepared : PreparedProof H), store.ready height = some prepared →
    ∃ (i : Nat) (block : ArchiveBlock H), store.taken ≤ i ∧ blocks[i]? = some block ∧ height = block.point.height ∧
      Prepares maxRecordBytes block prepared
  items : ∀ item ∈ store.items, ∃ i : Nat, store.taken ≤ i ∧ blocks[i]? = some item.block
  unready : ∀ item ∈ store.items, store.ready item.block.point.height = none
  nodup : (store.items.map (·.block.point.height)).Nodup
  kept : store.failure = none → ∀ (i : Nat) (block : ArchiveBlock H), store.taken ≤ i → blocks[i]? = some block →
    (∃ item ∈ store.items, item.block = block) ∨ (store.ready block.point.height).isSome = true

section Pipeline

variable {maxRecordBytes : Nat} {store : ProofStore H} {base : ChainPoint H} {blocks : List (ArchiveBlock H)}

omit [ArchiveHash H] [DecidableEq H] in
theorem Chain.index_of_height (h : Chain base blocks) {i j : Nat} {block block' : ArchiveBlock H}
    (hi : blocks[i]? = some block) (hj : blocks[j]? = some block') (heq : block.point.height = block'.point.height) :
    i = j := by
  have h1 := h.height i block hi
  have h2 := h.height j block' hj
  omega

theorem Pipeline.enqueue (h : Pipeline maxRecordBytes store blocks) {new : WorkItem H}
    (hchain : Chain base (blocks ++ [new.block])) (hle : store.taken ≤ blocks.length) (queuedBlocks queuedBytes : Nat) :
    Pipeline maxRecordBytes { store with
      input := store.input ++ [new], queuedBlocks := queuedBlocks, queuedBytes := queuedBytes,
      enqueuedPoint := new.block.point } (blocks ++ [new.block]) := by
  have hlast : (blocks ++ [new.block])[blocks.length]? = some new.block := by
    rw [List.getElem?_append_right (le_refl _), Nat.sub_self]
    rfl
  have hold : ∀ {i : Nat} {found : ArchiveBlock H}, blocks[i]? = some found → (blocks ++ [new.block])[i]? = some found := by
    intro i found hfound
    rw [List.getElem?_append_left (List.getElem?_eq_some_iff.mp hfound).1, hfound]
  -- every other block in the pipeline has a lower height
  have hfresh : ∀ {i : Nat} {found : ArchiveBlock H}, blocks[i]? = some found →
      found.point.height ≠ new.block.point.height := by
    intro i found hfound heq
    have := hchain.index_of_height (hold hfound) hlast heq
    have := (List.getElem?_eq_some_iff.mp hfound).1
    omega
  have hunready : store.ready new.block.point.height = none := by
    rcases hready : store.ready new.block.point.height with _ | prepared
    · rfl
    · obtain ⟨i, found, -, hfound, heq, -⟩ := h.ready _ _ hready
      exact absurd heq.symm (hfresh hfound)
  have hitems : ∀ item, item ∈ store.input ++ [new] ++ store.serializing →
      item ∈ store.items ∨ item = new := by
    intro item hitem
    simp only [List.mem_append, List.mem_singleton, ProofStore.items] at hitem ⊢
    tauto
  have hmem : ∀ item, item ∈ store.items ∨ item = new →
      item ∈ store.input ++ [new] ++ store.serializing := by
    intro item hitem
    simp only [List.mem_append, List.mem_singleton, ProofStore.items] at hitem ⊢
    tauto
  refine ⟨⟨?_⟩, h.busy, ?_, ?_, ?_, ?_, ?_⟩
  · intro j prepared hprepared
    obtain ⟨found, hfound, hprepares⟩ := h.pending.prepares j prepared hprepared
    exact ⟨found, hold hfound, hprepares⟩
  · intro height prepared hready
    obtain ⟨i, found, hi, hfound, heq, hprepares⟩ := h.ready height prepared hready
    exact ⟨i, found, hi, hold hfound, heq, hprepares⟩
  · intro item hitem
    rcases hitems item hitem with hitem | rfl
    · obtain ⟨i, hi, hfound⟩ := h.items item hitem
      exact ⟨i, hi, hold hfound⟩
    · exact ⟨blocks.length, hle, hlast⟩
  · intro item hitem
    rcases hitems item hitem with hitem | rfl
    · exact h.unready item hitem
    · exact hunready
  · have hperm : (store.input ++ [new] ++ store.serializing).Perm (new :: store.items) := by
      rw [List.append_assoc, List.singleton_append]
      exact List.perm_middle
    show ((store.input ++ [new] ++ store.serializing).map (·.block.point.height)).Nodup
    rw [(hperm.map _).nodup_iff, List.map_cons, List.nodup_cons]
    refine ⟨?_, h.nodup⟩
    intro hmem
    obtain ⟨item, hitem, heq⟩ := List.mem_map.mp hmem
    obtain ⟨i, -, hfound⟩ := h.items item hitem
    exact hfresh hfound heq
  · intro hok i found hi hfound
    rcases getElem?_concat_some hfound with hfound | ⟨-, rfl⟩
    · rcases h.kept hok i found hi hfound with ⟨item, hitem, heq⟩ | hready
      · exact Or.inl ⟨item, hmem item (Or.inl hitem), heq⟩
      · exact Or.inr hready
    · exact Or.inl ⟨_, hmem _ (Or.inr rfl), rfl⟩

theorem Pipeline.perm (h : Pipeline maxRecordBytes store blocks) {input serializing : List (WorkItem H)}
    (hperm : (input ++ serializing).Perm store.items) :
    Pipeline maxRecordBytes { store with input := input, serializing := serializing } blocks where
  pending := h.pending
  busy := h.busy
  ready := h.ready
  items item hitem := h.items item (hperm.subset hitem)
  unready item hitem := h.unready item (hperm.subset hitem)
  nodup := ((hperm.map _).nodup_iff).mpr h.nodup
  kept hok i block hi hblock := by
    rcases h.kept hok i block hi hblock with ⟨item, hitem, heq⟩ | hready
    · exact Or.inl ⟨item, hperm.symm.subset hitem, heq⟩
    · exact Or.inr hready

theorem Pipeline.failed (h : Pipeline maxRecordBytes store blocks) {serializing : List (WorkItem H)} {failure : Option String}
    {item : WorkItem H} (hperm : (item :: (store.input ++ serializing)).Perm store.items) (hfail : failure ≠ none) :
    Pipeline maxRecordBytes { store with serializing := serializing, failure := failure } blocks where
  pending := h.pending
  busy := h.busy
  ready := h.ready
  items other hother := h.items other (hperm.subset (List.mem_cons_of_mem _ hother))
  unready other hother := h.unready other (hperm.subset (List.mem_cons_of_mem _ hother))
  nodup := by
    have hnodup := ((hperm.map (·.block.point.height)).nodup_iff).mpr h.nodup
    exact (List.nodup_cons.mp hnodup).2
  kept hok := absurd hok hfail

theorem Pipeline.emplace (h : Pipeline maxRecordBytes store blocks) {serializing : List (WorkItem H)} {item : WorkItem H}
    (hperm : (item :: (store.input ++ serializing)).Perm store.items) {prepared : PreparedProof H}
    (hprepares : Prepares maxRecordBytes item.block prepared) :
    Pipeline maxRecordBytes { store with
      serializing := serializing, ready := Function.update store.ready prepared.point.height (some prepared) } blocks := by
  have hitem : item ∈ store.items := hperm.subset List.mem_cons_self
  have hnodup := ((hperm.map (·.block.point.height)).nodup_iff).mpr h.nodup
  have hpoint : prepared.point = item.block.point := hprepares.choose_spec.2.1
  rw [List.map_cons, List.nodup_cons] at hnodup
  refine ⟨h.pending, h.busy, ?_, ?_, ?_, hnodup.2, ?_⟩
  · intro height found hfound
    simp only [Function.update_apply] at hfound
    split at hfound
    · rename_i heq
      cases hfound
      obtain ⟨i, hi, hblock⟩ := h.items item hitem
      exact ⟨i, item.block, hi, hblock, by rw [heq, hpoint], hprepares⟩
    · exact h.ready height found hfound
  · intro other hother
    exact h.items other (hperm.subset (List.mem_cons_of_mem _ hother))
  · intro other hother
    have hne : other.block.point.height ≠ prepared.point.height := by
      rw [hpoint]
      intro heq
      exact hnodup.1 (List.mem_map.mpr ⟨other, hother, heq⟩)
    show Function.update store.ready prepared.point.height (some prepared) other.block.point.height = none
    rw [Function.update_of_ne hne]
    exact h.unready other (hperm.subset (List.mem_cons_of_mem _ hother))
  · intro hok i block hi hblock
    show _ ∨ (Function.update store.ready prepared.point.height (some prepared) block.point.height).isSome = true
    rcases h.kept hok i block hi hblock with ⟨other, hother, rfl⟩ | hready
    · rcases List.mem_cons.mp (hperm.symm.subset hother) with rfl | hother
      · right
        rw [hpoint, Function.update_self]
        rfl
      · exact Or.inl ⟨other, hother, rfl⟩
    · right
      rw [Function.update_apply]
      split
      · rfl
      · exact hready

omit [ArchiveHash H] [DecidableEq H] in
/-- The batch is what was ready from a height on, and is ready no more. Heights are positive, so it ends before 2^32. -/
theorem takeReady_spec (count : Nat) : ∀ (ready : Nat → Option (PreparedProof H)) (height : Nat),
    (∀ k, (ready k).isSome = true → 0 < k ∧ k < 2 ^ 32) →
    (∀ (j : Nat) (prepared : PreparedProof H), (ProofStore.takeReady ready count height).1[j]? = some prepared →
      ready (height + j) = some prepared) ∧
    ∀ k, (ProofStore.takeReady ready count height).2 k =
      if height ≤ k ∧ k < height + (ProofStore.takeReady ready count height).1.length then none else ready k := by
  induction count with
  | zero =>
    intro ready height _
    refine ⟨?_, ?_⟩
    · intro j prepared h
      cases h
    · intro k
      rw [if_neg (by simp only [ProofStore.takeReady, List.length_nil]; omega)]
      rfl
  | succ count ih =>
    intro ready height hheights
    rcases hhere : ready height with _ | prepared
    · simp only [ProofStore.takeReady, hhere, List.length_nil]
      refine ⟨?_, ?_⟩
      · intro j prepared h
        cases h
      · intro k
        rw [if_neg (by omega)]
    · obtain ⟨hpos, hlt⟩ := hheights height (by rw [hhere]; rfl)
      have hrest : ∀ k, (Function.update ready height none k).isSome = true → 0 < k ∧ k < 2 ^ 32 := by
        intro k hk
        rw [Function.update_apply] at hk
        split at hk
        · cases hk
        · exact hheights k hk
      obtain ⟨hbatch, hready⟩ := ih (Function.update ready height none) (add32 height 1) hrest
      simp only [ProofStore.takeReady, hhere]
      rcases Nat.lt_or_ge (height + 1) (2 ^ 32) with hnext | hwrap
      · have hadd : add32 height 1 = height + 1 := Nat.mod_eq_of_lt hnext
        rw [hadd] at hbatch hready ⊢
        refine ⟨?_, ?_⟩
        · intro j found hfound
          rcases j with _ | j
          · cases hfound
            exact hhere
          · rw [List.getElem?_cons_succ] at hfound
            have hold := hbatch j found hfound
            rw [Function.update_of_ne (by omega)] at hold
            rw [← hold]
            congr 1
            omega
        · intro k
          rw [hready k, List.length_cons, Function.update_apply]
          by_cases hk : k = height
          · subst hk
            rw [if_neg (by omega), if_pos rfl, if_pos (by omega)]
          · rw [if_neg hk]
            by_cases hin : height + 1 ≤ k ∧ k < height + 1 +
                (ProofStore.takeReady (Function.update ready height none) count (height + 1)).1.length
            · rw [if_pos hin, if_pos (by omega)]
            · rw [if_neg hin, if_neg (by omega)]
      · -- nothing is ready at height 0
        have hadd : add32 height 1 = 0 := by
          have : height + 1 = 2 ^ 32 := by omega
          rw [add32, this, Nat.mod_self]
        have hzero : Function.update ready height none 0 = none := by
          rcases hnone : Function.update ready height none 0 with _ | found
          · rfl
          · have := (hrest 0 (by rw [hnone]; rfl)).1
            omega
        have hend : ProofStore.takeReady (Function.update ready height none) count 0 =
            ([], Function.update ready height none) := by
          rcases count with _ | count
          · rfl
          · simp only [ProofStore.takeReady, hzero]
        rw [hadd, hend]
        refine ⟨?_, ?_⟩
        · intro j found hfound
          rcases j with _ | j
          · cases hfound
            exact hhere
          · cases hfound
        · intro k
          simp only [List.length_singleton, Function.update_apply]
          by_cases hk : k = height
          · subst hk
            rw [if_pos rfl, if_pos (by omega)]
          · rw [if_neg hk, if_neg (by omega)]

omit [ArchiveHash H] [DecidableEq H] in
theorem takeReady_ne_nil {ready : Nat → Option (PreparedProof H)} {count height : Nat} (hcount : count ≠ 0)
    (h : (ready height).isSome = true) : (ProofStore.takeReady ready count height).1 ≠ [] := by
  obtain ⟨prepared, hprepared⟩ := Option.isSome_iff_exists.mp h
  obtain ⟨count, rfl⟩ := Nat.exists_eq_succ_of_ne_zero hcount
  simp only [ProofStore.takeReady, hprepared]
  exact List.cons_ne_nil _ _

theorem Pipeline.ready_height (h : Pipeline maxRecordBytes store blocks) (hchain : Chain base blocks) {k : Nat}
    (hk : (store.ready k).isSome = true) : 0 < k ∧ k < 2 ^ 32 := by
  obtain ⟨prepared, hprepared⟩ := Option.isSome_iff_exists.mp hk
  obtain ⟨i, block, -, hblock, rfl, -⟩ := h.ready k prepared hprepared
  have hfits := hchain.fits block (List.mem_of_getElem? hblock)
  exact ⟨hfits.height_pos, hfits.height⟩

theorem Pipeline.collect (h : Pipeline maxRecordBytes store blocks) (hchain : Chain base blocks)
    (hidle : store.writer = .idle) {count first : Nat} (hcount : count ≠ 0) (hfirst : first = base.height + 1 + store.index.length)
    (hready : (store.ready first).isSome = true) :
    Pipeline maxRecordBytes { store with
      ready := (ProofStore.takeReady store.ready count first).2
      writer := .collected (ProofStore.takeReady store.ready count first).1 } blocks := by
  obtain ⟨hbatch, hrest⟩ := takeReady_spec count store.ready first (fun k hk => h.ready_height hchain hk)
  have htaken : store.taken = store.index.length := by
    rw [ProofStore.taken, hidle]
    rfl
  set batch := (ProofStore.takeReady store.ready count first).1 with hbatchDef
  have hin : ∀ {i : Nat} {block : ArchiveBlock H}, store.index.length ≤ i → i < store.index.length + batch.length →
      blocks[i]? = some block → (store.ready block.point.height).isSome = true := by
    intro i block hlow hhigh hblock
    have hj : i - store.index.length < batch.length := by omega
    have hfound := hbatch (i - store.index.length) _ (List.getElem?_eq_getElem hj)
    have hheight : block.point.height = first + (i - store.index.length) := by
      rw [hchain.height i block hblock]
      omega
    rw [hheight, hfound]
    rfl
  -- what is not in the batch is as it was
  have hsame : ∀ {i : Nat} {block : ArchiveBlock H}, store.index.length + batch.length ≤ i → blocks[i]? = some block →
      (ProofStore.takeReady store.ready count first).2 block.point.height = store.ready block.point.height := by
    intro i block hi hblock
    rw [hrest, if_neg (by rw [hchain.height i block hblock]; omega)]
  refine ⟨⟨?_⟩, fun _ => takeReady_ne_nil hcount hready, ?_, ?_, ?_, h.nodup, ?_⟩
  · intro j prepared hprepared
    obtain ⟨i, block, hi, hblock, hheight, hprepares⟩ := h.ready _ _ (hbatch j prepared hprepared)
    have hindex : store.index.length + j = i := by
      have := hchain.height i block hblock
      omega
    exact ⟨block, by rw [← hblock, ← hindex], hprepares⟩
  · intro height prepared hprepared
    have hprepared : (ProofStore.takeReady store.ready count first).2 height = some prepared := hprepared
    rw [hrest] at hprepared
    split at hprepared
    · cases hprepared
    · rename_i hout
      obtain ⟨i, block, hi, hblock, rfl, hprepares⟩ := h.ready height prepared hprepared
      refine ⟨i, block, ?_, hblock, rfl, hprepares⟩
      show store.index.length + batch.length ≤ i
      have := hchain.height i block hblock
      omega
  · intro item hitem
    obtain ⟨i, hi, hblock⟩ := h.items item hitem
    refine ⟨i, ?_, hblock⟩
    show store.index.length + batch.length ≤ i
    by_contra hlt
    have hsome := hin (by omega) (by omega) hblock
    rw [h.unready item hitem] at hsome
    cases hsome
  · intro item hitem
    show (ProofStore.takeReady store.ready count first).2 item.block.point.height = none
    rw [hrest, h.unready item hitem, ite_self]
  · intro hok i block hi hblock
    have hi : store.index.length + batch.length ≤ i := hi
    show _ ∨ ((ProofStore.takeReady store.ready count first).2 block.point.height).isSome = true
    rw [hsame hi hblock]
    exact h.kept hok i block (by omega) hblock

end Pipeline

end UtreexoBridge.Archive
