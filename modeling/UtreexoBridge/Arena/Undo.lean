import UtreexoBridge.Arena.View

/-!
# Rolling a transaction back

The open transaction holds what each record was when it was first written. So
`RollbackTransaction` gives back the dirty records of the beginning, whatever
was written since.
-/

namespace UtreexoBridge.NodeArena

variable {H : Type} {a a' a0 : NodeArena H}

/-! ## The log of originals -/

def OriginalAt (dirty : Std.ExtTreeMap Nat (NodeRecord H)) (id : Nat) (o : OriginalRecord H) : Prop :=
  dirty[id]? = if o.wasDirty then some o.record else none

theorem getElem?_undoWrite (dirty : Std.ExtTreeMap Nat (NodeRecord H)) (entry : Nat × OriginalRecord H) (id : Nat) :
    (undoWrite dirty entry)[id]? =
      if id = entry.1 then (if entry.2.wasDirty then some entry.2.record else none) else dirty[id]? := by
  unfold undoWrite
  by_cases hid : id = entry.1
  · rw [if_pos hid, hid]
    split_ifs <;> simp
  · rw [if_neg hid]
    have hcmp : ¬compare entry.1 id = .eq := by
      rw [Nat.compare_eq_eq]
      exact fun heq => hid heq.symm
    split_ifs
    · rw [Std.ExtTreeMap.getElem?_insert, if_neg hcmp]
    · rw [Std.ExtTreeMap.getElem?_erase, if_neg hcmp]

theorem foldl_undoWrite_eq (entries : List (Nat × OriginalRecord H)) {before dirty : Std.ExtTreeMap Nat (NodeRecord H)}
    (hentries : ∀ entry ∈ entries, OriginalAt before entry.1 entry.2)
    (hothers : ∀ id, (∀ o, (id, o) ∉ entries) → dirty[id]? = before[id]?) : entries.foldl undoWrite dirty = before := by
  induction entries generalizing dirty with
  | nil =>
    apply Std.ExtTreeMap.ext_getElem?
    exact fun id => hothers id fun o ho => by cases ho
  | cons entry entries ih =>
    rw [List.foldl_cons]
    refine ih (fun e he => hentries e (List.mem_cons_of_mem _ he)) fun id hid => ?_
    rw [getElem?_undoWrite]
    split_ifs with heq hwas
    · have := hentries entry List.mem_cons_self
      rw [OriginalAt, if_pos hwas] at this
      rw [heq, this]
    · have := hentries entry List.mem_cons_self
      rw [OriginalAt, if_neg hwas] at this
      rw [heq, this]
    · refine hothers id fun o ho => ?_
      rcases List.mem_cons.mp ho with rfl | ho
      · exact heq rfl
      · exact hid o ho

/-! ## What a transaction keeps -/

/-- `a` comes from `a0` by writes of the transaction that `a0` began. -/
structure Undoable (a0 a : NodeArena H) : Prop where
  mapped : a.mapped = true
  slots : a.slots = a0.slots
  files : a.files = a0.files
  capacity : a.capacity = a0.capacity
  baseNext : a.baseNext = a0.baseNext
  deltaRuns : a.deltaRuns = a0.deltaRuns
  transactionNext : a.transactionNext = a0.next
  transactionLive : a.transactionLive = a0.live
  originals : ∃ originals : Std.ExtTreeMap Nat (OriginalRecord H), a.transaction = some originals ∧
    (∀ (id : Nat) (o : OriginalRecord H), originals[id]? = some o → OriginalAt a0.dirty id o) ∧
    ∀ id : Nat, originals[id]? = none → a.dirty[id]? = a0.dirty[id]?

theorem undoable_begin (h : a.mapped = true) (hok : a.beginTransaction = .ok a0) : Undoable a0 a0 := by
  unfold beginTransaction at hok
  rw [if_pos h] at hok
  split_ifs at hok
  cases hok
  refine ⟨h, rfl, rfl, rfl, rfl, rfl, rfl, rfl, ∅, rfl, fun id o ho => ?_, fun _ _ => rfl⟩
  rw [Std.ExtTreeMap.getElem?_empty] at ho
  cases ho

theorem Undoable.congr (h : Undoable a0 a) (hmapped : a'.mapped = a.mapped) (hslots : a'.slots = a.slots)
    (hfiles : a'.files = a.files) (hcapacity : a'.capacity = a.capacity) (hbase : a'.baseNext = a.baseNext)
    (hruns : a'.deltaRuns = a.deltaRuns) (hdirty : a'.dirty = a.dirty) (htransaction : a'.transaction = a.transaction)
    (hnext : a'.transactionNext = a.transactionNext) (hlive : a'.transactionLive = a.transactionLive) :
    Undoable a0 a' := by
  refine ⟨hmapped.trans h.mapped, hslots.trans h.slots, hfiles.trans h.files, hcapacity.trans h.capacity,
    hbase.trans h.baseNext, hruns.trans h.deltaRuns, hnext.trans h.transactionNext, hlive.trans h.transactionLive, ?_⟩
  rw [hdirty, htransaction]
  exact h.originals

variable [ForestHash H]

/-- A first write notes what the record was, a later one finds the note there. -/
theorem Undoable.write (h : Undoable a0 a) (id : Nat) (record : NodeRecord H) : Undoable a0 (a.write id record) := by
  obtain ⟨originals, htransaction, horiginal, hrest⟩ := h.originals
  unfold NodeArena.write
  rw [if_pos h.mapped]
  refine ⟨h.mapped, h.slots, h.files, h.capacity, h.baseNext, h.deltaRuns, h.transactionNext, h.transactionLive,
    originals.insertIfNew id ⟨a.read id, a.dirty.contains id⟩, by simp only [touch, htransaction, Option.map_some], ?_, ?_⟩
  · intro x o ho
    rw [Std.ExtTreeMap.getElem?_insertIfNew] at ho
    split_ifs at ho with hnew
    · obtain ⟨heq, habsent⟩ := hnew
      rw [Nat.compare_eq_eq] at heq
      subst heq
      cases ho
      have hsame := hrest id (Std.ExtTreeMap.getElem?_eq_none habsent)
      rw [OriginalAt, ← hsame]
      dsimp only
      cases hd : a.dirty[id]? with
      | none =>
        rw [Std.ExtTreeMap.contains_eq_isSome_getElem?, hd]
        rfl
      | some r =>
        rw [Std.ExtTreeMap.contains_eq_isSome_getElem?, hd, Option.isSome_some, if_pos rfl, read, if_pos h.mapped, hd]
    · exact horiginal x o ho
  · intro x hx
    rw [Std.ExtTreeMap.getElem?_insertIfNew] at hx
    split_ifs at hx with hnew
    have hne : ¬compare id x = .eq := by
      intro heq
      have hpresent : id ∈ originals := not_not.mp fun habsent => hnew ⟨heq, habsent⟩
      rw [Nat.compare_eq_eq] at heq
      subst heq
      rw [Std.ExtTreeMap.mem_iff_isSome_getElem?, hx] at hpresent
      cases hpresent
    simp only [touch]
    rw [Std.ExtTreeMap.getElem?_insert, if_neg hne, Std.ExtTreeMap.getElem?_insertIfNew, if_neg fun hc => hne hc.1]
    exact hrest x hx

theorem Undoable.free (h : Undoable a0 a) (id : Nat) : Undoable a0 (a.free id) := by
  have hw := h.write id (a.read id).freed
  unfold NodeArena.free noteFree
  simp only
  split_ifs
  all_goals exact hw.congr rfl rfl rfl rfl rfl rfl rfl rfl rfl rfl

omit [ForestHash H] in
theorem Undoable.dropStale (h : Undoable a0 a) : Undoable a0 a.dropStale := by
  unfold NodeArena.dropStale
  split_ifs
  · exact h.congr rfl rfl rfl rfl rfl rfl rfl rfl rfl rfl
  · exact h

omit [ForestHash H] in
theorem Undoable.takeFree (h : Undoable a0 a) {id : Nat} (hok : a.takeFree = some (id, a')) : Undoable a0 a' := by
  unfold NodeArena.takeFree noteFree at hok
  split at hok
  · cases hok
  · rw [if_pos h.mapped] at hok
    split_ifs at hok
    all_goals
      cases hok
      exact h.congr rfl rfl rfl rfl rfl rfl rfl rfl rfl rfl

theorem Undoable.allocate (h : Undoable a0 a) {type : NodeType} {hash : H} {left right id : Nat}
    (hok : a.allocate type hash left right = .ok (id, a')) : Undoable a0 a' := by
  have hd := h.dropStale
  rw [NodeArena.allocate] at hok
  dsimp only at hok
  by_cases hfree : if a.dropStale.mapped then a.dropStale.freeSet ≠ ∅ else a.dropStale.freeStack ≠ []
  · rw [if_pos hfree] at hok
    cases htake : a.dropStale.takeFree with
    | none =>
      rw [htake] at hok
      cases hok
    | some taken =>
      rw [htake] at hok
      cases hok
      exact ((hd.takeFree htake).write _ _).congr rfl rfl rfl rfl rfl rfl rfl rfl rfl rfl
  · rw [if_neg hfree] at hok
    split_ifs at hok
    cases hok
    exact (hd.write _ _).congr rfl rfl rfl rfl rfl rfl rfl rfl rfl rfl

/-! ## The rollback -/

omit [ForestHash H] in
/-- Everything but the free list is as it was. -/
structure Restored (a0 a : NodeArena H) : Prop where
  mapped : a.mapped = a0.mapped
  slots : a.slots = a0.slots
  files : a.files = a0.files
  capacity : a.capacity = a0.capacity
  baseNext : a.baseNext = a0.baseNext
  deltaRuns : a.deltaRuns = a0.deltaRuns
  dirty : a.dirty = a0.dirty
  next : a.next = a0.next
  live : a.live = a0.live
  closed : a.transaction = none

omit [ForestHash H] in
theorem foldl_undoFree (ops : List (Bool × Nat)) (a : NodeArena H) :
    ∃ freeStack freeSet, ops.foldl undoFree a = { a with freeStack, freeSet } := by
  induction ops generalizing a with
  | nil => exact ⟨_, _, rfl⟩
  | cons op ops ih =>
    obtain ⟨freeStack, freeSet, heq⟩ := ih (undoFree a op)
    refine ⟨freeStack, freeSet, ?_⟩
    rw [List.foldl_cons, heq]
    unfold undoFree
    split_ifs <;> rfl

omit [ForestHash H] in
theorem Undoable.rollback (h : Undoable a0 a) (h0 : a0.mapped = true) : Restored a0 a.rollbackTransaction := by
  obtain ⟨originals, htransaction, horiginal, hrest⟩ := h.originals
  have hdirty : originals.toList.foldl undoWrite a.dirty = a0.dirty := by
    refine foldl_undoWrite_eq _ (fun entry hentry => ?_) fun id hid => hrest id ?_
    · exact horiginal _ _ (Std.ExtTreeMap.mem_toList_iff_getElem?_eq_some.mp hentry)
    · cases ho : originals[id]? with
      | none => rfl
      | some o => exact absurd (Std.ExtTreeMap.mem_toList_iff_getElem?_eq_some.mpr ho) (hid o)
  unfold rollbackTransaction
  rw [htransaction]
  dsimp only
  obtain ⟨freeStack, freeSet, heq⟩ := foldl_undoFree a.freeOperations
    { a with dirty := originals.toList.foldl undoWrite a.dirty, transaction := some originals }
  rw [heq, hdirty]
  exact ⟨h.mapped.trans h0.symm, h.slots, h.files, h.capacity, h.baseNext, h.deltaRuns, rfl, h.transactionNext,
    h.transactionLive, rfl⟩

theorem Restored.read (h : Restored a0 a) : a.read = a0.read := by
  funext id
  unfold NodeArena.read findDeltaRecord readPhysicalBase
  rw [h.mapped, h.dirty, h.deltaRuns, h.baseNext, h.capacity, h.files, h.slots]

end UtreexoBridge.NodeArena
