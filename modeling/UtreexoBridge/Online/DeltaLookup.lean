import UtreexoBridge.Online.DeltaFile

/-!
# The lookup index of an accepted delta file

`Parse` fills the filter and the fences in the loop that checks the records. If
it accepts the file, `Find` gives what a linear search gives.
-/

namespace UtreexoBridge

open Bytes

/-- `m_filter` and `m_fences`. -/
structure DeltaLookup where
  filter : List Nat
  fences : List Nat

/-- `InitializeLookupIndex`. -/
def DeltaLookup.initialized (recordCount : Nat) : DeltaLookup := ⟨.replicate ((recordCount + 7) / 8) 0, []⟩

variable {H : Type}

/-- The checks of a record behind the record `previous`. -/
def RecordInvalid (next previous : Nat) (entry : Nat × NodeRecord H) : Prop :=
  entry.1 ≥ next ∨ (previous ≠ noNode ∧ entry.1 ≤ previous) ∨ ¬linkValid next entry.2.parent ∨
    ¬linkValid next entry.2.left ∨ ¬linkValid next entry.2.right

instance (next previous : Nat) (entry : Nat × NodeRecord H) : Decidable (RecordInvalid next previous entry) :=
  inferInstanceAs (Decidable (_ ∨ _))

def indexRecords (next : Nat) : Nat → Nat → List (Nat × NodeRecord H) → DeltaLookup → Except String DeltaLookup
  | _, _, [], lookup => .ok lookup
  | i, previous, entry :: rest, lookup =>
    if RecordInvalid next previous entry then .error "forest delta records are invalid or unsorted"
    else
      let fences := if i % deltaFenceRecords = 0 then lookup.fences ++ [entry.1] else lookup.fences
      indexRecords next (i + 1) entry.1 rest ⟨addToFilter lookup.filter entry.1, fences⟩

/-- `Find`. -/
def DeltaLookup.find (lookup : DeltaLookup) (records : List (Nat × NodeRecord H)) (id : Nat) : Option (NodeRecord H) :=
  if mayContain lookup.filter id then
    -- `std::upper_bound`
    let upper := (lookup.fences.takeWhile (· ≤ id)).length
    if upper = 0 then none
    else
      let first := (upper - 1) * deltaFenceRecords
      let last := min (first + deltaFenceRecords) records.length
      match records[lowerBound (records.map (·.1)) id deltaFenceRecords first last]? with
      | none => none
      | some entry => if entry.1 = id then some entry.2 else none
  else none

/-! ## What the loop builds -/

theorem fenceIds_concat (ids : List Nat) (id : Nat) :
    fenceIds (ids ++ [id]) = if ids.length % deltaFenceRecords = 0 then fenceIds ids ++ [id] else fenceIds ids := by
  have hfront : ((List.range ids.length).filterMap fun i =>
      if i % deltaFenceRecords = 0 then (ids ++ [id])[i]? else none) = fenceIds ids := by
    apply List.filterMap_congr
    intro i hi
    rw [List.getElem?_append_left (List.mem_range.mp hi)]
  rw [fenceIds, List.length_append, List.length_singleton, List.range_succ, List.filterMap_append, hfront]
  split_ifs with hfence
  · simp [hfence]
  · simp [hfence]

theorem indexRecords_eq {next : Nat} (front rest : List (Nat × NodeRecord H)) {previous : Nat}
    (hprevious : previous = noNode ∨ ∀ entry ∈ rest, previous < entry.1)
    (hsorted : rest.Pairwise fun x y => x.1 < y.1)
    (hvalid : ∀ entry ∈ rest, entry.1 < next ∧ linkValid next entry.2.parent ∧ linkValid next entry.2.left ∧
      linkValid next entry.2.right) (start : List Nat) :
    indexRecords next front.length previous rest ⟨(front.map (·.1)).foldl addToFilter start, fenceIds (front.map (·.1))⟩ =
      .ok ⟨((front ++ rest).map (·.1)).foldl addToFilter start, fenceIds ((front ++ rest).map (·.1))⟩ := by
  induction rest generalizing front previous with
  | nil => rw [indexRecords, List.append_nil]
  | cons entry rest ih =>
    obtain ⟨hfirst, hrest⟩ := List.pairwise_cons.mp hsorted
    obtain ⟨hid, hparent, hleft, hright⟩ := hvalid entry List.mem_cons_self
    have hok : ¬RecordInvalid next previous entry := by
      rintro (hbad | ⟨hne, hbad⟩ | hbad | hbad | hbad)
      · omega
      · have := hprevious.resolve_left hne entry List.mem_cons_self
        omega
      · exact hbad hparent
      · exact hbad hleft
      · exact hbad hright
    have hstep := ih (front ++ [entry]) (Or.inr hfirst) hrest fun e he => hvalid e (List.mem_cons_of_mem _ he)
    rw [List.append_assoc, List.singleton_append, List.length_append, List.length_singleton, List.map_append, List.map_singleton,
      List.foldl_append, List.foldl_cons, List.foldl_nil, fenceIds_concat, List.length_map] at hstep
    rw [indexRecords, if_neg hok]
    exact hstep

/-! ## What `Parse` accepts -/

variable [StoredHash H]

omit [StoredHash H] in
theorem readMany_length {α : Type} {reader : Reader α} {count : Nat} {bytes rest : List UInt8} {values : List α}
    (h : readMany reader count bytes = some (values, rest)) : values.length = count := by
  induction count generalizing bytes rest values with
  | zero =>
    obtain ⟨rfl, -⟩ := Prod.mk.injEq .. ▸ Reader.pure_eq_some.mp h
    rfl
  | succ count ih =>
    obtain ⟨value, back, -, hmany⟩ := Reader.bind_eq_some.mp h
    obtain ⟨values', back', hread, hpure⟩ := Reader.bind_eq_some.mp hmany
    obtain ⟨rfl, -⟩ := Prod.mk.injEq .. ▸ Reader.pure_eq_some.mp hpure
    rw [List.length_cons, ih hread]

structure DeltaRun.Accepted (run : DeltaRun H) : Prop where
  next : run.state.next < noNode
  count : run.records.length = run.state.recordCount
  valid : ∀ entry ∈ run.records, entry.1 < run.state.next ∧ linkValid run.state.next entry.2.parent ∧
    linkValid run.state.next entry.2.left ∧ linkValid run.state.next entry.2.right

theorem parseDeltaBody_accepted [DecidableEq H] {state : DeltaState H} {bytes : List UInt8} {run : DeltaRun H}
    (h : parseDeltaBody state bytes = .ok run) : run.state = state ∧ run.records.length = state.recordCount ∧
      ∀ entry ∈ run.records, entry.1 < state.next ∧ linkValid state.next entry.2.parent ∧
        linkValid state.next entry.2.left ∧ linkValid state.next entry.2.right := by
  unfold parseDeltaBody at h
  split at h
  · cases h
  · rename_i records back hread
    split_ifs at h with hsorted hlinks hroots
    split at h
    · cases h
    · split_ifs at h
      cases h
      refine ⟨rfl, readMany_length hread, fun entry hentry => ?_⟩
      have hgood : ¬(entry.1 ≥ state.next ∨ ¬linkValid state.next entry.2.parent ∨ ¬linkValid state.next entry.2.left ∨
        ¬linkValid state.next entry.2.right) := fun hbad => hlinks ⟨entry, hentry, hbad⟩
      simp only [not_or, not_not, not_le] at hgood
      exact hgood

theorem parseDelta_accepted [DecidableEq H] {bytes : List UInt8} {run : DeltaRun H} (h : parseDelta bytes = .ok run) :
    run.Accepted := by
  unfold parseDelta at h
  dsimp only at h
  split_ifs at h
  split at h
  · cases h
  · split at h
    · cases h
    · split_ifs at h with hfields
      obtain ⟨hstate, hcount, hvalid⟩ := parseDeltaBody_accepted h
      rw [← hstate] at hfields hcount hvalid
      refine ⟨?_, hcount, hvalid⟩
      by_contra hlarge
      simp only [not_or, not_not] at hfields
      exact hfields.2 (Or.inr (Or.inr (Or.inr (Or.inl (not_lt.mp hlarge)))))

/-! ## The search -/

omit [StoredHash H] in
theorem match_getElem? (records : List (Nat × NodeRecord H)) (id i : Nat) :
    (match records[i]? with
      | none => none
      | some entry => if entry.1 = id then some entry.2 else none) =
    match if (records.map (·.1))[i]? = some id then some i else none with
      | none => none
      | some i => records[i]?.map (·.2) := by
  rw [List.getElem?_map]
  cases hget : records[i]? with
  | none => rfl
  | some entry =>
    by_cases hid : entry.1 = id
    · simp [hid, hget]
    · simp [hid]

omit [StoredHash H] in
theorem DeltaLookup.find_eq (run : DeltaRun H) (id : Nat) :
    DeltaLookup.find ⟨bloomFilter run.ids, fenceIds run.ids⟩ run.records id = run.find id := by
  have hlength : run.ids.length = run.records.length := List.length_map _
  unfold DeltaLookup.find DeltaRun.find findIndex
  dsimp only
  rw [hlength]
  by_cases hfilter : mayContain (bloomFilter run.ids) id = true
  · rw [if_pos hfilter, if_pos hfilter]
    by_cases hupper : ((fenceIds run.ids).takeWhile (· ≤ id)).length = 0
    · rw [if_pos hupper, if_pos hupper]
    · rw [if_neg hupper, if_neg hupper]
      exact match_getElem? _ _ _
  · rw [if_neg hfilter, if_neg hfilter]

omit [StoredHash H] in
theorem DeltaRun.find_linear (run : DeltaRun H) (id : Nat) :
    run.find id = (run.records.find? fun entry => entry.1 = id).map (·.2) := by
  cases hfind : run.records.find? fun entry => entry.1 = id with
  | none =>
    rw [Option.map_none, run.find_eq_none_iff]
    intro hmem
    obtain ⟨entry, hentry, rfl⟩ := List.mem_map.mp hmem
    have := List.find?_eq_none.mp hfind entry hentry
    simp at this
  | some entry =>
    have hid : entry.1 = id := by simpa using List.find?_some hfind
    rw [Option.map_some, run.find_eq_some_iff, ← hid]
    exact List.mem_of_find?_eq_some hfind

/-- **Lookup.** The loop that accepts the records of a file builds an index by which `Find` gives what a linear search
gives. No record is hidden by the filter, and each lies in the block of the fence chosen for its id. -/
theorem parsed_find [DecidableEq H] {bytes : List UInt8} {run : DeltaRun H} (h : parseDelta bytes = .ok run) :
    ∃ lookup, indexRecords run.state.next 0 noNode run.records (.initialized run.state.recordCount) = .ok lookup ∧
      (∀ id, lookup.find run.records id = run.find id ∧
        lookup.find run.records id = (run.records.find? fun entry => entry.1 = id).map (·.2)) ∧
      ∀ j (hj : j < run.records.length),
        mayContain lookup.filter run.records[j].1 = true ∧
          ∃ fence, (lookup.fences.takeWhile (· ≤ run.records[j].1)).length = fence + 1 ∧
            fence * deltaFenceRecords ≤ j ∧ j < min (fence * deltaFenceRecords + deltaFenceRecords) run.records.length := by
  obtain ⟨hnext, hcount, hvalid⟩ := parseDelta_accepted h
  have hlength : run.ids.length = run.records.length := List.length_map _
  have hrun : indexRecords run.state.next 0 noNode run.records (.initialized run.state.recordCount) =
      .ok ⟨bloomFilter run.ids, fenceIds run.ids⟩ := by
    have hloop := indexRecords_eq [] run.records (Or.inl rfl) run.sorted hvalid
      (List.replicate ((run.state.recordCount + 7) / 8) 0)
    rw [bloomFilter, hlength, hcount]
    exact hloop
  refine ⟨_, hrun, fun id => ⟨DeltaLookup.find_eq run id, ?_⟩, fun j hj => ?_⟩
  · rw [DeltaLookup.find_eq, run.find_linear]
  · have hj' : j < run.ids.length := by rw [hlength]; exact hj
    have hid : run.ids.getD j 0 = run.records[j].1 := by
      rw [List.getD_eq_getElem _ _ hj']
      simp [DeltaRun.ids]
    have hupper := upper_fence run.ids_sorted hj'
    rw [hid] at hupper
    have hblock : deltaFenceRecords = 64 := rfl
    refine ⟨mayContain_of_mem (List.mem_map_of_mem (List.getElem_mem hj)), j / 64, hupper, ?_, ?_⟩
    · rw [hblock]
      omega
    · rw [hblock]
      omega

def smallDeltaState : DeltaState ByteHash where
  snapshot := false
  generation := 1
  previousGeneration := 0
  baseGeneration := 1
  physicalBaseLsn := 0
  baseFingerprint := .zero
  previousLsn := 0
  endLsn := 1
  baseChainCount := 1
  point := ⟨0, .zero⟩
  numLeaves := 1
  next := 2
  liveNodes := 1
  chainHashCount := 1
  recordCount := 1
  roots := .replicate 64 noNode

def smallDeltaRecords : List (Nat × NodeRecord ByteHash) := [(1, ⟨leafHash 1, noNode, noNode, noNode, .leaf⟩)]

theorem parsed_find_small : ∃ bytes, ∃ run : DeltaRun ByteHash, parseDelta bytes = .ok run ∧ run.records = smallDeltaRecords ∧
    ∃ lookup, indexRecords run.state.next 0 noNode run.records (.initialized run.state.recordCount) = .ok lookup ∧
      ∀ id, lookup.find run.records id = (run.records.find? fun entry => entry.1 = id).map (·.2) := by
  have hbuilt : smallDeltaState.Built smallDeltaRecords := by
    refine ⟨rfl, by decide, by decide, by decide, by decide, by decide, by decide, by decide, by decide, by decide, rfl,
      ?_, ?_, ?_⟩
    · intro root hroot
      have hall : root = noNode := by
        simpa [smallDeltaState] using hroot
      exact Or.inl hall
    · intro entry hentry
      rw [List.mem_singleton.mp hentry]
      exact ⟨Or.inl rfl, Or.inl rfl, Or.inl rfl⟩
    · intro entry hentry
      rw [List.mem_singleton.mp hentry]
      exact Or.inr (Or.inl rfl)
  have hpublished : publishDelta smallDeltaState [ByteHash.zero] smallDeltaRecords =
      .ok (deltaBytes smallDeltaState smallDeltaRecords ([ByteHash.zero].drop smallDeltaState.baseChainCount)) := by
    rw [publishDelta, if_neg (by decide), if_neg (by simp [smallDeltaRecords, smallDeltaState]), if_neg (by decide)]
  obtain ⟨hpublish, -⟩ := publishDelta_eq_ok hpublished
  have hparse := parseDelta_published hbuilt hpublish
  rw [if_pos (by decide)] at hparse
  obtain ⟨lookup, hrun, hfind, -⟩ := parsed_find hparse
  exact ⟨_, _, hparse, rfl, lookup, hrun, fun id => (hfind id).2⟩

end UtreexoBridge
