import Mathlib.Data.List.Pairwise
import UtreexoBridge.Node

/-!
# Delta runs and their lookup index (`MappedDeltaRun`)

A run holds records sorted by id. `Find` consults a Bloom filter, then a fence
for every 64th record, then searches one block of 64.
-/

namespace UtreexoBridge

def mixDeltaNodeId (value : Nat) : Nat :=
  let value := word (value + 0x9e3779b97f4a7c15)
  let value := word ((value ^^^ (value >>> 30)) * 0xbf58476d1ce4e5b9)
  let value := word ((value ^^^ (value >>> 27)) * 0x94d049bb133111eb)
  value ^^^ (value >>> 31)

def deltaBloomMask (id : Nat) : Nat :=
  let hash := mixDeltaNodeId (id ^^^ 0xd6e8feb86659fd93)
  (List.range 6).foldl (fun mask probe => mask ||| 1 <<< ((hash >>> (probe * 10)) &&& 63)) 0

def deltaFenceRecords : Nat := 64

structure DeltaState (H : Type) where
  snapshot : Bool
  generation : Nat
  previousGeneration : Nat
  baseGeneration : Nat
  physicalBaseLsn : Nat
  baseFingerprint : H
  previousLsn : Nat
  endLsn : Nat
  baseChainCount : Nat
  point : ChainPoint H
  numLeaves : Nat
  next : Nat
  liveNodes : Nat
  chainHashCount : Nat
  recordCount : Nat
  roots : Vector Nat 64
  deriving DecidableEq

/-- A mapped run. `Parse` rejects unsorted records, so there is no run without `sorted`. -/
structure DeltaRun (H : Type) where
  state : DeltaState H
  records : List (Nat × NodeRecord H)
  chainSuffix : List H
  sorted : records.Pairwise fun a b => a.1 < b.1

/-! ## The lookup index, as `Parse` fills it while it walks the records -/

def addToFilter (filter : List Nat) (id : Nat) : List Nat :=
  filter.modify (mixDeltaNodeId id % filter.length) (· ||| deltaBloomMask id)

def bloomFilter (ids : List Nat) : List Nat :=
  ids.foldl addToFilter (List.replicate ((ids.length + 7) / 8) 0)

def mayContain (filter : List Nat) (id : Nat) : Bool :=
  if filter = [] then false
  else
    let mask := deltaBloomMask id
    filter.getD (mixDeltaNodeId id % filter.length) 0 &&& mask == mask

def fenceIds (ids : List Nat) : List Nat :=
  (List.range ids.length).filterMap fun i => if i % deltaFenceRecords = 0 then ids[i]? else none

def lowerBound (ids : List Nat) (id : Nat) : Nat → Nat → Nat → Nat
  | 0, first, _ => first
  | fuel + 1, first, last =>
    if first < last then
      let middle := first + (last - first) / 2
      if ids.getD middle 0 < id then lowerBound ids id fuel (middle + 1) last
      else lowerBound ids id fuel first middle
    else first

/-- The index of the record that `Find` returns. -/
def findIndex (ids : List Nat) (id : Nat) : Option Nat :=
  if mayContain (bloomFilter ids) id then
    -- `std::upper_bound`, then one step back
    let upper := ((fenceIds ids).takeWhile (· ≤ id)).length
    if upper = 0 then none
    else
      let first := (upper - 1) * deltaFenceRecords
      let last := min (first + deltaFenceRecords) ids.length
      let found := lowerBound ids id deltaFenceRecords first last
      if ids[found]? = some id then some found else none
  else none

namespace DeltaRun

variable {H : Type}

def ids (run : DeltaRun H) : List Nat := run.records.map (·.1)

def find (run : DeltaRun H) (id : Nat) : Option (NodeRecord H) :=
  match findIndex run.ids id with
  | none => none
  | some i => run.records[i]?.map (·.2)

end DeltaRun

/-! ## The index finds every record -/

theorem getD_modify (l : List Nat) (i j : Nat) (f : Nat → Nat) (hi : i < l.length) :
    (l.modify i f).getD j 0 = if i = j then f (l.getD j 0) else l.getD j 0 := by
  rw [List.getD_eq_getElem?_getD, List.getElem?_modify, List.getD_eq_getElem?_getD]
  split_ifs with h
  · subst h; simp [hi]
  · simp

theorem foldl_addToFilter_bit (ids : List Nat) (filter : List Nat) (j k : Nat)
    (h : (filter.getD j 0).testBit k = true) : ((ids.foldl addToFilter filter).getD j 0).testBit k = true := by
  induction ids generalizing filter with
  | nil => exact h
  | cons id ids ih =>
    apply ih
    by_cases hlen : mixDeltaNodeId id % filter.length < filter.length
    · rw [addToFilter, getD_modify _ _ _ _ hlen]
      split_ifs
      · rw [Nat.testBit_or, h, Bool.true_or]
      · exact h
    · rw [addToFilter, List.modify_eq_self (by omega)]
      exact h

theorem foldl_addToFilter_length (ids : List Nat) (filter : List Nat) :
    (ids.foldl addToFilter filter).length = filter.length := by
  induction ids generalizing filter with
  | nil => rfl
  | cons id ids ih => rw [List.foldl_cons, ih, addToFilter, List.length_modify]

theorem foldl_addToFilter_mem {ids : List Nat} {id : Nat} (hid : id ∈ ids) (filter : List Nat)
    (hpos : 0 < filter.length) (k : Nat) (hk : (deltaBloomMask id).testBit k = true) :
    ((ids.foldl addToFilter filter).getD (mixDeltaNodeId id % filter.length) 0).testBit k = true := by
  induction ids generalizing filter with
  | nil => cases hid
  | cons x ids ih =>
    rw [List.foldl_cons]
    rcases List.mem_cons.mp hid with rfl | hid
    · apply foldl_addToFilter_bit
      rw [addToFilter, getD_modify _ _ _ _ (Nat.mod_lt _ hpos), if_pos rfl, Nat.testBit_or, hk, Bool.or_true]
    · have hlen : (addToFilter filter x).length = filter.length := List.length_modify _ _ _
      have := ih hid (addToFilter filter x) (by omega)
      rwa [hlen] at this

theorem mayContain_of_mem {ids : List Nat} {id : Nat} (h : id ∈ ids) :
    mayContain (bloomFilter ids) id = true := by
  have hne := List.length_pos_of_mem h
  have hwords : (List.replicate ((ids.length + 7) / 8) 0).length = (ids.length + 7) / 8 := List.length_replicate
  have hlen : (bloomFilter ids).length = (ids.length + 7) / 8 := by
    rw [bloomFilter, foldl_addToFilter_length, hwords]
  have hpos : 0 < (ids.length + 7) / 8 := by omega
  rw [mayContain, if_neg (by intro he; rw [he] at hlen; simp at hlen; omega), hlen]
  simp only [beq_iff_eq]
  apply Nat.eq_of_testBit_eq
  intro k
  rw [Nat.testBit_and]
  cases hk : (deltaBloomMask id).testBit k with
  | false => rw [Bool.and_false]
  | true =>
    have := foldl_addToFilter_mem h (List.replicate ((ids.length + 7) / 8) 0) (by omega) k hk
    rw [hwords] at this
    rw [bloomFilter, this, Bool.true_and]

theorem getD_lt_getD {ids : List Nat} (hsorted : ids.Pairwise (· < ·)) {i j : Nat} (hij : i < j)
    (hj : j < ids.length) : ids.getD i 0 < ids.getD j 0 := by
  rw [List.getD_eq_getElem _ _ (by omega), List.getD_eq_getElem _ _ hj]
  exact List.pairwise_iff_getElem.mp hsorted i j (by omega) hj hij

theorem fenceIds_eq (ids : List Nat) :
    fenceIds ids = (List.range ((ids.length + 63) / 64)).map fun k => ids.getD (64 * k) 0 := by
  have hprefix : ∀ m ≤ ids.length,
      ((List.range m).filterMap fun i => if i % deltaFenceRecords = 0 then ids[i]? else none) =
        (List.range ((m + 63) / 64)).map fun k => ids.getD (64 * k) 0 := by
    intro m
    induction m with
    | zero => intro _; rfl
    | succ m ih =>
      intro hm
      rw [List.range_succ, List.filterMap_append, ih (by omega)]
      by_cases hfence : m % 64 = 0
      · have hk : (m + 1 + 63) / 64 = m / 64 + 1 := by omega
        have hk' : (m + 63) / 64 = m / 64 := by omega
        rw [hk, hk', List.range_succ, List.map_append]
        simp [deltaFenceRecords, hfence, show 64 * (m / 64) = m by omega, List.getElem?_eq_getElem (show m < ids.length by omega)]
      · have hk : (m + 1 + 63) / 64 = (m + 63) / 64 := by omega
        rw [hk]
        simp [deltaFenceRecords, hfence]
  exact hprefix ids.length (le_refl _)

theorem takeWhile_length_eq {α : Type} {p : α → Bool} {l : List α} {c : Nat} (hc : c ≤ l.length)
    (hbefore : ∀ k (_ : k < c), p l[k] = true) (hstop : ∀ h : c < l.length, p l[c] = false) :
    (l.takeWhile p).length = c := by
  induction l generalizing c with
  | nil => simp at hc; simp [hc]
  | cons a l ih =>
    cases c with
    | zero =>
      have := hstop (by simp)
      simp only [List.getElem_cons_zero] at this
      simp [this]
    | succ c =>
      have ha := hbefore 0 (by omega)
      simp only [List.getElem_cons_zero] at ha
      rw [List.takeWhile_cons_of_pos ha, List.length_cons, ih (by simpa using hc)]
      · intro k hk
        simpa using hbefore (k + 1) (by omega)
      · intro h
        have := hstop (by simpa using h)
        rwa [List.getElem_cons_succ] at this

theorem upper_fence {ids : List Nat} (hsorted : ids.Pairwise (· < ·)) {j : Nat} (hj : j < ids.length) :
    ((fenceIds ids).takeWhile (· ≤ ids.getD j 0)).length = j / 64 + 1 := by
  rw [fenceIds_eq]
  refine takeWhile_length_eq (by simp only [List.length_map, List.length_range]; omega) ?_ ?_
  · intro k hk
    simp only [List.getElem_map, List.getElem_range, decide_eq_true_eq]
    by_cases hkj : 64 * k = j
    · rw [hkj]
    · exact le_of_lt (getD_lt_getD hsorted (by omega) hj)
  · intro h
    simp only [List.length_map, List.length_range] at h
    simp only [List.getElem_map, List.getElem_range, decide_eq_false_iff_not, not_le]
    exact getD_lt_getD hsorted (by omega) (by omega)

theorem lowerBound_spec (ids : List Nat) (id : Nat) (hsorted : ids.Pairwise (· < ·)) (fuel first last : Nat)
    (hle : first ≤ last) (hlast : last ≤ ids.length) (hfuel : last - first ≤ fuel) :
    first ≤ lowerBound ids id fuel first last ∧ lowerBound ids id fuel first last ≤ last ∧
      (∀ i, first ≤ i → i < lowerBound ids id fuel first last → ids.getD i 0 < id) ∧
      (∀ i, lowerBound ids id fuel first last ≤ i → i < last → id ≤ ids.getD i 0) := by
  induction fuel generalizing first last with
  | zero =>
    refine ⟨le_refl _, hle, ?_, ?_⟩ <;> intro i h1 h2 <;> simp only [lowerBound] at h1 h2 <;> omega
  | succ fuel ih =>
    rw [lowerBound]
    by_cases hlt : first < last
    · rw [if_pos hlt]
      simp only
      by_cases hmid : ids.getD (first + (last - first) / 2) 0 < id
      · rw [if_pos hmid]
        obtain ⟨h1, h2, h3, h4⟩ := ih (first + (last - first) / 2 + 1) last (by omega) hlast (by omega)
        refine ⟨by omega, h2, ?_, h4⟩
        intro i hi hilt
        by_cases hleft : i ≤ first + (last - first) / 2
        · rcases Nat.lt_or_eq_of_le hleft with hleft | rfl
          · exact lt_trans (getD_lt_getD hsorted hleft (by omega)) hmid
          · exact hmid
        · exact h3 i (by omega) hilt
      · rw [if_neg hmid]
        obtain ⟨h1, h2, h3, h4⟩ := ih first (first + (last - first) / 2) (by omega) (by omega) (by omega)
        refine ⟨h1, by omega, h3, ?_⟩
        intro i hi hilt
        by_cases hright : i < first + (last - first) / 2
        · exact h4 i hi hright
        · rcases Nat.lt_or_eq_of_le (Nat.le_of_not_lt hright) with hright | rfl
          · exact le_of_lt (lt_of_le_of_lt (Nat.le_of_not_lt hmid) (getD_lt_getD hsorted hright (by omega)))
          · exact Nat.le_of_not_lt hmid
    · rw [if_neg hlt]
      refine ⟨le_refl _, hle, ?_, ?_⟩ <;> intro i h1 h2 <;> omega

theorem findIndex_of_getElem {ids : List Nat} (hsorted : ids.Pairwise (· < ·)) {j : Nat} (hj : j < ids.length) :
    findIndex ids ids[j] = some j := by
  have hgetD : ids.getD j 0 = ids[j] := List.getD_eq_getElem _ _ hj
  have hupper := upper_fence hsorted hj
  rw [hgetD] at hupper
  rw [findIndex, if_pos (mayContain_of_mem (List.getElem_mem hj))]
  simp only [hupper, deltaFenceRecords]
  rw [if_neg (by omega), show j / 64 + 1 - 1 = j / 64 by omega]
  obtain ⟨h1, h2, h3, h4⟩ := lowerBound_spec ids ids[j] hsorted 64 (j / 64 * 64) (min (j / 64 * 64 + 64) ids.length)
    (by omega) (by omega) (by omega)
  have hfound : lowerBound ids ids[j] 64 (j / 64 * 64) (min (j / 64 * 64 + 64) ids.length) = j := by
    generalize lowerBound ids ids[j] 64 (j / 64 * 64) (min (j / 64 * 64 + 64) ids.length) = r at *
    rcases Nat.lt_trichotomy r j with hlt | heq | hgt
    · have hle := h4 r (le_refl _) (by omega)
      have := getD_lt_getD hsorted hlt hj
      omega
    · exact heq
    · have := h3 j (by omega) hgt
      omega
  rw [hfound, if_pos (List.getElem?_eq_getElem hj)]

theorem findIndex_eq_some {ids : List Nat} {id : Nat} {i : Nat} (h : findIndex ids id = some i) :
    ids[i]? = some id := by
  unfold findIndex at h
  simp only at h
  split_ifs at h with _ _ hget
  cases h
  exact hget

namespace DeltaRun

variable {H : Type} (run : DeltaRun H)

theorem ids_sorted : run.ids.Pairwise (· < ·) := List.pairwise_map.mpr run.sorted

theorem find_eq_some_iff {id : Nat} {r : NodeRecord H} : run.find id = some r ↔ (id, r) ∈ run.records := by
  constructor
  · intro h
    unfold find at h
    split at h
    · cases h
    · rename_i i hi
      have hid := findIndex_eq_some hi
      obtain ⟨⟨id', r'⟩, hget, hr⟩ := Option.map_eq_some_iff.mp h
      simp only [ids, List.getElem?_map, hget, Option.map_some, Option.some.injEq] at hid
      simp only at hr
      subst hid hr
      exact List.mem_of_getElem? hget
  · intro h
    obtain ⟨j, hj, hget⟩ := List.getElem_of_mem h
    have hj' : j < run.ids.length := by simpa [ids] using hj
    have hid : run.ids[j] = id := by simp [ids, hget]
    have hfind := findIndex_of_getElem run.ids_sorted hj'
    rw [hid] at hfind
    rw [find, hfind]
    simp [List.getElem?_eq_getElem hj, hget]

theorem find_eq_none_iff {id : Nat} : run.find id = none ↔ id ∉ run.ids := by
  rw [Option.eq_none_iff_forall_ne_some]
  simp only [ne_eq, run.find_eq_some_iff, ids, List.mem_map, Prod.exists, exists_and_right, exists_eq_right, not_exists]

end DeltaRun

end UtreexoBridge
