import Mathlib.Order.Interval.Finset.Nat
import UtreexoBridge.OpenAddressing.Ops

/-!
# Rebuilding a cluster without its tombstones

The slots of a cluster are cleared and its entries put back from their homes.
Each finds room inside the old cluster: the entries whose homes lie behind some
slot were all behind it before.
-/

namespace UtreexoBridge.OpenAddressing.Table

variable {α : Type}

/-! ## The loops -/

/-- The first empty slot. -/
def emptySlot (t : Table α) : Nat → Nat → Option Nat
  | 0, _ => none
  | fuel + 1, i =>
    match t.slot i with
    | .empty => some i
    | _ => emptySlot t fuel (t.next i)

/-- A run of slots that are not empty. -/
structure Cluster (α : Type) where
  survivors : List α
  deleted : Nat
  size : Nat
  after : Nat

/-- The cluster from `i` on, `remaining` slots at most. -/
def cluster (t : Table α) : Nat → Nat → Cluster α
  | 0, i => ⟨[], 0, 0, i⟩
  | remaining + 1, i =>
    match t.slot i with
    | .empty => ⟨[], 0, 0, i⟩
    | .full a =>
      let c := cluster t remaining (t.next i)
      ⟨a :: c.survivors, c.deleted, c.size + 1, c.after⟩
    | .deleted =>
      let c := cluster t remaining (t.next i)
      ⟨c.survivors, c.deleted + 1, c.size + 1, c.after⟩

def clearSlots : Nat → Nat → Table α → Table α
  | 0, _, t => t
  | count + 1, i, t => clearSlots count (t.next i) (t.set i .empty)

def reinsert (home : α → Nat) : List α → Table α → Option (Table α)
  | [], t => some t
  | a :: rest, t =>
    match t.emptySlot t.capacity (home a) with
    | none => none
    | some d => reinsert home rest (t.set d (.full a))

/-! ## Offsets on the ring -/

/-- The slot `k` steps after `i`. -/
def ahead (t : Table α) (i k : Nat) : Nat := (i + k) % t.capacity

variable {t : Table α} {home : α → Nat} {S : Finset α} {s n : Nat}

theorem ahead_zero (h : s < t.capacity) : t.ahead s 0 = s := Nat.mod_eq_of_lt h

theorem ahead_lt (h : s < t.capacity) (k : Nat) : t.ahead s k < t.capacity := Nat.mod_lt _ (by omega)

theorem ahead_next (t : Table α) (i k : Nat) : t.ahead (t.next i) k = t.ahead i (k + 1) := by
  rw [ahead, ahead, next, Nat.mod_add_mod]
  congr 1
  omega

theorem ahead_next_last (h : s < t.capacity) : t.ahead (t.next s) (t.capacity - 1) = s := by
  rw [ahead_next, show t.capacity - 1 + 1 = t.capacity by omega, ahead, Nat.add_mod_right, Nat.mod_eq_of_lt h]

theorem ahead_eq (h : s < t.capacity) {k : Nat} (hk : k < t.capacity) :
    t.ahead s k = if s + k < t.capacity then s + k else s + k - t.capacity := by
  unfold ahead
  split_ifs with hlt
  · exact Nat.mod_eq_of_lt hlt
  · rw [Nat.mod_eq_sub_mod (not_lt.mp hlt), Nat.mod_eq_of_lt (by omega)]

theorem dist_ahead (h : s < t.capacity) {k : Nat} (hk : k < t.capacity) : dist t.capacity s (t.ahead s k) = k := by
  rw [ahead_eq h hk]
  unfold dist
  split_ifs <;> omega

theorem ahead_dist (h : s < t.capacity) {i : Nat} (hi : i < t.capacity) : t.ahead s (dist t.capacity s i) = i := by
  rw [ahead_eq h (dist_lt h hi)]
  unfold dist
  split_ifs <;> omega

theorem dist_ahead_ahead (h : s < t.capacity) {j k : Nat} (hjk : j ≤ k) (hk : k < t.capacity) :
    dist t.capacity (t.ahead s j) (t.ahead s k) = k - j := by
  rw [ahead_eq h hk, ahead_eq h (by omega)]
  unfold dist
  split_ifs <;> omega

theorem Reach.ahead {b i : Nat} (h : t.Reach b i) (hs : s < t.capacity) (hb : b < t.capacity) (hi : i < t.capacity)
    (hle : dist t.capacity s b ≤ dist t.capacity s i) {k : Nat} (hbk : dist t.capacity s b ≤ k)
    (hki : k < dist t.capacity s i) : t.slot (t.ahead s k) ≠ .empty := by
  have hdi := dist_lt hs hi
  apply h _ (ahead_lt hs k)
  have hbi := dist_ahead_ahead hs hle hdi
  have hbk' := dist_ahead_ahead hs hbk (by omega)
  rw [ahead_dist hs hb, ahead_dist hs hi] at hbi
  rw [ahead_dist hs hb] at hbk'
  omega

/-! ## What the cluster is -/

theorem cluster_size_le (t : Table α) (remaining i : Nat) : (t.cluster remaining i).size ≤ remaining := by
  induction remaining generalizing i with
  | zero => exact le_refl _
  | succ remaining ih =>
    have := ih (t.next i)
    rw [cluster]
    cases t.slot i with
    | empty => exact Nat.zero_le _
    | full a => exact Nat.succ_le_succ this
    | deleted => exact Nat.succ_le_succ this

theorem cluster_size_pos {remaining i : Nat} (hpos : 0 < remaining) (hne : t.slot i ≠ .empty) :
    0 < (t.cluster remaining i).size := by
  obtain ⟨remaining, rfl⟩ : ∃ k, remaining = k + 1 := ⟨remaining - 1, by omega⟩
  rw [cluster]
  cases hslot : t.slot i with
  | empty => exact absurd hslot hne
  | full a => exact Nat.succ_pos _
  | deleted => exact Nat.succ_pos _

theorem cluster_after (t : Table α) (remaining : Nat) {i : Nat} (hi : i < t.capacity) :
    (t.cluster remaining i).after = t.ahead i (t.cluster remaining i).size := by
  induction remaining generalizing i with
  | zero => exact (ahead_zero hi).symm
  | succ remaining ih =>
    have hrest := ih (next_lt t hi)
    rw [ahead_next] at hrest
    rw [cluster]
    cases t.slot i with
    | empty => exact (ahead_zero hi).symm
    | full a => exact hrest
    | deleted => exact hrest

theorem cluster_ends (t : Table α) (remaining : Nat) {i : Nat} (hi : i < t.capacity) :
    (t.cluster remaining i).size = remaining ∨ t.slot (t.cluster remaining i).after = .empty := by
  induction remaining generalizing i with
  | zero => exact Or.inl rfl
  | succ remaining ih =>
    have hrest := ih (next_lt t hi)
    rw [cluster]
    cases hslot : t.slot i with
    | empty => exact Or.inr hslot
    | full a => exact hrest.imp (congrArg (· + 1)) id
    | deleted => exact hrest.imp (congrArg (· + 1)) id

theorem cluster_survivors (t : Table α) (remaining : Nat) {i : Nat} (hi : i < t.capacity) :
    (t.cluster remaining i).survivors =
      (List.range (t.cluster remaining i).size).filterMap fun k => (t.slot (t.ahead i k)).entry := by
  induction remaining generalizing i with
  | zero => rfl
  | succ remaining ih =>
    have hrest := ih (next_lt t hi)
    simp only [ahead_next] at hrest
    rw [cluster]
    cases hslot : t.slot i with
    | empty => rfl
    | full a =>
      simp only [List.range_succ_eq_map, List.filterMap_cons, ahead_zero hi, hslot, Slot.entry, List.filterMap_map]
      rw [hrest]
      rfl
    | deleted =>
      simp only [List.range_succ_eq_map, List.filterMap_cons, ahead_zero hi, hslot, Slot.entry, List.filterMap_map]
      rw [hrest]
      rfl

theorem cluster_deleted (t : Table α) (remaining : Nat) {i : Nat} (hi : i < t.capacity) :
    (t.cluster remaining i).deleted =
      ((List.range (t.cluster remaining i).size).filter fun k => (t.slot (t.ahead i k)).isDeleted).length := by
  induction remaining generalizing i with
  | zero => rfl
  | succ remaining ih =>
    have hrest := ih (next_lt t hi)
    simp only [ahead_next] at hrest
    rw [cluster]
    cases hslot : t.slot i with
    | empty => rfl
    | full a =>
      simp only [List.range_succ_eq_map, List.filter_cons, ahead_zero hi, hslot, Slot.isDeleted, List.filter_map,
        List.length_map, Bool.false_eq_true, if_false]
      exact hrest
    | deleted =>
      simp only [List.range_succ_eq_map, List.filter_cons, ahead_zero hi, hslot, Slot.isDeleted, List.filter_map,
        List.length_map, List.length_cons, if_true]
      rw [hrest]
      rfl

theorem cluster_clean {remaining i : Nat} (hi : i < t.capacity) (h : (t.cluster remaining i).deleted = 0) :
    ∀ k < (t.cluster remaining i).size, t.slot (t.ahead i k) ≠ .deleted := by
  intro k hk hslot
  rw [cluster_deleted t remaining hi, List.length_eq_zero_iff, List.filter_eq_nil_iff] at h
  have := h k (List.mem_range.mpr hk)
  rw [hslot] at this
  exact this rfl

/-! ## Clearing -/

@[simp] theorem clearSlots_capacity (count i : Nat) (t : Table α) : (clearSlots count i t).capacity = t.capacity := by
  induction count generalizing i t with
  | zero => rfl
  | succ count ih => rw [clearSlots, ih, set_capacity]

theorem clearSlots_slot (count : Nat) (hs : s < t.capacity) (hcount : count ≤ t.capacity) {i : Nat} (hi : i < t.capacity) :
    (clearSlots count s t).slot i = if dist t.capacity s i < count then .empty else t.slot i := by
  induction count generalizing s t with
  | zero => rfl
  | succ count ih =>
    have hnext := next_eq t hs
    have hrest := ih (s := t.next s) (t := t.set s .empty) (next_lt t hs) (by simpa using by omega) (by simpa using hi)
    rw [clearSlots, hrest, set_slot, set_capacity]
    by_cases his : i = s
    · rw [if_pos his, his, dist_self, if_pos (Nat.succ_pos _), ite_self]
    · rw [if_neg his]
      congr 1
      have hiff : dist t.capacity (t.next s) i < count ↔ dist t.capacity s i < count + 1 := by
        rw [hnext]
        unfold dist
        split_ifs <;> omega
      rw [hiff]

theorem deletedCount_set_empty_add {i : Nat} (hi : i < t.capacity) :
    (t.set i .empty).deletedCount + (if (t.slot i).isDeleted then 1 else 0) = t.deletedCount := by
  have hfilter : ((Finset.range t.capacity).filter fun j => ((t.set i .empty).slot j).isDeleted) =
      ((Finset.range t.capacity).filter fun j => (t.slot j).isDeleted).erase i := by
    ext j
    simp only [Finset.mem_filter, Finset.mem_erase, set_slot]
    by_cases hji : j = i
    · simp [hji, Slot.isDeleted]
    · simp [hji]
  unfold deletedCount
  rw [set_capacity, hfilter]
  split_ifs with hdel
  · have hmem : i ∈ (Finset.range t.capacity).filter fun j => (t.slot j).isDeleted :=
      Finset.mem_filter.mpr ⟨Finset.mem_range.mpr hi, hdel⟩
    rw [Finset.card_erase_of_mem hmem]
    have := Finset.card_pos.mpr ⟨i, hmem⟩
    omega
  · rw [Finset.erase_eq_of_notMem (by simp [hdel]), Nat.add_zero]

theorem deletedCount_clearSlots (count : Nat) (hs : s < t.capacity) (hcount : count ≤ t.capacity) :
    (clearSlots count s t).deletedCount + ((List.range count).filter fun k => (t.slot (t.ahead s k)).isDeleted).length =
      t.deletedCount := by
  induction count generalizing s t with
  | zero => rfl
  | succ count ih =>
    have hrest := ih (s := t.next s) (t := t.set s .empty) (next_lt t hs) (by simpa using by omega)
    have hone := deletedCount_set_empty_add (t := t) hs
    have hsame : ((List.range count).filter fun k => ((t.set s .empty).slot ((t.set s .empty).ahead (t.next s) k)).isDeleted) =
        (List.range count).filter fun k => (t.slot (t.ahead s (k + 1))).isDeleted := by
      apply List.filter_congr
      intro k hk
      have hahead : (t.set s .empty).ahead (t.next s) k = t.ahead s (k + 1) := ahead_next t s k
      have hne : t.ahead s (k + 1) ≠ s := by
        intro he
        have hdist := dist_ahead hs (k := k + 1) (by rw [List.mem_range] at hk; omega)
        rw [he, dist_self] at hdist
        omega
      rw [hahead, set_slot, if_neg hne]
    rw [hsame] at hrest
    have hsplit : ((List.range (count + 1)).filter fun k => (t.slot (t.ahead s k)).isDeleted).length =
        (if (t.slot s).isDeleted then 1 else 0) +
          ((List.range count).filter fun k => (t.slot (t.ahead s (k + 1))).isDeleted).length := by
      rw [List.range_succ_eq_map, List.filter_cons, ahead_zero hs, List.filter_map]
      split_ifs
      · rw [List.length_cons, List.length_map, Nat.add_comm]
        rfl
      · rw [List.length_map, Nat.zero_add]
        rfl
    rw [clearSlots, hsplit]
    omega

theorem Holds.clearSlots [DecidableEq α] (h : t.Holds home S) (hs : s < t.capacity) (hn : n < t.capacity)
    (hend : t.slot (t.ahead s n) = .empty) {D : Finset α} (hD : ∀ a, a ∈ D ↔ ∃ k < n, t.slot (t.ahead s k) = .full a) :
    (clearSlots n s t).Holds home (S \ D) := by
  have hslot := fun i hi => clearSlots_slot (t := t) (s := s) n hs hn.le (i := i) hi
  have hold : ∀ i < t.capacity, ∀ a, (Table.clearSlots n s t).slot i = .full a →
      ¬dist t.capacity s i < n ∧ t.slot i = .full a := by
    intro i hi a ha
    rw [hslot i hi] at ha
    split_ifs at ha with hin
    exact ⟨hin, ha⟩
  have hout : ∀ i < t.capacity, ∀ a, ¬dist t.capacity s i < n → t.slot i = .full a → a ∉ D := by
    intro i hi a hin ha hmem
    obtain ⟨k, hk, hka⟩ := (hD a).mp hmem
    have hik := h.once i hi _ (ahead_lt hs k) a ha hka
    rw [hik, dist_ahead hs (by omega)] at hin
    exact hin hk
  refine ⟨fun a ha => ?_, fun i hi a ha => ?_, fun a ha => ?_, fun i hi j hj a hia hja => ?_, fun i hi a ha j hj hlt => ?_⟩
  · rw [clearSlots_capacity]
    exact h.home_lt a (Finset.mem_sdiff.mp ha).1
  · rw [clearSlots_capacity] at hi
    obtain ⟨hin, ha⟩ := hold i hi a ha
    exact Finset.mem_sdiff.mpr ⟨h.mem i hi a ha, hout i hi a hin ha⟩
  · obtain ⟨haS, haD⟩ := Finset.mem_sdiff.mp ha
    obtain ⟨i, hi, hia⟩ := h.placed a haS
    refine ⟨i, by rwa [clearSlots_capacity], ?_⟩
    rw [hslot i hi, if_neg, hia]
    intro hin
    exact haD ((hD a).mpr ⟨_, hin, by rw [ahead_dist hs hi, hia]⟩)
  · rw [clearSlots_capacity] at hi hj
    exact h.once i hi j hj a (hold i hi a hia).2 (hold j hj a hja).2
  · rw [clearSlots_capacity] at hi hj hlt
    obtain ⟨hin, ha⟩ := hold i hi a ha
    rw [hslot j hj]
    split_ifs with hjn
    · -- the way leads through the cluster, so it meets the empty slot behind it
      exfalso
      have hhome := h.home_lt a (h.mem i hi a ha)
      have hie : i ≠ t.ahead s n := by
        intro he
        rw [he, hend] at ha
        cases ha
      refine h.reach i hi a ha _ (ahead_lt hs n) ?_ hend
      rw [ahead_eq hs hn] at hie ⊢
      unfold dist at *
      split_ifs at * <;> omega
    · exact h.reach i hi a ha j hj hlt

/-- The homes of a cluster's entries lie in the cluster, if the slot in front of it is empty. -/
theorem Holds.home_in_cluster (h : t.Holds home S) (hs : s < t.capacity)
    (hfront : t.slot (t.ahead s (t.capacity - 1)) = .empty) {k : Nat} (hk : k < t.capacity) {a : α}
    (ha : t.slot (t.ahead s k) = .full a) : dist t.capacity s (home a) ≤ k := by
  by_contra hlt
  have hhome := h.home_lt a (h.mem _ (ahead_lt hs k) a ha)
  refine h.reach _ (ahead_lt hs k) a ha _ (ahead_lt hs _) ?_ hfront
  rw [ahead_eq hs hk, ahead_eq hs (by omega)]
  unfold dist at *
  split_ifs at * <;> omega

/-! ## Putting back -/

theorem emptySlot_spec {b z : Nat} (hb : b < t.capacity) (hz : z < t.capacity) (hempty : t.slot z = .empty)
    (fuel i : Nat) (hi : i < t.capacity) (hreach : t.Reach b i) (hfuel : dist t.capacity b i + fuel = t.capacity) :
    ∃ d, t.emptySlot fuel i = some d ∧ d < t.capacity ∧ t.slot d = .empty ∧ t.Reach b d := by
  induction fuel generalizing i with
  | zero =>
    have := dist_lt hb hi
    omega
  | succ fuel ih =>
    have hmore : t.slot i ≠ .empty → ∃ d, t.emptySlot fuel (t.next i) = some d ∧ d < t.capacity ∧ t.slot d = .empty ∧
        t.Reach b d := by
      intro hne
      have hstep := dist_next t hb hi (dist_succ_lt hb hi hz hempty hreach hne)
      exact ih (t.next i) (next_lt t hi) (reach_next hb hi hreach hne) (by omega)
    rw [emptySlot]
    cases hslot : t.slot i with
    | empty => exact ⟨i, rfl, hi, hslot, hreach⟩
    | full a => exact hmore (by simp [hslot])
    | deleted => exact hmore (by simp [hslot])

section Room

variable {D : List α} {old : α → Nat}

/-- An entry of the old cluster that is not back yet finds an empty slot between its home and the cluster's end. -/
theorem Holds.exists_room (h : t.Holds home S) (hs : s < t.capacity) (hn : n < t.capacity)
    (hclean : ∀ k < n, t.slot (t.ahead s k) ≠ .deleted)
    (hstored : ∀ k < n, ∀ a, t.slot (t.ahead s k) = .full a → a ∈ D)
    (hold : ∀ a ∈ D, home a < t.capacity ∧ dist t.capacity s (home a) ≤ old a ∧ old a < n)
    (hinj : ∀ a ∈ D, ∀ b ∈ D, old a = old b → a = b) {x : α} (hx : x ∈ D) (hxS : x ∉ S) :
    ∃ k, dist t.capacity s (home x) ≤ k ∧ k < n ∧ t.slot (t.ahead s k) = .empty := by
  classical
  by_contra hno
  push Not at hno
  have hfull : ∃ p, ∀ k, p ≤ k → k < n → t.slot (t.ahead s k) ≠ .empty := ⟨_, hno⟩
  -- the longest full stretch at the end of the cluster
  obtain ⟨p, hp, hmin⟩ : ∃ p, (∀ k, p ≤ k → k < n → t.slot (t.ahead s k) ≠ .empty) ∧
      ∀ q < p, ¬∀ k, q ≤ k → k < n → t.slot (t.ahead s k) ≠ .empty :=
    ⟨Nat.find hfull, Nat.find_spec hfull, fun q hq => Nat.find_min hfull hq⟩
  have hpx : p ≤ dist t.capacity s (home x) := by
    by_contra hlt
    exact hmin _ (not_le.mp hlt) hno
  have hentry : ∀ k, ∃ a, p ≤ k → k < n → t.slot (t.ahead s k) = .full a := by
    intro k
    by_cases hk : p ≤ k ∧ k < n
    · cases hslot : t.slot (t.ahead s k) with
      | empty => exact absurd hslot (hp k hk.1 hk.2)
      | deleted => exact absurd hslot (hclean k hk.2)
      | full a => exact ⟨a, fun _ _ => rfl⟩
    · exact ⟨x, fun h1 h2 => absurd ⟨h1, h2⟩ hk⟩
  choose e he using hentry
  have hfrom : ∀ k, p ≤ k → k < n → p ≤ dist t.capacity s (home (e k)) := by
    intro k hpk hkn
    by_contra hlt
    have hslot := he k hpk hkn
    have hmem := h.mem _ (ahead_lt hs k) _ hslot
    have hdist := dist_ahead hs (k := k) (by omega)
    refine hmin (p - 1) (by omega) fun j hj hjn => ?_
    by_cases hjp : j = p - 1
    · rw [hjp]
      exact (h.reach _ (ahead_lt hs k) _ hslot).ahead hs (h.home_lt _ hmem) (ahead_lt hs k) (by omega) (by omega) (by omega)
    · exact hp j (by omega) hjn
  obtain ⟨hxhome, hxle, hxlt⟩ := hold x hx
  have hcard := Finset.card_le_card_of_injOn (s := Finset.Ico p n) (t := (Finset.Ico p n).erase (old x))
    (fun k => old (e k))
    (by
      intro k hk
      obtain ⟨hpk, hkn⟩ := Finset.mem_Ico.mp hk
      have hslot := he k hpk hkn
      have hek := hstored k hkn _ hslot
      obtain ⟨-, hle, hlt⟩ := hold _ hek
      refine Finset.mem_erase.mpr ⟨fun hsame => hxS ?_, Finset.mem_Ico.mpr ⟨le_trans (hfrom k hpk hkn) hle, hlt⟩⟩
      rw [← hinj _ hek x hx hsame]
      exact h.mem _ (ahead_lt hs k) _ hslot)
    (by
      intro k hk j hj hsame
      obtain ⟨hpk, hkn⟩ := Finset.mem_Ico.mp hk
      obtain ⟨hpj, hjn⟩ := Finset.mem_Ico.mp hj
      have hkslot := he k hpk hkn
      have hjslot := he j hpj hjn
      have heq := hinj _ (hstored k hkn _ hkslot) _ (hstored j hjn _ hjslot) hsame
      rw [← heq] at hjslot
      have hahead := h.once _ (ahead_lt hs k) _ (ahead_lt hs j) _ hkslot hjslot
      rw [← dist_ahead hs (k := k) (by omega), hahead, dist_ahead hs (by omega)])
  rw [Finset.card_erase_of_mem (Finset.mem_Ico.mpr ⟨by omega, hxlt⟩), Nat.card_Ico] at hcard
  omega

variable (old) in
theorem reinsert_spec [DecidableEq α] (hs : s < t.capacity) (hn : n < t.capacity) (rest : List α) (h : t.Holds home S)
    (hclean : ∀ k < n, t.slot (t.ahead s k) ≠ .deleted)
    (hstored : ∀ k < n, ∀ a, t.slot (t.ahead s k) = .full a → a ∈ D)
    (hold : ∀ a ∈ D, home a < t.capacity ∧ dist t.capacity s (home a) ≤ old a ∧ old a < n)
    (hinj : ∀ a ∈ D, ∀ b ∈ D, old a = old b → a = b) (hrest : ∀ a ∈ rest, a ∈ D ∧ a ∉ S) (hnodup : rest.Nodup) :
    ∃ t', reinsert home rest t = some t' ∧ t'.capacity = t.capacity ∧ t'.Holds home (S ∪ rest.toFinset) ∧
      t'.deletedCount = t.deletedCount ∧ (∀ i < t.capacity, n ≤ dist t.capacity s i → t'.slot i = t.slot i) ∧
      ∀ k < n, t'.slot (t.ahead s k) ≠ .deleted := by
  induction rest generalizing t S with
  | nil => exact ⟨t, rfl, rfl, by simpa using h, rfl, fun _ _ _ => rfl, hclean⟩
  | cons x rest ih =>
    obtain ⟨hxD, hxS⟩ := hrest x List.mem_cons_self
    obtain ⟨hxrest, hnodup⟩ := List.nodup_cons.mp hnodup
    obtain ⟨hhome, -, -⟩ := hold x hxD
    obtain ⟨k, hxk, hkn, hempty⟩ := h.exists_room hs hn hclean hstored hold hinj hxD hxS
    obtain ⟨d, hfind, hd, hdempty, hreach⟩ := emptySlot_spec hhome (ahead_lt hs k) hempty t.capacity (home x) hhome
      (reach_home _) (by rw [dist_self]; omega)
    have hinside : dist t.capacity s d < n := by
      have hle : ¬dist t.capacity (home x) (t.ahead s k) < dist t.capacity (home x) d :=
        fun hlt => hreach _ (ahead_lt hs k) hlt hempty
      rw [ahead_eq hs (by omega)] at hle
      unfold dist at *
      split_ifs at * <;> omega
    have hslot : ∀ i, (t.set d (.full x)).slot i = if i = d then .full x else t.slot i := fun i => set_slot t d i _
    have hcap : ∀ i j, (t.set d (.full x)).ahead i j = t.ahead i j := fun _ _ => rfl
    obtain ⟨t', hrun, hcapacity, hholds, hdeleted, hsame, hclean'⟩ := ih (t := t.set d (.full x)) (S := insert x S) hs hn
      (h.insert hxS hd (fun b hb => by rw [hdempty] at hb; cases hb) hhome hreach)
      (fun j hj => by
        rw [hcap, hslot]
        split_ifs
        · simp
        · exact hclean j hj)
      (fun j hj a ha => by
        rw [hcap, hslot] at ha
        split_ifs at ha
        · cases ha
          exact hxD
        · exact hstored j hj a ha)
      hold
      (fun a ha => by
        obtain ⟨haD, haS⟩ := hrest a (List.mem_cons_of_mem _ ha)
        refine ⟨haD, fun hmem => ?_⟩
        rcases Finset.mem_insert.mp hmem with rfl | hmem
        · exact hxrest ha
        · exact haS hmem)
      hnodup
    refine ⟨t', ?_, hcapacity, ?_, ?_, fun i hi hout => ?_, hclean'⟩
    · rw [reinsert, hfind]
      exact hrun
    · rwa [List.toFinset_cons, Finset.union_insert, ← Finset.insert_union]
    · rw [hdeleted, deletedCount_set_full x hd, hdempty]
      rfl
    · rw [hsame i hi hout, hslot, if_neg]
      rintro rfl
      omega

end Room

/-- **Rebuilding.** A cluster between two empty slots is emptied and refilled: the table holds the same entries, and
nothing outside the cluster changes. -/
theorem Holds.rebuild [DecidableEq α] (h : t.Holds home S) (hs : s < t.capacity) {remaining : Nat}
    (hsize : (t.cluster remaining s).size < t.capacity) (hfront : t.slot (t.ahead s (t.capacity - 1)) = .empty)
    (hend : t.slot (t.ahead s (t.cluster remaining s).size) = .empty) :
    ∃ t', reinsert home (t.cluster remaining s).survivors (Table.clearSlots (t.cluster remaining s).size s t) = some t' ∧
      t'.capacity = t.capacity ∧ t'.Holds home S ∧ (t.cluster remaining s).survivors.length ≤ S.card ∧
      t'.deletedCount + (t.cluster remaining s).deleted = t.deletedCount ∧
      (∀ i < t.capacity, (t.cluster remaining s).size ≤ dist t.capacity s i → t'.slot i = t.slot i) ∧
      ∀ k < (t.cluster remaining s).size, t'.slot (t.ahead s k) ≠ .deleted := by
  have hsurvivors := cluster_survivors t remaining hs
  have hdeleted := cluster_deleted t remaining hs
  generalize t.cluster remaining s = c at *
  have hmem : ∀ a, a ∈ c.survivors ↔ ∃ k < c.size, t.slot (t.ahead s k) = .full a := by
    intro a
    simp only [hsurvivors, List.mem_filterMap, List.mem_range, Slot.entry_eq_some]
  have hnodup : c.survivors.Nodup := by
    rw [hsurvivors, List.Nodup, List.pairwise_filterMap]
    apply List.nodup_range.imp_of_mem
    intro j k hj hk hjk a ha b hb hab
    rw [Slot.entry_eq_some] at ha hb
    rw [List.mem_range] at hj hk
    have hahead := h.once _ (ahead_lt hs j) _ (ahead_lt hs k) a ha (hab ▸ hb)
    apply hjk
    rw [← dist_ahead hs (k := j) (by omega), hahead, dist_ahead hs (by omega)]
  -- where each entry was before
  have hwhere : ∀ a, ∃ k, a ∈ c.survivors → k < c.size ∧ t.slot (t.ahead s k) = .full a := by
    intro a
    by_cases ha : a ∈ c.survivors
    · obtain ⟨k, hk, hslot⟩ := (hmem a).mp ha
      exact ⟨k, fun _ => ⟨hk, hslot⟩⟩
    · exact ⟨0, fun hin => absurd hin ha⟩
  choose old hold using hwhere
  have hcleared := h.clearSlots hs hsize hend (D := c.survivors.toFinset) (by simpa using hmem)
  have hslot : ∀ k < c.size, (Table.clearSlots c.size s t).slot (t.ahead s k) = .empty := by
    intro k hk
    rw [clearSlots_slot c.size hs hsize.le (ahead_lt hs k), if_pos]
    rwa [dist_ahead hs (by omega)]
  have hahead : ∀ i k, (Table.clearSlots c.size s t).ahead i k = t.ahead i k := by
    intro i k
    rw [ahead, ahead, clearSlots_capacity]
  obtain ⟨t', hrun, hcapacity, hholds, hcount, hsame, hclean⟩ := reinsert_spec old (t := Table.clearSlots c.size s t)
    (D := c.survivors) (by simpa using hs) (by simpa using hsize) c.survivors hcleared
    (fun k hk => by
      rw [hahead, hslot k hk]
      simp)
    (fun k hk a ha => by
      rw [hahead, hslot k hk] at ha
      cases ha)
    (fun a ha => by
      obtain ⟨hk, hka⟩ := hold a ha
      rw [clearSlots_capacity]
      exact ⟨h.home_lt a (h.mem _ (ahead_lt hs _) a hka), h.home_in_cluster hs hfront (by omega) hka, hk⟩)
    (fun a ha b hb hsame => by
      have hka := (hold a ha).2
      have hkb := (hold b hb).2
      rw [hsame, hkb] at hka
      exact (Slot.full.inj hka).symm)
    (fun a ha => ⟨ha, fun hin => (Finset.mem_sdiff.mp hin).2 (List.mem_toFinset.mpr ha)⟩) hnodup
  have hsubset : c.survivors.toFinset ⊆ S := by
    intro a ha
    obtain ⟨k, hk, hka⟩ := (hmem a).mp (List.mem_toFinset.mp ha)
    exact h.mem _ (ahead_lt hs k) a hka
  rw [Finset.sdiff_union_of_subset hsubset] at hholds
  rw [clearSlots_capacity] at hcapacity hsame
  refine ⟨t', hrun, hcapacity, hholds, ?_, ?_, fun i hi hout => ?_, fun k hk => by rw [← hahead]; exact hclean k hk⟩
  · rw [← List.toFinset_card_of_nodup hnodup]
    exact Finset.card_le_card hsubset
  · rw [hcount, hdeleted]
    exact deletedCount_clearSlots c.size hs hsize.le
  · rw [hsame i hi hout, clearSlots_slot c.size hs hsize.le hi, if_neg (by omega)]

end UtreexoBridge.OpenAddressing.Table
