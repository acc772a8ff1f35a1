import UtreexoBridge.OpenAddressing.Table

/-! # Lookup, insertion and deletion with back-shift -/

namespace UtreexoBridge.OpenAddressing.Table

variable {α : Type} {t : Table α} {home : α → Nat} {S : Finset α}

theorem dist_lt {n a b : Nat} (ha : a < n) (hb : b < n) : dist n a b < n := by
  unfold dist; split_ifs <;> omega

theorem dist_self (n a : Nat) : dist n a a = 0 := by simp [dist]

theorem dist_inj {n b i j : Nat} (hb : b < n) (hi : i < n) (hj : j < n) (h : dist n b i = dist n b j) : i = j := by
  unfold dist at h; split_ifs at h <;> omega

theorem reach_next {b i : Nat} (hb : b < t.capacity) (hi : i < t.capacity) (h : t.Reach b i)
    (hne : t.slot i ≠ .empty) : t.Reach b (t.next i) := by
  intro j hj hlt
  by_cases hji : j = i
  · rw [hji]; exact hne
  apply h j hj
  have hdj := dist_lt hb hj
  have hdne : dist t.capacity b j ≠ dist t.capacity b i := fun he => hji (dist_inj hb hj hi he)
  by_cases hend : dist t.capacity b i + 1 < t.capacity
  · rw [dist_next t hb hi hend] at hlt
    omega
  · omega

theorem dist_succ_lt {b i z : Nat} (hb : b < t.capacity) (hi : i < t.capacity) (hz : z < t.capacity)
    (hempty : t.slot z = .empty) (hreach : t.Reach b i) (hne : t.slot i ≠ .empty) :
    dist t.capacity b i + 1 < t.capacity := by
  have hdz := dist_lt hb hz
  by_contra hlast
  have hzi : dist t.capacity b z ≠ dist t.capacity b i := by
    intro he
    rw [dist_inj hb hz hi he] at hempty
    exact hne hempty
  exact hreach z hz (by omega) hempty

/-! ## Lookup -/

theorem findFrom_sound {p : α → Bool} {fuel i : Nat} {a : α} (hi : i < t.capacity)
    (h : t.findFrom p fuel i = some a) : p a = true ∧ ∃ j < t.capacity, t.slot j = .full a := by
  induction fuel generalizing i with
  | zero => cases h
  | succ fuel ih =>
    rw [findFrom] at h
    cases hs : t.slot i with
    | empty => simp [hs] at h
    | deleted => rw [hs] at h; exact ih (next_lt t hi) h
    | full b =>
      simp only [hs] at h
      split_ifs at h with hp
      · cases h; exact ⟨hp, i, hi, hs⟩
      · exact ih (next_lt t hi) h

theorem findFrom_complete {p : α → Bool} {b j : Nat} {a : α} (hb : b < t.capacity) (hj : j < t.capacity)
    (hslot : t.slot j = .full a) (hp : p a = true) (hreach : t.Reach b j) (fuel i : Nat) (hi : i < t.capacity)
    (hle : dist t.capacity b i ≤ dist t.capacity b j) (hfuel : dist t.capacity b i + fuel = t.capacity) :
    (t.findFrom p fuel i).isSome := by
  have hdj := dist_lt hb hj
  induction fuel generalizing i with
  | zero => omega
  | succ fuel ih =>
    by_cases hij : i = j
    · subst hij; simp [findFrom, hslot, hp]
    have hlt : dist t.capacity b i < dist t.capacity b j :=
      lt_of_le_of_ne hle fun he => hij (dist_inj hb hi hj he)
    have hstep := dist_next t hb hi (by omega)
    have hrest := ih (t.next i) (next_lt t hi) (by omega) (by omega)
    have hne := hreach i hi hlt
    rw [findFrom]
    cases hs : t.slot i with
    | empty => exact absurd hs hne
    | deleted => exact hrest
    | full c =>
      simp only
      split_ifs
      · rfl
      · exact hrest

theorem Holds.find_isSome (h : t.Holds home S) {p : α → Bool} {a : α} (ha : a ∈ S) (hp : p a = true) :
    (t.findFrom p t.capacity (home a)).isSome := by
  obtain ⟨j, hj, hslot⟩ := h.placed a ha
  have hb := h.home_lt a ha
  exact findFrom_complete hb hj hslot hp (h.reach j hj a hslot) t.capacity (home a) hb
    (by rw [dist_self]; omega) (by rw [dist_self]; omega)

theorem Holds.mem_of_find (h : t.Holds home S) {p : α → Bool} {fuel b : Nat} (hb : b < t.capacity) {a : α}
    (hfind : t.findFrom p fuel b = some a) : p a = true ∧ a ∈ S := by
  obtain ⟨hp, j, hj, hslot⟩ := findFrom_sound hb hfind
  exact ⟨hp, h.mem j hj a hslot⟩

theorem Holds.find_eq_some (h : t.Holds home S) {p : α → Bool} {a : α} (ha : a ∈ S) (hp : p a = true)
    (huniq : ∀ b ∈ S, p b = true → b = a) : t.findFrom p t.capacity (home a) = some a := by
  obtain ⟨c, hc⟩ := Option.isSome_iff_exists.mp (h.find_isSome ha hp)
  obtain ⟨hpc, hmem⟩ := h.mem_of_find (h.home_lt a ha) hc
  rw [hc, huniq c hmem hpc]

theorem Holds.find_eq_none (h : t.Holds home S) {p : α → Bool} (hno : ∀ a ∈ S, p a = false) (fuel : Nat) {b : Nat}
    (hb : b < t.capacity) : t.findFrom p fuel b = none := by
  rw [Option.eq_none_iff_forall_ne_some]
  intro a ha
  obtain ⟨hp, hmem⟩ := h.mem_of_find hb ha
  rw [hno a hmem] at hp
  cases hp

/-! ## Insertion -/

theorem insertSlot_spec {b z : Nat} (hb : b < t.capacity) (hz : z < t.capacity) (hempty : t.slot z = .empty)
    (fuel i : Nat) (tombstone : Option Nat) (hi : i < t.capacity) (hreach : t.Reach b i)
    (htomb : ∀ d ∈ tombstone, d < t.capacity ∧ t.slot d = .deleted ∧ t.Reach b d)
    (hfuel : dist t.capacity b i + fuel = t.capacity) :
    ∃ d used, t.insertSlot fuel i tombstone = some (d, used) ∧ d < t.capacity ∧
      t.slot d = (if used then .deleted else .empty) ∧ t.Reach b d := by
  have hdz := dist_lt hb hz
  induction fuel generalizing i tombstone with
  | zero =>
    have := dist_lt hb hi
    omega
  | succ fuel ih =>
    rw [insertSlot]
    cases hs : t.slot i with
    | empty =>
      cases tombstone with
      | none => exact ⟨i, false, rfl, hi, by simpa using hs, hreach⟩
      | some d =>
        obtain ⟨hd, hdel, hdr⟩ := htomb d rfl
        exact ⟨d, true, rfl, hd, by simpa using hdel, hdr⟩
    | full a =>
      have hstep := dist_next t hb hi (dist_succ_lt hb hi hz hempty hreach (by simp [hs]))
      exact ih (t.next i) tombstone (next_lt t hi) (reach_next hb hi hreach (by simp [hs])) htomb (by omega)
    | deleted =>
      have hstep := dist_next t hb hi (dist_succ_lt hb hi hz hempty hreach (by simp [hs]))
      apply ih (t.next i) _ (next_lt t hi) (reach_next hb hi hreach (by simp [hs])) _ (by omega)
      intro d hd
      cases tombstone with
      | none => cases hd; exact ⟨hi, hs, hreach⟩
      | some e => cases hd; exact htomb d rfl

theorem reach_home (b : Nat) : t.Reach b b := by
  intro j _ hlt
  rw [dist_self] at hlt
  omega

theorem insertSlot_of_empty {b : Nat} (hb : b < t.capacity) (hempty : ∃ z < t.capacity, t.slot z = .empty) :
    ∃ d used, t.insertSlot t.capacity b none = some (d, used) ∧ d < t.capacity ∧
      t.slot d = (if used then .deleted else .empty) ∧ t.Reach b d := by
  obtain ⟨z, hz, hempty⟩ := hempty
  exact insertSlot_spec hb hz hempty t.capacity b none hb (reach_home b) (by simp) (by rw [dist_self]; omega)

theorem openSlot_spec {b z : Nat} (hb : b < t.capacity) (hz : z < t.capacity) (hempty : t.slot z = .empty)
    (fuel i : Nat) (hi : i < t.capacity) (hreach : t.Reach b i) (hfuel : dist t.capacity b i + fuel = t.capacity) :
    ∃ d, t.openSlot fuel i = some d ∧ d < t.capacity ∧ (∀ a, t.slot d ≠ .full a) ∧ t.Reach b d := by
  induction fuel generalizing i with
  | zero =>
    have := dist_lt hb hi
    omega
  | succ fuel ih =>
    rw [openSlot]
    cases hs : t.slot i with
    | empty => exact ⟨i, rfl, hi, by simp [hs], hreach⟩
    | deleted => exact ⟨i, rfl, hi, by simp [hs], hreach⟩
    | full a =>
      have hstep := dist_next t hb hi (dist_succ_lt hb hi hz hempty hreach (by simp [hs]))
      exact ih (t.next i) (next_lt t hi) (reach_next hb hi hreach (by simp [hs])) (by omega)

theorem Reach.set {b i d : Nat} {s : Slot α} (h : t.Reach b i) (hs : s ≠ .empty) : (t.set d s).Reach b i := by
  intro j hj hlt
  rw [set_slot]
  split_ifs
  · exact hs
  · exact h j hj hlt

theorem Holds.insert [DecidableEq α] (h : t.Holds home S) {a : α} {d : Nat} (ha : a ∉ S) (hd : d < t.capacity)
    (hfree : ∀ b, t.slot d ≠ .full b) (hhome : home a < t.capacity) (hreach : t.Reach (home a) d) :
    (t.set d (.full a)).Holds home (insert a S) := by
  have hold : ∀ i b, (t.set d (.full a)).slot i = .full b → (i = d ∧ b = a) ∨ (i ≠ d ∧ t.slot i = .full b) := by
    intro i b hb
    rw [set_slot] at hb
    split_ifs at hb with hid
    · cases hb; exact Or.inl ⟨hid, rfl⟩
    · exact Or.inr ⟨hid, hb⟩
  refine ⟨?_, ?_, ?_, ?_, ?_⟩
  · intro b hb
    rcases Finset.mem_insert.mp hb with rfl | hb
    · exact hhome
    · exact h.home_lt b hb
  · intro i hi b hb
    rcases hold i b hb with ⟨-, rfl⟩ | ⟨-, hb⟩
    · exact Finset.mem_insert_self _ _
    · exact Finset.mem_insert_of_mem (h.mem i hi b hb)
  · intro b hb
    rcases Finset.mem_insert.mp hb with rfl | hb
    · exact ⟨d, hd, by rw [set_slot, if_pos rfl]⟩
    · obtain ⟨i, hi, hslot⟩ := h.placed b hb
      have hid : i ≠ d := by rintro rfl; exact hfree b hslot
      exact ⟨i, hi, by rw [set_slot, if_neg hid, hslot]⟩
  · intro i hi j hj b hib hjb
    rcases hold i b hib with ⟨hid, hba⟩ | ⟨-, hib⟩ <;> rcases hold j b hjb with ⟨hjd, hba'⟩ | ⟨-, hjb⟩
    · rw [hid, hjd]
    · exact absurd (hba ▸ h.mem j hj b hjb) ha
    · exact absurd (hba' ▸ h.mem i hi b hib) ha
    · exact h.once i hi j hj b hib hjb
  · intro i hi b hb
    rcases hold i b hb with ⟨rfl, rfl⟩ | ⟨-, hb⟩
    · exact hreach.set (by simp)
    · exact (h.reach i hi b hb).set (by simp)

theorem deletedCount_set_full (a : α) {d : Nat} (hd : d < t.capacity) :
    (t.set d (.full a)).deletedCount = t.deletedCount - (if (t.slot d).isDeleted then 1 else 0) := by
  have hfilter : ((Finset.range t.capacity).filter fun i => ((t.set d (.full a)).slot i).isDeleted) =
      ((Finset.range t.capacity).filter fun i => (t.slot i).isDeleted).erase d := by
    ext i
    simp only [Finset.mem_filter, Finset.mem_erase, set_slot]
    by_cases hid : i = d
    · simp [hid, Slot.isDeleted]
    · simp [hid]
  rw [deletedCount, set_capacity, hfilter, deletedCount]
  split_ifs with hdel
  · exact Finset.card_erase_of_mem (Finset.mem_filter.mpr ⟨Finset.mem_range.mpr hd, hdel⟩)
  · have hnot : d ∉ (Finset.range t.capacity).filter fun i => (t.slot i).isDeleted := by simp [hdel]
    rw [Finset.erase_eq_of_notMem hnot, Nat.sub_zero]

theorem deletedCount_set_empty {d : Nat} (hne : t.slot d ≠ .deleted) :
    (t.set d .empty).deletedCount = t.deletedCount := by
  unfold deletedCount
  rw [set_capacity]
  congr 1
  apply Finset.filter_congr
  intro i _
  rw [set_slot]
  split_ifs with hid
  · subst hid
    cases hs : t.slot i with
    | deleted => exact absurd hs hne
    | empty => simp [Slot.isDeleted]
    | full a => simp [Slot.isDeleted]
  · rfl

/-! ## Refilling a new table -/

/-- Put the entries into the table in order. -/
def refill (home : α → Nat) : List α → Table α → Option (Table α)
  | [], t => some t
  | a :: rest, t =>
    match t.openSlot t.capacity (home a) with
    | none => none
    | some d => refill home rest (t.set d (.full a))

theorem refill_spec [DecidableEq α] (entries : List α) (h : t.Holds home S) (hdel : t.deletedCount = 0)
    (hnodup : entries.Nodup) (hnew : ∀ a ∈ entries, a ∉ S) (hhome : ∀ a ∈ entries, home a < t.capacity)
    (hload : S.card + entries.length < t.capacity) :
    ∃ t', refill home entries t = some t' ∧ t'.capacity = t.capacity ∧ t'.Holds home (S ∪ entries.toFinset) ∧
      t'.deletedCount = 0 := by
  induction entries generalizing t S with
  | nil => exact ⟨t, rfl, rfl, by simpa using h, hdel⟩
  | cons a entries ih =>
    simp only [List.length_cons] at hload
    obtain ⟨z, hz, hempty⟩ := exists_empty h (by omega)
    have hba := hhome a (by simp)
    obtain ⟨d, hopen, hd, hfree, hreach⟩ := openSlot_spec hba hz hempty t.capacity (home a) hba (reach_home _)
      (by rw [dist_self]; omega)
    have ha := hnew a (by simp)
    have hins := h.insert ha hd hfree hba hreach
    have hdel' : (t.set d (.full a)).deletedCount = 0 := by rw [deletedCount_set_full a hd, hdel, Nat.zero_sub]
    obtain ⟨hnot, hnodup⟩ := List.nodup_cons.mp hnodup
    obtain ⟨t', hrun, hcap, hholds, hdel''⟩ := ih hins hdel' hnodup
      (fun b hb hmem => by
        rcases Finset.mem_insert.mp hmem with rfl | hmem
        · exact hnot hb
        · exact hnew b (by simp [hb]) hmem)
      (fun b hb => hhome b (by simp [hb]))
      (by rw [Finset.card_insert_of_notMem ha]; simpa using by omega)
    refine ⟨t', by rw [refill, hopen]; exact hrun, by simpa using hcap, ?_, hdel''⟩
    rwa [List.toFinset_cons, Finset.union_insert, ← Finset.insert_union]

def entries (t : Table α) : List α := (List.range t.capacity).filterMap fun i => (t.slot i).entry

theorem mem_entries {a : α} : a ∈ t.entries ↔ ∃ i < t.capacity, t.slot i = .full a := by
  simp only [entries, List.mem_filterMap, List.mem_range, Slot.entry_eq_some]

theorem Holds.entries_toFinset [DecidableEq α] (h : t.Holds home S) : t.entries.toFinset = S := by
  ext a
  rw [List.mem_toFinset, mem_entries]
  exact ⟨fun ⟨i, hi, hs⟩ => h.mem i hi a hs, h.placed a⟩

theorem Holds.entries_nodup (h : t.Holds home S) : t.entries.Nodup := by
  rw [entries, List.Nodup, List.pairwise_filterMap]
  apply List.nodup_range.imp_of_mem
  intro i j hi hj hij a ha b hb hab
  rw [Slot.entry_eq_some] at ha hb
  exact hij (h.once i (List.mem_range.mp hi) j (List.mem_range.mp hj) a ha (hab ▸ hb))

theorem Holds.entries_length [DecidableEq α] (h : t.Holds home S) : t.entries.length = S.card := by
  rw [← h.entries_toFinset, List.toFinset_card_of_nodup h.entries_nodup]

/-! ## Deletion -/

theorem locate_spec [DecidableEq α] {b j : Nat} {a : α} (hb : b < t.capacity) (hj : j < t.capacity)
    (hslot : t.slot j = .full a) (hreach : t.Reach b j) (fuel i : Nat) (hi : i < t.capacity)
    (hle : dist t.capacity b i ≤ dist t.capacity b j) (hfuel : dist t.capacity b i + fuel = t.capacity)
    (honce : ∀ k < t.capacity, t.slot k = .full a → k = j) : t.locate a fuel i = some (some j) := by
  have hdj := dist_lt hb hj
  induction fuel generalizing i with
  | zero => omega
  | succ fuel ih =>
    rw [locate]
    by_cases hij : i = j
    · subst hij; simp [hslot]
    have hlt : dist t.capacity b i < dist t.capacity b j :=
      lt_of_le_of_ne hle fun he => hij (dist_inj hb hi hj he)
    have hstep := dist_next t hb hi (by omega)
    have hrest := ih (t.next i) (next_lt t hi) (by omega) (by omega)
    cases hs : t.slot i with
    | empty => exact absurd hs (hreach i hi hlt)
    | deleted => exact hrest
    | full c =>
      simp only
      rw [if_neg (fun hca : c = a => hij (honce i hi (hca ▸ hs)))]
      exact hrest

theorem locate_absent [DecidableEq α] {b z : Nat} {a : α} (hb : b < t.capacity) (hz : z < t.capacity)
    (hempty : t.slot z = .empty) (habsent : ∀ i < t.capacity, t.slot i ≠ .full a) (fuel i : Nat) (hi : i < t.capacity)
    (hreach : t.Reach b i) (hfuel : dist t.capacity b i + fuel = t.capacity) : t.locate a fuel i = some none := by
  induction fuel generalizing i with
  | zero =>
    have := dist_lt hb hi
    omega
  | succ fuel ih =>
    have hmore : t.slot i ≠ .empty → t.locate a fuel (t.next i) = some none := by
      intro hne
      have hstep := dist_next t hb hi (dist_succ_lt hb hi hz hempty hreach hne)
      exact ih (t.next i) (next_lt t hi) (reach_next hb hi hreach hne) (by omega)
    rw [locate]
    cases hs : t.slot i with
    | empty => rfl
    | deleted => exact hmore (by simp [hs])
    | full c =>
      simp only
      rw [if_neg fun hca : c = a => habsent i hi (hca ▸ hs)]
      exact hmore (by simp [hs])

theorem Holds.locate_eq [DecidableEq α] (h : t.Holds home S) {a : α} (ha : a ∈ S) :
    ∃ j < t.capacity, t.slot j = .full a ∧ t.locate a t.capacity (home a) = some (some j) := by
  obtain ⟨j, hj, hslot⟩ := h.placed a ha
  have hb := h.home_lt a ha
  exact ⟨j, hj, hslot, locate_spec hb hj hslot (h.reach j hj a hslot) t.capacity (home a) hb
    (by rw [dist_self]; omega) (by rw [dist_self]; omega) fun k hk hs => h.once k hk j hj a hs hslot⟩

/-- The state of the back-shift: the entry at the hole is gone, the others are in place, and only
entries from the cursor on can have the hole on their path. -/
structure Shifting (t : Table α) (home : α → Nat) (S : Finset α) (hole cursor : Nat) : Prop where
  hole_lt : hole < t.capacity
  cursor_lt : cursor < t.capacity
  ne : hole ≠ cursor
  hole_full : ∃ a, t.slot hole = .full a
  home_lt : ∀ a ∈ S, home a < t.capacity
  mem : ∀ i < t.capacity, i ≠ hole → ∀ a, t.slot i = .full a → a ∈ S
  placed : ∀ a ∈ S, ∃ i < t.capacity, i ≠ hole ∧ t.slot i = .full a
  once : ∀ i < t.capacity, ∀ j < t.capacity, i ≠ hole → j ≠ hole → ∀ a, t.slot i = .full a → t.slot j = .full a → i = j
  reach : ∀ i < t.capacity, i ≠ hole → ∀ a, t.slot i = .full a → t.Reach (home a) i
  passed : ∀ i < t.capacity, i ≠ hole → ∀ a, t.slot i = .full a →
    dist t.capacity (home a) hole < dist t.capacity (home a) i → dist t.capacity hole cursor ≤ dist t.capacity hole i
  filled : t.Reach hole cursor

theorem Shifting.start [DecidableEq α] (h : t.Holds home S) {a : α} {j : Nat} (hj : j < t.capacity)
    (hslot : t.slot j = .full a) (hn : 1 < t.capacity) : t.Shifting home (S.erase a) j (t.next j) := by
  have hnext := next_eq t hj
  have hone : ∀ i < t.capacity, i ≠ j → ∀ b, t.slot i = .full b → b ≠ a := by
    rintro i hi hij b hb rfl
    exact hij (h.once i hi j hj b hb hslot)
  have hdist : dist t.capacity j (t.next j) = 1 := by
    rw [hnext]; unfold dist; split_ifs <;> omega
  refine ⟨hj, next_lt t hj, ?_, ⟨a, hslot⟩, ?_, ?_, ?_, ?_, ?_, ?_, ?_⟩
  · rw [hnext]; split_ifs <;> omega
  · intro b hb; exact h.home_lt b (Finset.mem_of_mem_erase hb)
  · intro i hi hij b hb
    exact Finset.mem_erase.mpr ⟨hone i hi hij b hb, h.mem i hi b hb⟩
  · intro b hb
    obtain ⟨hba, hb⟩ := Finset.mem_erase.mp hb
    obtain ⟨i, hi, hs⟩ := h.placed b hb
    refine ⟨i, hi, ?_, hs⟩
    rintro rfl
    rw [hslot] at hs
    exact hba (Slot.full.inj hs).symm
  · intro i hi k hk _ _ b; exact h.once i hi k hk b
  · intro i hi _ b hb; exact h.reach i hi b hb
  · intro i hi hij _ _ _
    rw [hdist]
    have : dist t.capacity j i ≠ dist t.capacity j j := fun he => hij (dist_inj hj hi hj he)
    rw [dist_self] at this
    omega
  · intro i hi hlt
    rw [hdist] at hlt
    have hij : i = j := dist_inj hj hi hj (by rw [dist_self]; omega)
    rw [hij, hslot]; simp

theorem Shifting.finish {hole cursor : Nat} (h : t.Shifting home S hole cursor) (hempty : t.slot cursor = .empty) :
    (t.set hole .empty).Holds home S := by
  have hnot : ∀ i < t.capacity, i ≠ hole → ∀ a, t.slot i = .full a →
      ¬ dist t.capacity (home a) hole < dist t.capacity (home a) i := by
    intro i hi hne a hs hlt
    have hpass := h.passed i hi hne a hs hlt
    have hic : i ≠ cursor := by rintro rfl; rw [hempty] at hs; cases hs
    have hb := h.home_lt a (h.mem i hi hne a hs)
    have hh := h.hole_lt
    have hc := h.cursor_lt
    have hn := h.ne
    apply h.reach i hi hne a hs cursor hc _ hempty
    unfold dist at *
    split_ifs at * <;> omega
  have hold : ∀ i a, (t.set hole .empty).slot i = .full a → i ≠ hole ∧ t.slot i = .full a := by
    intro i a hs
    rw [set_slot] at hs
    split_ifs at hs with hi
    exact ⟨hi, hs⟩
  refine ⟨h.home_lt, ?_, ?_, ?_, ?_⟩
  · intro i hi a hs
    obtain ⟨hne, hs⟩ := hold i a hs
    exact h.mem i hi hne a hs
  · intro a ha
    obtain ⟨i, hi, hne, hs⟩ := h.placed a ha
    exact ⟨i, hi, by rw [set_slot, if_neg hne, hs]⟩
  · intro i hi j hj a his hjs
    obtain ⟨hine, his⟩ := hold i a his
    obtain ⟨hjne, hjs⟩ := hold j a hjs
    exact h.once i hi j hj hine hjne a his hjs
  · intro i hi a hs j hj hlt
    obtain ⟨hne, hs⟩ := hold i a hs
    rw [set_slot]
    split_ifs with hjh
    · exact absurd (hjh ▸ hlt) (hnot i hi hne a hs)
    · exact h.reach i hi hne a hs j hj hlt

/-- An entry with the hole on its path moves there and leaves a hole behind. -/
theorem Shifting.move {hole cursor : Nat} {a : α} (h : t.Shifting home S hole cursor)
    (hs : t.slot cursor = .full a) (hpath : dist t.capacity (home a) hole < dist t.capacity (home a) cursor)
    (hn : 1 < t.capacity) : (t.set hole (.full a)).Shifting home S cursor (t.next cursor) := by
  have hnext := next_eq t h.cursor_lt
  have hcur := h.cursor_lt
  have hne : ¬ cursor = hole := fun he => h.ne he.symm
  have haS := h.mem cursor hcur (Ne.symm h.ne) a hs
  have hdist : dist t.capacity cursor (t.next cursor) = 1 := by
    rw [hnext]; unfold dist; split_ifs <;> omega
  have hold : ∀ i b, (t.set hole (.full a)).slot i = .full b →
      (i = hole ∧ b = a) ∨ (i ≠ hole ∧ t.slot i = .full b) := by
    intro i b hb
    rw [set_slot] at hb
    split_ifs at hb with hi
    · exact Or.inl ⟨hi, (Slot.full.inj hb).symm⟩
    · exact Or.inr ⟨hi, hb⟩
  have hother : ∀ i < t.capacity, i ≠ hole → i ≠ cursor → ∀ b, t.slot i = .full b → b ≠ a := by
    rintro i hi hih hic b hb rfl
    exact hic (h.once i hi cursor hcur hih (Ne.symm h.ne) b hb hs)
  refine ⟨hcur, next_lt t hcur, ?_, ?_, h.home_lt, ?_, ?_, ?_, ?_, ?_, ?_⟩
  · rw [hnext]; split_ifs <;> omega
  · exact ⟨a, by rw [set_slot, if_neg hne, hs]⟩
  · intro i hi _ b hb
    rcases hold i b hb with ⟨-, rfl⟩ | ⟨hih, hb⟩
    · exact haS
    · exact h.mem i hi hih b hb
  · intro b hb
    obtain ⟨i, hi, hih, hib⟩ := h.placed b hb
    by_cases hic : i = cursor
    · subst hic
      rw [hs] at hib
      cases hib
      exact ⟨hole, h.hole_lt, h.ne, by rw [set_slot, if_pos rfl]⟩
    · exact ⟨i, hi, hic, by rw [set_slot, if_neg hih, hib]⟩
  · intro i hi j hj hic hjc b hib hjb
    rcases hold i b hib with ⟨hih, hba⟩ | ⟨hih, hib⟩ <;> rcases hold j b hjb with ⟨hjh, hba'⟩ | ⟨hjh, hjb⟩
    · rw [hih, hjh]
    · exact absurd hba (hother j hj hjh hjc b hjb)
    · exact absurd hba' (hother i hi hih hic b hib)
    · exact h.once i hi j hj hih hjh b hib hjb
  · intro i hi hic b hb
    apply Reach.set _ (by simp)
    rcases hold i b hb with ⟨rfl, rfl⟩ | ⟨hih, hb⟩
    · -- the path to the hole is the first part of the path to the cursor
      intro j hj hlt
      exact h.reach cursor hcur (Ne.symm h.ne) b hs j hj (lt_trans hlt hpath)
    · exact h.reach i hi hih b hb
  · intro i hi hic _ _ _
    have hpos : dist t.capacity cursor i ≠ dist t.capacity cursor cursor := fun he => hic (dist_inj hcur hi hcur he)
    rw [dist_self] at hpos
    show dist t.capacity cursor (t.next cursor) ≤ dist t.capacity cursor i
    omega
  · intro j hj hlt
    have hlt' : dist t.capacity cursor j < dist t.capacity cursor (t.next cursor) := hlt
    have hjc : j = cursor := dist_inj hcur hj hcur (by rw [dist_self]; omega)
    rw [hjc, set_slot, if_neg hne, hs]; simp

theorem Shifting.skip {hole cursor : Nat} (h : t.Shifting home S hole cursor) (hne : t.slot cursor ≠ .empty)
    (hstay : ∀ a, t.slot cursor = .full a →
      ¬ dist t.capacity (home a) hole < dist t.capacity (home a) cursor)
    (hend : dist t.capacity hole cursor + 1 < t.capacity) : t.Shifting home S hole (t.next cursor) := by
  have hstep := dist_next t h.hole_lt h.cursor_lt hend
  refine ⟨h.hole_lt, next_lt t h.cursor_lt, ?_, h.hole_full, h.home_lt, h.mem, h.placed, h.once, h.reach, ?_, ?_⟩
  · intro he
    rw [← he, dist_self] at hstep
    omega
  · intro i hi hih a hs hlt
    have hpass := h.passed i hi hih a hs hlt
    have hic : i ≠ cursor := by rintro rfl; exact hstay a hs hlt
    have : dist t.capacity hole i ≠ dist t.capacity hole cursor :=
      fun he => hic (dist_inj h.hole_lt hi h.cursor_lt he)
    omega
  · exact reach_next h.hole_lt h.cursor_lt h.filled hne

theorem backShift_spec [DecidableEq α] {z : Nat} (fuel : Nat) (t : Table α) (hole cursor : Nat)
    (hn : 1 < t.capacity) (hz : z < t.capacity) (hempty : t.slot z = .empty)
    (h : t.Shifting home S hole cursor) (hfuel : dist t.capacity cursor z < fuel) :
    ∃ t', backShift home fuel t hole cursor = some t' ∧ t'.capacity = t.capacity ∧ t'.Holds home S ∧
      t'.deletedCount = t.deletedCount := by
  induction fuel generalizing t hole cursor with
  | zero => omega
  | succ fuel ih =>
    rw [backShift]
    obtain ⟨b, hb⟩ := h.hole_full
    have hzh : z ≠ hole := by rintro rfl; rw [hb] at hempty; cases hempty
    have hnext := next_lt t h.cursor_lt
    have hnear : t.slot cursor ≠ .empty → dist t.capacity (t.next cursor) z < fuel := by
      intro hne
      have hcz : cursor ≠ z := by rintro rfl; exact hne hempty
      rw [next_eq t h.cursor_lt]
      have := h.cursor_lt
      unfold dist at *
      split_ifs at * <;> omega
    have hend : t.slot cursor ≠ .empty → dist t.capacity hole cursor + 1 < t.capacity :=
      dist_succ_lt h.hole_lt h.cursor_lt hz hempty h.filled
    cases hs : t.slot cursor with
    | empty =>
      exact ⟨_, rfl, rfl, h.finish hs, deletedCount_set_empty (by simp [hb])⟩
    | deleted =>
      exact ih t hole (t.next cursor) hn hz hempty (h.skip (by simp [hs]) (by simp [hs]) (hend (by simp [hs])))
        (hnear (by simp [hs]))
    | full a =>
      simp only
      split_ifs with hpath
      · obtain ⟨t', hrun, hcap, hholds, hdel⟩ := ih (t.set hole (.full a)) cursor (t.next cursor) hn hz
          (by rw [set_slot, if_neg hzh, hempty]) (h.move hs hpath hn) (hnear (by simp [hs]))
        refine ⟨t', hrun, hcap, hholds, ?_⟩
        rw [hdel, deletedCount_set_full a h.hole_lt, hb]
        rfl
      · apply ih t hole (t.next cursor) hn hz hempty (h.skip (by simp [hs]) _ (hend (by simp [hs])))
          (hnear (by simp [hs]))
        intro c hc
        rw [hs] at hc
        cases hc
        exact hpath

end UtreexoBridge.OpenAddressing.Table
