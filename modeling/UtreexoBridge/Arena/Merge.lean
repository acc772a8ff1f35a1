import UtreexoBridge.Arena.Scan

/-!
# What the merge of the runs visits

The queue holds one cursor for each run that has records left. All records
below `lower` have been visited, and the cursors cover the others.
-/

namespace UtreexoBridge

variable {H : Type} {runs : List (DeltaRun H)} {firstRun : Nat}

instance : Std.Total MergeCursor.before := ⟨fun x y => by unfold MergeCursor.before; omega⟩

instance : IsTrans MergeCursor MergeCursor.before := ⟨fun x y z => by unfold MergeCursor.before; omega⟩

theorem recordAt_sorted {ri j k : Nat} {x y : Nat × NodeRecord H} (hj : recordAt runs ri j = some x)
    (hk : recordAt runs ri k = some y) : (j < k ↔ x.1 < y.1) ∧ (j = k ↔ x.1 = y.1) := by
  unfold recordAt at hj hk
  obtain ⟨r, hr, hj⟩ := Option.bind_eq_some_iff.mp hj
  obtain ⟨r', hr', hk⟩ := Option.bind_eq_some_iff.mp hk
  rw [hr] at hr'
  cases hr'
  obtain ⟨hj', rfl⟩ := List.getElem?_eq_some_iff.mp hj
  obtain ⟨hk', rfl⟩ := List.getElem?_eq_some_iff.mp hk
  rcases Nat.lt_trichotomy j k with hlt | rfl | hgt
  · have := List.pairwise_iff_getElem.mp r.sorted j k hj' hk' hlt
    omega
  · omega
  · have := List.pairwise_iff_getElem.mp r.sorted k j hk' hj' hgt
    omega

theorem recordAt_succ_none {ri j k : Nat} {e : Nat × NodeRecord H} (h : recordAt runs ri (j + 1) = none)
    (hk : recordAt runs ri k = some e) : k ≤ j := by
  unfold recordAt at h hk
  obtain ⟨r, hr, hk⟩ := Option.bind_eq_some_iff.mp hk
  rw [hr, Option.bind_some, List.getElem?_eq_none_iff] at h
  have := (List.getElem?_eq_some_iff.mp hk).1
  omega

/-- The cursors in the queue, with the records from `lower` on still to come. -/
structure Pending (runs : List (DeltaRun H)) (firstRun lower : Nat) (pending : List MergeCursor) : Prop where
  sorted : pending.Pairwise MergeCursor.before
  valid : ∀ c ∈ pending, firstRun ≤ c.runIndex ∧ ∃ r, recordAt runs c.runIndex c.recordIndex = some (c.id, r)
  unique : (pending.map (·.runIndex)).Nodup
  cover : ∀ ri k e, firstRun ≤ ri → recordAt runs ri k = some e → lower ≤ e.1 →
    ∃ c ∈ pending, c.runIndex = ri ∧ c.recordIndex ≤ k

theorem Pending.head_le {lower : Nat} {c : MergeCursor} {rest : List MergeCursor}
    (h : Pending runs firstRun lower (c :: rest)) {ri k : Nat} {e : Nat × NodeRecord H} (hri : firstRun ≤ ri)
    (he : recordAt runs ri k = some e) (hlower : lower ≤ e.1) : c.id ≤ e.1 := by
  obtain ⟨d, hd, rfl, hk⟩ := h.cover ri k e hri he hlower
  obtain ⟨-, r, hr⟩ := h.valid d hd
  have hcd : c.id ≤ d.id := by
    rcases List.mem_cons.mp hd with rfl | hd
    · exact le_refl _
    · have := List.rel_of_pairwise_cons h.sorted hd
      unfold MergeCursor.before at this
      omega
  have := recordAt_sorted hr he
  simp only at this
  omega

/-- The newest occurrence of `id` among the popped ones. -/
structure Popped (runs : List (DeltaRun H)) (firstRun id : Nat) (pending : List MergeCursor)
    (newest : Option (Nat × NodeRecord H)) : Prop where
  found : ∀ n r, newest = some (n, r) → firstRun ≤ n ∧ ∃ k, recordAt runs n k = some (id, r)
  /-- An occurrence is still in the queue, or not newer than the newest one. -/
  all : ∀ ri k r, firstRun ≤ ri → recordAt runs ri k = some (id, r) →
    (∃ c ∈ pending, c.runIndex = ri ∧ c.id = id) ∨ ∃ n r', newest = some (n, r') ∧ ri ≤ n

theorem advanceCursor_perm (runs : List (DeltaRun H)) (c : MergeCursor) (rest : List MergeCursor) :
    advanceCursor runs c rest = rest ∧ recordAt runs c.runIndex (c.recordIndex + 1) = none ∨
      ∃ id r, recordAt runs c.runIndex (c.recordIndex + 1) = some (id, r) ∧
        (advanceCursor runs c rest).Perm (⟨id, c.runIndex, c.recordIndex + 1⟩ :: rest) := by
  unfold advanceCursor
  cases hnext : recordAt runs c.runIndex (c.recordIndex + 1) with
  | none => exact Or.inl ⟨rfl, rfl⟩
  | some e => exact Or.inr ⟨e.1, e.2, rfl, List.perm_orderedInsert _ _ _⟩

section Pop

variable {lower : Nat} {c : MergeCursor} {rest : List MergeCursor}

theorem Pending.advance (h : Pending runs firstRun lower (c :: rest)) (hid : c.id < lower) :
    Pending runs firstRun lower (advanceCursor runs c rest) := by
  obtain ⟨hfirst, r, hr⟩ := h.valid c (by simp)
  have hunique := h.unique
  rw [List.map_cons, List.nodup_cons] at hunique
  have hcover : ∀ ri k e, firstRun ≤ ri → recordAt runs ri k = some e → lower ≤ e.1 → ri ≠ c.runIndex →
      ∃ d ∈ rest, d.runIndex = ri ∧ d.recordIndex ≤ k := by
    intro ri k e hri he hlower hne
    obtain ⟨d, hd, hdri, hdk⟩ := h.cover ri k e hri he hlower
    rcases List.mem_cons.mp hd with rfl | hd
    · exact absurd hdri.symm hne
    · exact ⟨d, hd, hdri, hdk⟩
  have hbehind : ∀ k e, recordAt runs c.runIndex k = some e → lower ≤ e.1 → c.recordIndex + 1 ≤ k := by
    intro k e he hlower
    have := recordAt_sorted hr he
    simp only at this
    omega
  rcases advanceCursor_perm runs c rest with ⟨heq, hnone⟩ | ⟨id, r', hsome, hperm⟩
  · rw [heq]
    refine ⟨h.sorted.of_cons, fun d hd => h.valid d (by simp [hd]), hunique.2, fun ri k e hri he hlower => ?_⟩
    by_cases hc : ri = c.runIndex
    · subst hc
      have := recordAt_succ_none hnone he
      have := hbehind k e he hlower
      omega
    · exact hcover ri k e hri he hlower hc
  · refine ⟨?_, fun d hd => ?_, ?_, fun ri k e hri he hlower => ?_⟩
    · unfold advanceCursor
      rw [hsome]
      exact h.sorted.of_cons.orderedInsert _ _
    · rcases List.mem_cons.mp (hperm.mem_iff.mp hd) with rfl | hd
      · exact ⟨hfirst, r', hsome⟩
      · exact h.valid d (by simp [hd])
    · rw [(hperm.map (·.runIndex)).nodup_iff, List.map_cons, List.nodup_cons]
      exact hunique
    · by_cases hc : ri = c.runIndex
      · subst hc
        exact ⟨⟨id, c.runIndex, c.recordIndex + 1⟩, hperm.mem_iff.mpr (by simp), rfl, hbehind k e he hlower⟩
      · obtain ⟨d, hd, hdri, hdk⟩ := hcover ri k e hri he hlower hc
        exact ⟨d, hperm.mem_iff.mpr (by simp [hd]), hdri, hdk⟩

theorem Popped.advance {id : Nat} {newest : Option (Nat × NodeRecord H)} (h : Pending runs firstRun lower (c :: rest))
    (hpop : Popped runs firstRun id (c :: rest) newest) (hid : c.id = id) {r : NodeRecord H}
    (hr : recordAt runs c.runIndex c.recordIndex = some (id, r)) :
    Popped runs firstRun id (advanceCursor runs c rest) (newer newest c.runIndex r) := by
  have hnewer : ∃ n r', newer newest c.runIndex r = some (n, r') ∧ c.runIndex ≤ n ∧
      (∀ m r'', newest = some (m, r'') → m ≤ n) ∧ (n = c.runIndex ∧ r' = r ∨ newest = some (n, r')) := by
    cases newest with
    | none => exact ⟨c.runIndex, r, rfl, le_refl _, by simp, Or.inl ⟨rfl, rfl⟩⟩
    | some e =>
      obtain ⟨m, r''⟩ := e
      unfold newer
      simp only
      split_ifs with hgt
      · refine ⟨_, _, rfl, le_refl _, ?_, Or.inl ⟨rfl, rfl⟩⟩
        rintro m' r' hm
        cases hm
        omega
      · refine ⟨_, _, rfl, by omega, ?_, Or.inr rfl⟩
        rintro m' r' hm
        cases hm
        exact le_refl _
  obtain ⟨n, r', hn, hcn, hle, hcase⟩ := hnewer
  rw [hn]
  refine ⟨?_, fun ri k r'' hri he => ?_⟩
  · rintro n' r'' hsome
    cases hsome
    rcases hcase with ⟨rfl, rfl⟩ | hold
    · exact ⟨(h.valid c (by simp)).1, _, hr⟩
    · exact hpop.found _ _ hold
  · rcases hpop.all ri k r'' hri he with ⟨d, hd, hdri, hdid⟩ | ⟨m, r0, hm, hrm⟩
    · rcases List.mem_cons.mp hd with rfl | hd
      · exact Or.inr ⟨n, r', rfl, by omega⟩
      · left
        refine ⟨d, ?_, hdri, hdid⟩
        rcases advanceCursor_perm runs c rest with ⟨heq, -⟩ | ⟨_, _, -, hperm⟩
        · rw [heq]; exact hd
        · exact hperm.mem_iff.mpr (by simp [hd])
    · exact Or.inr ⟨n, r', rfl, by have := hle m r0 hm; omega⟩

/-- Popping `id`: afterwards no cursor has it, and the newest occurrence is known. -/
theorem popId_spec (id fuel : Nat) (newest : Option (Nat × NodeRecord H)) (pending : List MergeCursor)
    (hpend : Pending runs firstRun (id + 1) pending) (hpop : Popped runs firstRun id pending newest)
    (hge : ∀ d ∈ pending, id ≤ d.id) (hfuel : pending.countP (·.id = id) < fuel) :
    Pending runs firstRun (id + 1) (popId runs id fuel newest pending).2 ∧
      Popped runs firstRun id (popId runs id fuel newest pending).2 (popId runs id fuel newest pending).1 ∧
      ∀ d ∈ (popId runs id fuel newest pending).2, id < d.id := by
  induction fuel generalizing newest pending with
  | zero => omega
  | succ fuel ih =>
    cases pending with
    | nil => exact ⟨hpend, hpop, by simp [popId]⟩
    | cons c rest =>
      rw [popId]
      by_cases hid : c.id = id
      · obtain ⟨-, r, hr⟩ := hpend.valid c (by simp)
        rw [hid] at hr
        simp only [if_pos hid, hr]
        have hnext : ∀ id' r', recordAt runs c.runIndex (c.recordIndex + 1) = some (id', r') → id < id' := by
          intro id' r' hnext
          have := recordAt_sorted hr hnext
          simp only at this
          omega
        apply ih _ _ (hpend.advance (by omega)) (Popped.advance hpend hpop hid hr)
        · intro d hd
          rcases advanceCursor_perm runs c rest with ⟨heq, -⟩ | ⟨id', r', hsome, hperm⟩
          · rw [heq] at hd
            exact hge d (by simp [hd])
          · rcases List.mem_cons.mp (hperm.mem_iff.mp hd) with rfl | hd
            · exact le_of_lt (hnext _ _ hsome)
            · exact hge d (by simp [hd])
        · have hcount : (advanceCursor runs c rest).countP (·.id = id) = rest.countP (·.id = id) := by
            rcases advanceCursor_perm runs c rest with ⟨heq, -⟩ | ⟨id', r', hsome, hperm⟩
            · rw [heq]
            · have := hnext _ _ hsome
              rw [hperm.countP_eq, List.countP_cons_of_neg (by simp; omega)]
          rw [List.countP_cons_of_pos (by simp [hid])] at hfuel
          omega
      · simp only [if_neg hid]
        refine ⟨hpend, hpop, fun d hd => ?_⟩
        have hc := hge c (by simp)
        rcases List.mem_cons.mp hd with rfl | hd
        · omega
        · have := List.rel_of_pairwise_cons hpend.sorted hd
          unfold MergeCursor.before at this
          omega

end Pop

/-! ## The visited records -/

/-- Record `r` at `id` in the newest run that has the id, among the runs from `firstRun` on. -/
def Latest (runs : List (DeltaRun H)) (firstRun id : Nat) (r : NodeRecord H) : Prop :=
  ∃ n, firstRun ≤ n ∧ (∃ k, recordAt runs n k = some (id, r)) ∧
    ∀ ri k r', firstRun ≤ ri → recordAt runs ri k = some (id, r') → ri ≤ n

theorem Latest.unique {id : Nat} {r r' : NodeRecord H} (h : Latest runs firstRun id r)
    (h' : Latest runs firstRun id r') : r = r' := by
  obtain ⟨n, hn, ⟨k, hk⟩, hmax⟩ := h
  obtain ⟨n', hn', ⟨k', hk'⟩, hmax'⟩ := h'
  obtain rfl : n = n' := by
    have := hmax _ _ _ hn' hk'
    have := hmax' _ _ _ hn hk
    omega
  obtain rfl : k = k' := (recordAt_sorted hk hk').2.mpr rfl
  rw [hk] at hk'
  cases hk'
  rfl

def runIds (runs : List (DeltaRun H)) : Finset Nat := (runs.flatMap (·.ids)).toFinset

theorem mem_runIds {ri k : Nat} {e : Nat × NodeRecord H} (h : recordAt runs ri k = some e) : e.1 ∈ runIds runs := by
  unfold recordAt at h
  obtain ⟨r, hr, he⟩ := Option.bind_eq_some_iff.mp h
  rw [runIds, List.mem_toFinset, List.mem_flatMap]
  exact ⟨r, List.mem_of_getElem? hr, List.mem_map.mpr ⟨e, List.mem_of_getElem? he, rfl⟩⟩

theorem mergeLoop_spec (fuel lower : Nat) (pending : List MergeCursor) (h : Pending runs firstRun lower pending)
    (hge : ∀ c ∈ pending, lower ≤ c.id) (hfuel : ((runIds runs).filter (lower ≤ ·)).card ≤ fuel) :
    (mergeLoop runs fuel pending).Pairwise (fun a b => a.1 < b.1) ∧
      ∀ id r, (id, r) ∈ mergeLoop runs fuel pending ↔ lower ≤ id ∧ Latest runs firstRun id r := by
  have hempty : pending = [] → ∀ id r, ¬ (lower ≤ id ∧ Latest runs firstRun id r) := by
    rintro rfl id r ⟨hid, n, hn, ⟨k, hk⟩, -⟩
    obtain ⟨c, hc, -⟩ := h.cover n k _ hn hk hid
    cases hc
  induction fuel generalizing lower pending with
  | zero =>
    have hnil : pending = [] := by
      by_contra hne
      obtain ⟨c, hc⟩ := List.exists_mem_of_ne_nil _ hne
      obtain ⟨-, r, hr⟩ := h.valid c hc
      have hmem : c.id ∈ (runIds runs).filter (lower ≤ ·) :=
        Finset.mem_filter.mpr ⟨mem_runIds hr, hge c hc⟩
      rw [Nat.le_zero, Finset.card_eq_zero] at hfuel
      rw [hfuel] at hmem
      cases hmem
    exact ⟨.nil, fun id r => by simpa [mergeLoop] using hempty hnil id r⟩
  | succ fuel ih =>
    cases pending with
    | nil => exact ⟨.nil, fun id r => by simpa [mergeLoop] using hempty rfl id r⟩
    | cons c rest =>
      obtain ⟨hcfirst, r0, hr0⟩ := h.valid c (by simp)
      have hclower := hge c (by simp)
      have hhead : ∀ d ∈ c :: rest, c.id ≤ d.id := by
        intro d hd
        rcases List.mem_cons.mp hd with rfl | hd
        · exact le_refl _
        · have := List.rel_of_pairwise_cons h.sorted hd
          unfold MergeCursor.before at this
          omega
      have hpend : Pending runs firstRun (c.id + 1) (c :: rest) :=
        ⟨h.sorted, h.valid, h.unique, fun ri k e hri he hle => h.cover ri k e hri he (by omega)⟩
      have hpop : Popped runs firstRun c.id (c :: rest) none := by
        refine ⟨by simp, fun ri k r hri he => Or.inl ?_⟩
        obtain ⟨d, hd, rfl, hdk⟩ := h.cover ri k _ hri he hclower
        obtain ⟨-, r', hr'⟩ := h.valid d hd
        have hsort := recordAt_sorted hr' he
        have := hhead d hd
        simp only at hsort
        exact ⟨d, hd, rfl, by omega⟩
      have hcount : (c :: rest).countP (·.id = c.id) < runs.length + 1 := by
        have hlen : (c :: rest).length ≤ runs.length := by
          rw [← List.length_map (f := (·.runIndex)), ← List.length_range (n := runs.length)]
          apply List.Subperm.length_le
          apply List.subperm_of_subset h.unique
          intro ri hri
          obtain ⟨d, hd, rfl⟩ := List.mem_map.mp hri
          obtain ⟨-, r, hr⟩ := h.valid d hd
          obtain ⟨run, hrun, -⟩ := Option.bind_eq_some_iff.mp hr
          exact List.mem_range.mpr (List.getElem?_eq_some_iff.mp hrun).1
        have := List.countP_le_length (p := fun d : MergeCursor => d.id = c.id) (l := c :: rest)
        omega
      obtain ⟨hpend', hpop', hgt⟩ := popId_spec c.id (runs.length + 1) none (c :: rest) hpend hpop hhead hcount
      rw [mergeLoop]
      obtain ⟨newest, pending', hpopped⟩ : ∃ newest pending', popId runs c.id (runs.length + 1) none (c :: rest) =
          (newest, pending') := ⟨_, _, rfl⟩
      rw [hpopped] at hpend' hpop' hgt
      simp only [hpopped]
      simp only at hpend' hpop' hgt
      -- the head itself was popped, so there is a newest occurrence
      obtain ⟨n, r, hnewest⟩ : ∃ n r, newest = some (n, r) := by
        rcases hpop'.all _ _ _ hcfirst hr0 with ⟨d, hd, -, hdid⟩ | ⟨n, r, hn, -⟩
        · have := hgt d hd
          omega
        · exact ⟨n, r, hn⟩
      subst hnewest
      obtain ⟨hn, k, hk⟩ := hpop'.found n r rfl
      have hlatest : Latest runs firstRun c.id r := by
        refine ⟨n, hn, ⟨k, hk⟩, fun ri k' r' hri he => ?_⟩
        rcases hpop'.all ri k' r' hri he with ⟨d, hd, -, hdid⟩ | ⟨n', r'', hn', hle⟩
        · have := hgt d hd
          omega
        · cases hn'
          exact hle
      have hcard : ((runIds runs).filter (c.id + 1 ≤ ·)).card ≤ fuel := by
        have hsub : (runIds runs).filter (c.id + 1 ≤ ·) ⊂ (runIds runs).filter (lower ≤ ·) := by
          refine Finset.ssubset_iff_subset_ne.mpr ⟨fun x hx => ?_, fun heq => ?_⟩
          · rw [Finset.mem_filter] at hx ⊢
            exact ⟨hx.1, by omega⟩
          · have hmem : c.id ∈ (runIds runs).filter (lower ≤ ·) := Finset.mem_filter.mpr ⟨mem_runIds hr0, hclower⟩
            rw [← heq, Finset.mem_filter] at hmem
            omega
        have := Finset.card_lt_card hsub
        omega
      have hempty' : pending' = [] → ∀ id r, ¬ (c.id + 1 ≤ id ∧ Latest runs firstRun id r) := by
        rintro rfl id r ⟨hid, n, hn, ⟨k, hk⟩, -⟩
        obtain ⟨d, hd, -⟩ := hpend'.cover n k _ hn hk hid
        cases hd
      obtain ⟨hsorted, hmem⟩ := ih (c.id + 1) pending' hpend' (fun d hd => hgt d hd) hcard hempty'
      refine ⟨List.pairwise_cons.mpr ⟨fun e he => ?_, hsorted⟩, fun id r' => ?_⟩
      · have := ((hmem e.1 e.2).mp he).1
        simp only
        omega
      · rw [List.mem_cons, hmem, Prod.mk.injEq]
        constructor
        · rintro (⟨rfl, rfl⟩ | ⟨hle, hl⟩)
          · exact ⟨hclower, hlatest⟩
          · exact ⟨by omega, hl⟩
        · rintro ⟨hle, hl⟩
          obtain ⟨n', hn', ⟨k', hk'⟩, hmax⟩ := hl
          have hcid := h.head_le hn' hk' hle
          simp only at hcid
          rcases Nat.eq_or_lt_of_le hcid with heq | hlt
          · subst heq
            exact Or.inl ⟨rfl, Latest.unique ⟨n', hn', ⟨k', hk'⟩, hmax⟩ hlatest⟩
          · exact Or.inr ⟨hlt, n', hn', ⟨k', hk'⟩, hmax⟩

/-! ## The start of the queue -/

/-- The first record of a run takes its place in the queue. -/
def pushHead (runs : List (DeltaRun H)) (pending : List MergeCursor) (runIndex : Nat) : List MergeCursor :=
  match recordAt runs runIndex 0 with
  | none => pending
  | some (id, _) => pending.orderedInsert MergeCursor.before ⟨id, runIndex, 0⟩

theorem mergeStart_eq (runs : List (DeltaRun H)) (firstRun : Nat) :
    mergeStart runs firstRun = ((List.range runs.length).drop firstRun).foldl (pushHead runs) [] := rfl

/-- In front of the runs at `indices`: sorted, one cursor for each run, all at first records. -/
structure Heads (runs : List (DeltaRun H)) (indices : List Nat) (pending : List MergeCursor) : Prop where
  sorted : pending.Pairwise MergeCursor.before
  unique : (pending.map (·.runIndex)).Nodup
  valid : ∀ c ∈ pending, c.runIndex ∉ indices ∧ c.recordIndex = 0 ∧ ∃ r, recordAt runs c.runIndex 0 = some (c.id, r)

theorem Heads.push_none {ri : Nat} {indices : List Nat} {pending : List MergeCursor}
    (h : Heads runs (ri :: indices) pending) (hrec : recordAt runs ri 0 = none) :
    pushHead runs pending ri = pending ∧ Heads runs indices pending := by
  refine ⟨?_, h.sorted, h.unique, fun c hc => ?_⟩
  · unfold pushHead
    rw [hrec]
  · obtain ⟨hnot, hrest⟩ := h.valid c hc
    exact ⟨fun hin => hnot (List.mem_cons_of_mem _ hin), hrest⟩

theorem Heads.push_some {ri id : Nat} {record : NodeRecord H} {indices : List Nat} {pending : List MergeCursor}
    (h : Heads runs (ri :: indices) pending) (hri : ri ∉ indices) (hrec : recordAt runs ri 0 = some (id, record)) :
    (pushHead runs pending ri).Perm (⟨id, ri, 0⟩ :: pending) ∧ Heads runs indices (pushHead runs pending ri) := by
  have hpush : pushHead runs pending ri = pending.orderedInsert MergeCursor.before ⟨id, ri, 0⟩ := by
    unfold pushHead
    rw [hrec]
  have hperm := List.perm_orderedInsert MergeCursor.before ⟨id, ri, 0⟩ pending
  rw [hpush]
  refine ⟨hperm, h.sorted.orderedInsert _ _, ?_, fun c hc => ?_⟩
  · rw [(hperm.map (·.runIndex)).nodup_iff, List.map_cons, List.nodup_cons]
    refine ⟨fun hin => ?_, h.unique⟩
    obtain ⟨d, hd, hdri⟩ := List.mem_map.mp hin
    exact (h.valid d hd).1 (by simp [hdri])
  · rcases List.mem_cons.mp (hperm.mem_iff.mp hc) with rfl | hc
    · exact ⟨hri, rfl, record, hrec⟩
    · obtain ⟨hnot, hrest⟩ := h.valid c hc
      exact ⟨fun hin => hnot (List.mem_cons_of_mem _ hin), hrest⟩

theorem Heads.foldl {indices : List Nat} {pending : List MergeCursor} (hnodup : indices.Nodup)
    (h : Heads runs indices pending) :
    Heads runs [] (indices.foldl (pushHead runs) pending) ∧
      (∀ c ∈ indices.foldl (pushHead runs) pending, c ∈ pending ∨ c.runIndex ∈ indices) ∧
      (∀ c ∈ pending, c ∈ indices.foldl (pushHead runs) pending) ∧
        ∀ ri ∈ indices, ∀ e, recordAt runs ri 0 = some e →
          ∃ c ∈ indices.foldl (pushHead runs) pending, c.runIndex = ri ∧ c.recordIndex = 0 := by
  induction indices generalizing pending with
  | nil => exact ⟨h, fun c hc => Or.inl hc, fun c hc => hc, fun ri hri => absurd hri List.not_mem_nil⟩
  | cons ri indices ih =>
    obtain ⟨hri, hnodup⟩ := List.nodup_cons.mp hnodup
    rw [List.foldl_cons]
    cases hrec : recordAt runs ri 0 with
    | none =>
      obtain ⟨hpush, h'⟩ := h.push_none hrec
      rw [hpush]
      obtain ⟨hheads, hfrom, hkeeps, hfinds⟩ := ih hnodup h'
      refine ⟨hheads, fun c hc => (hfrom c hc).imp_right (List.mem_cons_of_mem _), hkeeps, fun r hr e he => ?_⟩
      rcases List.mem_cons.mp hr with rfl | hr
      · rw [hrec] at he
        cases he
      · exact hfinds r hr e he
    | some e =>
      obtain ⟨id, record⟩ := e
      obtain ⟨hperm, h'⟩ := h.push_some hri hrec
      obtain ⟨hheads, hfrom, hkeeps, hfinds⟩ := ih hnodup h'
      refine ⟨hheads, fun c hc => ?_, fun c hc => hkeeps c (hperm.mem_iff.mpr (List.mem_cons_of_mem _ hc)),
        fun r hr e he => ?_⟩
      · rcases hfrom c hc with hin | hin
        · rcases List.mem_cons.mp (hperm.mem_iff.mp hin) with rfl | hin
          · exact Or.inr List.mem_cons_self
          · exact Or.inl hin
        · exact Or.inr (List.mem_cons_of_mem _ hin)
      · rcases List.mem_cons.mp hr with rfl | hr
        · exact ⟨_, hkeeps ⟨id, r, 0⟩ (hperm.mem_iff.mpr List.mem_cons_self), rfl, rfl⟩
        · exact hfinds r hr e he

theorem pending_start (runs : List (DeltaRun H)) (firstRun : Nat) :
    Pending runs firstRun 0 (mergeStart runs firstRun) := by
  have hdrop : ∀ ri, ri ∈ (List.range runs.length).drop firstRun ↔ firstRun ≤ ri ∧ ri < runs.length := by
    intro ri
    rw [List.mem_drop_iff_getElem]
    simp only [List.getElem_range, List.length_range]
    constructor
    · rintro ⟨i, hi, rfl⟩
      omega
    · rintro ⟨hle, hlt⟩
      exact ⟨ri - firstRun, by omega, by omega⟩
  have hstart : Heads runs ((List.range runs.length).drop firstRun) [] :=
    ⟨.nil, List.nodup_nil, fun c hc => absurd hc List.not_mem_nil⟩
  rw [mergeStart_eq]
  obtain ⟨hheads, hfrom, -, hfinds⟩ := hstart.foldl (List.nodup_range.sublist (List.drop_sublist _ _))
  refine ⟨hheads.sorted, fun c hc => ?_, hheads.unique, fun ri k e hri he _ => ?_⟩
  · obtain ⟨-, hzero, r, hr⟩ := hheads.valid c hc
    rw [hzero]
    exact ⟨((hdrop _).mp ((hfrom c hc).resolve_left List.not_mem_nil)).1, r, hr⟩
  · have hrun := he
    unfold recordAt at hrun
    obtain ⟨run, hget, hrec⟩ := Option.bind_eq_some_iff.mp hrun
    have hpos : 0 < run.records.length := by
      have := (List.getElem?_eq_some_iff.mp hrec).1
      omega
    have hzero : recordAt runs ri 0 = some run.records[0] := by
      unfold recordAt
      rw [hget, Option.bind_some, List.getElem?_eq_getElem hpos]
    obtain ⟨c, hc, hcri, hczero⟩ := hfinds ri ((hdrop ri).mpr ⟨hri, (List.getElem?_eq_some_iff.mp hget).1⟩) _ hzero
    exact ⟨c, hc, hcri, by omega⟩

theorem card_runIds_le (runs : List (DeltaRun H)) : (runIds runs).card ≤ (runs.map (·.records.length)).sum := by
  refine (List.toFinset_card_le _).trans (le_of_eq ?_)
  rw [List.length_flatMap]
  simp [DeltaRun.ids]

namespace NodeArena

variable (a : NodeArena H)

/-- The merge visits ids in ascending order, each once, with the record of the newest run. -/
theorem latestDeltaRecordsFrom_spec (firstRun : Nat) :
    (a.latestDeltaRecordsFrom firstRun).Pairwise (fun x y => x.1 < y.1) ∧
      ∀ id r, (id, r) ∈ a.latestDeltaRecordsFrom firstRun ↔ id < a.next ∧ Latest a.deltaRuns firstRun id r := by
  obtain ⟨hsorted, hmem⟩ := mergeLoop_spec (a.deltaRuns.map (·.records.length)).sum 0 (mergeStart a.deltaRuns firstRun)
    (pending_start a.deltaRuns firstRun) (fun c _ => Nat.zero_le _)
    ((Finset.card_le_card (Finset.filter_subset _ _)).trans (card_runIds_le _))
  refine ⟨hsorted.sublist List.filter_sublist, fun id r => ?_⟩
  unfold latestDeltaRecordsFrom
  rw [List.mem_filter, hmem]
  simp only [Nat.zero_le, true_and, decide_eq_true_eq]
  exact And.comm

variable {a}

theorem latest_iff_findDeltaRecord (id : Nat) (r : NodeRecord H) :
    Latest a.deltaRuns 0 id r ↔ a.findDeltaRecord id = some r := by
  have hat : ∀ n r, (∃ k, recordAt a.deltaRuns n k = some (id, r)) ↔ ∃ run, a.deltaRuns[n]? = some run ∧ run.find id = some r := by
    intro n r
    unfold recordAt
    constructor
    · rintro ⟨k, hk⟩
      obtain ⟨run, hrun, hrec⟩ := Option.bind_eq_some_iff.mp hk
      exact ⟨run, hrun, run.find_eq_some_iff.mpr (List.mem_of_getElem? hrec)⟩
    · rintro ⟨run, hrun, hfind⟩
      obtain ⟨k, hk⟩ := List.mem_iff_getElem?.mp (run.find_eq_some_iff.mp hfind)
      exact ⟨k, by rw [hrun, Option.bind_some, hk]⟩
  unfold findDeltaRecord
  rw [List.findSome?_eq_some_iff]
  constructor
  · rintro ⟨n, -, hn, hmax⟩
    obtain ⟨run, hrun, hfind⟩ := (hat n r).mp hn
    have hlt := (List.getElem?_eq_some_iff.mp hrun).1
    have hsplit : a.deltaRuns = a.deltaRuns.take n ++ run :: a.deltaRuns.drop (n + 1) := by
      rw [← (List.getElem?_eq_some_iff.mp hrun).2, List.cons_getElem_drop_succ, List.take_append_drop]
    refine ⟨(a.deltaRuns.drop (n + 1)).reverse, run, (a.deltaRuns.take n).reverse, ?_, hfind, fun x hx => ?_⟩
    · conv_lhs => rw [hsplit]
      simp
    · obtain ⟨i, hi⟩ := List.mem_iff_getElem?.mp (List.mem_reverse.mp hx)
      rw [List.getElem?_drop] at hi
      by_contra hne
      obtain ⟨r', hr'⟩ := Option.ne_none_iff_exists'.mp hne
      obtain ⟨k, hk⟩ := (hat (n + 1 + i) r').mpr ⟨x, hi, hr'⟩
      have := hmax _ _ _ (Nat.zero_le _) hk
      omega
  · rintro ⟨later, run, earlier, hsplit, hfind, hnone⟩
    have hruns : a.deltaRuns = earlier.reverse ++ run :: later.reverse := by
      rw [← List.reverse_reverse a.deltaRuns, hsplit]
      simp
    refine ⟨earlier.length, Nat.zero_le _, (hat _ r).mpr ⟨run, ?_, hfind⟩, fun ri k r' _ hk => ?_⟩
    · rw [hruns, List.getElem?_append_right (by simp)]
      simp
    · by_contra hgt
      obtain ⟨x, hx, hfindx⟩ := (hat ri r').mp ⟨k, hk⟩
      rw [hruns, List.getElem?_append_right (by simp; omega), List.getElem?_cons, if_neg (by simp; omega)] at hx
      rw [hnone x (List.mem_reverse.mp (List.mem_of_getElem? hx))] at hfindx
      cases hfindx

theorem mem_latestDeltaRecords {id : Nat} {r : NodeRecord H} :
    (id, r) ∈ a.latestDeltaRecords ↔ id < a.next ∧ a.findDeltaRecord id = some r := by
  unfold latestDeltaRecords
  rw [(a.latestDeltaRecordsFrom_spec 0).2, latest_iff_findDeltaRecord]

end NodeArena

end UtreexoBridge
