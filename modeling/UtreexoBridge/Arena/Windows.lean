import UtreexoBridge.Arena.Scan
import UtreexoBridge.Position.Rows

/-!
# What the windowed scan reads

A cursor that used up its run keeps its position but has count 0. It is only
harmless while the array behind the position still holds default records, so a
run of 128 records or more must last until the last window.
-/

namespace UtreexoBridge

variable {H : Type} [ForestHash H] {run : List (Nat × NodeRecord H)} {done first stop : Nat} {c : WindowCursor H}

/-! ## Cursors -/

/-- The cursor has taken `done` records, and its array holds what the last two blocks left there. -/
structure CursorAt (run : List (Nat × NodeRecord H)) (done : Nat) (c : WindowCursor H) : Prop where
  position_le : c.position ≤ c.count
  count_le : c.count ≤ c.next
  next_le : c.next ≤ run.length
  done_eq : done = c.next - c.count + c.position
  full : c.count = cursorRecords ∨ c.next = run.length ∨ c.next = 0
  loaded : c.count = 0 → c.next = 0
  length_eq : c.records.length = cursorRecords
  block : ∀ j < c.count, c.records[j]? = run[c.next - c.count + j]?
  count_le_size : c.count ≤ cursorRecords
  first_block : c.next = c.count → ∀ j, c.count ≤ j → j < cursorRecords → c.records[j]? = some (noNode, .blank)
  later_block : c.next ≠ c.count → cursorRecords ≤ c.next - c.count ∧
    ∀ j, c.count ≤ j → j < cursorRecords → c.records[j]? = run[c.next - c.count - cursorRecords + j]?

structure CursorDone (run : List (Nat × NodeRecord H)) (c : WindowCursor H) : Prop where
  count_eq : c.count = 0
  position_ne : c.position ≠ 0
  short : run.length < cursorRecords → c.records[c.position]? = some (noNode, .blank)
  long : cursorRecords ≤ run.length → ∀ e, c.records[c.position]? = some e → e ∈ run

theorem cursorAt_new (run : List (Nat × NodeRecord H)) : CursorAt run 0 (.new : WindowCursor H) where
  position_le := le_refl _
  count_le := le_refl _
  next_le := Nat.zero_le _
  done_eq := rfl
  full := Or.inr (Or.inr rfl)
  loaded _ := rfl
  length_eq := List.length_replicate
  block j hj := absurd hj (Nat.not_lt_zero j)
  count_le_size := Nat.zero_le _
  first_block _ j _ hj := by simp [WindowCursor.new, hj]
  later_block h := absurd rfl h

theorem CursorAt.load (h : CursorAt run done c) (hdone : done < run.length) :
    ∃ c', (if c.position = c.count then c.refill run else some c) = some c' ∧ CursorAt run done c' ∧
      c'.position < c'.count := by
  have hd := h.done_eq
  have hpos := h.position_le
  have hcount := h.count_le
  by_cases hend : c.position = c.count
  · rw [if_pos hend]
    have hnext : c.next = done := by omega
    have hmin : min cursorRecords (run.length - c.next) ≠ 0 := by unfold cursorRecords; omega
    unfold WindowCursor.refill
    simp only [if_neg hmin]
    refine ⟨_, rfl, ?_, ?_⟩
    · have hlen : ((run.drop c.next).take (min cursorRecords (run.length - c.next))).length =
          min cursorRecords (run.length - c.next) := by
        rw [List.length_take, List.length_drop]
        omega
      have hstale : ∀ j, min cursorRecords (run.length - c.next) ≤ j →
          ((run.drop c.next).take (min cursorRecords (run.length - c.next)) ++
            c.records.drop (min cursorRecords (run.length - c.next)))[j]? = c.records[j]? := by
        intro j hj
        rw [List.getElem?_append_right (by omega), List.getElem?_drop, hlen]
        congr 1
        omega
      have h128 : (cursorRecords : Nat) = 128 := rfl
      refine ⟨by simp, by simp, by simp only; omega, by simp only; omega, ?_, by simp only; omega, ?_, ?_, by simp only; omega, ?_, ?_⟩
      · simp only
        omega
      · rw [List.length_append, hlen, List.length_drop, h.length_eq]
        omega
      · intro j hj
        simp only at hj ⊢
        rw [List.getElem?_append_left (by omega), List.getElem?_take_of_lt hj, List.getElem?_drop]
        congr 1
        omega
      · intro heq j hj hjs
        simp only at heq hj ⊢
        rw [hstale j hj]
        exact h.first_block (by have := h.loaded; omega) j (by omega) hjs
      · intro hne
        simp only at hne ⊢
        have hfull : c.count = cursorRecords := by
          rcases h.full with hf | hf | hf
          · exact hf
          · omega
          · omega
        refine ⟨by omega, fun j hj hjs => ?_⟩
        rw [hstale j hj, h.block j (by omega)]
        exact congrArg (run[·]?) (by omega)
    · simp only
      omega
  · rw [if_neg hend]
    exact ⟨c, rfl, h, by omega⟩

theorem CursorAt.finish (h : CursorAt run run.length c) :
    (if c.position = c.count then c.refill run else some c) = none ∧
      (run = [] ∧ CursorAt run 0 { c with count := 0 } ∨ CursorDone run { c with count := 0 }) := by
  have hd := h.done_eq
  have hpos := h.position_le
  have hcount := h.count_le
  have hnext := h.next_le
  have h128 : (cursorRecords : Nat) = 128 := rfl
  have hend : c.position = c.count := by omega
  rw [if_pos hend]
  unfold WindowCursor.refill
  refine ⟨by rw [if_pos (by omega)], ?_⟩
  by_cases hnil : run = []
  · left
    subst hnil
    have hzero : c.next = 0 := by simpa using hnext
    refine ⟨rfl, by simp only; omega, by simp only; omega, by simp only; omega, by simp only; omega, Or.inr (Or.inr hzero),
      fun _ => hzero, h.length_eq, by simp, by simp only; omega, fun _ j _ hj => ?_, fun hne => absurd hzero hne⟩
    exact h.first_block (by omega) j (by omega) hj
  · right
    have hlen : 0 < run.length := List.length_pos_iff.mpr hnil
    have hk : c.count ≠ 0 := by have := h.loaded; omega
    refine ⟨rfl, by simp only; omega, fun hshort => ?_, fun hlong e he => ?_⟩
    · simp only
      rw [hend]
      have hsame : c.next = c.count := by
        by_contra hne
        have := (h.later_block hne).1
        omega
      exact h.first_block hsame c.count (le_refl _) (by omega)
    · simp only at he
      have hlt : c.position < cursorRecords := by
        have := (List.getElem?_eq_some_iff.mp he).1
        rwa [h.length_eq] at this
      have hne : c.next ≠ c.count := by omega
      obtain ⟨-, hstale⟩ := h.later_block hne
      rw [hstale _ (by omega) hlt] at he
      exact List.mem_of_getElem? he

/-! ## One run, one window -/

/-- The records before `done` are the ones below `first`. -/
structure Split (run : List (Nat × NodeRecord H)) (first done : Nat) : Prop where
  le : done ≤ run.length
  below : ∀ j e, j < done → run[j]? = some e → e.1 < first
  above : ∀ j e, done ≤ j → run[j]? = some e → first ≤ e.1

/-- The cursor of a run at the start of a window. -/
def CursorState (run : List (Nat × NodeRecord H)) (first : Nat) (c : WindowCursor H) : Prop :=
  ∃ done, Split run first done ∧ (CursorAt run done c ∧ (done < run.length ∨ run = []) ∨
    CursorDone run c ∧ done = run.length)

theorem cursorState_new (run : List (Nat × NodeRecord H)) : CursorState run 0 (.new : WindowCursor H) := by
  refine ⟨0, ⟨Nat.zero_le _, fun j e hj => absurd hj (Nat.not_lt_zero j), fun _ _ _ _ => Nat.zero_le _⟩,
    Or.inl ⟨cursorAt_new run, ?_⟩⟩
  by_cases h : run = []
  · exact Or.inr h
  · exact Or.inl (List.length_pos_iff.mpr h)

theorem windowSlot_of_le {id : Nat} (h : first ≤ id) : windowSlot id first = id - first := if_pos h

theorem windowSlot_of_lt {id : Nat} (h : id < first) : windowSlot id first = 2 ^ 64 - (first - id) :=
  if_neg (Nat.not_le_of_lt h)

omit [ForestHash H] in
theorem getElem?_unique (hsorted : run.Pairwise fun a b => a.1 < b.1) {j k : Nat} {x y : Nat × NodeRecord H}
    (hj : run[j]? = some x) (hk : run[k]? = some y) (h : x.1 = y.1) : j = k := by
  obtain ⟨hj', rfl⟩ := List.getElem?_eq_some_iff.mp hj
  obtain ⟨hk', rfl⟩ := List.getElem?_eq_some_iff.mp hk
  rcases Nat.lt_trichotomy j k with hlt | heq | hgt
  · have := List.pairwise_iff_getElem.mp hsorted j k hj' hk' hlt
    omega
  · exact heq
  · have := List.pairwise_iff_getElem.mp hsorted k j hk' hj' hgt
    omega

theorem drainRun_active (hsorted : run.Pairwise fun a b => a.1 < b.1) (fuel : Nat)
    (window : List (NodeRecord H)) (hwindow : window.length = stop - first) (hc : CursorAt run done c)
    (hbelow : ∀ j e, j < done → run[j]? = some e → e.1 < stop)
    (habove : ∀ j e, done ≤ j → run[j]? = some e → first ≤ e.1) (hle : done ≤ run.length)
    (hfuel : run.length - done < fuel) :
    ∃ c' window', drainRun run first stop fuel c window = .ok (c', window') ∧ CursorState run stop c' ∧
      window'.length = window.length ∧
      (∀ j id r, done ≤ j → run[j]? = some (id, r) → id < stop → window'[id - first]? = some r) ∧
      ∀ i, (∀ j e, done ≤ j → run[j]? = some e → e.1 ≠ first + i) → window'[i]? = window[i]? := by
  induction fuel generalizing done c window with
  | zero => omega
  | succ fuel ih =>
    rw [drainRun]
    rcases Nat.eq_or_lt_of_le hle with rfl | hlt
    · obtain ⟨hnone, hstate⟩ := hc.finish
      rw [hnone]
      refine ⟨_, _, rfl, ?_, rfl, ?_, fun _ _ => rfl⟩
      · rcases hstate with ⟨rfl, hstate⟩ | hstate
        · exact ⟨0, ⟨le_refl _, by simp, by simp⟩, Or.inl ⟨hstate, Or.inr rfl⟩⟩
        · refine ⟨run.length, ⟨le_refl _, hbelow, fun j e hj he => ?_⟩, Or.inr ⟨hstate, rfl⟩⟩
          have := (List.getElem?_eq_some_iff.mp he).1
          omega
      · intro j id r hj he
        have := (List.getElem?_eq_some_iff.mp he).1
        omega
    · obtain ⟨c1, hload, hc1, hpos⟩ := hc.load hlt
      rw [hload]
      have hd := hc1.done_eq
      have hrec : c1.records[c1.position]? = run[done]? := by rw [hc1.block _ hpos, hd]
      rw [List.getElem?_eq_getElem hlt] at hrec
      obtain ⟨⟨id, r⟩, hidr⟩ : ∃ e, run[done] = e := ⟨_, rfl⟩
      have hget : run[done]? = some (id, r) := by rw [List.getElem?_eq_getElem hlt, hidr]
      simp only [hrec, hidr]
      have hge : first ≤ id := habove done _ (le_refl _) hget
      by_cases hid : id ≥ stop
      · rw [if_pos hid]
        -- the record belongs to a later window, and so do those behind it
        have hlater : ∀ j e, done ≤ j → run[j]? = some e → stop ≤ e.1 := by
          intro j e hj he
          rcases Nat.eq_or_lt_of_le hj with rfl | hj
          · rw [hget] at he; cases he; exact hid
          · obtain ⟨hj', rfl⟩ := List.getElem?_eq_some_iff.mp he
            have := List.pairwise_iff_getElem.mp hsorted done j hlt hj' hj
            rw [hidr] at this
            simp only at this
            omega
        refine ⟨c1, window, rfl, ⟨done, ⟨hle, hbelow, hlater⟩, Or.inl ⟨hc1, Or.inl hlt⟩⟩, rfl, ?_, fun _ _ => rfl⟩
        intro j id' r' hj he hlt'
        have := hlater j _ hj he
        simp only at this
        omega
      · rw [if_neg hid]
        have hslot : windowSlot id first = id - first := windowSlot_of_le hge
        rw [putRecord, hslot, if_pos (by omega)]
        simp only
        have hc2 : CursorAt run (done + 1) { c1 with position := c1.position + 1 } :=
          ⟨hpos, hc1.count_le, hc1.next_le, by simp only; omega, hc1.full, hc1.loaded, hc1.length_eq, hc1.block,
            hc1.count_le_size, hc1.first_block, hc1.later_block⟩
        obtain ⟨c', window', hrun, hstate, hlen, hin, hout⟩ := ih (window.set (id - first) r) (by simpa using hwindow) hc2
          (fun j e hj he => by
            rcases Nat.lt_or_ge j done with hj' | hj'
            · exact hbelow j e hj' he
            · obtain rfl : j = done := by omega
              rw [hget] at he
              cases he
              exact Nat.lt_of_not_le hid)
          (fun j e hj he => habove j e (by omega) he) hlt (by omega)
        refine ⟨c', window', hrun, hstate, by simpa using hlen, ?_, ?_⟩
        · intro j id' r' hj he hlt'
          rcases Nat.eq_or_lt_of_le hj with rfl | hj
          · rw [hget] at he
            cases he
            rw [hout (id - first), List.getElem?_set_self (by omega)]
            intro k e hk he heq
            have := getElem?_unique hsorted he hget (by simp only; omega)
            omega
          · exact hin j id' r' hj he hlt'
        · intro i hi
          rw [hout i fun j e hj he => hi j e (by omega) he, List.getElem?_set_ne]
          intro heq
          exact hi done _ (le_refl _) hget (by simp only; omega)

theorem drainRun_done_short (hc : CursorDone run c) (hshort : run.length < cursorRecords) (hstop : stop ≤ noNode)
    (fuel : Nat) (window : List (NodeRecord H)) : drainRun run first stop (fuel + 1) c window = .ok (c, window) := by
  rw [drainRun, if_neg (by rw [hc.count_eq]; exact hc.position_ne)]
  simp only [hc.short hshort]
  rw [if_pos hstop]

/-- A finished cursor of a longer run reads past its array, or finds an old record and writes
before the window. -/
theorem drainRun_done_long (hc : CursorDone run c) (hlong : cursorRecords ≤ run.length)
    (hbelow : ∀ e ∈ run, e.1 < first) (hfirst : first < 2 ^ 63) (hstop : first ≤ stop) (fuel : Nat)
    (window : List (NodeRecord H)) (hwindow : window.length < 2 ^ 63) :
    drainRun run first stop (fuel + 1) c window = .error .outOfBounds := by
  rw [drainRun, if_neg (by rw [hc.count_eq]; exact hc.position_ne)]
  cases hget : c.records[c.position]? with
  | none => simp only [hget]
  | some e =>
    obtain ⟨id, r⟩ := e
    have hid : id < first := hbelow _ (hc.long hlong _ hget)
    simp only [hget]
    rw [if_neg (by omega), putRecord, windowSlot_of_lt hid, if_neg (by omega)]

/-- The run still has records at the start of the window, or it is short. -/
def Lasts (run : List (Nat × NodeRecord H)) (first : Nat) : Prop :=
  cursorRecords ≤ run.length → ∃ e ∈ run, first ≤ e.1

omit [ForestHash H] in
theorem Split.exists_above (h : Split run first done) : done < run.length ↔ ∃ e ∈ run, first ≤ e.1 := by
  constructor
  · intro hlt
    exact ⟨run[done], List.getElem_mem hlt, h.above done _ (le_refl _) (List.getElem?_eq_getElem hlt)⟩
  · rintro ⟨e, he, hge⟩
    obtain ⟨j, hj, rfl⟩ := List.getElem_of_mem he
    by_contra hdone
    have := h.below j _ (by have := h.le; omega) (List.getElem?_eq_getElem hj)
    omega

theorem drainRun_spec (r : DeltaRun H) (hstate : CursorState r.records first c) (hlasts : Lasts r.records first)
    (hle : first ≤ stop) (hstop : stop ≤ noNode) (window : List (NodeRecord H)) (hwindow : window.length = stop - first) :
    ∃ c' window', drainRun r.records first stop (r.records.length + 1) c window = .ok (c', window') ∧
      CursorState r.records stop c' ∧ window'.length = window.length ∧
      ∀ i < stop - first, window'[i]? = (r.find (first + i)).or window[i]? := by
  have hno : noNode < 2 ^ 63 := by decide
  obtain ⟨done, hsplit, ⟨hc, -⟩ | ⟨hc, rfl⟩⟩ := hstate
  · obtain ⟨c', window', hrun, hstate', hlen, hin, hout⟩ := drainRun_active r.sorted (r.records.length + 1)
      window hwindow hc (fun j e hj he => lt_of_lt_of_le (hsplit.below j e hj he) hle) hsplit.above hsplit.le (by omega)
    refine ⟨c', window', hrun, hstate', hlen, fun i hi => ?_⟩
    cases hfind : r.find (first + i) with
    | none =>
      rw [Option.none_or]
      apply hout
      intro j e _ he heq
      apply (r.find_eq_none_iff.mp hfind)
      exact List.mem_map.mpr ⟨e, List.mem_of_getElem? he, heq⟩
    | some rec =>
      rw [Option.some_or]
      obtain ⟨j, hj, hget⟩ := List.getElem_of_mem (r.find_eq_some_iff.mp hfind)
      have hget' : r.records[j]? = some (first + i, rec) := by rw [List.getElem?_eq_getElem hj, hget]
      have hdone : done ≤ j := by
        by_contra hlt
        have := hsplit.below j _ (by omega) hget'
        simp only at this
        omega
      have := hin j _ _ hdone hget' (by omega)
      rwa [Nat.add_sub_cancel_left] at this
  · have hshort : r.records.length < cursorRecords := by
      by_contra hlong
      exact absurd (hsplit.exists_above.mpr (hlasts (by omega))) (lt_irrefl _)
    refine ⟨c, window, drainRun_done_short hc hshort hstop _ _, ?_, rfl, fun i _ => ?_⟩
    · refine ⟨_, ⟨le_refl _, fun j e hj he => lt_of_lt_of_le (hsplit.below j e hj he) hle, fun j e hj he => ?_⟩,
        Or.inr ⟨hc, rfl⟩⟩
      have := (List.getElem?_eq_some_iff.mp he).1
      omega
    · have hnone : r.find (first + i) = none := by
        rw [r.find_eq_none_iff]
        intro hmem
        obtain ⟨e, he, heq⟩ := List.mem_map.mp hmem
        exact absurd (hsplit.exists_above.mpr ⟨e, he, by omega⟩) (lt_irrefl _)
      rw [hnone, Option.none_or]

theorem drainRun_broken (r : DeltaRun H) (hstate : CursorState r.records first c) (hlasts : ¬ Lasts r.records first)
    (hle : first ≤ stop) (hstop : stop ≤ noNode) (window : List (NodeRecord H)) (hwindow : window.length = stop - first) :
    drainRun r.records first stop (r.records.length + 1) c window = .error .outOfBounds := by
  have hno : noNode < 2 ^ 63 := by decide
  unfold Lasts at hlasts
  push Not at hlasts
  obtain ⟨hlong, hbelow⟩ := hlasts
  obtain ⟨done, hsplit, ⟨-, hactive⟩ | ⟨hc, rfl⟩⟩ := hstate
  · exfalso
    rcases hactive with hlt | hnil
    · obtain ⟨e, he, hge⟩ := hsplit.exists_above.mp hlt
      exact absurd (hbelow e he) (by omega)
    · rw [hnil] at hlong
      simp [cursorRecords] at hlong
  · exact drainRun_done_long hc hlong hbelow (by omega) hle _ _ (by omega)

/-! ## All runs, one window -/

/-- The newest of the runs' records at `id`, or else `base`. -/
def latestOr (runs : List (DeltaRun H)) (id : Nat) (base : Option (NodeRecord H)) : Option (NodeRecord H) :=
  runs.foldl (fun found r => (r.find id).or found) base

omit [ForestHash H] in
theorem latestOr_eq (runs : List (DeltaRun H)) (id : Nat) (base : Option (NodeRecord H)) :
    latestOr runs id base = (runs.reverse.findSome? (·.find id)).or base := by
  induction runs generalizing base with
  | nil => rfl
  | cons r runs ih =>
    rw [latestOr, List.foldl_cons, ← latestOr, ih, List.reverse_cons, List.findSome?_append]
    cases runs.reverse.findSome? (·.find id) with
    | some x => simp
    | none => cases h : r.find id <;> simp [h]

theorem drainRuns_spec (runs : List (DeltaRun H)) (cursors : List (WindowCursor H))
    (hstates : List.Forall₂ (fun r c => CursorState r.records first c) runs cursors)
    (hlasts : ∀ r ∈ runs, Lasts r.records first) (hle : first ≤ stop) (hstop : stop ≤ noNode)
    (window : List (NodeRecord H)) (hwindow : window.length = stop - first) :
    ∃ cursors' window', drainRuns first stop (runs.zip cursors) window = .ok (cursors', window') ∧
      List.Forall₂ (fun r c => CursorState r.records stop c) runs cursors' ∧ window'.length = window.length ∧
      ∀ i < stop - first, window'[i]? = latestOr runs (first + i) window[i]? := by
  induction hstates generalizing window with
  | nil => exact ⟨[], window, rfl, .nil, rfl, fun _ _ => rfl⟩
  | @cons r c runs cursors hr _ ih =>
    obtain ⟨c', window1, hrun, hstate, hlen1, hread1⟩ :=
      drainRun_spec r hr (hlasts r (by simp)) hle hstop window hwindow
    obtain ⟨cursors', window2, hruns, hstates', hlen2, hread2⟩ :=
      ih (fun s hs => hlasts s (by simp [hs])) window1 (by omega)
    refine ⟨c' :: cursors', window2, ?_, .cons hstate hstates', by omega, fun i hi => ?_⟩
    · rw [List.zip_cons_cons, drainRuns, hrun]
      simp only [hruns]
    · rw [hread2 i hi, hread1 i hi]
      rfl

theorem drainRuns_broken (runs : List (DeltaRun H)) (cursors : List (WindowCursor H))
    (hstates : List.Forall₂ (fun r c => CursorState r.records first c) runs cursors)
    (hlasts : ∃ r ∈ runs, ¬ Lasts r.records first) (hle : first ≤ stop) (hstop : stop ≤ noNode)
    (window : List (NodeRecord H)) (hwindow : window.length = stop - first) :
    drainRuns first stop (runs.zip cursors) window = .error .outOfBounds := by
  induction hstates generalizing window with
  | nil => obtain ⟨r, hr, -⟩ := hlasts; cases hr
  | @cons r c runs cursors hr _ ih =>
    rw [List.zip_cons_cons, drainRuns]
    by_cases hgood : Lasts r.records first
    · obtain ⟨c', window1, hrun, -, hlen1, -⟩ := drainRun_spec r hr hgood hle hstop window hwindow
      obtain ⟨s, hs, hbad⟩ := hlasts
      have hs' : s ∈ runs := by
        rcases List.mem_cons.mp hs with rfl | hs
        · exact absurd hgood hbad
        · exact hs
      simp only [hrun, ih ⟨s, hs', hbad⟩ window1 (by omega)]
    · simp only [drainRun_broken r hr hgood hle hstop window hwindow]

/-! ## Dirty records -/

omit [ForestHash H] in
theorem drainDirty_spec (dirty : Nat → NodeRecord H) (ids : List Nat) (hsorted : ids.Pairwise (· < ·))
    (hge : ∀ id ∈ ids, first ≤ id) (window : List (NodeRecord H)) (hwindow : window.length = stop - first) :
    ∃ ids' window', drainDirty dirty first stop ids window = .ok (ids', window') ∧ ids'.Pairwise (· < ·) ∧
      (∀ id, id ∈ ids' ↔ id ∈ ids ∧ stop ≤ id) ∧ window'.length = window.length ∧
      ∀ i < stop - first, window'[i]? = if first + i ∈ ids then some (dirty (first + i)) else window[i]? := by
  induction ids generalizing window with
  | nil => exact ⟨[], window, rfl, .nil, by simp, rfl, by simp⟩
  | cons id ids ih =>
    have hid := hge id (by simp)
    have hlater : ∀ x ∈ ids, id < x := fun x hx => List.rel_of_pairwise_cons hsorted hx
    rw [drainDirty]
    by_cases hlt : id < stop
    · rw [if_pos hlt, putRecord, windowSlot_of_le hid, if_pos (by omega)]
      obtain ⟨ids', window', hrun, hsorted', hmem, hlen, hread⟩ :=
        ih hsorted.of_cons (fun x hx => hge x (by simp [hx])) (window.set (id - first) (dirty id)) (by simpa using hwindow)
      refine ⟨ids', window', hrun, hsorted', fun x => ?_, by simpa using hlen, fun i hi => ?_⟩
      · rw [hmem, List.mem_cons]
        constructor
        · rintro ⟨hx, hxs⟩
          exact ⟨Or.inr hx, hxs⟩
        · rintro ⟨rfl | hx, hxs⟩
          · omega
          · exact ⟨hx, hxs⟩
      · rw [hread i hi]
        by_cases hin : first + i ∈ ids
        · rw [if_pos hin, if_pos (List.mem_cons_of_mem _ hin)]
        · rw [if_neg hin]
          by_cases heq : first + i = id
          · rw [if_pos (by simp [heq]), ← heq, Nat.add_sub_cancel_left, List.getElem?_set_self (by omega)]
          · rw [if_neg (by simp [heq, hin]), List.getElem?_set_ne (by omega)]
    · rw [if_neg hlt]
      refine ⟨id :: ids, window, rfl, hsorted, fun x => ?_, rfl, fun i hi => ?_⟩
      · constructor
        · intro hx
          refine ⟨hx, ?_⟩
          rcases List.mem_cons.mp hx with rfl | hx
          · omega
          · have := hlater x hx
            omega
        · exact fun hx => hx.1
      · rw [if_neg]
        intro hx
        rcases List.mem_cons.mp hx with heq | hx
        · omega
        · have := hlater _ hx
          omega

theorem mem_takeWhile_lt {ids : List Nat} (hsorted : ids.Pairwise (· < ·)) (bound id : Nat) :
    id ∈ ids.takeWhile (· < bound) ↔ id ∈ ids ∧ id < bound := by
  induction ids with
  | nil => simp
  | cons x ids ih =>
    have hlater : ∀ y ∈ ids, x < y := fun y hy => List.rel_of_pairwise_cons hsorted hy
    rw [List.takeWhile_cons]
    by_cases hx : x < bound
    · simp only [hx, decide_true, if_true, List.mem_cons, ih hsorted.of_cons]
      constructor
      · rintro (rfl | h)
        · exact ⟨Or.inl rfl, hx⟩
        · exact ⟨Or.inr h.1, h.2⟩
      · rintro ⟨rfl | h, hb⟩
        · exact Or.inl rfl
        · exact Or.inr ⟨h, hb⟩
    · simp only [hx, decide_false, Bool.false_eq_true, if_false, List.not_mem_nil, List.mem_cons, false_iff, not_and]
      rintro (rfl | h)
      · exact hx
      · have := hlater id h
        omega

namespace NodeArena

variable {a : NodeArena H}

omit [ForestHash H] in
theorem sortedDirtyIds_sorted (a : NodeArena H) : a.sortedDirtyIds.Pairwise (· < ·) := by
  unfold sortedDirtyIds
  exact (Std.ExtTreeMap.ordered_keys (t := a.dirty)).imp fun h => Nat.compare_eq_lt.mp h

omit [ForestHash H] in
theorem sortedVisibleDirtyIds_sorted (a : NodeArena H) : a.sortedVisibleDirtyIds.Pairwise (· < ·) :=
  a.sortedDirtyIds_sorted.sublist (List.takeWhile_sublist _)

omit [ForestHash H] in
theorem mem_sortedVisibleDirtyIds {id : Nat} : id ∈ a.sortedVisibleDirtyIds ↔ id ∈ a.dirty ∧ id < a.next := by
  unfold sortedVisibleDirtyIds
  rw [mem_takeWhile_lt a.sortedDirtyIds_sorted, sortedDirtyIds, Std.ExtTreeMap.mem_keys]

theorem dirtyRecord_eq {id : Nat} (h : id ∈ a.dirty) : a.dirty[id]? = some (a.dirtyRecord id) := by
  unfold dirtyRecord
  rw [Std.ExtTreeMap.getElem?_eq_some_getElem h]
  rfl

/-- What the code that opens a mapped arena checks: the base fits its files. -/
structure Mapped (a : NodeArena H) : Prop where
  mapped : a.mapped = true
  base_le : a.baseNext ≤ a.capacity
  next_le : a.next ≤ noNode

theorem read_eq_or (h : a.mapped = true) (id : Nat) :
    some (a.read id) = (a.dirty[id]?).or (latestOr a.deltaRuns id (some (a.readPhysicalBase id))) := by
  rw [latestOr_eq]
  unfold read findDeltaRecord
  rw [if_pos h]
  cases a.dirty[id]? with
  | some r => rfl
  | none => cases a.deltaRuns.reverse.findSome? (·.find id) <;> rfl

/-! ## One window -/

theorem base_window (h : a.Mapped) (first size : Nat) :
    ∃ window, (if first < a.baseNext then a.readRange first (min size (a.baseNext - first)) (List.replicate size .blank)
        else .ok (List.replicate size .blank)) = .ok window ∧ window.length = size ∧
      ∀ i < size, window[i]? = some (a.readPhysicalBase (first + i)) := by
  have hbase := h.base_le
  by_cases hlt : first < a.baseNext
  · rw [if_pos hlt, readRange, if_neg (by omega)]
    refine ⟨_, rfl, by simp, fun i hi => ?_⟩
    unfold readPhysicalBase
    by_cases hi' : first + i < a.baseNext
    · rw [List.getElem?_append_left (by simp; omega), if_neg (by omega), List.getElem?_map,
        List.getElem?_range (by omega)]
      rfl
    · rw [List.getElem?_append_right (by simp; omega), if_pos (by omega), List.length_map, List.length_range,
        List.getElem?_drop, List.getElem?_replicate, if_pos (by omega)]
  · rw [if_neg hlt]
    refine ⟨_, rfl, by simp, fun i hi => ?_⟩
    unfold readPhysicalBase
    rw [if_pos (by omega)]
    simp [hi]

/-- The state of the scan at the start of a window. -/
structure ScanAt (a : NodeArena H) (first : Nat) (cursors : List (WindowCursor H)) (dirty : List Nat) : Prop where
  cursors : List.Forall₂ (fun r c => CursorState r.records first c) a.deltaRuns cursors
  sorted : dirty.Pairwise (· < ·)
  dirty_iff : ∀ id, id ∈ dirty ↔ id ∈ a.sortedVisibleDirtyIds ∧ first ≤ id

theorem scanAt_start (a : NodeArena H) :
    a.ScanAt 0 (a.deltaRuns.map fun _ => .new) a.sortedVisibleDirtyIds := by
  refine ⟨?_, a.sortedVisibleDirtyIds_sorted, by simp⟩
  rw [List.forall₂_map_right_iff]
  exact List.forall₂_same.mpr fun r _ => cursorState_new r.records

theorem fillWindow_spec (h : a.Mapped) {first size : Nat} {cursors : List (WindowCursor H)} {dirty : List Nat}
    (hscan : a.ScanAt first cursors dirty) (hlasts : ∀ r ∈ a.deltaRuns, Lasts r.records first)
    (hend : first + size ≤ a.next) :
    ∃ cursors' dirty', a.fillWindow first size cursors dirty =
        .ok (.ok (cursors', dirty', (List.range size).map fun i => a.read (first + i))) ∧
      a.ScanAt (first + size) cursors' dirty' := by
  have hnext := h.next_le
  have hno : noNode < 2 ^ 63 := by decide
  obtain ⟨window0, hbase, hlen0, hread0⟩ := base_window h first size
  obtain ⟨cursors', window1, hruns, hstates, hlen1, hread1⟩ := drainRuns_spec a.deltaRuns cursors hscan.cursors hlasts
    (show first ≤ first + size by omega) (by omega) window0 (by omega)
  obtain ⟨dirty', window2, hdirty, hsorted, hmem, hlen2, hread2⟩ := drainDirty_spec a.dirtyRecord dirty hscan.sorted
    (fun id hid => ((hscan.dirty_iff id).mp hid).2) window1 (show window1.length = first + size - first by omega)
  have hwindow : window2 = (List.range size).map fun i => a.read (first + i) := by
    apply List.ext_getElem?
    intro i
    by_cases hi : i < size
    · rw [hread2 i (by omega), hread1 i (by omega), hread0 i hi]
      simp only [List.getElem?_map, List.getElem?_range hi, Option.map_some]
      rw [read_eq_or h.mapped]
      by_cases hd : first + i ∈ a.dirty
      · rw [if_pos ((hscan.dirty_iff _).mpr ⟨mem_sortedVisibleDirtyIds.mpr ⟨hd, by omega⟩, by omega⟩), dirtyRecord_eq hd,
          Option.some_or]
      · rw [if_neg fun hin => hd (mem_sortedVisibleDirtyIds.mp ((hscan.dirty_iff _).mp hin).1).1,
          Std.ExtTreeMap.getElem?_eq_none hd, Option.none_or]
    · rw [List.getElem?_eq_none (by omega), List.getElem?_eq_none (by simp; omega)]
  refine ⟨cursors', dirty', ?_, hstates, hsorted, fun id => ?_⟩
  · unfold fillWindow
    simp only [hbase, hruns, hdirty, hwindow]
  · rw [hmem, hscan.dirty_iff]
    constructor
    · rintro ⟨⟨hv, -⟩, hge⟩
      exact ⟨hv, hge⟩
    · rintro ⟨hv, hge⟩
      exact ⟨⟨hv, by omega⟩, hge⟩

theorem fillWindow_broken (h : a.Mapped) {first size : Nat} {cursors : List (WindowCursor H)} {dirty : List Nat}
    (hscan : a.ScanAt first cursors dirty) (hlasts : ∃ r ∈ a.deltaRuns, ¬ Lasts r.records first)
    (hend : first + size ≤ a.next) : a.fillWindow first size cursors dirty = .error .outOfBounds := by
  have hnext := h.next_le
  obtain ⟨window0, hbase, hlen0, -⟩ := base_window h first size
  have hruns := drainRuns_broken a.deltaRuns cursors hscan.cursors hlasts (show first ≤ first + size by omega)
    (by omega) window0 (by omega)
  unfold fillWindow
  simp only [hbase, hruns]

/-! ## All windows -/

variable {σ : Type} {slots : Nat}

def readWindows (a : NodeArena H) (slots : Nat) : Nat → Nat → List (Nat × List (NodeRecord H))
  | 0, _ => []
  | fuel + 1, first =>
    if first < a.next then
      (first, (List.range (min slots (a.next - first))).map fun i => a.read (first + i)) ::
        readWindows a slots fuel (first + slots)
    else []

/-- Every run of 128 records or more has a record in the last window or above it. -/
def Scannable (a : NodeArena H) (slots : Nat) : Prop :=
  ∀ r ∈ a.deltaRuns, Lasts r.records ((a.next - 1) / slots * slots)

omit [ForestHash H] in
theorem Lasts.mono {run : List (Nat × NodeRecord H)} {first first' : Nat} (h : Lasts run first) (hle : first' ≤ first) :
    Lasts run first' := fun hlong => by
  obtain ⟨e, he, hge⟩ := h hlong
  exact ⟨e, he, by omega⟩

theorem windowLoop_spec (h : a.Mapped) (hslots : 0 < slots) (hscannable : a.Scannable slots)
    (callback : σ → Nat → List (NodeRecord H) → Except String σ) (fuel k : Nat) (cursors : List (WindowCursor H))
    (dirty : List Nat) (s : σ) (hscan : k * slots < a.next → a.ScanAt (k * slots) cursors dirty)
    (hfuel : a.next - k * slots ≤ fuel) :
    a.windowLoop slots callback fuel (k * slots) cursors dirty s =
      .ok ((a.readWindows slots fuel (k * slots)).foldlM (fun s w => callback s w.1 w.2) s) := by
  induction fuel generalizing k cursors dirty s with
  | zero =>
    rw [windowLoop, if_neg (by omega)]
    rfl
  | succ fuel ih =>
    rw [windowLoop, readWindows]
    by_cases hlt : k * slots < a.next
    · have hk : k ≤ (a.next - 1) / slots := by
        rw [Nat.le_div_iff_mul_le hslots]
        omega
      have hlasts : ∀ r ∈ a.deltaRuns, Lasts r.records (k * slots) := fun r hr =>
        Lasts.mono (hscannable r hr) (Nat.mul_le_mul_right slots hk)
      obtain ⟨cursors', dirty', hfill, hscan'⟩ :=
        fillWindow_spec h (hscan hlt) hlasts (show k * slots + min slots (a.next - k * slots) ≤ a.next by omega)
      rw [if_pos hlt, if_pos hlt, List.foldlM_cons]
      simp only [h.mapped, if_true, hfill]
      cases hcall : callback s (k * slots)
          ((List.range (min slots (a.next - k * slots))).map fun i => a.read (k * slots + i)) with
      | error message => rfl
      | ok s' =>
        have hnext : k * slots + slots = (k + 1) * slots := by ring
        simp only [hnext]
        exact ih (k + 1) cursors' dirty' s' (fun hlt' => by
          have hsize : k * slots + min slots (a.next - k * slots) = (k + 1) * slots := by omega
          rwa [hsize] at hscan') (by omega)
    · rw [if_neg hlt, if_neg hlt]
      rfl

theorem windowLoop_broken (h : a.Mapped) (hslots : 0 < slots) {r : DeltaRun H} (hr : r ∈ a.deltaRuns) {last : Nat}
    (hlast : last * slots < a.next) (hbad : ¬ Lasts r.records (last * slots))
    (callback : σ → Nat → List (NodeRecord H) → Except String σ) (fuel k : Nat)
    (cursors : List (WindowCursor H)) (dirty : List Nat) (s : σ) (hk : k ≤ last)
    (hscan : a.ScanAt (k * slots) cursors dirty) (hfuel : a.next - k * slots ≤ fuel) :
    a.windowLoop slots callback fuel (k * slots) cursors dirty s = .error .outOfBounds ∨
      ∃ message, (a.readWindows slots fuel (k * slots)).foldlM (fun s w => callback s w.1 w.2) s = .error message ∧
        a.windowLoop slots callback fuel (k * slots) cursors dirty s = .ok (.error message) := by
  have hle : k * slots ≤ last * slots := Nat.mul_le_mul_right slots hk
  induction fuel generalizing k cursors dirty s with
  | zero => omega
  | succ fuel ih =>
    have hend : k * slots + min slots (a.next - k * slots) ≤ a.next := by omega
    rw [windowLoop, if_pos (by omega), readWindows, if_pos (by omega), List.foldlM_cons]
    by_cases hall : ∀ r ∈ a.deltaRuns, Lasts r.records (k * slots)
    · obtain ⟨cursors', dirty', hfill, hscan'⟩ := fillWindow_spec h hscan hall hend
      have hnext : k * slots + slots = (k + 1) * slots := by ring
      have hlt : k + 1 ≤ last := by
        by_contra hge
        obtain rfl : k = last := by omega
        exact hbad (hall r hr)
      have hle' : (k + 1) * slots ≤ last * slots := Nat.mul_le_mul_right slots hlt
      cases hcall : callback s (k * slots)
          ((List.range (min slots (a.next - k * slots))).map fun i => a.read (k * slots + i)) with
      | error message =>
        simp only [h.mapped, if_true, hfill, hcall]
        exact Or.inr ⟨message, rfl, rfl⟩
      | ok s' =>
        simp only [h.mapped, if_true, hfill, hcall, hnext]
        have hsize : k * slots + min slots (a.next - k * slots) = (k + 1) * slots := by omega
        rw [hsize] at hscan'
        exact ih (k + 1) cursors' dirty' s' hlt hscan' (by omega) hle'
    · push Not at hall
      left
      simp only [h.mapped, if_true, fillWindow_broken h hscan hall hend]

theorem forEachWindow_spec (h : a.Mapped) (hslots : 0 < slots) (hscannable : a.Scannable slots)
    (callback : σ → Nat → List (NodeRecord H) → Except String σ) (s : σ) :
    a.forEachWindow slots callback s =
      .ok ((a.readWindows slots a.next 0).foldlM (fun s w => callback s w.1 w.2) s) := by
  have := windowLoop_spec h hslots hscannable callback a.next 0 (a.deltaRuns.map fun _ => .new) a.sortedVisibleDirtyIds s
    (fun _ => by rw [Nat.zero_mul]; exact a.scanAt_start) (by omega)
  rwa [Nat.zero_mul] at this

theorem forEachWindow_broken (h : a.Mapped) (hslots : 0 < slots) (hbad : ¬ a.Scannable slots)
    (callback : σ → Nat → List (NodeRecord H) → Except String σ) (s : σ) :
    a.forEachWindow slots callback s = .error .outOfBounds ∨
      ∃ message, (a.readWindows slots a.next 0).foldlM (fun s w => callback s w.1 w.2) s = .error message ∧
        a.forEachWindow slots callback s = .ok (.error message) := by
  unfold Scannable at hbad
  push Not at hbad
  obtain ⟨r, hr, hbad⟩ := hbad
  have hnext : a.next ≠ 0 := by
    intro hzero
    apply hbad
    intro hlong
    have hpos : 0 < r.records.length := by unfold cursorRecords at hlong; omega
    exact ⟨r.records[0], List.getElem_mem hpos, by simp [hzero]⟩
  have hlast : (a.next - 1) / slots * slots < a.next := by
    have := Nat.div_mul_le_self (a.next - 1) slots
    omega
  have hbroken := windowLoop_broken h hslots hr hlast hbad callback a.next 0
    (a.deltaRuns.map fun _ => .new) a.sortedVisibleDirtyIds s (Nat.zero_le _)
    (by rw [Nat.zero_mul]; exact a.scanAt_start) (by omega)
  rwa [Nat.zero_mul] at hbroken

def noteWindow (seen : List (Nat × NodeRecord H)) (first : Nat) (window : List (NodeRecord H)) :
    Except String (List (Nat × NodeRecord H)) :=
  .ok (seen ++ window.mapIdx fun i r => (first + i, r))

theorem foldlM_noteWindow (hslots : 0 < slots) (fuel first : Nat) (seen : List (Nat × NodeRecord H))
    (hfuel : a.next - first ≤ fuel) :
    (a.readWindows slots fuel first).foldlM (fun seen w => noteWindow seen w.1 w.2) seen =
      .ok (seen ++ (List.range' first (a.next - first)).map fun id => (id, a.read id)) := by
  induction fuel generalizing first seen with
  | zero =>
    rw [readWindows, show a.next - first = 0 by omega]
    simp
    rfl
  | succ fuel ih =>
    rw [readWindows]
    by_cases hlt : first < a.next
    · rw [if_pos hlt, List.foldlM_cons, noteWindow]
      show (a.readWindows slots fuel (first + slots)).foldlM (fun seen w => noteWindow seen w.1 w.2) _ = _
      rw [ih (first + slots) _ (by omega), List.append_assoc]
      congr 2
      have hwindow : ((List.range (min slots (a.next - first))).map fun i => a.read (first + i)).mapIdx
          (fun i r => (first + i, r)) =
          (List.range' first (min slots (a.next - first))).map fun id => (id, a.read id) := by
        apply List.ext_getElem?
        intro i
        simp only [List.getElem?_mapIdx, List.getElem?_map]
        by_cases hi : i < min slots (a.next - first)
        · simp [hi]
        · simp [hi]
      rw [hwindow, ← List.map_append]
      congr 1
      rcases Nat.le_total (first + slots) a.next with hle | hge
      · rw [Nat.min_eq_left (by omega), show a.next - first = slots + (a.next - (first + slots)) by omega,
          List.range'_append_1.symm]
      · rw [Nat.min_eq_right (by omega), show a.next - (first + slots) = 0 by omega]
        simp
    · rw [if_neg hlt, show a.next - first = 0 by omega]
      simp
      rfl

/-- What the windowed scan shows of a mapped arena: every slot once in order, as `Read` has it, if
and only if no longer run ends too early. -/
theorem forEachWindow_noteWindow_iff (h : a.Mapped) (hslots : 0 < slots) :
    a.forEachWindow slots noteWindow [] = .ok (.ok ((List.range a.next).map fun id => (id, a.read id))) ↔
      a.Scannable slots := by
  constructor
  · intro hok
    by_contra hbad
    rcases forEachWindow_broken h hslots hbad noteWindow [] with hscan | ⟨_, -, hscan⟩
    · rw [hscan] at hok
      cases hok
    · rw [hscan] at hok
      cases hok
  · intro hscannable
    rw [forEachWindow_spec h hslots hscannable, foldlM_noteWindow hslots a.next 0 [] (by omega), List.nil_append,
      Nat.sub_zero, List.range_eq_range']

end NodeArena

end UtreexoBridge
