import Mathlib.Algebra.Order.BigOperators.Group.List
import Mathlib.Algebra.Order.Ring.Nat

/-!
# Shared counters of many threads

What a counter adds up over threads of which one takes a step, and a maximum
that threads raise by compare-and-swap.
-/

namespace UtreexoBridge.SharedCounters

/-! ## Sums over threads -/

section Total

variable {T : Type} {threads : List T} {i : Nat} {t : T}

def total (weight : T → Nat) (threads : List T) : Nat := (threads.map weight).sum

theorem total_append (weight : T → Nat) (t : T) : total weight (threads ++ [t]) = total weight threads + weight t := by
  simp [total]

theorem total_set (h : threads[i]? = some t) (weight : T → Nat) (t' : T) :
    total weight (threads.set i t') + weight t = total weight threads + weight t' := by
  induction threads generalizing i with
  | nil => cases h
  | cons head threads ih =>
    cases i with
    | zero =>
      obtain rfl := Option.some.inj h
      simp only [total, List.set_cons_zero, List.map_cons, List.sum_cons]
      omega
    | succ i =>
      have htail := ih (i := i) h
      simp only [total, List.set_cons_succ, List.map_cons, List.sum_cons] at htail ⊢
      omega

theorem total_le {weight weight' : T → Nat} (h : ∀ t, weight t ≤ weight' t) (threads : List T) :
    total weight threads ≤ total weight' threads :=
  List.sum_le_sum fun t _ => h t

theorem total_eq_zero {weight : T → Nat} (h : ∀ t ∈ threads, weight t = 0) : total weight threads = 0 :=
  List.sum_eq_zero fun _ hn => by
    obtain ⟨t, ht, rfl⟩ := List.mem_map.mp hn
    exact h t ht

theorem mem_set_or (h : threads[i]? = some t) {t' old : T} (hold : old ∈ threads) : old = t ∨ old ∈ threads.set i t' := by
  obtain ⟨j, hj⟩ := List.mem_iff_getElem?.mp hold
  by_cases hij : i = j
  · subst hij
    exact Or.inl (Option.some.inj (hj.symm.trans h))
  · refine Or.inr (List.mem_iff_getElem?.mpr ⟨j, ?_⟩)
    rw [List.getElem?_set_ne hij, hj]

end Total

/-! ## A maximum -/

/-- Where a thread is that raises the maximum to its value. -/
inductive Raise
  | load (value : Nat)
  | compare (value prior : Nat)
  deriving DecidableEq

def Raise.value : Raise → Nat
  | .load value => value
  | .compare value _ => value

/-- One step: the maximum behind it, and where the thread is then. The weak exchange may fail for no reason. -/
def Raise.next (shared : Nat) (fails : Bool) : Raise → Nat × Option Raise
  | .load value => (shared, some (.compare value shared))
  | .compare value prior =>
    if prior < value then
      if shared = prior ∧ fails = false then (value, none) else (shared, some (.compare value shared))
    else (shared, none)

/-- The maximum is `high`, up to the threads that are raising it. -/
structure Tracks (shared high : Nat) (pending : Raise → Prop) : Prop where
  shared_le : shared ≤ high
  value_le : ∀ r, pending r → r.value ≤ high
  prior_le : ∀ value prior, pending (.compare value prior) → prior ≤ shared
  reached : high ≤ shared ∨ ∃ r, pending r ∧ high ≤ r.value

variable {shared high : Nat} {pending pending' : Raise → Prop}

/-- With no thread left the maximum is exact. -/
theorem Tracks.settled (h : Tracks shared high pending) (hnone : ∀ r, ¬pending r) : shared = high := by
  rcases h.reached with hle | ⟨r, hr, -⟩
  · exact Nat.le_antisymm h.shared_le hle
  · exact absurd hr (hnone r)

theorem Tracks.congr (h : Tracks shared high pending) (heq : ∀ r, pending' r ↔ pending r) :
    Tracks shared high pending' := by
  refine ⟨h.shared_le, fun r hr => h.value_le r ((heq r).mp hr), fun v p hr => h.prior_le v p ((heq _).mp hr), ?_⟩
  exact h.reached.imp_right fun ⟨r, hr, hle⟩ => ⟨r, (heq r).mpr hr, hle⟩

theorem Tracks.enter (h : Tracks shared high pending) {value : Nat}
    (hnew : ∀ r, pending' r ↔ pending r ∨ r = .load value) : Tracks shared (max high value) pending' := by
  refine ⟨h.shared_le.trans (Nat.le_max_left _ _), ?_, ?_, ?_⟩
  · rintro r hr
    rcases (hnew r).mp hr with hr | rfl
    · exact (h.value_le r hr).trans (Nat.le_max_left _ _)
    · exact Nat.le_max_right _ _
  · rintro v p hr
    rcases (hnew _).mp hr with hr | hr
    · exact h.prior_le v p hr
    · cases hr
  · rcases Nat.le_total value high with hle | hle
    · rw [Nat.max_eq_left hle]
      exact h.reached.imp_right fun ⟨r, hr, hle⟩ => ⟨r, (hnew r).mpr (Or.inl hr), hle⟩
    · rw [Nat.max_eq_right hle]
      exact Or.inr ⟨_, (hnew _).mpr (Or.inr rfl), Nat.le_refl _⟩

theorem Tracks.reload (h : Tracks shared high pending) {value : Nat} (hvalue : value ≤ high)
    (hnew : ∀ r, pending' r → pending r ∨ r = .compare value shared) (hmem : pending' (.compare value shared))
    (hothers : high ≤ shared ∨ high ≤ value ∨ ∃ r, pending' r ∧ high ≤ r.value) : Tracks shared high pending' := by
  refine ⟨h.shared_le, fun r hr => ?_, fun v p hr => ?_, ?_⟩
  · rcases hnew r hr with hr | rfl
    · exact h.value_le r hr
    · exact hvalue
  · rcases hnew _ hr with hr | hr
    · exact h.prior_le v p hr
    · cases hr
      exact Nat.le_refl _
  · rcases hothers with hle | hle | hr
    · exact Or.inl hle
    · exact Or.inr ⟨_, hmem, hle⟩
    · exact Or.inr hr

theorem Tracks.next (h : Tracks shared high pending) {r : Raise} {fails : Bool} (hr : pending r)
    (hnew : ∀ r', pending' r' → pending r' ∨ (r.next shared fails).2 = some r')
    (hold : ∀ r', pending r' → r' = r ∨ pending' r')
    (hnext : ∀ r', (r.next shared fails).2 = some r' → pending' r') :
    Tracks (r.next shared fails).1 high pending' := by
  have hvalue := h.value_le r hr
  -- the other threads keep the maximum reached
  have hothers : high ≤ shared ∨ high ≤ r.value ∨ ∃ r', pending' r' ∧ high ≤ r'.value := by
    rcases h.reached with hle | ⟨r', hr', hle⟩
    · exact Or.inl hle
    rcases hold r' hr' with rfl | hr'
    · exact Or.inr (Or.inl hle)
    · exact Or.inr (Or.inr ⟨r', hr', hle⟩)
  cases r with
  | load value =>
    exact h.reload hvalue (fun r' hr' => (hnew r' hr').imp_right fun hr' => (Option.some.inj hr').symm) (hnext _ rfl) hothers
  | compare value prior =>
    have hprior := h.prior_le value prior hr
    rw [Raise.value] at hvalue hothers
    unfold Raise.next at hnew hnext ⊢
    by_cases hlt : prior < value
    · simp only [if_pos hlt] at hnew hnext ⊢
      by_cases hswap : shared = prior ∧ fails = false
      · -- the exchange
        simp only [if_pos hswap] at hnew ⊢
        have hup : shared ≤ value := by
          have hsame := hswap.1
          omega
        refine ⟨hvalue, fun r' hr' => ?_, fun v p hr' => ?_, ?_⟩
        · exact h.value_le r' ((hnew r' hr').resolve_right nofun)
        · exact (h.prior_le v p ((hnew _ hr').resolve_right nofun)).trans hup
        · rcases hothers with hle | hle | hr'
          · exact Or.inl (hle.trans hup)
          · exact Or.inl hle
          · exact Or.inr hr'
      · simp only [if_neg hswap] at hnew hnext ⊢
        exact h.reload hvalue (fun r' hr' => (hnew r' hr').imp_right fun hr' => (Option.some.inj hr').symm) (hnext _ rfl)
          hothers
    · -- the maximum is there already
      simp only [if_neg hlt] at hnew ⊢
      refine ⟨h.shared_le, fun r' hr' => h.value_le r' ((hnew r' hr').resolve_right nofun),
        fun v p hr' => h.prior_le v p ((hnew _ hr').resolve_right nofun), ?_⟩
      rcases hothers with hle | hle | hr'
      · exact Or.inl hle
      · exact Or.inl (hle.trans ((Nat.not_lt.mp hlt).trans hprior))
      · exact Or.inr hr'

end UtreexoBridge.SharedCounters
