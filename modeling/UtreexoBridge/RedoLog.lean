import Mathlib.Data.List.Basic

/-!
# Redo logs

A snapshot of a state machine, and a log of numbered records that may reach back
behind the snapshot. Replaying what the snapshot does not have leads to the
current state, whatever is appended, snapshotted and pruned.
-/

namespace RedoLog

variable {σ τ : Type}

/-- A state machine whose steps are numbered one after the other. -/
structure Machine (σ τ : Type) where
  number : τ → Nat
  /-- The number of the last step. -/
  reached : σ → Nat
  accepts : σ → τ → Bool
  apply : σ → τ → σ
  number_eq : ∀ s t, accepts s t = true → number t = reached s + 1
  reached_apply : ∀ s t, accepts s t = true → reached (apply s t) = number t

namespace Machine

variable (m : Machine σ τ)

/-- Replay the records above `durable`, and stop at one that is not accepted. -/
def replay (durable : Nat) : List τ → σ → Option σ
  | [], s => some s
  | t :: log, s =>
    if m.number t ≤ durable then replay durable log s
    else if m.accepts s t then replay durable log (m.apply s t)
    else none

theorem replay_append (durable : Nat) (log log' : List τ) (s : σ) :
    m.replay durable (log ++ log') s = (m.replay durable log s).bind (m.replay durable log') := by
  induction log generalizing s with
  | nil => rfl
  | cons t log ih =>
    rw [List.cons_append, replay, replay]
    split_ifs
    · exact ih s
    · exact ih (m.apply s t)
    · rfl

/-- The steps of the log lead from the first state to the second. -/
inductive Runs : σ → List τ → σ → Prop
  | nil (s : σ) : Runs s [] s
  | cons {s s' : σ} {t : τ} {log : List τ} (accepted : m.accepts s t = true) (rest : Runs (m.apply s t) log s') :
      Runs s (t :: log) s'

variable {m} {s s' snapshot current : σ} {t : τ} {log log' : List τ}

theorem Runs.snoc (h : m.Runs s log s') (ht : m.accepts s' t = true) : m.Runs s (log ++ [t]) (m.apply s' t) := by
  induction h with
  | nil s => exact .cons ht (.nil _)
  | cons accepted rest ih => exact .cons accepted (ih ht)

theorem Runs.reached (h : m.Runs s log s') : m.reached s ≤ m.reached s' ∧ ∀ t ∈ log, m.number t ≤ m.reached s' := by
  induction h with
  | nil s => exact ⟨Nat.le_refl _, fun t ht => absurd ht List.not_mem_nil⟩
  | @cons s s' t log accepted rest ih =>
    have hnumber := m.number_eq _ _ accepted
    rw [m.reached_apply _ _ accepted] at ih
    refine ⟨Nat.le_trans (by omega) ih.1, fun u hu => ?_⟩
    rcases List.mem_cons.mp hu with rfl | hu
    · exact ih.1
    · exact ih.2 u hu

variable (m) in
def since (snapshot : σ) (log : List τ) : List τ := log.filter fun t => decide (m.reached snapshot < m.number t)

variable (m) in
/-- The log leads from the snapshot to the current state. -/
def Covers (snapshot : σ) (log : List τ) (current : σ) : Prop := m.Runs snapshot (m.since snapshot log) current

theorem since_eq_nil (h : ∀ t ∈ log, m.number t ≤ m.reached snapshot) : m.since snapshot log = [] := by
  rw [since, List.filter_eq_nil_iff]
  intro t ht
  have := h t ht
  simpa using this

theorem covers_self (h : ∀ t ∈ log, m.number t ≤ m.reached s) : m.Covers s log s := by
  rw [Covers, since_eq_nil h]
  exact .nil s

namespace Covers

theorem reached_le (h : m.Covers snapshot log current) : m.reached snapshot ≤ m.reached current := (Runs.reached h).1

theorem number_le (h : m.Covers snapshot log current) : ∀ t ∈ log, m.number t ≤ m.reached current := by
  intro t ht
  by_cases hnew : m.reached snapshot < m.number t
  · exact (Runs.reached h).2 t (List.mem_filter.mpr ⟨ht, decide_eq_true hnew⟩)
  · exact Nat.le_trans (Nat.le_of_not_lt hnew) h.reached_le

theorem append (h : m.Covers snapshot log current) (ht : m.accepts current t = true) :
    m.Covers snapshot (log ++ [t]) (m.apply current t) := by
  have hnew : m.reached snapshot < m.number t := by
    rw [m.number_eq _ _ ht]
    exact Nat.lt_succ_of_le h.reached_le
  have hsince : m.since snapshot (log ++ [t]) = m.since snapshot log ++ [t] := by
    rw [since, List.filter_append, List.filter_cons_of_pos (by simpa using hnew), List.filter_nil]
    rfl
  rw [Covers, hsince]
  exact Runs.snoc h ht

theorem prune (h : m.Covers snapshot log current) (hsame : m.since snapshot log' = m.since snapshot log) :
    m.Covers snapshot log' current := by
  rw [Covers, hsame]
  exact h

theorem replay_eq (h : m.Covers snapshot log current) : m.replay (m.reached snapshot) log snapshot = some current := by
  suffices hall : ∀ {s : σ}, m.Runs s (m.since snapshot log) current → m.replay (m.reached snapshot) log s = some current
    from hall h
  clear h
  induction log with
  | nil =>
    intro s h
    cases h
    rfl
  | cons t log ih =>
    intro s h
    rw [replay]
    by_cases hold : m.number t ≤ m.reached snapshot
    · rw [since, List.filter_cons_of_neg (by simpa using hold)] at h
      rw [if_pos hold]
      exact ih h
    · rw [since, List.filter_cons_of_pos (by simpa using hold)] at h
      cases h with
      | cons accepted rest =>
        rw [if_neg hold, if_pos accepted]
        exact ih rest

end Covers

end Machine

end RedoLog
