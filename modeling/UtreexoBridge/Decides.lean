import Mathlib.Data.List.Range
import Mathlib.Order.Basic

/-!
# Checks that decide a predicate

A check returns a value or an error. It decides `P` if it returns exactly when
`P` holds, and then its value satisfies `Q`. The rules compose checks.
-/

/-- The check returns exactly if `P` holds, and then a value of `Q`. -/
def Decides {ε α : Type} (x : Except ε α) (P : Prop) (Q : α → Prop) : Prop :=
  (P ∧ ∃ v, x = .ok v ∧ Q v) ∨ (¬P ∧ ∃ e, x = .error e)

namespace Decides

variable {ε α β : Type} {x : Except ε α} {P P' : Prop} {Q Q' : α → Prop}

theorem ok {v : α} (hP : P) (hQ : Q v) : Decides (.ok v : Except ε α) P Q := Or.inl ⟨hP, v, rfl, hQ⟩

theorem error {e : ε} (hP : ¬P) : Decides (.error e : Except ε α) P Q := Or.inr ⟨hP, e, rfl⟩

theorem congr (h : Decides x P Q) (hP : P ↔ P') (hQ : ∀ v, P → Q v → Q' v) : Decides x P' Q' := by
  rcases h with ⟨hp, v, hx, hq⟩ | ⟨hp, e, hx⟩
  · exact Or.inl ⟨hP.mp hp, v, hx, hQ v hp hq⟩
  · exact Or.inr ⟨fun h => hp (hP.mpr h), e, hx⟩

theorem iff (h : Decides x P Q) (hP : P ↔ P') : Decides x P' Q := h.congr hP fun _ _ hq => hq

theorem withProp (h : Decides x P Q) : Decides x P fun v => P ∧ Q v := h.congr Iff.rfl fun _ hp hq => ⟨hp, hq⟩

theorem of_ok (h : Decides x P Q) {v : α} (hx : x = .ok v) : P ∧ Q v := by
  rcases h with ⟨hp, w, hw, hq⟩ | ⟨-, e, he⟩
  · rw [hx] at hw
    cases hw
    exact ⟨hp, hq⟩
  · rw [hx] at he
    cases he

theorem exists_ok (h : Decides x P Q) (hP : P) : ∃ v, x = .ok v ∧ Q v := by
  rcases h with ⟨-, hv⟩ | ⟨hp, -⟩
  · exact hv
  · exact absurd hP hp

theorem exists_error (h : Decides x P Q) (hP : ¬P) : ∃ e, x = .error e := by
  rcases h with ⟨hp, -⟩ | ⟨-, he⟩
  · exact absurd hp hP
  · exact he

theorem guard {c : Prop} [Decidable c] {e : ε} (h : ¬c → Decides x P Q) :
    Decides (if c then .error e else x) (¬c ∧ P) Q := by
  by_cases hc : c
  · rw [if_pos hc]
    exact error fun h => h.1 hc
  · rw [if_neg hc]
    exact (h hc).iff ⟨fun hp => ⟨hc, hp⟩, fun h => h.2⟩

theorem map {f : α → β} {R : β → Prop} (h : Decides x P Q) (hR : ∀ v, Q v → R (f v)) : Decides (x.map f) P R := by
  rcases h with ⟨hp, v, hx, hq⟩ | ⟨hp, e, hx⟩
  · exact Or.inl ⟨hp, f v, by rw [hx]; rfl, hR v hq⟩
  · exact Or.inr ⟨hp, e, by rw [hx]; rfl⟩

theorem bind {f : α → Except ε β} {P' : Prop} {R : β → Prop} (h : Decides x P Q)
    (hf : ∀ v, P → Q v → Decides (f v) P' R) : Decides (x >>= f) (P ∧ P') R := by
  rcases h with ⟨hp, v, hx, hq⟩ | ⟨hp, e, hx⟩
  · rw [hx]
    exact (hf v hp hq).iff ⟨fun hp' => ⟨hp, hp'⟩, fun h => h.2⟩
  · rw [hx]
    exact error fun h => hp h.1

theorem foldlM_range {step : α → Nat → Except ε α} (P : Nat → Prop) (Inv : Nat → α → Prop) (n : Nat)
    (hstep : ∀ i < n, (∀ j < i, P j) → ∀ s, Inv i s → Decides (step s i) (P i) (Inv (i + 1))) {s : α} (h : Inv 0 s) :
    Decides ((List.range n).foldlM step s) (∀ i < n, P i) (Inv n) := by
  induction n with
  | zero => exact ok (fun i hi => absurd hi (Nat.not_lt_zero i)) h
  | succ n ih =>
    rw [List.range_succ, List.foldlM_append]
    have hfront := ih fun i hi => hstep i (by omega)
    refine (hfront.bind fun s' hP hs' => ?_).iff
      ⟨fun ⟨hP, hn⟩ i hi => ?_, fun hP => ⟨fun i hi => hP i (by omega), hP n (by omega)⟩⟩
    · show Decides ([n].foldlM step s') (P n) (Inv (n + 1))
      have hlast := hstep n (by omega) hP s' hs'
      rw [List.foldlM_cons]
      exact (hlast.bind fun s'' _ hs'' => ok trivial hs'').iff (iff_of_eq (and_true _))
    · rcases Nat.lt_succ_iff_lt_or_eq.mp hi with hi | rfl
      · exact hP i hi
      · exact hn

theorem forM {γ : Type} {check : γ → Except ε PUnit} {P : γ → Prop} (l : List γ)
    (hcheck : ∀ c ∈ l, Decides (check c) (P c) fun _ => True) : Decides (l.forM check) (∀ c ∈ l, P c) fun _ => True := by
  induction l with
  | nil => exact ok (by simp) trivial
  | cons c l ih =>
    show Decides (check c >>= fun _ => l.forM check) _ _
    refine ((hcheck c (by simp)).bind fun _ _ _ => ih fun c hc => hcheck c (by simp [hc])).iff ?_
    simp

end Decides
