import Mathlib.Data.Nat.Bitwise
import Mathlib.Data.Nat.ModEq
import Mathlib.Data.Set.Function

/-!
# Folds that lose nothing

A fold whose step can be undone, given the letter or given the state, tells
apart any two words that differ in a single letter. The xor-and-multiply step
of a word checksum is one of these if the multiplier is odd.
-/

namespace Folding

variable {σ α : Type}

/-- The step stays among the states `S`, and neither the state before it nor the letter is forgotten. -/
structure Sensitive (step : σ → α → σ) (S : Set σ) : Prop where
  closed : ∀ s a, step s a ∈ S
  state_inj : ∀ a, S.InjOn (step · a)
  letter_inj : ∀ s ∈ S, Function.Injective (step s)

variable {step : σ → α → σ} {S : Set σ}

theorem Sensitive.foldl_inj (h : Sensitive step S) {s s' : σ} (hs : s ∈ S) (hs' : s' ∈ S) (word : List α)
    (heq : word.foldl step s = word.foldl step s') : s = s' := by
  induction word generalizing s s' with
  | nil => exact heq
  | cons a word ih => exact h.state_inj a hs hs' (ih (h.closed s a) (h.closed s' a) heq)

/-- Two words that differ in one letter have different folds. -/
theorem Sensitive.foldl_set_ne (h : Sensitive step S) {s : σ} (hs : s ∈ S) {word : List α} {i : Nat} (hi : i < word.length)
    {a : α} (hne : a ≠ word[i]) : (word.set i a).foldl step s ≠ word.foldl step s := by
  induction word generalizing s i with
  | nil => exact absurd hi (Nat.not_lt_zero _)
  | cons b word ih =>
    cases i with
    | zero =>
      intro heq
      have hstep := h.foldl_inj (h.closed s a) (h.closed s b) word heq
      exact hne (h.letter_inj s hs hstep)
    | succ i => exact ih (h.closed s b) (Nat.lt_of_succ_lt_succ hi) hne

theorem sensitive_xor_mul {width prime : Nat} (hodd : Nat.Coprime prime 2) {letter : α → Nat}
    (hletter : Function.Injective letter) (hlt : ∀ a, letter a < 2 ^ width) :
    Sensitive (fun s a => ((s ^^^ letter a) * prime) % 2 ^ width) {s | s < 2 ^ width} := by
  have hmul : ∀ x < 2 ^ width, ∀ y < 2 ^ width, (x * prime) % 2 ^ width = (y * prime) % 2 ^ width → x = y := by
    intro x hx y hy heq
    have hcoprime : Nat.gcd (2 ^ width) prime = 1 := (hodd.pow_right width).symm
    have hmod : x ≡ y [MOD 2 ^ width] := Nat.ModEq.cancel_right_of_coprime hcoprime heq
    rwa [Nat.ModEq, Nat.mod_eq_of_lt hx, Nat.mod_eq_of_lt hy] at hmod
  have hxor : ∀ s s' b : Nat, s ^^^ b = s' ^^^ b → s = s' := fun s s' b heq => by
    rw [← Nat.xor_xor_cancel_right s b, heq, Nat.xor_xor_cancel_right]
  refine ⟨fun s a => Nat.mod_lt _ (Nat.two_pow_pos width), fun a s hs s' hs' heq => ?_, fun s hs a a' heq => ?_⟩
  · exact hxor _ _ _ (hmul _ (Nat.xor_lt_two_pow hs (hlt a)) _ (Nat.xor_lt_two_pow hs' (hlt a)) heq)
  · have hletters := hmul _ (Nat.xor_lt_two_pow hs (hlt a)) _ (Nat.xor_lt_two_pow hs (hlt a')) heq
    rw [Nat.xor_comm s, Nat.xor_comm s] at hletters
    exact hletter (hxor _ _ _ hletters)

end Folding
