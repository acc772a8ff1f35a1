import Mathlib.Data.List.Basic
import Mathlib.Data.List.Infix
import Mathlib.Order.Basic

/-!
# The first place of a pattern

`find` gives the first index of a pattern, as `std::string_view::find` does. What
follows the pattern does not matter, nor what comes after the last byte read.
-/

namespace UtreexoBridge.Bytes

variable {α : Type} [DecidableEq α]

def find (pattern : List α) : List α → Option Nat
  | [] => if pattern = [] then some 0 else none
  | a :: text => if pattern.isPrefixOf (a :: text) then some 0 else (find pattern text).map (· + 1)

/-- `find(pattern, cursor)`. -/
def findFrom (pattern text : List α) (cursor : Nat) : Option Nat :=
  (find pattern (text.drop cursor)).map (cursor + ·)

variable {pattern text : List α} {i : Nat}

theorem find_cons_here {a : α} (h : pattern <+: a :: text) : find pattern (a :: text) = some 0 := by
  rw [find, if_pos (List.isPrefixOf_iff_prefix.mpr h)]

theorem find_cons_later {a : α} (h : ¬pattern <+: a :: text) :
    find pattern (a :: text) = (find pattern text).map (· + 1) := by
  rw [find, if_neg (mt List.isPrefixOf_iff_prefix.mp h)]

theorem find_eq_some_iff :
    find pattern text = some i ↔ i ≤ text.length ∧ pattern <+: text.drop i ∧ ∀ j < i, ¬pattern <+: text.drop j := by
  induction text generalizing i with
  | nil =>
    rw [find]
    by_cases hp : pattern = []
    · rw [if_pos hp]
      simp only [Option.some.injEq, List.length_nil, Nat.le_zero_eq, List.drop_nil, hp, List.nil_prefix, true_and,
        not_true_eq_false]
      exact ⟨fun h => ⟨h.symm, by omega⟩, fun h => h.1.symm⟩
    · simp [hp]
  | cons a text ih =>
    by_cases hp : pattern <+: a :: text
    · rw [find_cons_here hp]
      constructor
      · intro h
        cases h
        exact ⟨by omega, hp, by omega⟩
      · rintro ⟨-, -, hno⟩
        cases i with
        | zero => rfl
        | succ i => exact absurd hp (hno 0 (by omega))
    · rw [find_cons_later hp]
      cases i with
      | zero => simp [hp]
      | succ i =>
        have hmap : (find pattern text).map (· + 1) = some (i + 1) ↔ find pattern text = some i := by
          cases find pattern text <;> simp
        rw [hmap, ih, List.length_cons, List.drop_succ_cons]
        refine and_congr (by omega) (and_congr_right fun _ => ⟨fun h j hj => ?_, fun h j hj => h (j + 1) (by omega)⟩)
        cases j with
        | zero => exact hp
        | succ j => exact h j (by omega)

theorem find_eq_none_iff : find pattern text = none ↔ ∀ j ≤ text.length, ¬pattern <+: text.drop j := by
  induction text with
  | nil =>
    rw [find]
    by_cases hp : pattern = [] <;> simp [hp]
  | cons a text ih =>
    by_cases hp : pattern <+: a :: text
    · rw [find_cons_here hp]
      refine iff_of_false (by simp) fun h => h 0 (by omega) hp
    · rw [find_cons_later hp, Option.map_eq_none_iff, ih]
      constructor
      · intro h j hj
        cases j with
        | zero => exact hp
        | succ j => exact h j (by simpa using hj)
      · exact fun h j hj => h (j + 1) (by simpa using hj)

theorem find_le (h : find pattern text = some i) : i + pattern.length ≤ text.length := by
  obtain ⟨hle, hat, -⟩ := find_eq_some_iff.mp h
  have := hat.length_le
  rw [List.length_drop] at this
  omega

theorem find_take_eq (h : find pattern text = some i) : (text.drop i).take pattern.length = pattern := by
  obtain ⟨-, hat, -⟩ := find_eq_some_iff.mp h
  exact (List.prefix_iff_eq_take.mp hat).symm

theorem find_append (h : find pattern text = some i) (more : List α) : find pattern (text ++ more) = some i := by
  have hle := find_le h
  obtain ⟨hi, hat, hno⟩ := find_eq_some_iff.mp h
  refine find_eq_some_iff.mpr ⟨by rw [List.length_append]; omega, ?_, fun j hj hp => hno j hj ?_⟩
  · rw [List.drop_append_of_le_length hi]
    exact hat.trans (List.prefix_append _ _)
  · rw [List.drop_append_of_le_length (by omega)] at hp
    refine List.prefix_of_prefix_length_le hp (List.prefix_append _ _) ?_
    rw [List.length_drop]
    omega

theorem find_take (h : find pattern text = some i) {n : Nat} (hn : i + pattern.length ≤ n) :
    find pattern (text.take n) = some i := by
  have hle := find_le h
  cases hf : find pattern (text.take n) with
  | some j =>
    have happ := find_append hf (text.drop n)
    rw [List.take_append_drop, h] at happ
    exact happ.symm
  | none =>
    have hno := find_eq_none_iff.mp hf i (by rw [List.length_take]; omega)
    refine absurd ?_ hno
    rw [List.drop_take]
    obtain ⟨-, hat, -⟩ := find_eq_some_iff.mp h
    refine List.prefix_of_prefix_length_le hat (List.take_prefix _ _) ?_ |>.trans (List.prefix_refl _)
    rw [List.length_take, List.length_drop]
    omega

/-! ## Lines -/

theorem find_line {a b : α} (hab : a ≠ b) {line : List α} (hline : find [a, b] line = none) (rest : List α) :
    find [a, b] (line ++ [a, b] ++ rest) = some line.length := by
  refine find_append (find_eq_some_iff.mpr ⟨by simp, by simp, fun j hj hp => ?_⟩) rest
  have hno := find_eq_none_iff.mp hline j (le_of_lt hj)
  rw [List.drop_append_of_le_length (le_of_lt hj)] at hp
  -- the line itself has no end, and its last byte cannot start one
  rcases hd : line.drop j with _ | ⟨x, _ | ⟨y, tail⟩⟩
  · have := congrArg List.length hd
    rw [List.length_drop, List.length_nil] at this
    omega
  · rw [hd] at hp
    simp only [List.cons_append, List.nil_append, List.cons_prefix_cons] at hp
    exact hab hp.2.1.symm
  · rw [hd] at hp hno
    simp only [List.cons_append, List.cons_prefix_cons] at hp
    exact hno (by simp [hp.1, hp.2.1])

theorem eq_of_find {text : List α} (h : find pattern text = some i) :
    text = text.take i ++ pattern ++ text.drop (i + pattern.length) := by
  conv_lhs => rw [← List.take_append_drop i text, ← List.take_append_drop pattern.length (text.drop i), find_take_eq h,
    List.drop_drop, ← List.append_assoc]

theorem find_take_self (h : find pattern text = some i) (hne : pattern ≠ []) : find pattern (text.take i) = none := by
  cases hf : find pattern (text.take i) with
  | none => rfl
  | some j =>
    have hle := find_le hf
    have happ := find_append hf (text.drop i)
    rw [List.take_append_drop, h] at happ
    cases happ
    have := List.length_pos_iff.mpr hne
    rw [List.length_take] at hle
    omega

/-! ## Stripped text -/

theorem find_ne_none_iff : find pattern text ≠ none ↔ pattern <:+: text := by
  rw [ne_eq, find_eq_none_iff, List.infix_iff_prefix_suffix]
  push Not
  constructor
  · rintro ⟨j, -, hp⟩
    exact ⟨_, hp, List.drop_suffix j text⟩
  · rintro ⟨tail, hp, front, rfl⟩
    exact ⟨front.length, by simp, by simpa using hp⟩

omit [DecidableEq α] in
theorem infix_append_left_iff {front : List α} (h : ∀ a ∈ front, a ∉ pattern) :
    pattern <:+: front ++ text ↔ pattern <:+: text := by
  induction front with
  | nil => rfl
  | cons a front ih =>
    rw [List.cons_append, List.infix_cons_iff, ih fun b hb => h b (List.mem_cons_of_mem _ hb)]
    refine or_iff_right_of_imp fun hp => ?_
    cases pattern with
    | nil => exact List.nil_infix
    | cons b pattern =>
      obtain ⟨rfl, -⟩ := List.cons_prefix_cons.mp hp
      exact absurd List.mem_cons_self (h b List.mem_cons_self)

omit [DecidableEq α] in
theorem infix_append_right_iff {back : List α} (h : ∀ a ∈ back, a ∉ pattern) :
    pattern <:+: text ++ back ↔ pattern <:+: text := by
  rw [← List.reverse_infix, List.reverse_append, infix_append_left_iff, List.reverse_infix]
  intro a ha hp
  exact h a (List.mem_reverse.mp ha) (List.mem_reverse.mp hp)

end UtreexoBridge.Bytes
