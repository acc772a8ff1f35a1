import Mathlib.Data.List.Nodup
import Mathlib.Data.List.Range

/-!
# Numbering what is kept of a list

The kept elements get consecutive numbers in their order, the others get none.
What the numbers are for is not known here.
-/

namespace UtreexoBridge.Numbering

variable {α : Type} (keep : α → Bool) (absent : Nat)

/-- One number for each element, from `n` on; `absent` for an element that is not kept. -/
def numberFrom : Nat → List α → List Nat
  | _, [] => []
  | n, a :: as => if keep a then n :: numberFrom (n + 1) as else absent :: numberFrom n as

def kept (as : List α) : List Nat := (List.range as.length).filter fun i => (as[i]?).any keep

@[simp] theorem length_numberFrom (n : Nat) (as : List α) : (numberFrom keep absent n as).length = as.length := by
  induction as generalizing n with
  | nil => rfl
  | cons a as ih =>
    rw [numberFrom]
    split_ifs
    · rw [List.length_cons, ih, List.length_cons]
    · rw [List.length_cons, ih, List.length_cons]

variable {keep} {absent} {as : List α} {i : Nat}

theorem mem_kept : i ∈ kept keep as ↔ ∃ a, as[i]? = some a ∧ keep a = true := by
  rw [kept, List.mem_filter, List.mem_range, Option.any_eq_true]
  constructor
  · rintro ⟨-, a, ha, hk⟩
    exact ⟨a, ha, hk⟩
  · rintro ⟨a, ha, hk⟩
    exact ⟨(List.getElem?_eq_some_iff.mp ha).1, a, ha, hk⟩

theorem kept_cons (a : α) (as : List α) :
    kept keep (a :: as) = if keep a then 0 :: (kept keep as).map (· + 1) else (kept keep as).map (· + 1) := by
  have hrest : ((List.range as.length).map (· + 1)).filter (fun i => ((a :: as)[i]?).any keep) =
      (kept keep as).map (· + 1) := by
    rw [List.filter_map]
    rfl
  rw [kept, List.length_cons, List.range_succ_eq_map, List.filter_cons]
  split_ifs with h h' h'
  · exact congrArg (0 :: ·) hrest
  · exact absurd h h'
  · exact absurd h' h
  · exact hrest

variable (keep absent) in
theorem map_kept (n : Nat) (as : List α) :
    (kept keep as).map (fun i => (numberFrom keep absent n as).getD i absent) =
      List.range' n (as.filter keep).length := by
  induction as generalizing n with
  | nil => rfl
  | cons a as ih =>
    rw [kept_cons, numberFrom, List.filter_cons]
    split_ifs with h
    · rw [List.map_cons, List.map_map, List.length_cons, List.range'_succ]
      exact congrArg (n :: ·) (ih (n + 1))
    · rw [List.map_map]
      exact ih n

variable (keep) in
theorem map_kept_getElem (as : List α) : (kept keep as).map (fun i => as[i]?) = (as.filter keep).map some := by
  induction as with
  | nil => rfl
  | cons a as ih =>
    rw [kept_cons, List.filter_cons]
    split_ifs with h
    · rw [List.map_cons, List.map_map, List.map_cons]
      exact congrArg (some a :: ·) ih
    · rw [List.map_map]
      exact ih

theorem number_of_not_kept (n : Nat) (h : i ∉ kept keep as) : (numberFrom keep absent n as).getD i absent = absent := by
  induction as generalizing n i with
  | nil => rfl
  | cons a as ih =>
    rw [mem_kept] at h
    rw [numberFrom]
    cases i with
    | zero =>
      have hk : ¬keep a = true := fun hk => h ⟨a, rfl, hk⟩
      rw [if_neg hk]
      rfl
    | succ i =>
      have hi : i ∉ kept keep as := by
        rw [mem_kept]
        exact h
      split_ifs
      · exact ih (n + 1) hi
      · exact ih n hi

theorem number_of_kept (n : Nat) {a : α} (ha : as[i]? = some a) (hk : keep a = true) :
    ∃ k, (numberFrom keep absent n as).getD i absent = n + k ∧ (as.filter keep)[k]? = some a := by
  obtain ⟨k, hk', hkept⟩ := List.getElem_of_mem (mem_kept.mpr ⟨a, ha, hk⟩)
  have hnumber := congrArg (·[k]?) (map_kept keep absent n as)
  have hvalue := congrArg (·[k]?) (map_kept_getElem keep as)
  simp only [List.getElem?_map, List.getElem?_eq_getElem hk', Option.map_some, hkept, ha] at hnumber hvalue
  obtain ⟨hlt, hrange⟩ := List.getElem?_eq_some_iff.mp hnumber.symm
  rw [List.getElem_range', Nat.one_mul] at hrange
  refine ⟨k, hrange.symm, ?_⟩
  cases hfilter : (as.filter keep)[k]? with
  | none =>
    rw [hfilter] at hvalue
    cases hvalue
  | some b =>
    rw [hfilter] at hvalue
    exact (Option.some.inj hvalue).symm

theorem number_inj (n : Nat) {j : Nat} (hi : i ∈ kept keep as) (hj : j ∈ kept keep as)
    (h : (numberFrom keep absent n as).getD i absent = (numberFrom keep absent n as).getD j absent) : i = j := by
  refine List.inj_on_of_nodup_map (f := fun i => (numberFrom keep absent n as).getD i absent) ?_ hi hj h
  rw [map_kept]
  exact List.nodup_range'

theorem number_of_all (n : Nat) (h : ∀ a ∈ as, keep a = true) (hi : i < as.length) :
    (numberFrom keep absent n as).getD i absent = n + i := by
  have hkept : kept keep as = List.range as.length := by
    rw [kept, List.filter_eq_self]
    intro j hj
    rw [List.getElem?_eq_getElem (List.mem_range.mp hj)]
    exact h _ (List.getElem_mem _)
  have hmap := congrArg (·[i]?) (map_kept keep absent n as)
  rw [hkept] at hmap
  simp only [List.getElem?_map, List.getElem?_range hi, Option.map_some] at hmap
  obtain ⟨hlt, hrange⟩ := List.getElem?_eq_some_iff.mp hmap.symm
  rw [List.getElem_range', Nat.one_mul] at hrange
  exact hrange.symm

end UtreexoBridge.Numbering
