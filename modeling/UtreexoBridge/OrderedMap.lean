import Mathlib.Order.Lattice

/-!
# Ordered maps

A `std::map` as the list of its pairs in the order of their keys.
-/

namespace OrderedMap

variable {K V : Type} [LinearOrder K]

def Sorted (m : List (K × V)) : Prop := m.Pairwise fun x y => x.1 < y.1

def lookup : List (K × V) → K → Option V
  | [], _ => none
  | (k, v) :: m, key => if key = k then some v else lookup m key

/-- `m[key] = value`. -/
def assign : List (K × V) → K → V → List (K × V)
  | [], key, value => [(key, value)]
  | (k, v) :: m, key, value =>
    if key < k then (key, value) :: (k, v) :: m
    else if key = k then (key, value) :: m
    else (k, v) :: assign m key value

theorem lookup_assign (m : List (K × V)) (key : K) (value : V) (k : K) :
    lookup (assign m key value) k = if k = key then some value else lookup m k := by
  induction m with
  | nil => rfl
  | cons p m ih =>
    obtain ⟨k', v'⟩ := p
    unfold assign
    rcases lt_trichotomy key k' with hlt | rfl | hgt
    · rw [if_pos hlt]
      rfl
    · rw [if_neg (lt_irrefl _), if_pos rfl]
      simp only [lookup]
      split_ifs <;> rfl
    · rw [if_neg (not_lt_of_gt hgt), if_neg (ne_of_gt hgt)]
      simp only [lookup, ih]
      split_ifs with hk hkey
      · exact absurd (hkey.symm.trans hk) (ne_of_gt hgt)
      · rfl
      · rfl
      · rfl

theorem mem_assign {m : List (K × V)} {key : K} {value : V} {p : K × V} (hp : p ∈ assign m key value) :
    p = (key, value) ∨ p ∈ m := by
  induction m with
  | nil => exact Or.inl (List.mem_singleton.mp hp)
  | cons q m ih =>
    obtain ⟨k', v'⟩ := q
    unfold assign at hp
    split_ifs at hp
    · rcases List.mem_cons.mp hp with hp | hp
      · exact Or.inl hp
      · exact Or.inr hp
    · rcases List.mem_cons.mp hp with hp | hp
      · exact Or.inl hp
      · exact Or.inr (List.mem_cons_of_mem _ hp)
    · rcases List.mem_cons.mp hp with hp | hp
      · exact Or.inr (hp ▸ List.mem_cons_self)
      · exact (ih hp).imp_right (List.mem_cons_of_mem _)

theorem Sorted.assign {m : List (K × V)} (h : Sorted m) (key : K) (value : V) : Sorted (assign m key value) := by
  induction m with
  | nil => exact List.pairwise_singleton _ _
  | cons p m ih =>
    obtain ⟨k', v'⟩ := p
    obtain ⟨hfirst, hrest⟩ := List.pairwise_cons.mp h
    unfold OrderedMap.assign
    split_ifs with hlt heq
    · refine List.pairwise_cons.mpr ⟨fun q hq => ?_, h⟩
      rcases List.mem_cons.mp hq with rfl | hq
      · exact hlt
      · exact lt_trans hlt (hfirst q hq)
    · subst heq
      exact List.pairwise_cons.mpr ⟨hfirst, hrest⟩
    · refine List.pairwise_cons.mpr ⟨fun q hq => ?_, ih hrest⟩
      rcases mem_assign hq with rfl | hq
      · exact lt_of_le_of_ne (not_lt.mp hlt) (Ne.symm heq)
      · exact hfirst q hq

theorem mem_of_lookup {m : List (K × V)} {key : K} {value : V} (h : lookup m key = some value) : (key, value) ∈ m := by
  induction m with
  | nil => cases h
  | cons p m ih =>
    obtain ⟨k', v'⟩ := p
    unfold lookup at h
    split_ifs at h with heq
    · cases h
      rw [heq]
      exact List.mem_cons_self
    · exact List.mem_cons_of_mem _ (ih h)

theorem Sorted.lookup_tail {m : List (K × V)} (h : Sorted m) {key : K} {value : V}
    (hkey : lookup m.tail key = some value) : lookup m key = some value := by
  cases m with
  | nil => exact hkey
  | cons p m =>
    obtain ⟨k', v'⟩ := p
    have hlt := (List.pairwise_cons.mp h).1 _ (mem_of_lookup hkey)
    unfold lookup
    rw [if_neg (ne_of_gt hlt)]
    exact hkey

theorem Sorted.tail {m : List (K × V)} (h : Sorted m) : Sorted m.tail := List.Pairwise.tail h

/-! ## The last key -/

theorem assign_back {m : List (K × V)} {key : K} (h : ∀ p ∈ m, p.1 < key) (value : V) :
    assign m key value = m ++ [(key, value)] := by
  induction m with
  | nil => rfl
  | cons p m ih =>
    have hlt := h p List.mem_cons_self
    rw [assign, if_neg (not_lt_of_gt hlt), if_neg (ne_of_gt hlt), ih fun q hq => h q (List.mem_cons_of_mem _ hq),
      List.cons_append]

theorem assign_last {m : List (K × V)} {key : K} (h : ∀ p ∈ m, p.1 < key) (old value : V) :
    assign (m ++ [(key, old)]) key value = m ++ [(key, value)] := by
  induction m with
  | nil => rw [List.nil_append, assign, if_neg (lt_irrefl _), if_pos rfl, List.nil_append]
  | cons p m ih =>
    have hlt := h p List.mem_cons_self
    rw [List.cons_append, assign, if_neg (not_lt_of_gt hlt), if_neg (ne_of_gt hlt),
      ih fun q hq => h q (List.mem_cons_of_mem _ hq), List.cons_append]

theorem lookup_back {m : List (K × V)} {key : K} (h : ∀ p ∈ m, p.1 < key) : lookup m key = none := by
  cases hlookup : lookup m key with
  | none => rfl
  | some value => exact absurd (h _ (mem_of_lookup hlookup)) (lt_irrefl _)

theorem lookup_last {m : List (K × V)} {key : K} (h : ∀ p ∈ m, p.1 < key) (value : V) :
    lookup (m ++ [(key, value)]) key = some value := by
  rw [← assign_back h, lookup_assign, if_pos rfl]

end OrderedMap
