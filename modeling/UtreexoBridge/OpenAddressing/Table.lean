import Mathlib.Data.Finset.Card
import Mathlib.Order.Interval.Finset.Nat

/-!
# Open addressing with linear probing

A ring of slots, each empty, holding an entry, or a tombstone. An entry sits
somewhere after its home slot with no empty slot in between. Nothing here
knows what the entries are.
-/

namespace UtreexoBridge.OpenAddressing

inductive Slot (α : Type)
  | empty
  | full (a : α)
  | deleted
  deriving DecidableEq, Repr

def Slot.isDeleted {α : Type} : Slot α → Bool
  | .deleted => true
  | _ => false

def Slot.entry {α : Type} : Slot α → Option α
  | .full a => some a
  | _ => none

theorem Slot.entry_eq_some {α : Type} {s : Slot α} {a : α} : s.entry = some a ↔ s = .full a := by
  cases s <;> simp [Slot.entry]

structure Table (α : Type) where
  capacity : Nat
  slot : Nat → Slot α

/-- Steps from `a` forward to `b` on a ring of `n` slots. -/
def dist (n a b : Nat) : Nat := if a ≤ b then b - a else b + n - a

namespace Table

variable {α : Type}

def clear (capacity : Nat) : Table α := ⟨capacity, fun _ => .empty⟩

def set (t : Table α) (i : Nat) (s : Slot α) : Table α := { t with slot := Function.update t.slot i s }

def next (t : Table α) (i : Nat) : Nat := (i + 1) % t.capacity

/-! ## The loops. Running out of fuel means that the loop never ends. -/

/-- The first entry with `p` before an empty slot. -/
def findFrom (t : Table α) (p : α → Bool) : Nat → Nat → Option α
  | 0, _ => none
  | fuel + 1, i =>
    match t.slot i with
    | .empty => none
    | .full a => if p a then some a else findFrom t p fuel (t.next i)
    | .deleted => findFrom t p fuel (t.next i)

/-- Where an insertion goes: the first tombstone met before an empty slot, or else the empty slot.
The flag says that it is a tombstone. -/
def insertSlot (t : Table α) : Nat → Nat → Option Nat → Option (Nat × Bool)
  | 0, _, _ => none
  | fuel + 1, i, tombstone =>
    match t.slot i with
    | .empty => some (tombstone.elim (i, false) fun d => (d, true))
    | .deleted => insertSlot t fuel (t.next i) (tombstone.or (some i))
    | .full _ => insertSlot t fuel (t.next i) tombstone

/-- The first slot that is not full. -/
def openSlot (t : Table α) : Nat → Nat → Option Nat
  | 0, _ => none
  | fuel + 1, i =>
    match t.slot i with
    | .full _ => openSlot t fuel (t.next i)
    | _ => some i

/-- The slot that holds `a`, or `none` inside if an empty slot comes first. -/
def locate [DecidableEq α] (t : Table α) (a : α) : Nat → Nat → Option (Option Nat)
  | 0, _ => none
  | fuel + 1, i =>
    match t.slot i with
    | .empty => some none
    | .full b => if b = a then some (some i) else locate t a fuel (t.next i)
    | .deleted => locate t a fuel (t.next i)

/-- Close the hole: entries of the cluster behind it move up when the hole is on their path. -/
def backShift (home : α → Nat) : Nat → Table α → Nat → Nat → Option (Table α)
  | 0, _, _, _ => none
  | fuel + 1, t, hole, cursor =>
    match t.slot cursor with
    | .empty => some (t.set hole .empty)
    | .deleted => backShift home fuel t hole (t.next cursor)
    | .full a =>
      if dist t.capacity (home a) hole < dist t.capacity (home a) cursor then
        backShift home fuel (t.set hole (.full a)) cursor (t.next cursor)
      else backShift home fuel t hole (t.next cursor)

@[simp] theorem set_capacity (t : Table α) (i : Nat) (s : Slot α) : (t.set i s).capacity = t.capacity := rfl

@[simp] theorem clear_capacity (n : Nat) : (clear n : Table α).capacity = n := rfl

@[simp] theorem clear_slot (n i : Nat) : (clear n : Table α).slot i = .empty := rfl

theorem set_slot (t : Table α) (i j : Nat) (s : Slot α) :
    (t.set i s).slot j = if j = i then s else t.slot j := by
  simp only [set, Function.update_apply]

theorem next_eq (t : Table α) {i : Nat} (h : i < t.capacity) :
    t.next i = if i + 1 = t.capacity then 0 else i + 1 := by
  unfold next
  split_ifs with hlast
  · rw [hlast, Nat.mod_self]
  · exact Nat.mod_eq_of_lt (by omega)

theorem next_lt (t : Table α) {i : Nat} (h : i < t.capacity) : t.next i < t.capacity :=
  Nat.mod_lt _ (by omega)

theorem dist_next (t : Table α) {b i : Nat} (hb : b < t.capacity) (hi : i < t.capacity)
    (h : dist t.capacity b i + 1 < t.capacity) : dist t.capacity b (t.next i) = dist t.capacity b i + 1 := by
  rw [next_eq t hi]
  unfold dist at *
  split_ifs at * <;> omega

/-! ## Well-placed entries -/

/-- No empty slot on the way from `b` to `i`. -/
def Reach (t : Table α) (b i : Nat) : Prop :=
  ∀ j < t.capacity, dist t.capacity b j < dist t.capacity b i → t.slot j ≠ .empty

/-- The table holds exactly the entries of `S`, each once and each reachable from its home. -/
structure Holds (t : Table α) (home : α → Nat) (S : Finset α) : Prop where
  home_lt : ∀ a ∈ S, home a < t.capacity
  mem : ∀ i < t.capacity, ∀ a, t.slot i = .full a → a ∈ S
  placed : ∀ a ∈ S, ∃ i < t.capacity, t.slot i = .full a
  once : ∀ i < t.capacity, ∀ j < t.capacity, ∀ a, t.slot i = .full a → t.slot j = .full a → i = j
  reach : ∀ i < t.capacity, ∀ a, t.slot i = .full a → t.Reach (home a) i

def deletedCount (t : Table α) : Nat := ((Finset.range t.capacity).filter fun i => (t.slot i).isDeleted).card

theorem holds_clear (home : α → Nat) (n : Nat) : (clear n : Table α).Holds home ∅ := by
  refine ⟨by simp, ?_, by simp, ?_, ?_⟩ <;> simp

theorem deletedCount_clear (n : Nat) : (clear n : Table α).deletedCount = 0 := by
  simp [deletedCount, Slot.isDeleted]

theorem exists_empty {t : Table α} {home : α → Nat} {S : Finset α} (h : t.Holds home S)
    (hload : S.card + t.deletedCount < t.capacity) : ∃ i < t.capacity, t.slot i = .empty := by
  classical
  by_contra hno
  push Not at hno
  let full := (Finset.range t.capacity).filter fun i => ∃ a, t.slot i = .full a
  have hfull : full.card ≤ S.card := by
    apply le_trans _ (Finset.card_image_le (s := S) (f := Slot.full))
    apply Finset.card_le_card_of_injOn t.slot
    · intro i hi
      obtain ⟨hi, a, ha⟩ := Finset.mem_filter.mp (show i ∈ full from hi)
      rw [ha]
      exact Finset.mem_image_of_mem _ (h.mem i (Finset.mem_range.mp hi) a ha)
    · intro i hi j hj hij
      obtain ⟨hi, a, ha⟩ := Finset.mem_filter.mp (show i ∈ full from hi)
      obtain ⟨hj, -⟩ := Finset.mem_filter.mp (show j ∈ full from hj)
      exact h.once i (Finset.mem_range.mp hi) j (Finset.mem_range.mp hj) a ha (by rw [← hij, ha])
  have hcover : Finset.range t.capacity ⊆
      full ∪ (Finset.range t.capacity).filter fun i => (t.slot i).isDeleted := by
    intro i hi
    have hne := hno i (Finset.mem_range.mp hi)
    rw [Finset.mem_union, Finset.mem_filter, Finset.mem_filter]
    cases hs : t.slot i with
    | empty => exact absurd hs hne
    | full a => exact Or.inl ⟨hi, a, rfl⟩
    | deleted => exact Or.inr ⟨hi, rfl⟩
  have hcard := (Finset.card_le_card hcover).trans (Finset.card_union_le _ _)
  rw [Finset.card_range] at hcard
  unfold deletedCount at hload
  omega

end Table

end UtreexoBridge.OpenAddressing
