import UtreexoBridge.OpenAddressing.Ops

/-! # Tables whose entries are renamed

No loop compares two entries, so renaming commutes with all that do not ask for a given entry.
-/

namespace UtreexoBridge.OpenAddressing

variable {α β : Type}

def Slot.map (f : α → β) : Slot α → Slot β
  | .empty => .empty
  | .full a => .full (f a)
  | .deleted => .deleted

namespace Table

def rename (f : α → β) (t : Table α) : Table β := ⟨t.capacity, fun i => (t.slot i).map f⟩

variable (f : α → β) (t : Table α)

@[simp] theorem rename_capacity : (t.rename f).capacity = t.capacity := rfl

@[simp] theorem rename_slot (i : Nat) : (t.rename f).slot i = (t.slot i).map f := rfl

@[simp] theorem rename_next (i : Nat) : (t.rename f).next i = t.next i := rfl

@[simp] theorem rename_clear (n : Nat) : (clear n : Table α).rename f = clear n := rfl

theorem rename_set (i : Nat) (s : Slot α) : (t.set i s).rename f = (t.rename f).set i (s.map f) := by
  simp only [rename, set, Table.mk.injEq, true_and]
  funext j
  rw [Function.update_apply, Function.update_apply]
  split_ifs <;> rfl

theorem findFrom_rename (p : β → Bool) (fuel i : Nat) :
    (t.rename f).findFrom p fuel i = (t.findFrom (fun a => p (f a)) fuel i).map f := by
  induction fuel generalizing i with
  | zero => rfl
  | succ fuel ih =>
    rw [findFrom, findFrom, rename_slot, rename_next]
    cases hs : t.slot i with
    | empty => rfl
    | deleted => exact ih _
    | full a =>
      simp only [Slot.map]
      split_ifs
      · rfl
      · exact ih _

theorem insertSlot_rename (fuel i : Nat) (tombstone : Option Nat) :
    (t.rename f).insertSlot fuel i tombstone = t.insertSlot fuel i tombstone := by
  induction fuel generalizing i tombstone with
  | zero => rfl
  | succ fuel ih =>
    rw [insertSlot, insertSlot, rename_slot, rename_next]
    cases hs : t.slot i with
    | empty => rfl
    | deleted => exact ih _ _
    | full a => exact ih _ _

theorem openSlot_rename (fuel i : Nat) : (t.rename f).openSlot fuel i = t.openSlot fuel i := by
  induction fuel generalizing i with
  | zero => rfl
  | succ fuel ih =>
    rw [openSlot, openSlot, rename_slot, rename_next]
    cases hs : t.slot i with
    | empty => rfl
    | deleted => rfl
    | full a => exact ih _

variable {t}

theorem refill_rename (home : α → Nat) (home' : β → Nat) (entries : List α)
    (hhome : ∀ a ∈ entries, home' (f a) = home a) :
    refill home' (entries.map f) (t.rename f) = (refill home entries t).map (rename f) := by
  induction entries generalizing t with
  | nil => rfl
  | cons a rest ih =>
    rw [List.map_cons, refill, refill, hhome a (by simp), openSlot_rename, rename_capacity]
    cases t.openSlot t.capacity (home a) with
    | none => rfl
    | some d =>
      have hset := rename_set f t d (.full a)
      simp only
      rw [← ih fun b hb => hhome b (by simp [hb]), hset]
      rfl

theorem entries_rename : (t.rename f).entries = t.entries.map f := by
  rw [entries, entries, List.map_filterMap]
  refine List.filterMap_congr fun i _ => ?_
  rw [rename_slot]
  cases t.slot i <;> rfl

end Table

end UtreexoBridge.OpenAddressing
