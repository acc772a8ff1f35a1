import UtreexoBridge.Accumulator.Spec

/-! # Deletions commute -/

namespace UtreexoBridge

variable {H : Type}

theorem Tree.join_bind (keep : H → Bool) (a b : Option (Tree H)) :
    (Tree.join a b).bind (Tree.prune keep) = Tree.join (a.bind (Tree.prune keep)) (b.bind (Tree.prune keep)) := by
  cases a with
  | none => rfl
  | some l =>
    cases b with
    | none => cases h : l.prune keep <;> simp [Tree.join, h]
    | some r => rfl

theorem Tree.prune_prune (p q : H → Bool) (t : Tree H) :
    (t.prune p).bind (Tree.prune q) = t.prune fun h => p h && q h := by
  induction t with
  | leaf h =>
    simp only [Tree.prune]
    by_cases hp : p h = true
    · simp [hp, Tree.prune]
    · simp [hp]
  | node l r ihl ihr => rw [Tree.prune, Tree.join_bind, ihl, ihr, Tree.prune]

namespace Accumulator

variable [DecidableEq H]

theorem delete_comm (m : Accumulator H) (a b : H) : (m.delete a).delete b = (m.delete b).delete a := by
  simp only [delete, Accumulator.mk.injEq, true_and]
  funext row
  cases m.tree row with
  | none => rfl
  | some t =>
    simp only [Option.bind_some, Tree.prune_prune]
    congr 1
    funext h
    exact Bool.and_comm _ _

theorem foldl_delete_perm {l l' : List H} (h : l.Perm l') (m : Accumulator H) : l.foldl delete m = l'.foldl delete m :=
  h.foldl_eq' (fun a _ b _ m => delete_comm m a b) m

theorem checkDeletions_ok_iff (m : Accumulator H) (seen dels : List H) :
    m.checkDeletions seen dels = .ok () ↔ dels.Nodup ∧ ∀ h ∈ dels, h ∉ seen ∧ m.Mem h := by
  induction dels generalizing seen with
  | nil => simp [checkDeletions]
  | cons h rest ih =>
    rw [checkDeletions]
    by_cases hs : h ∈ seen
    · rw [if_pos hs]
      simp [hs]
    · rw [if_neg hs]
      by_cases hm : m.Mem h
      · rw [if_pos hm, ih]
        simp only [List.nodup_cons, List.mem_cons, not_or, forall_eq_or_imp]
        constructor
        · rintro ⟨hnd, hall⟩
          exact ⟨⟨fun hr => (hall h hr).1.1 rfl, hnd⟩, ⟨hs, hm⟩, fun x hx => ⟨(hall x hx).1.2, (hall x hx).2⟩⟩
        · rintro ⟨⟨hnot, hnd⟩, -, hall⟩
          exact ⟨hnd, fun x hx => ⟨⟨fun he => hnot (he ▸ hx), (hall x hx).1⟩, (hall x hx).2⟩⟩
      · rw [if_neg hm]
        simp [hm]

end Accumulator

end UtreexoBridge
