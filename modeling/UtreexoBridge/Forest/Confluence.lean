import UtreexoBridge.Forest.RoundTrip

/-!
# The order of deletions does not matter

A deletion moves and frees nodes that later ones name, and `Modify` resolves all
of them first. Both end with each row's tree contracted to its surviving leaves.
-/

namespace UtreexoBridge

variable {H : Type} [DecidableEq H]

namespace Accumulator

/-- Each row's tree contracted to the leaves outside `dels`. -/
def contract (m : Accumulator H) (dels : List H) : Accumulator H :=
  { m with tree := fun row => (m.tree row).bind (Tree.prune (· ∉ dels)) }

omit [DecidableEq H] in
theorem prune_all (t : Tree H) : t.prune (fun _ => true) = some t := by
  induction t with
  | leaf h => rfl
  | node l r ihl ihr => rw [Tree.prune, ihl, ihr, Tree.join]

theorem foldl_delete_eq_contract (m : Accumulator H) (dels : List H) : dels.foldl delete m = m.contract dels := by
  induction dels generalizing m with
  | nil =>
    obtain ⟨numLeaves, tree⟩ := m
    simp only [List.foldl_nil, contract, List.not_mem_nil, not_false_eq_true, decide_true, mk.injEq, true_and]
    funext row
    cases tree row with
    | none => rfl
    | some t => exact (prune_all t).symm
  | cons v dels ih =>
    rw [List.foldl_cons, ih]
    simp only [contract, delete, mk.injEq, true_and]
    funext row
    cases m.tree row with
    | none => rfl
    | some t =>
      rw [Option.bind_some, Option.bind_some, Tree.prune_prune]
      congr 1
      funext h
      simp [List.mem_cons, not_or]

omit [DecidableEq H] in
theorem mem_leaves_join {a b : Option (Tree H)} {t : Tree H} (h : Tree.join a b = some t) (v : H) :
    v ∈ t.leaves ↔ (∃ l, a = some l ∧ v ∈ l.leaves) ∨ ∃ r, b = some r ∧ v ∈ r.leaves := by
  cases a with
  | none =>
    cases b with
    | none => cases h
    | some r =>
      cases h
      simp
  | some l =>
    cases b with
    | none =>
      cases h
      simp
    | some r =>
      cases h
      simp [Tree.leaves]

omit [DecidableEq H] in
theorem mem_leaves_prune (keep : H → Bool) (t : Tree H) (v : H) :
    (∃ t', t.prune keep = some t' ∧ v ∈ t'.leaves) ↔ v ∈ t.leaves ∧ keep v = true := by
  induction t with
  | leaf h =>
    rw [Tree.prune]
    by_cases hk : keep h = true
    · simp only [hk, if_true, Option.some.injEq, exists_eq_left', Tree.leaves, List.mem_singleton]
      constructor
      · rintro rfl
        exact ⟨rfl, hk⟩
      · exact fun hv => hv.1
    · simp only [hk, Bool.false_eq_true, if_false, reduceCtorEq, false_and, exists_false, Tree.leaves,
        List.mem_singleton, false_iff, not_and]
      rintro rfl
      exact hk
  | node l r ihl ihr =>
    rw [Tree.prune, Tree.leaves, List.mem_append, or_and_right, ← ihl, ← ihr]
    cases hjoin : Tree.join (l.prune keep) (r.prune keep) with
    | none =>
      cases hl : l.prune keep with
      | none =>
        rw [hl] at hjoin
        rw [show r.prune keep = none from hjoin]
        simp
      | some a =>
        rw [hl] at hjoin
        cases hr : r.prune keep with
        | none =>
          rw [hr] at hjoin
          cases hjoin
        | some b =>
          rw [hr] at hjoin
          cases hjoin
    | some t' => simpa using mem_leaves_join hjoin v

theorem mem_contract (m : Accumulator H) (dels : List H) (v : H) : (m.contract dels).Mem v ↔ m.Mem v ∧ v ∉ dels := by
  simp only [Mem, contract, Option.bind_eq_some_iff]
  constructor
  · rintro ⟨row, t', ⟨t, ht, hprune⟩, hv⟩
    obtain ⟨hmem, hkeep⟩ := (mem_leaves_prune _ t v).mp ⟨t', hprune, hv⟩
    exact ⟨⟨row, t, ht, hmem⟩, by simpa using hkeep⟩
  · rintro ⟨⟨row, t, ht, hv⟩, hnot⟩
    obtain ⟨t', hprune, hv'⟩ := (mem_leaves_prune (fun h => decide (h ∉ dels)) t v).mpr ⟨hv, by simpa using hnot⟩
    exact ⟨row, t', ⟨t, ht, hprune⟩, hv'⟩

end Accumulator

/-! ## The forest -/

variable [ForestHash H]

namespace PackedForest

def delete (f : PackedForest H) (leaf : H) : Except Fault (Res × PackedForest H) :=
  match f.index.find f.arena leaf with
  | none => .ok (.error "leaf does not exist in forest", f)
  | some id => f.deleteId id

def deleteEach (f : PackedForest H) : List H → Except Fault (List Res × PackedForest H)
  | [] => .ok ([], f)
  | leaf :: leaves =>
    match f.delete leaf with
    | .error fault => .error fault
    | .ok (res, f) =>
      match deleteEach f leaves with
      | .error fault => .error fault
      | .ok (results, f) => .ok (res :: results, f)

end PackedForest

variable {f : PackedForest H} {m : Accumulator H} {trees : Nat → Option (IdTree H)}

theorem Represents.delete (h : Represents f trees) {v : H} (hv : (accumulatorOf f.numLeaves trees).Mem v) :
    ∃ f' trees', f.delete v = .ok (.ok (), f') ∧ Represents f' trees' ∧
      accumulatorOf f'.numLeaves trees' = (accumulatorOf f.numLeaves trees).delete v := by
  obtain ⟨x, hx⟩ := h.mem_iff.mp hv
  obtain ⟨f', trees', hrun, hrep, hacc, -⟩ := h.deleteId hx
  refine ⟨f', trees', ?_, hrep, hacc⟩
  rw [PackedForest.delete, h.find_eq_some hx]
  exact hrun

theorem Represents.deleteEach (h : Represents f trees) (dels : List H) (hnodup : dels.Nodup)
    (hmem : ∀ v ∈ dels, (accumulatorOf f.numLeaves trees).Mem v) :
    ∃ f' trees', f.deleteEach dels = .ok (dels.map fun _ => .ok (), f') ∧ Represents f' trees' ∧
      accumulatorOf f'.numLeaves trees' = (accumulatorOf f.numLeaves trees).contract dels := by
  rw [← Accumulator.foldl_delete_eq_contract]
  induction dels generalizing f trees with
  | nil => exact ⟨f, trees, rfl, h, rfl⟩
  | cons v dels ih =>
    obtain ⟨hv, hnodup⟩ := List.nodup_cons.mp hnodup
    obtain ⟨f1, trees1, hrun, hrep, hacc⟩ := h.delete (hmem v (by simp))
    -- the deletions to come are still live
    have hrest : ∀ w ∈ dels, (accumulatorOf f1.numLeaves trees1).Mem w := by
      intro w hw
      have hone := Accumulator.mem_contract (accumulatorOf f.numLeaves trees) [v] w
      rw [← Accumulator.foldl_delete_eq_contract] at hone
      rw [hacc]
      refine hone.mpr ⟨hmem w (by simp [hw]), ?_⟩
      rw [List.mem_singleton]
      rintro rfl
      exact hv hw
    obtain ⟨f', trees', hrun', hrep', hacc'⟩ := ih hrep hnodup hrest
    refine ⟨f', trees', ?_, hrep', by rw [hacc', hacc, List.foldl_cons]⟩
    rw [PackedForest.deleteEach, hrun]
    simp only [hrun', List.map_cons]

/-- A block without additions never runs out of ids. -/
theorem Shows.modify_deletions (h : Shows f m) {dels : List H} (hnodup : dels.Nodup) (hmem : ∀ v ∈ dels, m.Mem v) :
    ∃ f', f.modify [] dels = .ok (.ok (), f') ∧ Shows f' (m.contract dels) := by
  have hcheck : m.checkDeletions [] dels = .ok () :=
    (m.checkDeletions_ok_iff [] dels).mpr ⟨hnodup, fun v hv => ⟨by simp, hmem v hv⟩⟩
  have hfresh : m.FreshCall (.modify [] dels) := fun _ => ⟨by simp, by simp⟩
  rcases h.modify_eq hfresh with
    ⟨message, herr, -⟩ | ⟨-, f', hshows, -, -, hrun⟩
  · rw [hcheck] at herr
    cases herr
  · rw [Accumulator.foldl_delete_eq_contract] at hshows
    exact ⟨f', hrun, hshows⟩

/-- **Confluence.** In a run that adds no live hash: live leaves deleted one by one in any order, or all by one block,
leave the trees contracted to the surviving leaves. -/
theorem deletions_confluent (calls : List (Call H)) (hfresh : (Accumulator.empty : Accumulator H).FreshRun calls)
    {results : List Res} {f : PackedForest H} (hrun : PackedForest.new.run calls = .ok (results, f)) {dels : List H}
    (hnodup : dels.Nodup) (hlive : ∀ v ∈ dels, f.contains v = true) :
    let m := ((Accumulator.empty : Accumulator H).run calls).2.contract dels
    (∀ order, order.Perm dels → ∃ f', f.deleteEach order = .ok (order.map fun _ => .ok (), f') ∧
      f'.rootHashes = m.roots ∧ f'.numLeaves = m.numLeaves ∧
        ∀ v, f'.contains v = true ↔ f.contains v = true ∧ v ∉ dels) ∧
    ∃ f', f.modify [] dels = .ok (.ok (), f') ∧ f'.rootHashes = m.roots ∧ f'.numLeaves = m.numLeaves ∧
      ∀ v, f'.contains v = true ↔ f.contains v = true ∧ v ∉ dels := by
  have hlinks := PackedForest.links_new.run hrun
  rcases represents_new.run calls hfresh with ⟨fault, herr, -⟩ | ⟨f0, trees, hok, hrep, hacc⟩
  · rw [herr] at hrun
    cases hrun
  rw [hok] at hrun
  cases hrun
  rw [show accumulatorOf PackedForest.new.numLeaves (fun _ => none : Nat → Option (IdTree H)) = Accumulator.empty from rfl]
    at hacc
  simp only
  rw [← hacc]
  have hmem : ∀ v ∈ dels, (accumulatorOf f.numLeaves trees).Mem v := fun v hv => (hrep.contains_iff v).mp (hlive v hv)
  have hcontains : ∀ {f' trees'}, Represents f' trees' →
      accumulatorOf f'.numLeaves trees' = (accumulatorOf f.numLeaves trees).contract dels →
        ∀ v, f'.contains v = true ↔ f.contains v = true ∧ v ∉ dels := by
    intro f' trees' hrep' hacc' v
    rw [hrep'.contains_iff, hrep.contains_iff, hacc', Accumulator.mem_contract]
  constructor
  · intro order hperm
    obtain ⟨f', trees', hdel, hrep', hacc'⟩ := hrep.deleteEach order (hperm.nodup_iff.mpr hnodup)
      fun v hv => hmem v (hperm.mem_iff.mp hv)
    rw [← Accumulator.foldl_delete_eq_contract, Accumulator.foldl_delete_perm hperm,
      Accumulator.foldl_delete_eq_contract] at hacc'
    exact ⟨f', hdel, by rw [hrep'.rootHashes_eq, hacc'], by rw [← hacc']; rfl, hcontains hrep' hacc'⟩
  · have hshows : Shows f (accumulatorOf f.numLeaves trees) := ⟨⟨trees, hrep, rfl⟩, hlinks⟩
    obtain ⟨f', hmod, hshows'⟩ := hshows.modify_deletions hnodup hmem
    obtain ⟨trees', hrep', hacc'⟩ := hshows'.represents
    exact ⟨f', hmod, hshows'.rootHashes_eq, hshows'.numLeaves_eq, hcontains hrep' hacc'⟩

/-- Two of the three leaves of `spendingCalls`, in the other order. -/
theorem deletions_confluent_spending :
    (∀ order, order.Perm [leafHash 2, leafHash 3] → ∃ f', (reached spendingCalls).deleteEach order =
        .ok (order.map fun _ => .ok (), f') ∧ f'.rootHashes =
          (((Accumulator.empty : Accumulator ByteHash).run spendingCalls).2.contract [leafHash 2, leafHash 3]).roots ∧
        f'.numLeaves =
          (((Accumulator.empty : Accumulator ByteHash).run spendingCalls).2.contract [leafHash 2, leafHash 3]).numLeaves ∧
        ∀ v, f'.contains v = true ↔ (reached spendingCalls).contains v = true ∧ v ∉ [leafHash 2, leafHash 3]) ∧
    ∃ f', (reached spendingCalls).modify [] [leafHash 2, leafHash 3] = .ok (.ok (), f') ∧ f'.rootHashes =
          (((Accumulator.empty : Accumulator ByteHash).run spendingCalls).2.contract [leafHash 2, leafHash 3]).roots ∧
        f'.numLeaves =
          (((Accumulator.empty : Accumulator ByteHash).run spendingCalls).2.contract [leafHash 2, leafHash 3]).numLeaves ∧
        ∀ v, f'.contains v = true ↔ (reached spendingCalls).contains v = true ∧ v ∉ [leafHash 2, leafHash 3] :=
  deletions_confluent spendingCalls freshRun_spendingCalls run_spendingCalls (by decide) (by decide +kernel)

end UtreexoBridge
