import UtreexoBridge.Forest.Modify

/-!
# The packed forest is the accumulator

Every run of `Add` and `Modify` calls from an empty forest gives the results,
the roots, the leaf count and the members of the accumulator, and leaves the
arena well linked.
-/

namespace UtreexoBridge

open IdTree

variable {H : Type} [ForestHash H]

/-- Parent links lead from `x` to `root`. -/
inductive Below (read : Nat → NodeRecord H) (root : Nat) : Nat → Prop
  | root : Below read root root
  | child {x : Nat} (hparent : (read x).parent ≠ noNode) (h : Below read root (read x).parent) : Below read root x

/-- The links of the live nodes, as the source relies on them. -/
structure WellLinked (f : PackedForest H) : Prop where
  books : f.arena.Bookkeeping
  branch_hash : ∀ x ∈ f.arena.liveIds, (f.arena.read x).type = .branch → (f.arena.read x).hash =
    parentHash (f.arena.read (f.arena.read x).left).hash (f.arena.read (f.arena.read x).right).hash
  children : ∀ x ∈ f.arena.liveIds, (f.arena.read x).type = .branch →
    ((f.arena.read x).left ∈ f.arena.liveIds ∧ (f.arena.read (f.arena.read x).left).parent = x) ∧
    ((f.arena.read x).right ∈ f.arena.liveIds ∧ (f.arena.read (f.arena.read x).right).parent = x)
  parent : ∀ x ∈ f.arena.liveIds, (f.arena.read x).parent ≠ noNode →
    (f.arena.read x).parent ∈ f.arena.liveIds ∧ (f.arena.read (f.arena.read x).parent).type = .branch ∧
    ((f.arena.read (f.arena.read x).parent).left = x ∨ (f.arena.read (f.arena.read x).parent).right = x)
  one_row : ∀ x ∈ f.arena.liveIds, ∃! row, row < 64 ∧ f.numLeaves.testBit row ∧ rootAt f.roots row ≠ noNode ∧
    Below f.arena.read (rootAt f.roots row) x

omit [ForestHash H] in
theorem exists_plug_id {t : IdTree H} {x : Nat} (h : x ∈ t.ids) : ∃ fs s, t = plug fs s ∧ s.id = x := by
  induction t with
  | leaf id v =>
    obtain rfl : x = id := by simpa [ids] using h
    exact ⟨[], _, rfl, rfl⟩
  | node id l r ihl ihr =>
    rw [ids, List.mem_cons, List.mem_append] at h
    rcases h with rfl | h | h
    · exact ⟨[], _, rfl, rfl⟩
    · obtain ⟨fs, s, rfl, hs⟩ := ihl h
      exact ⟨fs ++ [⟨id, true, r⟩], s, by rw [plug_append]; rfl, hs⟩
    · obtain ⟨fs, s, rfl, hs⟩ := ihr h
      exact ⟨fs ++ [⟨id, false, l⟩], s, by rw [plug_append]; rfl, hs⟩

theorem below_plug {read : Nat → NodeRecord H} (fs : List (Frame H)) (s : IdTree H)
    (hlinked : Linked read (plug fs s) noNode) (hne : ∀ f ∈ fs, f.id ≠ noNode) :
    Below read (plug fs s).id s.id := by
  induction fs generalizing s with
  | nil => exact .root
  | cons f fs ih =>
    obtain ⟨hl, -⟩ := (linked_plug (f :: fs) s).mp hlinked
    have hparent : (read s.id).parent = f.id := hl.parent_eq
    have hup := ih (f.fill s) hlinked fun g hg => hne g (by simp [hg])
    rw [fill_id] at hup
    exact .child (by rw [hparent]; exact hne f (by simp)) (by rw [hparent]; exact hup)

theorem below_mem {read : Nat → NodeRecord H} {t : IdTree H} (hlinked : Linked read t noNode) {x root : Nat}
    (hx : x ∈ t.ids) (h : Below read root x) : root ∈ t.ids := by
  induction h with
  | root => exact hx
  | child hparent _ ih =>
    apply ih
    obtain ⟨fs, s, rfl, rfl⟩ := exists_plug_id hx
    obtain ⟨hl, -⟩ := (linked_plug fs s).mp hlinked
    cases fs with
    | nil => exact absurd hl.parent_eq hparent
    | cons f fs =>
      rw [hl.parent_eq]
      exact (ids_plug (f :: fs) s).mem_iff.mpr (by simp [frameIds, holeParent])

theorem Structured.exists_linked {f : PackedForest H} {trees : Nat → Option (IdTree H)} (h : Structured f trees) {x : Nat}
    (hx : x ∈ f.arena.liveIds) :
    ∃ row fs s, trees row = some (plug fs s) ∧ s.id = x ∧ Linked f.arena.read s (holeParent noNode fs) := by
  obtain ⟨t, ht, hxt⟩ := List.mem_flatMap.mp ((h.shape.live_iff x).mp hx)
  obtain ⟨row, -, hrow⟩ := mem_rowTrees.mp ht
  obtain ⟨fs, s, rfl, hs⟩ := exists_plug_id hxt
  exact ⟨row, fs, s, hrow, hs, ((linked_plug fs s).mp (h.shape.linked _ ht)).1⟩

theorem Structured.wellLinked {f : PackedForest H} {trees : Nat → Option (IdTree H)} (h : Structured f trees) :
    WellLinked f := by
  have hplace : ∀ x ∈ f.arena.liveIds, ∃ row fs s, trees row = some (plug fs s) ∧ s.id = x := by
    intro x hx
    obtain ⟨t, ht, hxt⟩ := List.mem_flatMap.mp ((h.shape.live_iff x).mp hx)
    obtain ⟨row, -, hrow⟩ := mem_rowTrees.mp ht
    obtain ⟨fs, s, rfl, hs⟩ := exists_plug_id hxt
    exact ⟨row, fs, s, hrow, hs⟩
  have hbranch : ∀ x ∈ f.arena.liveIds, (f.arena.read x).type = .branch → ∃ row fs l r,
      trees row = some (plug fs (.node x l r)) ∧ f.arena.read x =
        ⟨parentHash l.hash r.hash, holeParent noNode fs, l.id, r.id, .branch⟩ ∧ Linked f.arena.read l x ∧
        Linked f.arena.read r x := by
    intro x hx htype
    obtain ⟨row, fs, s, hrow, rfl⟩ := hplace x hx
    obtain ⟨hl, -⟩ := (linked_plug fs s).mp (h.shape.linked _ (h.mem_rows hrow))
    cases s with
    | leaf id v =>
      rw [IdTree.id, show f.arena.read id = _ from hl] at htype
      cases htype
    | node id l r => exact ⟨row, fs, l, r, hrow, hl⟩
  have hlive : ∀ {row fs s}, trees row = some (plug fs s) → ∀ x ∈ s.ids ++ frameIds fs, x ∈ f.arena.liveIds :=
    fun hrow x hx => h.shape.mem_live (h.mem_rows hrow) ((ids_plug _ _).mem_iff.mpr hx)
  refine ⟨h.books, ?_, ?_, ?_, ?_⟩
  · intro x hx htype
    obtain ⟨row, fs, l, r, hrow, hrec, hl, hr⟩ := hbranch x hx htype
    rw [hrec, hl.hash_eq, hr.hash_eq]
  · intro x hx htype
    obtain ⟨row, fs, l, r, hrow, hrec, hl, hr⟩ := hbranch x hx htype
    rw [hrec]
    refine ⟨⟨hlive hrow _ ?_, hl.parent_eq⟩, hlive hrow _ ?_, hr.parent_eq⟩
    · simp [ids, l.id_mem_ids]
    · simp [ids, r.id_mem_ids]
  · intro x hx hparent
    obtain ⟨row, fs, s, hrow, rfl⟩ := hplace x hx
    obtain ⟨hl, hframes⟩ := (linked_plug fs s).mp (h.shape.linked _ (h.mem_rows hrow))
    cases fs with
    | nil => exact absurd hl.parent_eq hparent
    | cons g fs =>
      have hpar : (f.arena.read s.id).parent = g.id := hl.parent_eq
      obtain ⟨hrec, -, -⟩ := hframes
      rw [hpar, hrec]
      refine ⟨hlive hrow g.id (by simp [frameIds]), record_type _ _ _ _, ?_⟩
      unfold Frame.record
      split_ifs
      · exact Or.inl rfl
      · exact Or.inr rfl
  · intro x hx
    obtain ⟨row, fs, s, hrow, rfl⟩ := hplace x hx
    have hmem := h.mem_rows hrow
    have hroot : rootAt f.roots row = (plug fs s).id := by rw [h.roots row (h.row_lt hrow), hrow]; rfl
    have hne : (plug fs s).id ≠ noNode := Nat.ne_of_lt (h.id_lt (h.shape.mem_live hmem (plug fs s).id_mem_ids))
    refine ⟨row, ⟨h.row_lt hrow, h.bits row _ hrow, by rw [hroot]; exact hne, ?_⟩, ?_⟩
    · rw [hroot]
      apply below_plug fs s (h.shape.linked _ hmem)
      intro g hg
      exact Nat.ne_of_lt (h.id_lt (hlive hrow g.id (by simp [frameId_mem hg])))
    · rintro r ⟨hr, -, hrne, hbelow⟩
      have hsid : s.id ∈ (plug fs s).ids := (ids_plug fs s).mem_iff.mpr (by simp [s.id_mem_ids])
      rw [h.roots r hr] at hrne hbelow
      cases ht : trees r with
      | none => rw [ht] at hrne; exact absurd rfl hrne
      | some t =>
        rw [ht, Option.elim_some] at hbelow
        have := below_mem (h.shape.linked _ hmem) hsid hbelow
        exact (h.row_unique hrow ht this t.id_mem_ids).symm

variable [DecidableEq H]

/-- **Refinement.** A run of calls from the empty forest that adds no live hash runs out of ids or rows,
or returns the accumulator's results and shows its roots, leaf count and members. -/
theorem run_refines (calls : List (Call H)) (hfresh : (Accumulator.empty : Accumulator H).FreshRun calls) :
    match (PackedForest.new : PackedForest H).run calls with
    | .error fault => fault.Exhausted
    | .ok (results, f) =>
      let m := (Accumulator.empty : Accumulator H).run calls
      results = m.1 ∧ f.numLeaves = m.2.numLeaves ∧ f.rootHashes = m.2.roots ∧
        (∀ h, f.contains h = true ↔ m.2.Mem h) ∧ WellLinked f := by
  have hempty : accumulatorOf (PackedForest.new : PackedForest H).numLeaves (fun _ => none) =
      (Accumulator.empty : Accumulator H) := rfl
  rcases represents_new.run calls (by rw [hempty]; exact hfresh) with ⟨fault, herr, hex⟩ | ⟨f, trees, hok, hrep, hacc⟩
  · rw [herr]
    exact hex
  · rw [hok]
    rw [hempty] at hacc ⊢
    refine ⟨rfl, ?_, ?_, ?_, hrep.wellLinked⟩
    · rw [← hacc]; rfl
    · rw [hrep.rootHashes_eq, hacc]
    · intro v
      rw [hrep.contains_iff, hacc]

/-! ## Fresh calls, as the forest can tell them -/

namespace PackedForest

def freshCall (f : PackedForest H) : Call H → Bool
  | .add v => !f.contains v
  | .modify additions deletions =>
    decide additions.Nodup && additions.all fun v => !f.contains v || decide (v ∈ deletions)

def freshRun (f : PackedForest H) : List (Call H) → Bool
  | [] => true
  | c :: calls =>
    f.freshCall c &&
      match f.call c with
      | .error _ => false
      | .ok (_, f) => freshRun f calls

end PackedForest

theorem Represents.freshCall {f : PackedForest H} {trees : Nat → Option (IdTree H)} (h : Represents f trees)
    (c : Call H) (hfresh : f.freshCall c = true) : (accumulatorOf f.numLeaves trees).FreshCall c := by
  cases c with
  | add v =>
    rw [PackedForest.freshCall, Bool.not_eq_true'] at hfresh
    intro hmem
    rw [(h.contains_iff v).mpr hmem] at hfresh
    cases hfresh
  | modify additions deletions =>
    simp only [PackedForest.freshCall, Bool.and_eq_true, decide_eq_true_eq, List.all_eq_true] at hfresh
    intro _
    refine ⟨hfresh.1, fun v hv hmem => ?_⟩
    have := hfresh.2 v hv
    rw [(h.contains_iff v).mpr hmem] at this
    simpa using this

theorem Represents.freshRun {f : PackedForest H} {trees : Nat → Option (IdTree H)} (h : Represents f trees)
    (calls : List (Call H)) (hfresh : f.freshRun calls = true) : (accumulatorOf f.numLeaves trees).FreshRun calls := by
  induction calls generalizing f trees with
  | nil => trivial
  | cons c calls ih =>
    rw [PackedForest.freshRun, Bool.and_eq_true] at hfresh
    obtain ⟨hc, hrest⟩ := hfresh
    have hcall := h.freshCall c hc
    refine ⟨hcall, ?_⟩
    rcases h.call c hcall with ⟨fault, herr, -⟩ | ⟨f', trees', hok, hrep, hacc⟩
    · rw [herr] at hrest
      cases hrest
    · rw [hok] at hrest
      rw [← hacc]
      exact ih hrep hrest

def threeCalls : List (Call TermHash) := [.add (.leaf 1), .add (.leaf 2), .modify [.leaf 3] [.leaf 1]]

theorem freshRun_threeCalls : (Accumulator.empty : Accumulator TermHash).FreshRun threeCalls :=
  represents_new.freshRun threeCalls (by decide +kernel)

theorem run_refines_three :
    (Accumulator.empty : Accumulator TermHash).FreshRun threeCalls ∧
      match (PackedForest.new : PackedForest TermHash).run threeCalls with
      | .error fault => fault.Exhausted
      | .ok (results, f) =>
        let m := (Accumulator.empty : Accumulator TermHash).run threeCalls
        results = m.1 ∧ f.numLeaves = m.2.numLeaves ∧ f.rootHashes = m.2.roots ∧
          (∀ h, f.contains h = true ↔ m.2.Mem h) ∧ WellLinked f :=
  ⟨freshRun_threeCalls, run_refines threeCalls freshRun_threeCalls⟩

/-! ## Reachable forests -/

/-- A state that a run leads to in which no hash is added while it is live. -/
def Reachable (f : PackedForest H) : Prop :=
  ∃ calls results, (Accumulator.empty : Accumulator H).FreshRun calls ∧ PackedForest.new.run calls = .ok (results, f)

theorem Reachable.represents {f : PackedForest H} (h : Reachable f) : ∃ trees, Represents f trees := by
  obtain ⟨calls, results, hfresh, hrun⟩ := h
  rcases represents_new.run calls hfresh with ⟨fault, herr, -⟩ | ⟨f', trees, hok, hrep, -⟩
  · rw [herr] at hrun
    cases hrun
  · rw [hok] at hrun
    cases hrun
    exact ⟨trees, hrep⟩

end UtreexoBridge
