import Mathlib.Data.List.ReduceOption
import UtreexoBridge.Forest.Prove
import UtreexoBridge.Sync.Spec

/-!
# A fully spent tree stops the bridge

With an emptied row none of the callers gets a dense root list, so blocks,
captures and transactions all fail. Without one they all go through.
-/

namespace UtreexoBridge

variable {H : Type} [ForestHash H] {f : PackedForest H}

/-- No row with a set bit of `num_leaves` has lost its tree. -/
def NoEmptyRow (f : PackedForest H) : Prop := none ∉ f.rootHashes

variable [DecidableEq H]

omit [ForestHash H] in
theorem presentRoots_eq (message : String) (roots : List (Option H)) :
    presentRoots message roots = if none ∈ roots then .error message else .ok roots.reduceOption := by
  induction roots with
  | nil => rfl
  | cons root roots ih =>
    cases root with
    | none => simp [presentRoots]
    | some root =>
      rw [presentRoots, ih]
      by_cases h : none ∈ roots
      · simp [h]
      · simp [h]

omit [ForestHash H] [DecidableEq H] in
theorem rootListed_reduceOption {roots : List (Option H)} (h : none ∉ roots) :
    List.Forall₂ RootListed roots.reduceOption roots := by
  induction roots with
  | nil => exact .nil
  | cons root roots ih =>
    rw [List.mem_cons, not_or] at h
    cases root with
    | none => exact absurd rfl h.1
    | some root =>
      rw [List.reduceOption_cons_of_some]
      exact .cons rfl (ih h.2)

/-- Live leaves, each once. -/
def LiveTargets (f : PackedForest H) (targets : List H) : Prop := targets.Nodup ∧ ∀ v ∈ targets, f.contains v = true

/-- Proof generation fails on an emptied row and only there. -/
theorem preBlockProof_eq (hreach : Reachable f) (hbound : f.numLeaves < 2 ^ 62) {deletions : List H}
    (hlive : LiveTargets f deletions) :
    if none ∈ f.rootHashes then
      SequentialSync.preBlockProof f deletions = .ok (.error "pre-block forest contains a missing root")
    else ∃ proof, SequentialSync.preBlockProof f deletions = .ok (.ok proof) := by
  obtain ⟨trees, h⟩ := hreach.represents
  obtain ⟨positions, hashes, hprove, -, -, haccept⟩ := h.prove_spec (le_of_lt hbound) deletions hlive.1 hlive.2
  unfold SequentialSync.preBlockProof
  rw [hprove, presentRoots_eq]
  split_ifs with hempty
  · rfl
  · simp only [haccept _ (rootListed_reduceOption hempty)]
    exact ⟨_, rfl⟩

omit [DecidableEq H] in
theorem reduceOption_length_ne (hbound : f.numLeaves < 2 ^ 62) (hempty : none ∈ f.rootHashes) :
    f.rootHashes.reduceOption.length ≠ popcount f.numLeaves := by
  have hlt := List.reduceOption_length_lt_iff.mpr hempty
  have hlen : f.rootHashes.length = popcount f.numLeaves := by
    rw [PackedForest.rootHashes, List.length_map, Verify.setRows_length (le_of_lt hbound)]
  omega

/-- The relay's proof fails on an emptied row, unless no input is confirmed. -/
theorem transactionProof_eq (hreach : Reachable f) (hbound : f.numLeaves < 2 ^ 62) {hashes : List H}
    (hlive : LiveTargets f hashes) :
    if hashes ≠ [] ∧ none ∈ f.rootHashes then
      transactionProof f hashes = .ok (.error "generated transaction proof did not verify")
    else ∃ proof, transactionProof f hashes = .ok (.ok proof) := by
  obtain ⟨trees, h⟩ := hreach.represents
  obtain ⟨positions, proofHashes, hprove, htargets, -, haccept⟩ :=
    h.prove_spec (le_of_lt hbound) hashes hlive.1 hlive.2
  unfold transactionProof
  rw [hprove]
  by_cases hnil : hashes = []
  · subst hnil
    cases htargets
    simp [verifyProof]
  · split_ifs with hempty
    · have hlen := htargets.length_eq
      have hpositions : positions ≠ [] := by
        rintro rfl
        exact hnil (List.length_eq_zero_iff.mp hlen)
      have hverify : verifyProof ⟨positions, proofHashes⟩ hashes f.rootHashes.reduceOption f.numLeaves =
          .error "root count does not match the forest leaf count" := by
        unfold verifyProof
        rw [if_neg (by simp [hlen]), if_neg hpositions, if_neg, if_pos (reduceOption_length_ne hbound hempty.2)]
        intro hz
        have hmem := hempty.2
        rw [PackedForest.rootHashes, hz] at hmem
        simp [setRows] at hmem
      simp only [hverify]
    · have hfull : none ∉ f.rootHashes := fun hmem => hempty ⟨hnil, hmem⟩
      simp only [haccept _ (rootListed_reduceOption hfull)]
      exact ⟨_, rfl⟩

/-- The next block as Core's chain has it: it connects, spends live leaves once and adds fresh ones. -/
structure ValidNext (s : SequentialSync H) (fetched : FetchedBlock H) (delta : BlockDelta H) : Prop where
  height : s.chainHashes.length ≤ 2 ^ 32 - 1
  fetchedHeight : fetched.height = s.chainHashes.length
  parsed : fetched.delta = .ok delta
  point : delta.point = ⟨s.chainHashes.length, fetched.hash⟩
  connects : s.chainHashes ≠ [] → s.chainHashes.getLast? = some delta.previousBlockHash
  deletions : LiveTargets s.forest delta.deletions
  fresh : s.forest.freshCall (.modify delta.additions delta.deletions) = true

theorem processNext_valid {s : SequentialSync H} {fetched : FetchedBlock H} {delta : BlockDelta H}
    (hvalid : ValidNext s fetched delta) (hgen : s.generates delta = .ok true) :
    s.processNext (.ok fetched) =
      match SequentialSync.preBlockProof s.forest delta.deletions with
      | .error fault => .error fault
      | .ok (.error message) => .ok (.error message, s)
      | .ok (.ok proof) => s.applyBlock fetched.hash delta (some proof) := by
  unfold SequentialSync.processNext
  have hconnects : ¬ (s.chainHashes.length > 0 ∧ s.chainHashes.getLast? ≠ some delta.previousBlockHash) := by
    rintro ⟨hpos, hne⟩
    exact hne (hvalid.connects (List.length_pos_iff.mp hpos))
  rw [if_neg (Nat.not_lt.mpr hvalid.height)]
  simp only [hvalid.fetchedHeight, hvalid.parsed, hvalid.point, ne_eq, not_true, or_self, if_false]
  rw [if_neg hconnects]
  rcases SequentialSync.preBlockProof s.forest delta.deletions with fault | message | proof
  all_goals simp only [hgen]

/-- A valid block is applied, or the 32-bit ids run out. -/
theorem applyBlock_valid {s : SequentialSync H} (hreach : Reachable s.forest) {fetched : FetchedBlock H}
    {delta : BlockDelta H} (hvalid : ValidNext s fetched delta) (proof : Option (Proof H)) :
    (∃ fault, s.applyBlock fetched.hash delta proof = .error fault) ∨
      ∃ s', s.applyBlock fetched.hash delta proof = .ok (.ok proof, s') := by
  obtain ⟨trees, h⟩ := hreach.represents
  unfold SequentialSync.applyBlock
  rcases h.modify delta.additions delta.deletions (h.freshCall _ hvalid.fresh) with
    ⟨fault, herr, -⟩ | ⟨f', trees', hok, -, -⟩
  · rw [herr]
    exact Or.inl ⟨fault, rfl⟩
  · have hcheck : (accumulatorOf s.forest.numLeaves trees).checkDeletions [] delta.deletions = .ok () := by
      rw [Accumulator.checkDeletions_ok_iff]
      exact ⟨hvalid.deletions.1, fun v hv => ⟨by simp, (h.contains_iff v).mp (hvalid.deletions.2 v hv)⟩⟩
    rw [hok, Accumulator.modify, hcheck]
    exact Or.inr ⟨_, rfl⟩

/-- **Fully spent trees.** In every reachable state, a valid block with its proof, a capture of the accumulator
state and the proof of a transaction with confirmed inputs each go through if and only if no row is emptied. -/
theorem bridge_goes_on_iff (s : SequentialSync H) (hreach : Reachable s.forest) (hbound : s.forest.numLeaves < 2 ^ 62) :
    (∀ fetched delta, ValidNext s fetched delta → s.generates delta = .ok true →
      ((∀ message s', s.processNext (.ok fetched) ≠ .ok (.error message, s')) ↔ NoEmptyRow s.forest)) ∧
    (∀ point, (∃ state, captureAccumulatorState point s.forest = .ok state) ↔ NoEmptyRow s.forest) ∧
    ∀ hashes, LiveTargets s.forest hashes → hashes ≠ [] →
      ((∃ proof, transactionProof s.forest hashes = .ok (.ok proof)) ↔ NoEmptyRow s.forest) := by
  refine ⟨fun fetched delta hvalid hgen => ?_, fun point => ?_, fun hashes hlive hne => ?_⟩
  · have hproof := preBlockProof_eq hreach hbound hvalid.deletions
    rw [processNext_valid hvalid hgen]
    by_cases hempty : none ∈ s.forest.rootHashes
    · rw [if_pos hempty] at hproof
      rw [hproof]
      exact ⟨fun hno => absurd rfl (hno _ _), fun hfull => absurd hempty hfull⟩
    · rw [if_neg hempty] at hproof
      obtain ⟨proof, hok⟩ := hproof
      rw [hok]
      refine ⟨fun _ => hempty, fun _ message s' herr => ?_⟩
      rcases applyBlock_valid hreach hvalid (some proof) with ⟨fault, hfault⟩ | ⟨s'', hdone⟩
      · simp only [hfault] at herr
        cases herr
      · simp only [hdone] at herr
        cases herr
  · unfold captureAccumulatorState
    rw [presentRoots_eq]
    unfold NoEmptyRow
    split_ifs with hempty
    · simp [hempty]
    · simp [hempty]
  · have hproof := transactionProof_eq hreach hbound hlive
    unfold NoEmptyRow
    by_cases hempty : none ∈ s.forest.rootHashes
    · rw [if_pos ⟨hne, hempty⟩] at hproof
      simp [hproof, hempty]
    · rw [if_neg fun hc => hempty hc.2] at hproof
      simp [hproof, hempty]

def threeSync : SequentialSync TermHash := ⟨threeForest, [.leaf 100], true, none⟩

theorem bridge_goes_on_iff_three :
    (∃ state, captureAccumulatorState ⟨0, TermHash.leaf 100⟩ threeSync.forest = .ok state) ∧
      ∃ proof, transactionProof threeSync.forest [.leaf 3] = .ok (.ok proof) := by
  have hfull : NoEmptyRow threeSync.forest := by unfold NoEmptyRow; decide +kernel
  obtain ⟨-, hcapture, hrelay⟩ := bridge_goes_on_iff threeSync reachable_threeForest (by decide +kernel)
  refine ⟨(hcapture _).mpr hfull, (hrelay [.leaf 3] ⟨by decide, by decide +kernel⟩ (by simp)).mpr hfull⟩

/-- Three leaves, then a block that spends the third, the only leaf of row 0. -/
def spentCalls : List (Call TermHash) := [.add (.leaf 1), .add (.leaf 2), .add (.leaf 3), .modify [] [.leaf 3]]

def spentForest : PackedForest TermHash :=
  match (PackedForest.new : PackedForest TermHash).run spentCalls with
  | .ok (_, f) => f
  | .error _ => .new

theorem reachable_spentForest : Reachable spentForest := by
  have hok : ((PackedForest.new : PackedForest TermHash).run spentCalls).isOk = true := by decide +kernel
  unfold spentForest
  cases h : (PackedForest.new : PackedForest TermHash).run spentCalls with
  | error fault => rw [h] at hok; cases hok
  | ok p => exact ⟨spentCalls, p.1, represents_new.freshRun spentCalls (by decide +kernel), h⟩

def spentSync : SequentialSync TermHash := ⟨spentForest, [.leaf 100], true, none⟩

/-- The next block spends the first leaf. -/
def spentDelta : BlockDelta TermHash := ⟨⟨1, .leaf 101⟩, .leaf 100, [.leaf 4], [.leaf 1]⟩

def spentBlock : FetchedBlock TermHash := ⟨1, .leaf 101, .ok spentDelta⟩

theorem validNext_spentBlock : ValidNext spentSync spentBlock spentDelta :=
  ⟨by decide, rfl, rfl, rfl, fun _ => rfl, ⟨by decide, by decide +kernel⟩, by decide +kernel⟩

/-- After row 0 is emptied, a valid block, a capture and a valid transaction all fail. -/
theorem spent_tree_stops_bridge :
    Reachable spentForest ∧ ValidNext spentSync spentBlock spentDelta ∧ LiveTargets spentForest [.leaf 1] ∧
      spentSync.processNext (.ok spentBlock) = .ok (.error "pre-block forest contains a missing root", spentSync) ∧
      captureAccumulatorState ⟨0, .leaf 100⟩ spentForest = .error "forest contains a missing accumulator root" ∧
      transactionProof spentForest [.leaf 1] = .ok (.error "generated transaction proof did not verify") := by
  have hempty : none ∈ spentForest.rootHashes := by decide +kernel
  have hbound : spentForest.numLeaves < 2 ^ 62 := by decide +kernel
  have hlive : LiveTargets spentForest [TermHash.leaf 1] := ⟨by decide, by decide +kernel⟩
  refine ⟨reachable_spentForest, validNext_spentBlock, hlive, ?_, ?_, ?_⟩
  · have hproof := preBlockProof_eq reachable_spentForest hbound hlive
    rw [if_pos hempty] at hproof
    rw [processNext_valid validNext_spentBlock rfl]
    simp only [spentDelta, spentSync, hproof]
  · rw [captureAccumulatorState, presentRoots_eq, if_pos hempty]
  · have hproof := transactionProof_eq reachable_spentForest hbound hlive
    rwa [if_pos ⟨by simp, hempty⟩] at hproof

end UtreexoBridge
