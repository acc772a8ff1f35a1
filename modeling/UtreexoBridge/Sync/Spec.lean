import UtreexoBridge.Forest.Spec

/-!
# The callers that need a dense root list

`SequentialSync::ProcessNext`, `CaptureAccumulatorState` and the prove-and-verify
step of `TransactionRelay::Prepare` each turn `Roots()` into a list without gaps.
What Core answers over RPC is an argument.
-/

namespace UtreexoBridge

theorem getElem?_concat_some {α : Type} {values : List α} {value found : α} {i : Nat}
    (h : (values ++ [value])[i]? = some found) : values[i]? = some found ∨ (i = values.length ∧ found = value) := by
  rcases Nat.lt_or_ge i values.length with hlt | hge
  · rw [List.getElem?_append_left hlt] at h
    exact Or.inl h
  · rw [List.getElem?_append_right hge] at h
    rcases hsub : i - values.length with _ | k
    · rw [hsub] at h
      cases h
      exact Or.inr ⟨by omega, rfl⟩
    · rw [hsub] at h
      cases h

variable {H : Type} [ForestHash H]

structure BlockDelta (H : Type) where
  point : ChainPoint H
  previousBlockHash : H
  additions : List H
  deletions : List H

/-- A fetched block, with the result of `ParseVerboseBlockJson` on it. -/
structure FetchedBlock (H : Type) where
  height : Nat
  hash : H
  delta : Except String (BlockDelta H)

structure SequentialSync (H : Type) where
  forest : PackedForest H
  chainHashes : List H
  generateProofs : Bool
  proofPolicy : Option (BlockDelta H → Except String Bool)

structure AccumulatorState (H : Type) where
  point : ChainPoint H
  numLeaves : Nat
  roots : List H
  deriving DecidableEq

/-- The loop over `Roots()` that gives up at the first absent root. -/
def presentRoots (message : String) : List (Option H) → Except String (List H)
  | [] => .ok []
  | none :: _ => .error message
  | some root :: rest =>
    match presentRoots message rest with
    | .error message => .error message
    | .ok roots => .ok (root :: roots)

def captureAccumulatorState (point : ChainPoint H) (forest : PackedForest H) : Except String (AccumulatorState H) :=
  match presentRoots "forest contains a missing accumulator root" forest.rootHashes with
  | .error message => .error message
  | .ok roots => .ok ⟨point, forest.numLeaves, roots⟩

variable [DecidableEq H]

namespace SequentialSync

/-- Proof generation in `ProcessNext`. -/
def preBlockProof (forest : PackedForest H) (deletions : List H) : Except Fault (Except String (Proof H)) :=
  match forest.prove deletions with
  | .error fault => .error fault
  | .ok (.error message) => .ok (.error ("could not generate pre-block proof: " ++ message))
  | .ok (.ok proof) =>
    match presentRoots "pre-block forest contains a missing root" forest.rootHashes with
    | .error message => .ok (.error message)
    | .ok roots =>
      match verifyProof proof deletions roots forest.numLeaves with
      | .error message => .ok (.error ("could not verify generated pre-block proof: " ++ message))
      | .ok false => .ok (.error "generated pre-block proof does not match forest roots")
      | .ok true => .ok (.ok proof)

/-- The end of `ProcessNext`, with `ModifyBlock` of a forest that is not online. -/
def applyBlock (s : SequentialSync H) (hash : H) (delta : BlockDelta H) (proof : Option (Proof H)) :
    Except Fault (Except String (Option (Proof H)) × SequentialSync H) :=
  match s.forest.modify delta.additions delta.deletions with
  | .error fault => .error fault
  | .ok (.error message, forest) =>
    .ok (.error ("could not apply block transition: " ++ message), { s with forest })
  | .ok (.ok (), forest) => .ok (.ok proof, { s with forest, chainHashes := s.chainHashes ++ [hash] })

/-- Whether `ProcessNext` generates a proof: the policy decides if there is one. -/
def generates (s : SequentialSync H) (delta : BlockDelta H) : Except String Bool :=
  match s.proofPolicy with
  | none => .ok s.generateProofs
  | some policy =>
    match policy delta with
    | .error message => .error ("proof-generation policy failed: " ++ message)
    | .ok decision => .ok decision

def processNext (s : SequentialSync H) (fetched : Except String (FetchedBlock H)) :
    Except Fault (Except String (Option (Proof H)) × SequentialSync H) :=
  let height := s.chainHashes.length
  if height > 2 ^ 32 - 1 then .ok (.error "chain height exceeds the sidecar format", s)
  else
    match fetched with
    | .error message => .ok (.error message, s)
    | .ok fetched =>
      if fetched.height ≠ height then
        .ok (.error "fetched block height does not match the requested height", s)
      else
        match fetched.delta with
        | .error message => .ok (.error message, s)
        | .ok delta =>
          if delta.point.height ≠ height ∨ delta.point.blockHash ≠ fetched.hash then
            .ok (.error "getblock result does not match the requested active-chain block", s)
          else if height > 0 ∧ s.chainHashes.getLast? ≠ some delta.previousBlockHash then
            .ok (.error "block does not connect to the sidecar chain tip", s)
          else
            match s.generates delta with
            | .error message => .ok (.error message, s)
            | .ok false => s.applyBlock fetched.hash delta none
            | .ok true =>
              match preBlockProof s.forest delta.deletions with
              | .error fault => .error fault
              | .ok (.error message) => .ok (.error message, s)
              | .ok (.ok proof) => s.applyBlock fetched.hash delta (some proof)

end SequentialSync

/-- The prove-and-verify step of `TransactionRelay::Prepare` for the leaf hashes of the confirmed inputs. -/
def transactionProof (forest : PackedForest H) (hashes : List H) : Except Fault (Except String (Proof H)) :=
  match forest.prove hashes with
  | .error fault => .error fault
  | .ok (.error message) => .ok (.error ("confirmed inputs not provable at Core tip: " ++ message))
  | .ok (.ok proof) =>
    -- absent roots are left out
    match verifyProof proof hashes forest.rootHashes.reduceOption forest.numLeaves with
    | .ok true => .ok (.ok proof)
    | _ => .ok (.error "generated transaction proof did not verify")

end UtreexoBridge
