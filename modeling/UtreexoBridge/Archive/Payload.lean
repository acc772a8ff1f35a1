import UtreexoBridge.Archive.Format
import UtreexoBridge.Bytes.CompactSize

/-!
# The proof payload (`SerializeUtreexoProof`, `ParseFullUtreexoProof`)

The archive stores a block proof in the form in which it goes over the wire,
with every hash, target and leaf.
-/

namespace UtreexoBridge

open Bytes

inductive ScriptPubkeyType
  | other
  | pubkeyHash
  | witnessV0PubkeyHash
  | scriptHash
  | witnessV0ScriptHash
  /-- A byte that is no script type. -/
  | unknown (code : Nat) (h : 4 < code)
  deriving DecidableEq

def ScriptPubkeyType.code : ScriptPubkeyType → Nat
  | .other => 0
  | .pubkeyHash => 1
  | .witnessV0PubkeyHash => 2
  | .scriptHash => 3
  | .witnessV0ScriptHash => 4
  | .unknown code _ => code

/-- The types up to `WITNESS_V0_SCRIPT_HASH`. -/
def ScriptPubkeyType.ofCode : Nat → Option ScriptPubkeyType
  | 0 => some .other
  | 1 => some .pubkeyHash
  | 2 => some .witnessV0PubkeyHash
  | 3 => some .scriptHash
  | 4 => some .witnessV0ScriptHash
  | _ => none

structure CompactLeafData where
  headerCode : Nat
  amount : Nat
  scriptType : ScriptPubkeyType
  script : List UInt8
  deriving DecidableEq

structure CachedBlockProof (H : Type) where
  point : ChainPoint H
  proof : Proof H
  leaves : List CompactLeafData
  numLeavesBefore : Option Nat := none
  deriving DecidableEq

structure GetUtreexoProofRequest (H : Type) where
  blockHash : H
  requestBitmap : Nat
  proofIndexes : List UInt8
  leafIndexes : List UInt8

def maxInputsPerBlock : Nat := 24386

def maxScriptBytes : Nat := 10000

/-! ## Writing -/

def bitmapBit (bitmap : List UInt8) (index : Nat) : Bool := (bitmap[index / 8]?).any (·.toNat.testBit (index % 8))

def requested {α : Type} (all : Bool) (bitmap : List UInt8) (items : List α) : List α :=
  (items.zipIdx.filter fun (_, i) => all || bitmapBit bitmap i).map (·.1)

/-- `add_bytes` of `MeasureUtreexoProof`. -/
def addBytes (limit bytes total : Nat) : Except String Nat :=
  if total > limit ∨ bytes > limit - total then .error "uproof response exceeds configured maximum"
  else .ok (total + bytes)

def measureLeaf (limit total : Nat) (leaf : CompactLeafData) : Except String Nat :=
  if leaf.scriptType.code > 4 then .error "cached compact leaf has an unknown script type"
  else if leaf.scriptType = .other ∧ leaf.script.length > maxScriptBytes then
    .error "cached compact leaf script is too large"
  else if leaf.scriptType ≠ .other ∧ leaf.script ≠ [] then
    .error "standard compact leaf unexpectedly contains a script"
  else do
    let total ← addBytes limit (4 + 8 + 1) total
    if leaf.scriptType = .other then
      let total ← addBytes limit (compactSizeBytes leaf.script.length) total
      addBytes limit leaf.script.length total
    else return total

variable {H : Type}

def requestedTargets (proof : CachedBlockProof H) (request : GetUtreexoProofRequest H) : List Nat :=
  if request.requestBitmap.testBit 0 then proof.proof.targets else []

def requestedHashes (proof : CachedBlockProof H) (request : GetUtreexoProofRequest H) : List H :=
  requested (request.requestBitmap.testBit 1) request.proofIndexes proof.proof.hashes

def requestedLeaves (proof : CachedBlockProof H) (request : GetUtreexoProofRequest H) : List CompactLeafData :=
  requested (request.requestBitmap.testBit 2) request.leafIndexes proof.leaves

/-- `MeasureUtreexoProof` without wire targets: the payload's size. -/
def measureUtreexoProof [DecidableEq H] (proof : CachedBlockProof H) (request : GetUtreexoProofRequest H) (limit : Nat) :
    Except String Nat :=
  if proof.point.blockHash ≠ request.blockHash then .error "getuproof block hash does not match cached proof"
  else if proof.proof.targets.length ≠ proof.leaves.length ∨ proof.leaves.length > maxInputsPerBlock then
    .error "cached proof target/leaf counts are invalid"
  else do
    let hashes := requestedHashes proof request
    let targets := requestedTargets proof request
    let leaves := requestedLeaves proof request
    let total ← addBytes limit 32 0
    let total ← addBytes limit (compactSizeBytes hashes.length) total
    let total ← addBytes limit (hashes.length * 32) total
    let total ← addBytes limit (compactSizeBytes targets.length) total
    let total ← targets.foldlM (fun total target => addBytes limit (compactSizeBytes target) total) total
    let total ← addBytes limit (compactSizeBytes leaves.length) total
    leaves.foldlM (measureLeaf limit) total

def appendLeaf (leaf : CompactLeafData) : List UInt8 :=
  appendUnsigned 4 leaf.headerCode ++ (appendUnsigned 8 leaf.amount ++ (appendUnsigned 1 leaf.scriptType.code ++
    if leaf.scriptType = .other then appendCompactSize leaf.script.length ++ leaf.script else []))

variable [ArchiveHash H]

def proofPayload (blockHash : H) (hashes : List H) (targets : List Nat) (leaves : List CompactLeafData) : List UInt8 :=
  StoredHash.bytes blockHash ++ (appendCompactSize hashes.length ++ (hashes.flatMap StoredHash.bytes ++
    (appendCompactSize targets.length ++ (targets.flatMap appendCompactSize ++
      (appendCompactSize leaves.length ++ leaves.flatMap appendLeaf)))))

def serializeUtreexoProof [DecidableEq H] (proof : CachedBlockProof H) (request : GetUtreexoProofRequest H)
    (limit : Nat) : Except String (List UInt8) :=
  match measureUtreexoProof proof request limit with
  | .error message => .error message
  | .ok payloadBytes =>
    let output := proofPayload proof.point.blockHash (requestedHashes proof request) (requestedTargets proof request)
      (requestedLeaves proof request)
    if output.length ≠ payloadBytes then .error "internal uproof serialized-size mismatch" else .ok output

/-! ## Reading -/

/-- A compact leaf, or the message of the check that failed. -/
def parseLeaf (bytes : List UInt8) : Except String (CompactLeafData × List UInt8) :=
  let fields : Reader (Nat × Nat × ScriptPubkeyType) := do
    let headerCode ← readUnsigned 4
    let amount ← readUnsigned 8
    let code ← readUnsigned 1
    let scriptType ← ScriptPubkeyType.ofCode code
    return (headerCode, amount, scriptType)
  match fields bytes with
  | none => .error "invalid compact leaf in uproof"
  | some ((headerCode, amount, scriptType), bytes) =>
    if scriptType = .other then
      match readCompactSize bytes with
      | none => .error "invalid compact leaf script size"
      | some (scriptSize, bytes) =>
        if scriptSize > maxScriptBytes then .error "invalid compact leaf script size"
        else
          match readBytes scriptSize bytes with
          | none => .error "truncated compact leaf script"
          | some (script, bytes) => .ok (⟨headerCode, amount, scriptType, script⟩, bytes)
    else .ok (⟨headerCode, amount, scriptType, []⟩, bytes)

def parseLeaves : Nat → List UInt8 → Except String (List CompactLeafData × List UInt8)
  | 0, bytes => .ok ([], bytes)
  | count + 1, bytes =>
    match parseLeaf bytes with
    | .error message => .error message
    | .ok (leaf, bytes) => (parseLeaves count bytes).map fun (leaves, bytes) => (leaf :: leaves, bytes)

def parseFullUtreexoProof (height : Nat) (payload : List UInt8) : Except String (CachedBlockProof H) :=
  match readHash payload with
  | none => .error "truncated uproof block hash"
  | some (blockHash, bytes) =>
    match readCompactSize bytes with
    | none => .error "invalid uproof hash count"
    | some (hashCount, bytes) =>
      if hashCount > bytes.length / 32 then .error "invalid uproof hash count"
      else
        match readMany readHash hashCount bytes with
        | none => .error "truncated uproof hash"
        | some (hashes, bytes) =>
          match readCompactSize bytes with
          | none => .error "invalid uproof target count"
          | some (targetCount, bytes) =>
            if targetCount > maxInputsPerBlock then .error "invalid uproof target count"
            else
              match readMany readCompactSize targetCount bytes with
              | none => .error "invalid uproof target"
              | some (targets, bytes) =>
                match readCompactSize bytes with
                | none => .error "uproof leaf count does not match targets"
                | some (leafCount, bytes) =>
                  if leafCount ≠ targetCount then .error "uproof leaf count does not match targets"
                  else
                    match parseLeaves leafCount bytes with
                    | .error message => .error message
                    | .ok (leaves, bytes) =>
                      if bytes ≠ [] then .error "trailing uproof bytes"
                      else .ok { point := ⟨height, blockHash⟩, proof := ⟨targets, hashes⟩, leaves }

/-! ## Round trip -/

/-- A leaf that `MeasureUtreexoProof` lets through. -/
structure CompactLeafData.Known (leaf : CompactLeafData) : Prop where
  code_le : leaf.scriptType.code ≤ 4
  script_le : leaf.scriptType = .other → leaf.script.length ≤ maxScriptBytes
  script_nil : leaf.scriptType ≠ .other → leaf.script = []

structure CompactLeafData.Fits (leaf : CompactLeafData) : Prop where
  headerCode : leaf.headerCode < 2 ^ 32
  amount : leaf.amount < 2 ^ 64

theorem ScriptPubkeyType.ofCode_code {type : ScriptPubkeyType} (h : type.code ≤ 4) :
    ScriptPubkeyType.ofCode type.code = some type := by
  cases type with
  | unknown code hcode => exact absurd hcode (Nat.not_lt.mpr h)
  | _ => rfl

omit [ArchiveHash H] in
theorem parseLeaf_appendLeaf {leaf : CompactLeafData} (hknown : leaf.Known) (hfits : leaf.Fits) (rest : List UInt8) :
    parseLeaf (appendLeaf leaf ++ rest) = .ok (leaf, rest) := by
  obtain ⟨headerCode, amount, scriptType, script⟩ := leaf
  have hcode : scriptType.code < 256 ^ 1 := lt_of_le_of_lt hknown.code_le (by decide)
  let tail := if scriptType = .other then appendCompactSize script.length ++ script else []
  have hfields : Reads (do
      let headerCode ← readUnsigned 4
      let amount ← readUnsigned 8
      let code ← readUnsigned 1
      let scriptType ← ScriptPubkeyType.ofCode code
      return (headerCode, amount, scriptType) : Reader (Nat × Nat × ScriptPubkeyType))
      (appendUnsigned 4 headerCode ++ (appendUnsigned 8 amount ++ appendUnsigned 1 scriptType.code))
      (headerCode, amount, scriptType) :=
    (reads_unsigned hfits.headerCode).bind ((reads_unsigned hfits.amount).bind ((reads_unsigned hcode).bind_last
      ((reads_lift (ScriptPubkeyType.ofCode_code hknown.code_le)).bind_nil (reads_pure _))))
  have hsplit : appendLeaf ⟨headerCode, amount, scriptType, script⟩ ++ rest =
      (appendUnsigned 4 headerCode ++ (appendUnsigned 8 amount ++ appendUnsigned 1 scriptType.code)) ++ (tail ++ rest) := by
    simp only [appendLeaf, tail, List.append_assoc]
  unfold parseLeaf
  simp only [hsplit, hfields (tail ++ rest)]
  by_cases hother : scriptType = .other
  · have hle : script.length ≤ maxScriptBytes := hknown.script_le hother
    have hsize : script.length < 2 ^ 64 := lt_of_le_of_lt hle (by decide)
    have htail : tail ++ rest = appendCompactSize script.length ++ (script ++ rest) := by
      simp only [tail, if_pos hother, List.append_assoc]
    simp only [if_pos hother, htail, reads_compactSize hsize (script ++ rest), if_neg (Nat.not_lt.mpr hle),
      reads_bytes script rest]
  · have hnil : script = [] := hknown.script_nil hother
    have htail : tail = [] := if_neg hother
    simp only [if_neg hother, htail, List.nil_append, hnil]

omit [ArchiveHash H] in
theorem parseLeaves_flatMap {leaves : List CompactLeafData} (hknown : ∀ leaf ∈ leaves, leaf.Known)
    (hfits : ∀ leaf ∈ leaves, leaf.Fits) (rest : List UInt8) :
    parseLeaves leaves.length (leaves.flatMap appendLeaf ++ rest) = .ok (leaves, rest) := by
  induction leaves with
  | nil => rfl
  | cons leaf leaves ih =>
    rw [List.flatMap_cons, List.append_assoc, List.length_cons, parseLeaves,
      parseLeaf_appendLeaf (hknown leaf List.mem_cons_self) (hfits leaf List.mem_cons_self)]
    simp only [ih (fun l hl => hknown l (List.mem_cons_of_mem _ hl)) (fun l hl => hfits l (List.mem_cons_of_mem _ hl))]
    rfl

theorem parseFullUtreexoProof_proofPayload (height : Nat) (blockHash : H) {hashes : List H} {targets : List Nat}
    {leaves : List CompactLeafData} (hhashes : hashes.length < 2 ^ 64) (htargets : ∀ t ∈ targets, t < 2 ^ 64)
    (hcount : targets.length = leaves.length) (hmax : leaves.length ≤ maxInputsPerBlock)
    (hknown : ∀ leaf ∈ leaves, leaf.Known) (hfits : ∀ leaf ∈ leaves, leaf.Fits) :
    parseFullUtreexoProof height (proofPayload blockHash hashes targets leaves) =
      .ok { point := ⟨height, blockHash⟩, proof := ⟨targets, hashes⟩, leaves } := by
  have hmax64 : leaves.length < 2 ^ 64 := lt_of_le_of_lt hmax (by decide)
  unfold parseFullUtreexoProof proofPayload
  simp only [Archive.reads_hash blockHash _, reads_compactSize hhashes _]
  rw [if_neg (by simp only [List.length_append, Archive.length_hashes]; omega)]
  have hread : Reads (readMany readHash hashes.length) (hashes.flatMap StoredHash.bytes) hashes :=
    reads_many fun h _ => Archive.reads_hash h
  simp only [hread _, hcount, reads_compactSize hmax64 _, if_neg (Nat.not_lt.mpr hmax)]
  have hmany : Reads (readMany readCompactSize targets.length) (targets.flatMap appendCompactSize) targets :=
    reads_many fun t ht => reads_compactSize (htargets t ht)
  rw [hcount] at hmany
  simp only [hmany _, reads_compactSize hmax64 _, ne_eq, not_true_eq_false, if_false]
  have hleaves := parseLeaves_flatMap hknown hfits []
  rw [List.append_nil] at hleaves
  simp only [hleaves, not_true_eq_false, if_false]

/-! ## What the serializer accepts -/

omit [ArchiveHash H] in
theorem known_of_measureLeaf {limit total result : Nat} {leaf : CompactLeafData}
    (h : measureLeaf limit total leaf = .ok result) : leaf.Known := by
  unfold measureLeaf at h
  split_ifs at h with hcode hlarge hscript
  · refine ⟨Nat.le_of_not_lt hcode, fun hother => ?_, fun hother => ?_⟩
    · exact Nat.le_of_not_lt fun hlt => hlarge ⟨hother, hlt⟩
    · by_contra hne
      exact hscript ⟨hother, hne⟩
  · refine ⟨Nat.le_of_not_lt hcode, fun hother => ?_, fun hother => ?_⟩
    · exact Nat.le_of_not_lt fun hlt => hlarge ⟨hother, hlt⟩
    · by_contra hne
      exact hscript ⟨hother, hne⟩

omit [ArchiveHash H] in
theorem known_of_measure {limit total result : Nat} {leaves : List CompactLeafData}
    (h : leaves.foldlM (measureLeaf limit) total = .ok result) : ∀ leaf ∈ leaves, leaf.Known := by
  induction leaves generalizing total with
  | nil => simp
  | cons leaf leaves ih =>
    rw [List.foldlM_cons] at h
    cases hleaf : measureLeaf limit total leaf with
    | error message =>
      rw [hleaf] at h
      cases h
    | ok total' =>
      rw [hleaf] at h
      intro l hl
      rcases List.mem_cons.mp hl with rfl | hl
      · exact known_of_measureLeaf hleaf
      · exact ih h l hl

def fullRequest (blockHash : H) : GetUtreexoProofRequest H := ⟨blockHash, 0x07, [], []⟩

omit [ArchiveHash H] in
theorem requested_all {α : Type} (bitmap : List UInt8) (items : List α) : requested true bitmap items = items := by
  unfold requested
  simp only [Bool.true_or, List.filter_true]
  exact List.zipIdx_map_fst 0 items

theorem parse_serializeUtreexoProof [DecidableEq H] {proof : CachedBlockProof H} {limit : Nat} {payload : List UInt8}
    (h : serializeUtreexoProof proof (fullRequest proof.point.blockHash) limit = .ok payload)
    (hhashes : proof.proof.hashes.length < 2 ^ 64) (htargets : ∀ t ∈ proof.proof.targets, t < 2 ^ 64)
    (hfits : ∀ leaf ∈ proof.leaves, leaf.Fits) (height : Nat) :
    parseFullUtreexoProof height payload =
      .ok { point := ⟨height, proof.point.blockHash⟩, proof := proof.proof, leaves := proof.leaves } := by
  have hreqHashes : requestedHashes proof (fullRequest proof.point.blockHash) = proof.proof.hashes := by
    rw [requestedHashes, fullRequest, show Nat.testBit 0x07 1 = true by decide, requested_all]
  have hreqLeaves : requestedLeaves proof (fullRequest proof.point.blockHash) = proof.leaves := by
    rw [requestedLeaves, fullRequest, show Nat.testBit 0x07 2 = true by decide, requested_all]
  have hreqTargets : requestedTargets proof (fullRequest proof.point.blockHash) = proof.proof.targets := by
    rw [requestedTargets, fullRequest, if_pos (show Nat.testBit 0x07 0 = true by decide)]
  unfold serializeUtreexoProof at h
  rw [hreqHashes, hreqLeaves, hreqTargets] at h
  split at h
  · cases h
  · rename_i size hmeasure
    simp only at h
    split_ifs at h with hsize
    cases h
    unfold measureUtreexoProof at hmeasure
    rw [hreqHashes, hreqLeaves, hreqTargets] at hmeasure
    split_ifs at hmeasure with hblock hcounts
    rw [not_or, not_not, Nat.not_lt] at hcounts
    have hknown : ∀ leaf ∈ proof.leaves, leaf.Known := by
      simp only [bind, Except.bind] at hmeasure
      repeat' (split at hmeasure)
      all_goals first | cases hmeasure | exact known_of_measure hmeasure
    exact parseFullUtreexoProof_proofPayload height _ hhashes htargets hcounts.1 hcounts.2 hknown hfits

end UtreexoBridge
