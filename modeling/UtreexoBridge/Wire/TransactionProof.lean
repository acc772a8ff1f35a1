import UtreexoBridge.Archive.Payload
import UtreexoBridge.Wire.Positions
import UtreexoBridge.Wire.Transaction

/-!
# Transactions with proofs (`PreparedTransactionProof`, `ParseUtreexoTransaction`)

The payload holds the targets, the requested hashes, the transaction with a
flag in each output index, and the leaves of the confirmed inputs.
-/

namespace UtreexoBridge.Wire

open Bytes Position

variable {H : Type} [WireHash H]

structure Transaction (H : Type) where
  bytes : List UInt8
  inputs : List (OutPoint H)
  voutOffsets : List Nat
  txid : H
  wtxid : H
  hasWitness : Bool
  deriving DecidableEq

def doubleSha256 (bytes : List UInt8) : H := ArchiveHash.sha256 (StoredHash.bytes (ArchiveHash.sha256 bytes : H))

def Transaction.parse (raw : List UInt8) (maxPayloadBytes : Nat) : Except String (Transaction H) :=
  if raw.length > min maxPayloadBytes maxTxPayload then .error "raw transaction payload exceeds maximum"
  else
    match scanTransaction (H := H) raw with
    | .error message => .error message
    | .ok ⟨layout, _, _⟩ =>
      if layout.size ≠ raw.length then .error "trailing raw transaction bytes"
      else
        match scanTransaction raw with
        | .error message => .error message
        | .ok ⟨_, inputs, voutOffsets⟩ =>
          let wtxid := doubleSha256 raw
          let stripped := raw.take 4 ++ ((raw.drop layout.inputStart).take (layout.outputsEnd - layout.inputStart) ++
            raw.drop (raw.length - 4))
          .ok ⟨raw, inputs, voutOffsets, if layout.witness then doubleSha256 stripped else wtxid, wtxid, layout.witness⟩

/-- Four bytes at `offset` are replaced. -/
def writeVout (bytes : List UInt8) (offset vout : Nat) : List UInt8 :=
  bytes.take offset ++ (appendUnsigned 4 vout ++ bytes.drop (offset + 4))

/-- `WriteVout` for each offset with its value. -/
def writeVouts (bytes : List UInt8) (vouts : List (Nat × Nat)) : List UInt8 :=
  vouts.foldl (fun bytes vout => writeVout bytes vout.1 vout.2) bytes

def leafBytes (leaf : CompactLeafData) : Except String Nat :=
  if leaf.headerCode > 2 ^ 31 - 1 ∨ leaf.amount > 2 ^ 63 - 1 ∨ leaf.scriptType.code > 4 then
    .error "invalid confirmed compact leaf header, amount, or script type"
  else if leaf.scriptType ≠ .other then
    if leaf.script ≠ [] then .error "standard compact leaf contains a script" else .ok 13
  else if leaf.script.length > maxScriptBytes then .error "compact leaf script exceeds maximum"
  else .ok (13 + compactSizeBytes leaf.script.length + leaf.script.length)

/-! ## Preparing a proof -/

structure PreparedTransactionProof (H : Type) where
  transaction : Transaction H
  proof : Proof H
  inputLeaves : List (Option CompactLeafData)
  proofPositions : List Nat
  basePayloadBytes : Nat
  deriving DecidableEq

/-- The loop of `Create` over the inputs: the confirmed ones and the bytes of their leaves. -/
def measureInputs : List (OutPoint H × Option CompactLeafData) → Nat → Nat → Except String (Nat × Nat)
  | [], confirmed, baseBytes => .ok (confirmed, baseBytes)
  | (input, leaf) :: inputs, confirmed, baseBytes =>
    if input.index > (2 ^ 32 - 1) / 2 then .error "transaction vout cannot be losslessly flagged"
    else
      match leaf with
      | none => measureInputs inputs confirmed baseBytes
      | some leaf =>
        match leafBytes leaf with
        | .error message => .error message
        | .ok bytes =>
          if baseBytes + bytes ≥ maxTxPayload then .error "prepared transaction metadata exceeds payload maximum"
          else measureInputs inputs (confirmed + 1) (baseBytes + bytes)

namespace PreparedTransactionProof

def create (transaction : Transaction H) (proof : Proof H) (inputLeaves : List (Option CompactLeafData))
    (numLeaves : Nat) : Except String (PreparedTransactionProof H) :=
  if transaction.inputs = [] ∨ transaction.bytes = [] ∨ inputLeaves.length ≠ transaction.inputs.length ∨
      proof.targets.length > maxInputs ∨ proof.hashes.length > maxHashes then
    .error "invalid prepared transaction proof counts"
  else
    match measureInputs (transaction.inputs.zip inputLeaves) 0
        (transaction.bytes.length + compactSizeBytes proof.targets.length) with
    | .error message => .error message
    | .ok (confirmed, baseBytes) =>
      if confirmed ≠ proof.targets.length then .error "confirmed input and proof target counts differ"
      else
        match nativeProofPositions proof numLeaves with
        | .error message => .error message
        | .ok positions =>
          let rows := treeRows numLeaves
          let targets := proof.targets.map (wirePosition · rows)
          let baseBytes := targets.foldl (fun bytes target => bytes + compactSizeBytes target) baseBytes
          if baseBytes ≥ maxTxPayload then .error "prepared transaction targets exceed payload maximum"
          else .ok ⟨transaction, ⟨targets, proof.hashes⟩, inputLeaves, positions.map (wirePosition · rows), baseBytes⟩

/-- `std::lower_bound`: halving the `len` items from `first` on. -/
def lowerBoundLoop (positions : List Nat) (pos : Nat) : Nat → Nat → Nat → Nat
  | 0, first, _ => first
  | fuel + 1, first, len =>
    if len = 0 then first
    else
      let half := len / 2
      if positions.getD (first + half) 0 < pos then lowerBoundLoop positions pos fuel (first + half + 1) (len - half - 1)
      else lowerBoundLoop positions pos fuel first half

/-- Each round leaves fewer items, so as many rounds as items are enough. -/
def lowerBound (positions : List Nat) (pos : Nat) : Nat := lowerBoundLoop positions pos positions.length 0 positions.length

def measure [DecidableEq H] (p : PreparedTransactionProof H) (request : TransactionProofRequest H) (maxPayloadBytes : Nat) :
    Except String Nat :=
  if ¬isRequestType request.inventoryType ∨ request.txid ≠ p.transaction.txid then
    .error "Utreexo transaction request type or txid mismatch"
  else
    let positions := request.proofPositions
    if positions.length > p.proofPositions.length then .error "too many requested proof positions"
    else
      let bytes := p.basePayloadBytes + compactSizeBytes positions.length + positions.length * 32
      if bytes > min maxPayloadBytes maxTxPayload then .error "utreexotx response exceeds payload maximum"
      else if ∃ pos ∈ positions, p.proofPositions[lowerBound p.proofPositions pos]? ≠ some pos then
        .error "requested position is not a transaction proof node"
      else if ¬uniquePositions positions then .error "duplicate requested proof positions"
      else .ok bytes

/-- An output index with its flag: shifted, and odd if the input is unconfirmed. -/
def flagVout (input : OutPoint H) (leaf : Option CompactLeafData) : Nat :=
  ((input.index <<< 1) % 2 ^ 32) ||| (if leaf.isSome then 0 else 1)

def serialize [DecidableEq H] (p : PreparedTransactionProof H) (request : TransactionProofRequest H) (maxPayloadBytes : Nat) :
    Except String (List UInt8) :=
  match p.measure request maxPayloadBytes with
  | .error message => .error message
  | .ok _ =>
    let output := appendCompactSize p.proof.targets.length ++ (p.proof.targets.flatMap appendCompactSize ++
      (appendCompactSize request.proofPositions.length ++ request.proofPositions.flatMap fun pos =>
        StoredHash.bytes (p.proof.hashes.getD (lowerBound p.proofPositions pos) ForestHash.null)))
    let txStart := output.length
    let vouts := (p.transaction.voutOffsets.map (txStart + ·)).zip (List.zipWith flagVout p.transaction.inputs p.inputLeaves)
    let output := writeVouts (output ++ p.transaction.bytes) vouts
    .ok (output ++ p.inputLeaves.flatMap fun leaf => leaf.elim [] appendLeaf)

end PreparedTransactionProof

/-! ## Decoding -/

structure DecodedTransactionProof (H : Type) where
  transaction : Transaction H
  proof : Proof H
  inputLeaves : List (Option CompactLeafData)
  deriving DecidableEq

def scriptTypeOf (code : Nat) : ScriptPubkeyType :=
  if h : 4 < code then .unknown code h else (ScriptPubkeyType.ofCode code).getD .other

def parseTarget : Parser Nat := do
  let target ← reading "invalid utreexotx target" readCompactSize
  require (target ≠ padding) "invalid utreexotx target"
  return target

def parseTargets : Parser (List Nat) := do
  let count ← reading "invalid utreexotx target count" readCompactSize
  let left ← remaining
  require (¬(count > maxInputs ∨ count > left)) "invalid utreexotx target count"
  parseMany parseTarget count

def parseHashes : Parser (List H) := do
  let count ← reading "invalid utreexotx proof hash count" readCompactSize
  let left ← remaining
  require (¬(count > maxHashes ∨ count > left / 32)) "invalid utreexotx proof hash count"
  parseMany (reading "truncated utreexotx proof hash" readHash) count

def lookahead {α : Type} (f : List UInt8 → Except String α) : Parser α := fun bytes => (f bytes).map (·, bytes)

/-- The transaction with its flags, and what was collected from it. -/
def parseFlagged : Parser (List UInt8 × Scanned H) := do
  let scan : Scanned H ← lookahead scanTransaction
  let flagged ← lookahead fun bytes => .ok (bytes.take scan.layout.size)
  let collected ← lookahead fun _ => scanTransaction flagged
  reading "truncated utreexotx transaction" (skip scan.layout.size)
  return (flagged, collected)

/-- Only `OTHER` has a script of its own. -/
def parseScript (scriptType : ScriptPubkeyType) : Parser (List UInt8) :=
  if scriptType = .other then do
    let size ← reading "invalid compact leaf script length" readCompactSize
    let left ← remaining
    require (¬(size > maxScriptBytes ∨ size > left)) "invalid compact leaf script length"
    reading "truncated compact leaf script" (readBytes size)
  else pure []

def parseConfirmedLeaf : Parser CompactLeafData := do
  let (headerCode, amount, code) ← reading "truncated confirmed compact leaf" (do
    let headerCode ← readUnsigned 4
    let amount ← readUnsigned 8
    let code ← readUnsigned 1
    return (headerCode, amount, code))
  let script ← parseScript (scriptTypeOf code)
  let leaf : CompactLeafData := ⟨headerCode, amount, scriptTypeOf code, script⟩
  let _ ← lookahead fun _ => leafBytes leaf
  return leaf

/-- An even output index marks a confirmed input. -/
def confirmedInput (input : OutPoint H) : Bool := input.index % 2 = 0

def parseInputLeaf (input : OutPoint H) : Parser (Option CompactLeafData) :=
  if confirmedInput input then some <$> parseConfirmedLeaf else pure none

def parseInputLeaves : List (OutPoint H) → Parser (List (Option CompactLeafData))
  | [] => pure []
  | input :: inputs => do
    let leaf ← parseInputLeaf input
    let leaves ← parseInputLeaves inputs
    return leaf :: leaves

def parsePayload : Parser (DecodedTransactionProof H) := do
  let targets ← parseTargets
  let hashes : List H ← parseHashes
  let (flagged, collected) ← parseFlagged (H := H)
  let confirmed := (collected.inputs.filter confirmedInput).length
  let left ← remaining
  require (¬(confirmed ≠ targets.length ∨ confirmed > left / 13 ∨ (confirmed = 0 ∧ hashes ≠ [])))
    "utreexotx confirmed input/proof counts differ"
  let leaves ← parseInputLeaves collected.inputs
  let left ← remaining
  require (left = 0 ∧ uniquePositions targets) "trailing utreexotx bytes or duplicate targets"
  let raw := writeVouts flagged (collected.voutOffsets.zip (collected.inputs.map fun input => input.index >>> 1))
  let transaction ← lookahead fun _ => Transaction.parse raw maxTxPayload
  return ⟨transaction, ⟨targets, hashes⟩, leaves⟩

def parseUtreexoTransaction (payload : List UInt8) (maxPayloadBytes : Nat) :
    Except String (DecodedTransactionProof H) :=
  if payload.length > min maxPayloadBytes maxTxPayload then .error "utreexotx payload exceeds maximum"
  else (parsePayload payload).map (·.1)

end UtreexoBridge.Wire
