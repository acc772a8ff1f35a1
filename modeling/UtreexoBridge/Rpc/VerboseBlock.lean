import UtreexoBridge.Leaf
import UtreexoBridge.Rpc.UniValue
import UtreexoBridge.Sync.Spec

/-!
# Verbose blocks (`ParseVerboseBlock`)

A `getblock` result of verbosity 3 is turned into the block's effect on the
accumulator. An output that is spent in its own block leaves a gap in the
additions, and the gaps are closed at the end.
-/

namespace UtreexoBridge.Rpc

open Bytes (find)
open Wire (OutPoint)

/-! ## Fields -/

def hexDigit (b : UInt8) : Option Nat :=
  if 48 ≤ b ∧ b ≤ 57 then some (b.toNat - 48)
  else if 97 ≤ b ∧ b ≤ 102 then some (b.toNat - 97 + 10)
  else if 65 ≤ b ∧ b ≤ 70 then some (b.toNat - 65 + 10)
  else none

def hexBytes : List UInt8 → Option (List UInt8)
  | high :: low :: rest => do
    let high ← hexDigit high
    let low ← hexDigit low
    let bytes ← hexBytes rest
    return UInt8.ofNat (high <<< 4 ||| low) :: bytes
  | _ => some []

def parseHexBytes (hex : List UInt8) : Except String (List UInt8) :=
  if hex.length % 2 ≠ 0 then .error "hex string has odd length"
  else
    match hexBytes hex with
    | some bytes => .ok bytes
    | none => .error "invalid script hex"

/-- The whole part, the `.` and at most eight digits, in satoshis. -/
def parseBitcoinAmount : UniValue → Except String Nat
  | .num text =>
    if text = [] ∨ text.head? = some 45 then .error "Bitcoin amount must be non-negative"
    else
      let whole := text.takeWhile (· ≠ 46)
      let fraction := (text.dropWhile (· ≠ 46)).drop 1
      if whole = [] ∨ fraction.length > 8 ∨ (text.any fun b => b ∈ ascii "eE+") then
        .error "Bitcoin amount has invalid precision or notation"
      else
        match wholeNumber (fromChars 10 whole) with
        | none => .error "Bitcoin amount is out of range"
        | some coins =>
          if coins > 21000000 then .error "Bitcoin amount is out of range"
          else
            match if fraction = [] then some 0 else wholeNumber (fromChars 10 fraction) with
            | none => .error "Bitcoin amount has invalid fractional digits"
            | some fractional =>
              let satoshis := coins * 100000000 + fractional * 10 ^ (8 - fraction.length)
              if satoshis > 21000000 * 100000000 then .error "Bitcoin amount is out of range" else .ok satoshis
  | _ => .error "Bitcoin amount must be a JSON number"

def jsonTxOut (object : UniValue) : Except String TxOut :=
  if !object.isObject then .error "txout must be an object"
  else
    let script := object.findValue "scriptPubKey"
    match script.isObject && script.hasKey "hex", script.findValue "hex" with
    | true, .str hex => do
      let amount ← parseBitcoinAmount (object.findValue "value")
      let bytes ← parseHexBytes hex
      return ⟨amount, bytes⟩
    | _, _ => .error "txout scriptPubKey.hex is missing"

section Hash

variable {H : Type} [StoredHash H]

/-- `Hash256::FromBitcoinHex`: the bytes are reversed. -/
def fromBitcoinHex (hex : List UInt8) : Except String H :=
  if hex.length ≠ 64 then .error "hash must contain exactly 64 hex digits"
  else
    match hexBytes hex with
    | some bytes => .ok (StoredHash.ofBytes bytes.reverse)
    | none => .error "hash contains a non-hex character"

def jsonBitcoinHash (value : UniValue) (field : String) : Except String H :=
  match value with
  | .str hex => (fromBitcoinHex hex).mapError (field ++ ": " ++ ·)
  | _ => .error (field ++ " must be a hex string")

variable [DecidableEq H]

/-- The leaves of the coinbases in the blocks 91722 and 91812. -/
def bip30Leaves : List (List UInt8) := [
  [0x84, 0xb3, 0xaf, 0x07, 0x83, 0xb4, 0x10, 0xb4, 0x56, 0x4c, 0x5d, 0x1f, 0x36, 0x18, 0x68, 0x55,
    0x9f, 0x7c, 0xf7, 0x7c, 0xfc, 0x65, 0xce, 0x2b, 0xe9, 0x51, 0x21, 0x03, 0x57, 0x02, 0x2f, 0xe3],
  [0xbc, 0x6b, 0x4b, 0xf7, 0xce, 0xbb, 0xd3, 0x3a, 0x18, 0xd6, 0xb0, 0xfe, 0x1f, 0x8e, 0xcc, 0x7a,
    0xa5, 0x40, 0x30, 0x83, 0xc3, 0x9e, 0xe3, 0x43, 0xb9, 0x85, 0xd5, 0x1f, 0xd0, 0x29, 0x5a, 0xd8]]

def isBip30UnspendableLeaf (hash : H) : Bool := bip30Leaves.any fun bytes => hash = StoredHash.ofBytes bytes

/-! ## The projection -/

/-- A `BlockDelta` with its `proof_leaves`. -/
structure VerboseDelta (H : Type) extends UtreexoBridge.BlockDelta H where
  proofLeaves : List CompactLeafData

/-- The local variables of `ParseVerboseBlock`. -/
structure Projection (H : Type) where
  additions : List (Option H)
  deletions : List H
  proofLeaves : List CompactLeafData
  sameBlockOutputs : OutPoint H → Option Nat

/-- What the handler at the end makes of an exception. -/
def catching {α : Type} (result : Except String α) : Except String α :=
  result.mapError ("invalid getblock verbosity-3 response: " ++ ·)

/-- The leaf of an output that was created before the block. -/
def prevoutLeaf (resolve : Nat → Except String H) (outpoint : OutPoint H) (prevout : UniValue) :
    Except String (LeafData H) :=
  if !prevout.isObject then
    .error "getblock verbosity 3 did not provide an input prevout; Core must be unpruned with undo data"
  else do
    let creationHeight ← catching (prevout.findValue "height").getUint32
    if creationHeight = 0 then .error "input prevout claims genesis creation height"
    else
      let creationHash ← (resolve creationHeight).mapError ("creation block hash lookup failed: " ++ ·)
      let output ← jsonTxOut prevout
      let generated ← catching (prevout.findValue "generated").getBool
      return ⟨creationHash, outpoint, creationHeight, generated, output⟩

def toHex (hash : H) : String :=
  let digit (value : Nat) : Char := ("0123456789abcdef".toList).getD value '0'
  String.ofList ((StoredHash.bytes hash).flatMap fun b => [digit (b.toNat >>> 4), digit (b.toNat &&& 15)])

def spendInput (resolve : Nat → Except String H) (state : Projection H) (input : UniValue) :
    Except String (Projection H) := do
  let txid ← jsonBitcoinHash (input.findValue "txid") "input txid"
  let index ← catching (input.findValue "vout").getUint32
  match state.sameBlockOutputs ⟨txid, index⟩ with
  | some place =>
    return { state with
      additions := state.additions.set place none
      sameBlockOutputs := Function.update state.sameBlockOutputs ⟨txid, index⟩ none }
  | none =>
    let leaf ← prevoutLeaf resolve ⟨txid, index⟩ (input.findValue "prevout")
    if isBip30UnspendableLeaf leaf.leafHash then
      .error ("block attempts to spend an unspendable BIP30 leaf: " ++ toHex leaf.leafHash)
    else
      return { state with
        deletions := state.deletions ++ [leaf.leafHash], proofLeaves := state.proofLeaves ++ [compactLeaf leaf] }

/-- The loop over the inputs. Those of a coinbase are not read. -/
def spendInputs (resolve : Nat → Except String H) (coinbase : Bool) (state : Projection H) (inputs : List UniValue) :
    Except String (Projection H) :=
  if coinbase then .ok state else inputs.foldlM (spendInput resolve) state

def createOutput (blockHash txid : H) (height : Nat) (coinbase : Bool) (state : Projection H) (outputJson : UniValue) :
    Except String (Projection H) := do
  let index ← catching (outputJson.findValue "n").getUint32
  let output ← jsonTxOut outputJson
  if isProvablyUnspendable output then return state
  else
    let leaf : LeafData H := ⟨blockHash, ⟨txid, index⟩, height, coinbase, output⟩
    let outputs := state.sameBlockOutputs
    return { state with
      additions := state.additions ++ [some leaf.leafHash]
      -- `emplace` keeps an entry that is there
      sameBlockOutputs :=
        if (outputs leaf.outpoint).isSome then outputs
        else Function.update outputs leaf.outpoint (some state.additions.length) }

def projectTransaction (resolve : Nat → Except String H) (blockHash : H) (height : Nat) (coinbase : Bool)
    (state : Projection H) (transaction : UniValue) : Except String (Projection H) := do
  let txid ← jsonBitcoinHash (transaction.findValue "txid") "transaction id"
  match transaction.findValue "vin", transaction.findValue "vout" with
  | .arr inputs, .arr outputs => do
    let spent ← spendInputs resolve coinbase state inputs
    if height = 0 then return spent else outputs.foldlM (createOutput blockHash txid height coinbase) spent
  | _, _ => .error "transaction vin/vout must be arrays"

/-- The first transaction is the coinbase. -/
def projectTransactions (resolve : Nat → Except String H) (blockHash : H) (height : Nat) :
    Bool → Projection H → List UniValue → Except String (Projection H)
  | _, state, [] => .ok state
  | coinbase, state, transaction :: transactions => do
    let state ← projectTransaction resolve blockHash height coinbase state transaction
    projectTransactions resolve blockHash height false state transactions

/-- A genesis block has no previous block. -/
def previousHash (block : UniValue) (height : Nat) : Except String H :=
  if height > 0 then jsonBitcoinHash (block.findValue "previousblockhash") "previous block hash" else .ok ForestHash.null

def parseVerboseBlock (block : UniValue) (resolve : Nat → Except String H) : Except String (VerboseDelta H) :=
  if !block.isObject then .error "getblock result must be an object"
  else do
    let blockHash ← jsonBitcoinHash (block.findValue "hash") "block hash"
    let height ← catching (block.findValue "height").getUint32
    let previous ← previousHash block height
    match block.findValue "tx" with
    | .arr (first :: rest) => do
      let state ← projectTransactions resolve blockHash height true ⟨[], [], [], fun _ => none⟩ (first :: rest)
      return ⟨⟨⟨height, blockHash⟩, previous, state.additions.filterMap id, state.deletions⟩, state.proofLeaves⟩
    | _ => .error "block has no transactions"

end Hash

end UtreexoBridge.Rpc
