import UtreexoBridge.Archive.Payload
import UtreexoBridge.Wire.Transaction

/-!
# Leaves of the UTXO set (`leaf.cpp`)

The accumulator holds the hash of everything that is known about an output. The
proof archive keeps what a client cannot rebuild from the spending input.
-/

namespace UtreexoBridge

open Bytes Wire

structure TxOut where
  value : Nat
  scriptPubkey : List UInt8
  deriving DecidableEq

structure LeafData (H : Type) where
  blockHash : H
  outpoint : OutPoint H
  blockHeight : Nat
  coinbase : Bool
  output : TxOut
  deriving DecidableEq

def utreexoTagV1 : List UInt8 := [
  0x5b, 0x83, 0x2d, 0xb8, 0xca, 0x26, 0xc2, 0x5b, 0xe1, 0xc5, 0x42, 0xd6, 0xcc, 0xed, 0xdd, 0xa8,
  0xc1, 0x45, 0x61, 0x5c, 0xff, 0x5c, 0x35, 0x72, 0x7f, 0xb3, 0x46, 0x26, 0x10, 0x80, 0x7e, 0x20,
  0xae, 0x53, 0x4d, 0xc3, 0xf6, 0x42, 0x99, 0x19, 0x99, 0x31, 0x77, 0x2e, 0x03, 0x78, 0x7d, 0x18,
  0x15, 0x6e, 0xb3, 0x15, 0x1e, 0x0e, 0xd1, 0xb3, 0x09, 0x8b, 0xdc, 0x84, 0x45, 0x86, 0x18, 0x85]

/-- `(block_height << 1) | coinbase` on `uint32_t`. -/
def headerCode (blockHeight : Nat) (coinbase : Bool) : Nat := (blockHeight <<< 1 ||| coinbase.toNat) % 2 ^ 32

def LeafData.leafHash {H : Type} [StoredHash H] (leaf : LeafData H) : H :=
  StoredHash.sha512_256 (utreexoTagV1 ++ utreexoTagV1 ++ StoredHash.bytes leaf.blockHash ++
    StoredHash.bytes leaf.outpoint.txid ++ appendUnsigned 4 leaf.outpoint.index ++
    appendUnsigned 4 (headerCode leaf.blockHeight leaf.coinbase) ++ appendUnsigned 8 leaf.output.value ++
    appendCompactSize leaf.output.scriptPubkey.length ++ leaf.output.scriptPubkey)

def hasBytes (script : List UInt8) (bytes : List (Nat × UInt8)) : Bool := bytes.all fun (i, b) => script[i]? = some b

def scriptPubkeyType (script : List UInt8) : ScriptPubkeyType :=
  if script.length = 25 ∧ hasBytes script [(0, 0x76), (1, 0xa9), (2, 0x14), (23, 0x88), (24, 0xac)] then .pubkeyHash
  else if script.length = 23 ∧ hasBytes script [(0, 0xa9), (1, 0x14), (22, 0x87)] then .scriptHash
  else if script.length = 22 ∧ hasBytes script [(0, 0x00), (1, 0x14)] then .witnessV0PubkeyHash
  else if script.length = 34 ∧ hasBytes script [(0, 0x00), (1, 0x20)] then .witnessV0ScriptHash
  else .other

def compactLeaf {H : Type} (leaf : LeafData H) : CompactLeafData where
  headerCode := headerCode leaf.blockHeight leaf.coinbase
  amount := leaf.output.value
  scriptType := scriptPubkeyType leaf.output.scriptPubkey
  script := if scriptPubkeyType leaf.output.scriptPubkey = .other then leaf.output.scriptPubkey else []

def isProvablyUnspendable (output : TxOut) : Bool :=
  output.scriptPubkey.length > 10000 || output.scriptPubkey.head? = some 0x6a

theorem scriptPubkeyType_code (script : List UInt8) : (scriptPubkeyType script).code ≤ 4 := by
  unfold scriptPubkeyType
  split_ifs <;> decide

theorem known_compactLeaf {H : Type} {leaf : LeafData H} (h : leaf.output.scriptPubkey.length ≤ maxScriptBytes) :
    (compactLeaf leaf).Known where
  code_le := scriptPubkeyType_code _
  script_le hother := by
    change scriptPubkeyType leaf.output.scriptPubkey = .other at hother
    rw [compactLeaf, if_pos hother]
    exact h
  script_nil hother := by
    change scriptPubkeyType leaf.output.scriptPubkey ≠ .other at hother
    rw [compactLeaf, if_neg hother]

end UtreexoBridge
