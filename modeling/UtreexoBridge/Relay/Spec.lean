import UtreexoBridge.Rpc.JsonText
import UtreexoBridge.TxCache.Run

/-!
# The recovery scan of the mempool (`TransactionRelay::RecoveryCandidates`)

The relay reads the ids of the mempool in one pass over the response of
`getrawmempool` and prepares the transactions that the cache does not hold, a
batch at a time. Only the relay's thread publishes and erases. The clock may
advance before each call of the cache.
-/

namespace UtreexoBridge

open Rpc JsonCursor

structure TransactionRelay (P H : Type) where
  cache : TransactionProofCache P H
  batchSize : Nat
  scanCursor : Nat

/-- The local variables of the scan. `missing` is a `std::set`, and the order of its elements does not matter. -/
structure RecoveryScan (P H : Type) where
  cache : TransactionProofCache P H
  missing : List H
  candidates : List H
  count : Nat
  nextCursor : Nat

namespace TransactionRelay

variable {P H : Type} [DecidableEq H] [PreparedProof P H]

def visit (batchSize scanCursor : Nat) (delay : Nat → Nat) (s : RecoveryScan P H) (txid : H) :
    Except Fault (RecoveryScan P H) :=
  let s := { s with missing := s.missing.filter (· ≠ txid) }
  if s.count ≥ scanCursor ∧ s.candidates.length < batchSize then
    match (s.cache.elapse (delay (s.count + 1))).find txid none with
    | .error fault => .error fault
    | .ok (found, cache) =>
      .ok { s with
        cache
        nextCursor := s.count + 1
        candidates := if found.isNone then s.candidates ++ [txid] else s.candidates
        count := s.count + 1 }
  else .ok { s with count := s.count + 1 }

/-- The loop over the ids, with the text from the closing bracket on. Each round takes 66 bytes, so a fuel of the
text's length is never used up. -/
def scanLoop [StoredHash H] (batchSize scanCursor : Nat) (delay : Nat → Nat) : Nat → List UInt8 → RecoveryScan P H →
    Except Fault (Except String (List UInt8) × RecoveryScan P H)
  | 0, _, s => .ok (.error "truncated Core mempool inventory", s)
  | fuel + 1, json, s =>
    if json.length < 66 ∨ json[0]? ≠ some 34 ∨ json[65]? ≠ some 34 then
      .ok (.error "invalid Core mempool transaction id", s)
    else
      match fromBitcoinHex ((json.drop 1).take 64) with
      | .error message => .ok (.error message, s)
      | .ok txid =>
        match visit batchSize scanCursor delay s txid with
        | .error fault => .error fault
        | .ok s =>
          match whitespace (json.drop 66) with
          | [] => .ok (.error "truncated Core mempool inventory", s)
          | b :: rest =>
            if b = 93 then .ok (.ok (b :: rest), s)
            else if b ≠ 44 then .ok (.error "invalid Core mempool inventory separator", s)
            else scanLoop batchSize scanCursor delay fuel (whitespace rest) s

def eraseAll (cache : TransactionProofCache P H) : List H → Except Fault (TransactionProofCache P H)
  | [] => .ok cache
  | txid :: txids =>
    match cache.eraseTxid txid with
    | .error fault => .error fault
    | .ok cache => eraseAll cache txids

def scanIds [StoredHash H] (batchSize scanCursor : Nat) (delay : Nat → Nat) (json : List UInt8) (s : RecoveryScan P H) :
    Except Fault (Except String (List UInt8) × RecoveryScan P H) :=
  match json with
  | [] => .ok (.ok [], s)
  | b :: rest =>
    if b = 93 then .ok (.ok (b :: rest), s)
    else scanLoop batchSize scanCursor delay json.length json s

def finishScan (relay : TransactionRelay P H) (rest : List UInt8) (s : RecoveryScan P H) :
    Except Fault (Except String (List H) × TransactionRelay P H) :=
  match rest with
  | [] => .ok (.error "truncated Core mempool inventory", { relay with cache := s.cache })
  | b :: rest =>
    if b ≠ 93 then .ok (.error "truncated Core mempool inventory", { relay with cache := s.cache })
    else if whitespace rest ≠ [] then
      .ok (.error "trailing Core mempool inventory data", { relay with cache := s.cache })
    else
      match eraseAll s.cache s.missing with
      | .error fault => .error fault
      | .ok cache =>
        .ok (.ok s.candidates,
          { relay with cache, scanCursor := if s.nextCursor ≥ s.count then 0 else s.nextCursor })

/-- `RecoveryCandidates` on the response of `getrawmempool`. `delay` is the time that passes before the calls of the
cache: before `Txids`, and before the `Find` for the id at a place. -/
def recoveryCandidates [StoredHash H] (relay : TransactionRelay P H) (delay : Nat → Nat)
    (inventory : Except String (List UInt8)) : Except Fault (Except String (List H) × TransactionRelay P H) :=
  match inventory with
  | .error message => .ok (.error message, relay)
  | .ok json =>
    let (missing, cache) := (relay.cache.elapse (delay 0)).txids
    match whitespace json with
    | [] => .ok (.error "Core mempool inventory is not an array", { relay with cache })
    | b :: json =>
      if b ≠ 91 then .ok (.error "Core mempool inventory is not an array", { relay with cache })
      else
        match scanIds relay.batchSize relay.scanCursor delay (whitespace json)
          ⟨cache, missing, [], 0, relay.scanCursor⟩ with
        | .error fault => .error fault
        | .ok (.error message, s) => .ok (.error message, { relay with cache := s.cache })
        | .ok (.ok rest, s) => relay.finishScan rest s

/-- Calls in a row on one inventory. `delay` is that of each call. -/
def recoverTimes [StoredHash H] (inventory : Except String (List UInt8)) (delay : Nat → Nat → Nat) :
    Nat → TransactionRelay P H → Except Fault (List (Except String (List H)) × TransactionRelay P H)
  | 0, relay => .ok ([], relay)
  | calls + 1, relay =>
    match relay.recoveryCandidates (delay calls) inventory with
    | .error fault => .error fault
    | .ok (result, relay) =>
      match recoverTimes inventory delay calls relay with
      | .error fault => .error fault
      | .ok (results, relay) => .ok (result :: results, relay)

end TransactionRelay

end UtreexoBridge
