import Mathlib.Logic.Function.Basic
import UtreexoBridge.Node

/-!
# The transaction proof cache (`TransactionProofCache`)

Every member function holds the mutex while it runs, so a call is one step. A
`WaitFor` call gives the mutex up while it waits: it is a step that enters and
a later step that resumes. Clock readings come from `now`, and time can pass
between the two readings of one call.
-/

namespace UtreexoBridge

/-- What the cache looks at in a `txwire::PreparedTransactionProof`. -/
class PreparedProof (P : Type) (H : outParam Type) where
  txid : P → H
  memoryUsage : P → Nat
  /-- `sizeof(PreparedTransactionEntry)`. -/
  entrySize : Nat
  /-- `WireProof().targets.size()`. -/
  targetCount : P → Nat
  /-- The digest over the serialized preparation and its hashes, or the serializer's error. -/
  digest : P → Except String H

structure TransactionCacheConfig where
  maxEntries : Nat
  maxBytes : Nat
  /-- In seconds. -/
  lifetime : Nat
  maxRegenerations : Nat
  deriving DecidableEq, Repr

/-- The bounds that the constructor accepts. -/
def TransactionCacheConfig.valid (c : TransactionCacheConfig) : Bool :=
  0 < c.maxEntries && 0 < c.maxBytes && 0 < c.lifetime && c.lifetime ≤ 24 * 3600 && 0 < c.maxRegenerations &&
    c.maxRegenerations ≤ 128

structure TransactionCacheStats where
  bytes : Nat := 0
  published : Nat := 0
  evicted : Nat := 0
  expired : Nat := 0
  oversized : Nat := 0
  invalidations : Nat := 0
  epoch : Nat := 0
  ready : Bool := false
  regenerationQueued : Nat := 0
  regenerationCoalesced : Nat := 0
  regenerated : Nat := 0
  regenerationMisses : Nat := 0
  deriving DecidableEq, Repr

structure TransactionProofIdentity (H : Type) where
  epoch : Nat
  digest : H
  deriving DecidableEq, Repr

structure TransactionRegenerationRequest (H : Type) where
  txid : H
  identity : TransactionProofIdentity H
  deriving DecidableEq, Repr

structure PreparedTransactionEntry (P H : Type) where
  point : ChainPoint H
  sequence : Nat
  proof : P
  expires : Nat
  bytes : Nat
  identity : TransactionProofIdentity H
  deriving DecidableEq, Repr

structure TransactionAnnouncementEntry (P H : Type) where
  sequence : Nat
  /-- The announcement is read off the proof. -/
  proof : P
  identity : TransactionProofIdentity H
  deriving DecidableEq, Repr

structure Regeneration (P H : Type) where
  request : TransactionRegenerationRequest H
  waiters : Nat
  running : Bool
  done : Bool
  result : Option (PreparedTransactionEntry P H)

/-- `TransactionProofCache::Impl`. A shared `Regeneration` is a number below `nextJob`. -/
structure TransactionProofCache (P H : Type) where
  config : TransactionCacheConfig
  /-- The steady clock, in nanoseconds. -/
  now : Nat
  point : Option (ChainPoint H)
  sequence : Nat
  stats : TransactionCacheStats
  /-- In the order of their sequence numbers. -/
  entries : List (PreparedTransactionEntry P H)
  byTxid : H → Option Nat
  jobs : Nat → Option (Regeneration P H)
  nextJob : Nat
  /-- The jobs in the map, at most one for each request. -/
  regeneration : List Nat
  pending : List (TransactionRegenerationRequest H)

/-- `a - b` on `uint64_t`. -/
def sub64 (a b : Nat) : Nat := if b ≤ a then a - b else 2 ^ 64 - (b - a)

namespace TransactionProofCache

variable {P H : Type}

def new (config : TransactionCacheConfig) : Except Fault (TransactionProofCache P H) :=
  if config.valid then .ok ⟨config, 0, none, 0, {}, [], fun _ => none, fun _ => none, 0, [], []⟩
  else .error (.thrown "invalid transaction proof cache bounds")

def elapse (c : TransactionProofCache P H) (delay : Nat) : TransactionProofCache P H := { c with now := c.now + delay }

/-! ## Entries -/

section Entries

variable [PreparedProof P H] [DecidableEq H]

def eraseEntry (c : TransactionProofCache P H) (e : PreparedTransactionEntry P H) : TransactionProofCache P H :=
  { c with
    stats := { c.stats with bytes := sub64 c.stats.bytes e.bytes }
    byTxid := Function.update c.byTxid (PreparedProof.txid e.proof) none
    entries := c.entries.filter (·.sequence ≠ e.sequence) }

/-- `while (!entries.empty() && ...) { Erase(entries.begin()); ++counter; }`. -/
def eraseWhile (more : TransactionProofCache P H → PreparedTransactionEntry P H → Bool)
    (count : TransactionCacheStats → TransactionCacheStats) : Nat → TransactionProofCache P H → TransactionProofCache P H
  | 0, c => c
  | fuel + 1, c =>
    match c.entries with
    | [] => c
    | e :: _ =>
      if more c e then
        let c := c.eraseEntry e
        eraseWhile more count fuel { c with stats := count c.stats }
      else c

def expire (c : TransactionProofCache P H) : TransactionProofCache P H :=
  eraseWhile (fun c e => e.expires ≤ c.now) (fun s => { s with expired := s.expired + 1 }) c.entries.length c

/-- The eviction loop of `Publish`. -/
def evict (bytes : Nat) (c : TransactionProofCache P H) : TransactionProofCache P H :=
  eraseWhile
    (fun c _ => c.entries.length ≥ c.config.maxEntries || bytes > sub64 c.config.maxBytes c.stats.bytes)
    (fun s => { s with evicted := s.evicted + 1 }) c.entries.length c

def entryAt (c : TransactionProofCache P H) (sequence : Nat) : Except Fault (PreparedTransactionEntry P H) :=
  match c.entries.find? (·.sequence = sequence) with
  | none => .error (.thrown "map::at")
  | some e => .ok e

def eraseSequence (c : TransactionProofCache P H) (sequence : Nat) : Except Fault (TransactionProofCache P H) :=
  match c.entries.find? (·.sequence = sequence) with
  | none => .error .outOfBounds
  | some e => .ok (c.eraseEntry e)

def eraseTxid (c : TransactionProofCache P H) (txid : H) : Except Fault (TransactionProofCache P H) :=
  match c.byTxid txid with
  | none => .ok c
  | some sequence => c.eraseSequence sequence

/-- `Impl::Match`. -/
def matchRequest (c : TransactionProofCache P H) (request : TransactionRegenerationRequest H) :
    Except Fault (Option (PreparedTransactionEntry P H) × TransactionProofCache P H) :=
  let c := c.expire
  if !c.stats.ready ∨ c.stats.epoch ≠ request.identity.epoch then .ok (none, c)
  else
    match c.byTxid request.txid with
    | none => .ok (none, c)
    | some sequence =>
      match c.entryAt sequence with
      | .error fault => .error fault
      | .ok e => .ok (if e.identity = request.identity then some e else none, c)

def find (c : TransactionProofCache P H) (txid : H) (sequence : Option Nat) :
    Except Fault (Option (PreparedTransactionEntry P H) × TransactionProofCache P H) :=
  let c := c.expire
  if !c.stats.ready then .ok (none, c)
  else
    match c.byTxid txid with
    | none => .ok (none, c)
    | some found =>
      if sequence.any (found ≠ ·) then .ok (none, c)
      else
        match c.entryAt found with
        | .error fault => .error fault
        | .ok e => .ok (some e, c)

end Entries

/-! ## The anchor -/

def clear (c : TransactionProofCache P H) : TransactionProofCache P H :=
  { c with
    entries := []
    byTxid := fun _ => none
    stats := { c.stats with
      bytes := 0, ready := false, epoch := c.stats.epoch + 1, invalidations := c.stats.invalidations + 1 }
    point := none
    jobs := fun j =>
      if j ∈ c.regeneration then (c.jobs j).map fun job => { job with done := true, result := none } else c.jobs j
    regeneration := []
    pending := [] }

variable [DecidableEq H]

def activate (c : TransactionProofCache P H) (point : ChainPoint H) : TransactionProofCache P H :=
  let c := if c.point.any (· ≠ point) then c.clear else c
  { c with point := some point, stats := { c.stats with ready := true } }

variable [PreparedProof P H]

/-- The end of `Publish`, from `++sequence` on. -/
def append (c : TransactionProofCache P H) (point : ChainPoint H) (proof : P) (bytes : Nat) (digest : H) :
    TransactionProofCache P H :=
  let txid := PreparedProof.txid proof
  let sequence := c.sequence + 1
  let entry : PreparedTransactionEntry P H :=
    ⟨point, sequence, proof, c.now + c.config.lifetime * 1000000000, bytes, ⟨c.stats.epoch, digest⟩⟩
  { c with
    sequence
    -- the new sequence number is the largest key
    entries := c.entries ++ [entry]
    -- `emplace` keeps an existing key
    byTxid := if (c.byTxid txid).isSome then c.byTxid else Function.update c.byTxid txid (some sequence)
    stats := { c.stats with bytes := c.stats.bytes + bytes, published := c.stats.published + 1 } }

def publish (c : TransactionProofCache P H) (point : ChainPoint H) (proof : P) (delay : Nat) :
    Except Fault (Except String Bool × TransactionProofCache P H) :=
  match PreparedProof.digest proof with
  | .error message => .ok (.error message, c)
  | .ok digest =>
    if !c.stats.ready ∨ c.point ≠ some point then
      .ok (.error "transaction cache anchor changed during preparation", c)
    else
      let c := c.expire
      let bytes := PreparedProof.memoryUsage proof + PreparedProof.entrySize P + 256
      if bytes > c.config.maxBytes then
        .ok (.ok false, { c with stats := { c.stats with oversized := c.stats.oversized + 1 } })
      else
        match c.eraseTxid (PreparedProof.txid proof) with
        | .error fault => .error fault
        | .ok c => .ok (.ok true, ((c.evict bytes).elapse delay).append point proof bytes digest)

/-! ## Regeneration -/

def findJob (c : TransactionProofCache P H) (request : TransactionRegenerationRequest H) : Option Nat :=
  c.regeneration.find? fun j => (c.jobs j).any (·.request = request)

omit [DecidableEq H] [PreparedProof P H] in
def setJob (c : TransactionProofCache P H) (j : Nat) (job : Regeneration P H) : TransactionProofCache P H :=
  { c with jobs := Function.update c.jobs j (some job) }

def takeRegeneration (c : TransactionProofCache P H) :
    Except Fault (Option (TransactionRegenerationRequest H) × TransactionProofCache P H) :=
  match c.pending with
  | [] => .ok (none, c)
  | request :: pending =>
    let c := { c with pending }
    match (c.findJob request).bind fun j => (c.jobs j).map fun job => (j, job) with
    | none => .error (.thrown "map::at")
    | some (j, job) => .ok (some request, c.setJob j { job with running := true })

/-- The counters at the end of `CompleteRegeneration`. -/
def countResult (stats : TransactionCacheStats) (hit : Bool) : TransactionCacheStats :=
  if hit then { stats with regenerated := stats.regenerated + 1 }
  else { stats with regenerationMisses := stats.regenerationMisses + 1 }

def completeRegeneration (c : TransactionProofCache P H) (request : TransactionRegenerationRequest H) :
    Except Fault (Bool × TransactionProofCache P H) :=
  match (c.findJob request).bind fun j => (c.jobs j).map fun job => (j, job) with
  | none => .ok (false, c)
  | some (j, job) =>
    if !job.running ∨ job.done then .ok (false, c)
    else
      match c.matchRequest request with
      | .error fault => .error fault
      | .ok (result, c) =>
        let c := c.setJob j { job with result, done := true }
        let c := { c with
          stats := countResult c.stats result.isSome
          regeneration := if job.waiters = 0 then c.regeneration.erase j else c.regeneration }
        .ok (result.isSome, c)

/-! ## Announcements -/

def maxInventory : Nat := 50000

/-- The loop of `AnnouncementsAfter`: the output so far and its vectors. -/
def announceLoop (maxEntries maxVectors : Nat) : List (PreparedTransactionEntry P H) → Nat →
    List (TransactionAnnouncementEntry P H) → Nat → List (TransactionAnnouncementEntry P H) × Nat
  | [], cursor, output, _ => (output, cursor)
  | e :: rest, cursor, output, vectors =>
    let count := 1 + (PreparedProof.targetCount e.proof + 3) / 4
    if count > maxInventory then announceLoop maxEntries maxVectors rest e.sequence output vectors
    else if output ≠ [] ∧ (output.length ≥ maxEntries ∨ vectors + count > maxVectors) then (output, cursor)
    else
      announceLoop maxEntries maxVectors rest e.sequence (output ++ [⟨e.sequence, e.proof, e.identity⟩])
        (vectors + count)

/-- The announcements and the new cursor. -/
def announcementsAfter (c : TransactionProofCache P H) (cursor maxEntries maxVectors : Nat)
    (expectedEpoch : Option Nat) : (List (TransactionAnnouncementEntry P H) × Nat) × TransactionProofCache P H :=
  let c := c.expire
  if !c.stats.ready ∨ maxEntries = 0 ∨ maxVectors = 0 ∨ expectedEpoch.any (· ≠ c.stats.epoch) then (([], cursor), c)
  else (announceLoop maxEntries maxVectors (c.entries.filter (cursor < ·.sequence)) cursor [] 0, c)

def txids (c : TransactionProofCache P H) : List H × TransactionProofCache P H :=
  let c := c.expire
  (c.entries.map fun e => PreparedProof.txid e.proof, c)

def readStats (c : TransactionProofCache P H) : (TransactionCacheStats × Nat × Nat) × TransactionProofCache P H :=
  let c := c.expire
  ((c.stats, c.entries.length, c.regeneration.length), c)

end TransactionProofCache

/-! ## Calls in any order -/

/-- A `WaitFor` call inside `wait_until`. -/
structure Waiter (H : Type) where
  request : TransactionRegenerationRequest H
  job : Nat
  deadline : Nat
  deriving DecidableEq, Repr

/-- The cache and the calls that wait on it. -/
structure CacheSystem (P H : Type) where
  cache : TransactionProofCache P H
  waiters : List (Waiter H)

/-- How a `WaitFor` call goes on. -/
inductive WaitReply (P H : Type)
  | returned (entry : Option (PreparedTransactionEntry P H))
  | waiting (waiter : Waiter H)

namespace CacheSystem

variable {P H : Type} [DecidableEq H]

/-- `WaitFor` up to the wait. `cancelled` is what the flag reads. -/
def waitFor [PreparedProof P H] (s : CacheSystem P H) (request : TransactionRegenerationRequest H)
    (deadline delay : Nat) (cancelled : Bool) : Except Fault (WaitReply P H × CacheSystem P H) :=
  match s.cache.matchRequest request with
  | .error fault => .error fault
  | .ok (some e, c) => .ok (.returned (some e), { s with cache := c })
  | .ok (none, c) =>
    let c := c.elapse delay
    if !c.stats.ready ∨ request.identity.epoch ≠ c.stats.epoch ∨ c.now ≥ deadline ∨ cancelled then
      .ok (.returned none, { s with cache := c })
    else
      match (c.findJob request).bind fun j => (c.jobs j).map fun job => (j, job) with
      | some (j, job) =>
        let c := c.setJob j { job with waiters := job.waiters + 1 }
        let stats := { c.stats with regenerationCoalesced := c.stats.regenerationCoalesced + 1 }
        .ok (.waiting ⟨request, j, deadline⟩, ⟨{ c with stats }, s.waiters ++ [⟨request, j, deadline⟩]⟩)
      | none =>
        if c.regeneration.length ≥ c.config.maxRegenerations then .ok (.returned none, { s with cache := c })
        else
          let j := c.nextJob
          let c := c.setJob j ⟨request, 1, false, false, none⟩
          let stats := { c.stats with regenerationQueued := c.stats.regenerationQueued + 1 }
          let c := { c with
            stats, nextJob := j + 1, regeneration := c.regeneration ++ [j], pending := c.pending ++ [request] }
          .ok (.waiting ⟨request, j, deadline⟩, ⟨c, s.waiters ++ [⟨request, j, deadline⟩]⟩)

/-- The condition of `wait_until`, or its deadline. -/
def mayResume (s : CacheSystem P H) (w : Waiter H) (job : Regeneration P H) (cancelled : Bool) : Bool :=
  job.done || cancelled || w.request.identity.epoch ≠ s.cache.stats.epoch || s.cache.now ≥ w.deadline

/-- `WaitFor` after the wait. The flag is read in the condition and once more for the result. -/
def resume (s : CacheSystem P H) (w : Waiter H) (cancelledWait cancelled : Bool) :
    Option (Option (PreparedTransactionEntry P H) × CacheSystem P H) :=
  match if w ∈ s.waiters then s.cache.jobs w.job else none with
  | none => none
  | some job =>
    if s.mayResume w job cancelledWait then
      let c := s.cache
      let result :=
        if job.done ∧ c.stats.ready ∧ w.request.identity.epoch = c.stats.epoch ∧ !cancelled then job.result else none
      let job := { job with waiters := job.waiters - 1 }
      let c := c.setJob w.job job
      let c :=
        if job.waiters = 0 ∧ (!job.running ∨ job.done) ∧ c.findJob w.request = some w.job then
          { c with
            regeneration := c.regeneration.erase w.job
            pending := c.pending.filter (· ≠ w.request) }
        else c
      some (result, ⟨c, s.waiters.erase w⟩)
    else none

end CacheSystem

end UtreexoBridge
