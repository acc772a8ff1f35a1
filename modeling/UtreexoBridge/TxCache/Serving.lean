import UtreexoBridge.OrderedMap
import UtreexoBridge.TxCache.Run

/-!
# Serving transaction proofs on one connection

The part of `ClientLoop` that announces transactions and answers `getdata`, cut
at its cache calls. Other threads call the cache between any two steps.
-/

namespace UtreexoBridge

open PreparedProof

structure TransactionProofRequest (H : Type) where
  txid : H
  inventoryType : Nat
  proofPositions : List Nat

/-- What the connection sent. -/
inductive ServeEvent (P H : Type)
  | announced (txid : H) (identity : TransactionProofIdentity H)
  | utreexotx (request : TransactionProofRequest H) (entry : PreparedTransactionEntry P H)
  | notfound (request : TransactionProofRequest H)

/-- Where the loop is. -/
inductive ServePc (P H : Type)
  | top
  | announcing
  | polling
  | receiving
  | serving (requests : List (TransactionProofRequest H))
  | matching (request : TransactionProofRequest H) (identity : TransactionProofIdentity H)
      (rest : List (TransactionProofRequest H))
  | missing (request : TransactionProofRequest H) (identity : TransactionProofIdentity H)
      (rest : List (TransactionProofRequest H))
  | waiting (request : TransactionProofRequest H) (identity : TransactionProofIdentity H) (waiter : Waiter H)
      (rest : List (TransactionProofRequest H))
  | checking (request : TransactionProofRequest H) (announced : Option (TransactionProofIdentity H))
      (entry : Option (PreparedTransactionEntry P H)) (rest : List (TransactionProofRequest H))
  | responding (request : TransactionProofRequest H) (entry : Option (PreparedTransactionEntry P H))
      (rest : List (TransactionProofRequest H))
  | closed (reason : String)

structure Connection (P H : Type) where
  txCursor : Nat := 0
  txEpoch : Nat := 2 ^ 64 - 1
  announcedTransactions : List (H × TransactionProofIdentity H) := []
  announcementHistoryTruncated : Bool := false
  /-- Newest first. -/
  sent : List (ServeEvent P H) := []
  pc : ServePc P H := .top

/-- How the work guard, the serializer, the egress budget and the socket answer. -/
structure SendOutcome where
  work : Bool
  measured : Except String Unit
  egress : Bool
  encoded : Except String Unit
  sent : Except String Unit

inductive Received (H : Type)
  | failed (reason : String)
  /-- A message that has nothing to do with transactions. -/
  | other
  | getdata (requests : Except String (List (TransactionProofRequest H)))

inductive ServeAction (H : Type)
  /-- The peer wants no transactions. -/
  | skip
  | stats
  | announce (ready repeats : Bool) (outcome : SendOutcome)
  /-- No input yet, input, or a failure. -/
  | poll (available : Except String Bool)
  | receive (message : Received H)
  | next
  | findMatching
  | waitFor (deadline delay : Nat) (stopping : Bool)
  | resume (stoppingWait stopping : Bool)
  | checkEpoch (stopping : Bool)
  | respond (outcome : SendOutcome)

namespace Connection

variable {P H : Type}

def close (conn : Connection P H) (reason : String) : Connection P H := { conn with pc := .closed reason }

/-! ## Announcements -/

def checkAnchor (conn : Connection P H) (epoch : Nat) : Connection P H :=
  if epoch ≠ conn.txEpoch then
    if conn.announcedTransactions ≠ [] then conn.close "transaction proof anchor changed"
    else { conn with txEpoch := epoch, pc := .announcing }
  else { conn with pc := .announcing }

variable [LinearOrder H] [PreparedProof P H]

def identityChanged (conn : Connection P H) (entries : List (TransactionAnnouncementEntry P H)) : Bool :=
  entries.any fun a => (OrderedMap.lookup conn.announcedTransactions (txid a.proof)).any (· ≠ a.identity)

/-- One entry of a sent announcement enters the history, which keeps at most `maxEntries`. -/
def remember (maxEntries : Nat) (conn : Connection P H) (a : TransactionAnnouncementEntry P H) : Connection P H :=
  let full := (OrderedMap.lookup conn.announcedTransactions (txid a.proof)).isNone ∧
    conn.announcedTransactions.length ≥ maxEntries
  { conn with
    announcedTransactions :=
      OrderedMap.assign (if full then conn.announcedTransactions.tail else conn.announcedTransactions) (txid a.proof)
        a.identity
    announcementHistoryTruncated := if full then true else conn.announcementHistoryTruncated
    sent := .announced (txid a.proof) a.identity :: conn.sent }

def announce (conn : Connection P H) (maxEntries : Nat) (entries : List (TransactionAnnouncementEntry P H))
    (nextCursor : Nat) (ready repeats : Bool) (outcome : SendOutcome) : Connection P H :=
  if entries.isEmpty then
    { conn with txCursor := if ready && repeats then 0 else conn.txCursor, pc := .polling }
  else if !outcome.work then conn.close "transaction announcement server busy"
  else if conn.identityChanged entries then conn.close "transaction proof identity changed"
  else
    match outcome.encoded with
    | .error reason => conn.close reason
    | .ok () =>
      if !outcome.egress then conn.close "transaction announcement egress limit"
      else
        match outcome.sent with
        | .error reason => conn.close reason
        | .ok () => { entries.foldl (remember maxEntries) conn with txCursor := nextCursor, pc := .polling }

/-! ## Requests -/

/-- The lookup at the head of the loop over the requests. -/
def nextRequest (conn : Connection P H) : List (TransactionProofRequest H) → Connection P H
  | [] => { conn with pc := .top }
  | request :: rest =>
    match OrderedMap.lookup conn.announcedTransactions request.txid with
    | some identity => { conn with pc := .matching request identity rest }
    | none =>
      if conn.announcementHistoryTruncated then conn.close "transaction announcement history truncated"
      else { conn with pc := .checking request none none rest }

/-- The end of an iteration, after `Stats`. -/
def send (conn : Connection P H) (stats : TransactionCacheStats) (request : TransactionProofRequest H)
    (entry : Option (PreparedTransactionEntry P H)) (rest : List (TransactionProofRequest H)) (outcome : SendOutcome) :
    Connection P H :=
  match entry with
  | some e =>
    if !stats.ready ∨ stats.epoch ≠ e.identity.epoch then conn.close "transaction proof anchor changed"
    else
      match outcome.encoded with
      | .error reason => conn.close reason
      | .ok () =>
        match outcome.sent with
        | .error reason => conn.close reason
        | .ok () => { conn with sent := .utreexotx request e :: conn.sent, pc := .serving rest }
  | none =>
    match outcome.sent with
    | .error reason => conn.close reason
    | .ok () => { conn with sent := .notfound request :: conn.sent, pc := .serving rest }

/-- The size is only measured for a proof. -/
def measured (entry : Option (PreparedTransactionEntry P H)) (outcome : SendOutcome) : Except String Unit :=
  if entry.isSome then outcome.measured else .ok ()

/-- One step of the connection. An action that does not fit the program counter is no step. -/
def step (s : CacheSystem P H) (conn : Connection P H) (action : ServeAction H) :
    Except Fault (Option (CacheSystem P H × Connection P H)) :=
  match conn.pc, action with
  | .top, .skip => .ok (some (s, { conn with pc := .receiving }))
  | .top, .stats =>
    .ok (some ({ s with cache := s.cache.readStats.2 }, conn.checkAnchor s.cache.readStats.1.1.epoch))
  | .announcing, .announce ready repeats outcome =>
    let ((entries, nextCursor), cache) :=
      s.cache.announcementsAfter conn.txCursor (if ready then 64 else 0) 2048 (some conn.txEpoch)
    .ok (some ({ s with cache },
      conn.announce s.cache.config.maxEntries entries nextCursor ready repeats outcome))
  | .polling, .poll (.error reason) => .ok (some (s, conn.close reason))
  | .polling, .poll (.ok available) => .ok (some (s, { conn with pc := if available then .receiving else .top }))
  | .receiving, .receive (.failed reason) => .ok (some (s, conn.close reason))
  | .receiving, .receive .other => .ok (some (s, { conn with pc := .top }))
  | .receiving, .receive (.getdata (.error reason)) => .ok (some (s, conn.close reason))
  | .receiving, .receive (.getdata (.ok requests)) => .ok (some (s, { conn with pc := .serving requests }))
  | .serving requests, .next => .ok (some (s, conn.nextRequest requests))
  | .matching request identity rest, .findMatching =>
    match s.cache.matchRequest ⟨request.txid, identity⟩ with
    | .error fault => .error fault
    | .ok (some e, cache) =>
      .ok (some ({ s with cache }, { conn with pc := .checking request (some identity) (some e) rest }))
    | .ok (none, cache) => .ok (some ({ s with cache }, { conn with pc := .missing request identity rest }))
  | .missing request identity rest, .waitFor deadline delay stopping =>
    match s.waitFor ⟨request.txid, identity⟩ deadline delay stopping with
    | .error fault => .error fault
    | .ok (.returned entry, s) =>
      .ok (some (s, { conn with pc := .checking request (some identity) entry rest }))
    | .ok (.waiting waiter, s) => .ok (some (s, { conn with pc := .waiting request identity waiter rest }))
  | .waiting request identity waiter rest, .resume stoppingWait stopping =>
    .ok ((s.resume waiter stoppingWait stopping).map fun (entry, s) =>
      (s, { conn with pc := .checking request (some identity) entry rest }))
  | .checking request announced entry rest, .checkEpoch stopping =>
    if stopping then .ok (some (s, conn.close "shutdown"))
    else
      match announced with
      | none => .ok (some (s, { conn with pc := .responding request entry rest }))
      | some identity =>
        let s' : CacheSystem P H := { s with cache := s.cache.readStats.2 }
        if s.cache.readStats.1.1.epoch ≠ identity.epoch then
          .ok (some (s', conn.close "transaction proof anchor changed"))
        else if entry.isNone then
          .ok (some (s', conn.close "announced transaction proof unavailable after regeneration"))
        else .ok (some (s', { conn with pc := .responding request entry rest }))
  | .responding request entry rest, .respond outcome =>
    if !outcome.work then .ok (some (s, conn.close "transaction proof server busy"))
    else
      match measured entry outcome with
      | .error reason => .ok (some (s, conn.close reason))
      | .ok () =>
        if !outcome.egress then .ok (some (s, conn.close "transaction proof egress limit"))
        else
          .ok (some ({ s with cache := s.cache.readStats.2 },
            conn.send s.cache.readStats.1.1 request entry rest outcome))
  | _, _ => .ok none

/-- The states of a connection that is accepted at any time, while other threads use the cache. -/
inductive Reachable (config : TransactionCacheConfig) : CacheSystem P H → Connection P H → Prop
  | accept {s : CacheSystem P H} (h : CacheSystem.Reachable config s) : Reachable config s {}
  | cache {s s' : CacheSystem P H} {conn : Connection P H} {x : CacheCall P H} {reply : CacheReply P H}
      (h : Reachable config s conn) (hcall : s.call x = .ok (some (reply, s'))) : Reachable config s' conn
  | step {s s' : CacheSystem P H} {conn conn' : Connection P H} {a : ServeAction H}
      (h : Reachable config s conn) (hstep : step s conn a = .ok (some (s', conn'))) : Reachable config s' conn'

/-! ## The history -/

def lastAnnounced (sent : List (ServeEvent P H)) (id : H) : Option (TransactionProofIdentity H) :=
  sent.findSome? fun
    | .announced txid identity => if txid = id then some identity else none
    | _ => none

/-- What the request in hand says of the history. -/
def Holding (conn : Connection P H) : ServePc P H → Prop
  | .matching request identity _ => OrderedMap.lookup conn.announcedTransactions request.txid = some identity
  | .missing request identity _ => OrderedMap.lookup conn.announcedTransactions request.txid = some identity
  | .waiting request identity waiter _ =>
    OrderedMap.lookup conn.announcedTransactions request.txid = some identity ∧ waiter.request = ⟨request.txid, identity⟩
  | .checking request announced entry _ =>
    OrderedMap.lookup conn.announcedTransactions request.txid = announced ∧
      (announced = none → conn.announcementHistoryTruncated = false) ∧ ∀ e, entry = some e → announced = some e.identity
  | .responding request entry _ =>
    OrderedMap.lookup conn.announcedTransactions request.txid = entry.map (·.identity) ∧
      (entry = none → conn.announcementHistoryTruncated = false)
  | _ => True

/-- The history is what was last announced, and all of it until it is truncated. -/
structure Remembers (conn : Connection P H) : Prop where
  sorted : OrderedMap.Sorted conn.announcedTransactions
  last : ∀ id identity, OrderedMap.lookup conn.announcedTransactions id = some identity →
    lastAnnounced conn.sent id = some identity
  all : conn.announcementHistoryTruncated = false → ∀ id, OrderedMap.lookup conn.announcedTransactions id = none →
    lastAnnounced conn.sent id = none

variable {s s' : CacheSystem P H} {conn conn' : Connection P H} {config : TransactionCacheConfig}

omit [PreparedProof P H] in
theorem lastAnnounced_announced (sent : List (ServeEvent P H)) (txid : H) (identity : TransactionProofIdentity H) (id : H) :
    lastAnnounced (.announced txid identity :: sent) id = if txid = id then some identity else lastAnnounced sent id := by
  unfold lastAnnounced
  rw [List.findSome?_cons]
  split_ifs with heq
  · simp [heq]
  · simp [heq]

theorem Remembers.remember (h : Remembers conn) (maxEntries : Nat) (a : TransactionAnnouncementEntry P H) :
    Remembers (conn.remember maxEntries a) := by
  unfold Connection.remember
  simp only
  refine ⟨?_, fun id identity hid => ?_, fun htrunc id hid => ?_⟩
  · split_ifs
    · exact h.sorted.tail.assign _ _
    · exact h.sorted.assign _ _
  · rw [OrderedMap.lookup_assign] at hid
    rw [lastAnnounced_announced]
    by_cases heq : id = txid a.proof
    · rw [if_pos heq] at hid
      rw [if_pos heq.symm, hid]
    · rw [if_neg heq] at hid
      rw [if_neg (Ne.symm heq)]
      split_ifs at hid
      · exact h.last id identity (h.sorted.lookup_tail hid)
      · exact h.last id identity hid
  · rw [OrderedMap.lookup_assign] at hid
    rw [lastAnnounced_announced]
    by_cases heq : id = txid a.proof
    · rw [if_pos heq] at hid
      cases hid
    · rw [if_neg heq] at hid
      rw [if_neg (Ne.symm heq)]
      -- an eviction sets the flag
      split_ifs at htrunc hid
      exact h.all htrunc id hid

theorem Remembers.remember_all (h : Remembers conn) (maxEntries : Nat) (entries : List (TransactionAnnouncementEntry P H)) :
    Remembers (entries.foldl (Connection.remember maxEntries) conn) ∧
      ∃ new, (entries.foldl (Connection.remember maxEntries) conn).sent = new ++ conn.sent ∧
        ∀ event ∈ new, ∃ id identity, event = .announced id identity := by
  induction entries generalizing conn with
  | nil => exact ⟨h, [], rfl, by simp⟩
  | cons a rest ih =>
    obtain ⟨hrest, new, hsent, hnew⟩ := ih (h.remember maxEntries a)
    refine ⟨hrest, new ++ [.announced (txid a.proof) a.identity], ?_, fun event hevent => ?_⟩
    · rw [List.foldl_cons, hsent]
      simp [Connection.remember]
    · rcases List.mem_append.mp hevent with hevent | hevent
      · exact hnew event hevent
      · exact ⟨_, _, List.mem_singleton.mp hevent⟩

omit [PreparedProof P H] in
theorem Remembers.congr (h : Remembers conn) (hmap : conn'.announcedTransactions = conn.announcedTransactions)
    (htrunc : conn'.announcementHistoryTruncated = conn.announcementHistoryTruncated)
    (hlast : ∀ id, lastAnnounced conn'.sent id = lastAnnounced conn.sent id) : Remembers conn' := by
  refine ⟨?_, fun id identity hid => ?_, fun hfalse id hid => ?_⟩
  · rw [hmap]
    exact h.sorted
  · rw [hmap] at hid
    rw [hlast]
    exact h.last id identity hid
  · rw [hmap] at hid
    rw [htrunc] at hfalse
    rw [hlast]
    exact h.all hfalse id hid

/-! ## One step -/

/-- What one step may send: announcements, a proof of the identity that was last announced and whose epoch is the
cache's at the last check, or `notfound` for what was never announced. -/
def Sends (s' : CacheSystem P H) (conn conn' : Connection P H) : Prop :=
  ∃ new, conn'.sent = new ++ conn.sent ∧
    ((∀ event ∈ new, ∃ id identity, event = .announced id identity) ∨
      (∃ request e, new = [.utreexotx request e] ∧ lastAnnounced conn.sent request.txid = some e.identity ∧
        e.identity.epoch = s'.cache.stats.epoch ∧ s'.cache.stats.ready = true) ∨
      ∃ request, new = [.notfound request] ∧ lastAnnounced conn.sent request.txid = none)

omit [PreparedProof P H] in
theorem sends_nothing (s' : CacheSystem P H) (hsent : conn'.sent = conn.sent) : Sends s' conn conn' :=
  ⟨[], by simpa using hsent, Or.inl (by simp)⟩

structure Serves (config : TransactionCacheConfig) (s : CacheSystem P H) (conn : Connection P H) : Prop where
  cache : CacheSystem.Valid config s
  remembers : Remembers conn
  holding : conn.Holding conn.pc

theorem Serves.quiet (h : Serves config s conn) (hcache : CacheSystem.Valid config s')
    (hmap : conn'.announcedTransactions = conn.announcedTransactions)
    (htrunc : conn'.announcementHistoryTruncated = conn.announcementHistoryTruncated) (hsent : conn'.sent = conn.sent)
    (hholding : conn'.Holding conn'.pc) : Serves config s' conn' ∧ Sends s' conn conn' :=
  ⟨⟨hcache, h.remembers.congr hmap htrunc fun id => by rw [hsent], hholding⟩, sends_nothing s' hsent⟩

omit [PreparedProof P H] in
theorem close_holding (conn : Connection P H) (reason : String) : (conn.close reason).Holding (conn.close reason).pc :=
  trivial

theorem Serves.close (h : Serves config s conn) (hcache : CacheSystem.Valid config s') (reason : String) :
    Serves config s' (conn.close reason) ∧ Sends s' conn (conn.close reason) :=
  h.quiet hcache rfl rfl rfl (close_holding conn reason)

theorem Serves.checkAnchor (h : Serves config s conn) (hcache : CacheSystem.Valid config s') (epoch : Nat) :
    Serves config s' (conn.checkAnchor epoch) ∧ Sends s' conn (conn.checkAnchor epoch) := by
  unfold Connection.checkAnchor
  split_ifs
  · exact h.close hcache _
  · exact h.quiet hcache rfl rfl rfl trivial
  · exact h.quiet hcache rfl rfl rfl trivial

theorem Serves.announce (h : Serves config s conn) (hcache : CacheSystem.Valid config s') (maxEntries : Nat)
    (entries : List (TransactionAnnouncementEntry P H)) (nextCursor : Nat) (ready repeats : Bool) (outcome : SendOutcome) :
    Serves config s' (conn.announce maxEntries entries nextCursor ready repeats outcome) ∧
      Sends s' conn (conn.announce maxEntries entries nextCursor ready repeats outcome) := by
  obtain ⟨hall, new, hsent, hnew⟩ := h.remembers.remember_all maxEntries entries
  unfold Connection.announce
  split
  · exact h.quiet hcache rfl rfl rfl trivial
  split
  · exact h.close hcache _
  split
  · exact h.close hcache _
  split
  · exact h.close hcache _
  split
  · exact h.close hcache _
  split
  · exact h.close hcache _
  · exact ⟨⟨hcache, hall.congr rfl rfl fun _ => rfl, trivial⟩, new, hsent, Or.inl hnew⟩

theorem Serves.nextRequest (h : Serves config s conn) (requests : List (TransactionProofRequest H)) :
    Serves config s (conn.nextRequest requests) ∧ Sends s conn (conn.nextRequest requests) := by
  unfold Connection.nextRequest
  split
  · exact h.quiet h.cache rfl rfl rfl trivial
  · split
    · rename_i identity hlookup
      exact h.quiet h.cache rfl rfl rfl hlookup
    · rename_i hlookup
      split_ifs with htrunc
      · exact h.close h.cache _
      · refine h.quiet h.cache rfl rfl rfl ⟨hlookup, fun _ => by simpa using htrunc, fun e he => ?_⟩
        cases he

theorem Serves.send (h : Serves config s conn) {request : TransactionProofRequest H}
    {entry : Option (PreparedTransactionEntry P H)} {rest : List (TransactionProofRequest H)}
    (hpc : conn.Holding (.responding request entry rest)) (outcome : SendOutcome) :
    Serves config { s with cache := s.cache.readStats.2 } (conn.send s.cache.readStats.1.1 request entry rest outcome) ∧
      Sends { s with cache := s.cache.readStats.2 } conn
        (conn.send s.cache.readStats.1.1 request entry rest outcome) := by
  have hcache : CacheSystem.Valid config { s with cache := s.cache.readStats.2 } := h.cache.expire
  obtain ⟨hlookup, htrunc⟩ := hpc
  unfold Connection.send
  cases entry with
  | some e =>
    simp only
    split
    · exact h.close hcache _
    · rename_i hanchor
      rw [not_or, not_not] at hanchor
      split
      · exact h.close hcache _
      · split
        · exact h.close hcache _
        · refine ⟨⟨hcache, h.remembers.congr rfl rfl fun id => rfl, trivial⟩, [.utreexotx request e], rfl, Or.inr (Or.inl ?_)⟩
          have hready : s.cache.readStats.1.1.ready = true := by simpa using hanchor.1
          exact ⟨request, e, rfl, h.remembers.last _ _ hlookup, hanchor.2.symm, hready⟩
  | none =>
    simp only
    split
    · exact h.close hcache _
    · refine ⟨⟨hcache, h.remembers.congr rfl rfl fun id => rfl, trivial⟩, [.notfound request], rfl, Or.inr (Or.inr ?_)⟩
      exact ⟨request, rfl, h.remembers.all (htrunc rfl) _ hlookup⟩

theorem Serves.checkEpoch (h : Serves config s conn) {request : TransactionProofRequest H}
    {announced : Option (TransactionProofIdentity H)} {entry : Option (PreparedTransactionEntry P H)}
    {rest : List (TransactionProofRequest H)} (hpc : conn.pc = .checking request announced entry rest) (stopping : Bool) :
    ∃ next, step s conn (.checkEpoch stopping) = .ok next ∧ ∀ s' conn', next = some (s', conn') →
      Serves config s' conn' ∧ Sends s' conn conn' := by
  obtain ⟨hlookup, htrunc, hentry⟩ : conn.Holding (.checking request announced entry rest) := hpc ▸ h.holding
  have hcache : CacheSystem.Valid config { s with cache := s.cache.readStats.2 } := h.cache.expire
  unfold Connection.step
  simp only [hpc]
  split
  · refine ⟨_, rfl, fun s' conn' heq => ?_⟩
    cases heq
    exact h.close h.cache _
  · cases announced with
    | none =>
      refine ⟨_, rfl, fun s' conn' heq => ?_⟩
      cases heq
      refine h.quiet h.cache rfl rfl rfl ⟨?_, fun _ => htrunc rfl⟩
      cases entry with
      | none => exact hlookup
      | some e => cases hentry e rfl
    | some identity =>
      simp only
      split_ifs with hepoch hnone
      · refine ⟨_, rfl, fun s' conn' heq => ?_⟩
        cases heq
        exact h.close hcache _
      · refine ⟨_, rfl, fun s' conn' heq => ?_⟩
        cases heq
        exact h.close hcache _
      · refine ⟨_, rfl, fun s' conn' heq => ?_⟩
        cases heq
        cases entry with
        | none => exact absurd rfl hnone
        | some e =>
          refine h.quiet hcache rfl rfl rfl ⟨?_, fun hno => ?_⟩
          · show OrderedMap.lookup conn.announcedTransactions request.txid = some e.identity
            rw [hlookup]
            exact hentry e rfl
          · cases hno

theorem Serves.lookup (h : Serves config s conn) (hcache : CacheSystem.Valid config s')
    {request : TransactionProofRequest H} {identity : TransactionProofIdentity H}
    {entry : Option (PreparedTransactionEntry P H)} {rest : List (TransactionProofRequest H)}
    (hlookup : OrderedMap.lookup conn.announcedTransactions request.txid = some identity)
    (hentry : ∀ e, entry = some e → e.identity = identity) :
    Serves config s' { conn with pc := .checking request (some identity) entry rest } ∧
      Sends s' conn { conn with pc := .checking request (some identity) entry rest } := by
  refine h.quiet hcache rfl rfl rfl ⟨hlookup, fun hno => ?_, fun e he => ?_⟩
  · cases hno
  · rw [hentry e he]

theorem Serves.step (h : Serves config s conn) (action : ServeAction H) :
    ∃ next, step s conn action = .ok next ∧ ∀ s' conn', next = some (s', conn') →
      Serves config s' conn' ∧ Sends s' conn conn' := by
  have hcache : CacheSystem.Valid config { s with cache := s.cache.readStats.2 } := h.cache.expire
  -- a step that always succeeds has its one outcome
  have hok : ∀ {s1 : CacheSystem P H} {conn1 : Connection P H}, Serves config s1 conn1 ∧ Sends s1 conn conn1 →
      ∃ next, Except.ok (some (s1, conn1)) = (.ok next : Except Fault _) ∧ ∀ s' conn', next = some (s', conn') →
        Serves config s' conn' ∧ Sends s' conn conn' := by
    intro s1 conn1 hnext
    refine ⟨_, rfl, fun s' conn' heq => ?_⟩
    cases heq
    exact hnext
  unfold Connection.step
  split
  · exact hok (h.quiet h.cache rfl rfl rfl trivial)
  · exact hok (h.checkAnchor hcache _)
  · rename_i ready repeats outcome hpc
    have hspec := (CacheSystem.announcementsAfter_spec s.cache conn.txCursor (if ready then 64 else 0) 2048
      (some conn.txEpoch)).1
    rcases hafter : s.cache.announcementsAfter conn.txCursor (if ready then 64 else 0) 2048 (some conn.txEpoch) with
      ⟨⟨entries, nextCursor⟩, cache⟩
    rw [hafter] at hspec
    obtain rfl : cache = s.cache.expire := hspec
    exact hok (h.announce hcache _ _ _ _ _ _)
  · exact hok (h.close h.cache _)
  · rename_i available hpc
    refine hok (h.quiet h.cache rfl rfl rfl ?_)
    cases available <;> trivial
  · exact hok (h.close h.cache _)
  · exact hok (h.quiet h.cache rfl rfl rfl trivial)
  · exact hok (h.close h.cache _)
  · exact hok (h.quiet h.cache rfl rfl rfl trivial)
  · exact hok (h.nextRequest _)
  · rename_i request identity rest hpc
    have hlookup : conn.Holding (.matching request identity rest) := hpc ▸ h.holding
    obtain ⟨result, hmatch, hresult⟩ := h.cache.consistent.matchRequest ⟨request.txid, identity⟩
    rw [hmatch]
    cases result with
    | none => exact hok (h.quiet h.cache.expire rfl rfl rfl hlookup)
    | some e => exact hok (h.lookup h.cache.expire hlookup fun x hx => (hresult x hx).1)
  · rename_i request identity rest deadline delay stopping hpc
    have hlookup : conn.Holding (.missing request identity rest) := hpc ▸ h.holding
    obtain ⟨reply, s1, hwait, hvalid, hresult, hwaiter⟩ :=
      h.cache.waitFor ⟨request.txid, identity⟩ deadline delay stopping
    rw [hwait]
    cases reply with
    | returned entry => exact hok (h.lookup hvalid hlookup fun x hx => (hresult x (congrArg _ hx)).1)
    | waiting waiter => exact hok (h.quiet hvalid rfl rfl rfl ⟨hlookup, hwaiter waiter rfl⟩)
  · rename_i request identity waiter rest stoppingWait stopping hpc
    obtain ⟨hlookup, hrequest⟩ : conn.Holding (.waiting request identity waiter rest) := hpc ▸ h.holding
    refine ⟨_, rfl, fun s' conn' heq => ?_⟩
    obtain ⟨⟨entry, s1⟩, hresume, heq⟩ := Option.map_eq_some_iff.mp heq
    cases heq
    obtain ⟨hvalid, hresult⟩ := h.cache.resume hresume
    refine h.lookup hvalid hlookup fun x hx => ?_
    rw [(hresult x hx).1, hrequest]
  · rename_i request announced entry rest stopping hpc
    have hcheck := h.checkEpoch hpc stopping
    unfold Connection.step at hcheck
    simp only [hpc] at hcheck
    exact hcheck
  · rename_i request entry rest outcome hpc
    split
    · exact hok (h.close h.cache _)
    split
    · exact hok (h.close h.cache _)
    split
    · exact hok (h.close h.cache _)
    · exact hok (h.send (hpc ▸ h.holding) outcome)
  · refine ⟨none, rfl, fun s' conn' heq => ?_⟩
    cases heq

theorem Reachable.serves (h : Reachable config s conn) : Serves config s conn := by
  induction h with
  | accept h =>
    exact ⟨h.valid, ⟨List.Pairwise.nil, nofun, fun _ _ _ => rfl⟩, trivial⟩
  | cache h hcall ih =>
    obtain ⟨next, hnext, hrest⟩ := ih.cache.call _
    rw [hnext] at hcall
    exact ⟨(hrest _ _ (Except.ok.inj hcall)).1, ih.remembers, ih.holding⟩
  | step h hstep ih =>
    obtain ⟨next, hnext, hrest⟩ := ih.step _
    rw [hnext] at hstep
    exact (hrest _ _ (Except.ok.inj hstep)).1

/-- Every step of a connection, in any interleaving with the other users of the cache, sends only proofs of the identity
that it last announced, of the epoch that the cache has at the check before serialization, and `notfound` only for
transactions that it never announced. -/
theorem serving_sound (h : Reachable config s conn) (action : ServeAction H) :
    ∃ next, step s conn action = .ok next ∧ ∀ s' conn', next = some (s', conn') → Sends s' conn conn' := by
  obtain ⟨next, hnext, hrest⟩ := h.serves.step action
  exact ⟨next, hnext, fun s' conn' heq => (hrest s' conn' heq).2⟩

def SendOutcome.good : SendOutcome := ⟨true, .ok (), true, .ok (), .ok ()⟩

theorem reachable_responding : ∃ (s : CacheSystem CacheSystem.BareProof Nat) (conn : Connection _ Nat),
    Reachable ⟨4, 1000, 60, 2⟩ s conn ∧
      ∃ s' conn', step s conn (.respond SendOutcome.good) = .ok (some (s', conn')) ∧ conn'.sent.length = 2 :=
  ⟨_, _, .step (.step (.step (.step (.step (.step (.step
    (.accept (.call (.call (.new rfl) (x := .activate ⟨7, 0⟩) rfl) (x := .publish ⟨7, 0⟩ ⟨1⟩ 3) rfl))
    (a := .stats) rfl) (a := .announce true true SendOutcome.good) rfl) (a := .poll (.ok true)) rfl)
    (a := .receive (.getdata (.ok [⟨1, 0, []⟩]))) rfl) (a := .next) rfl) (a := .findMatching) rfl)
    (a := .checkEpoch false) rfl, _, _, rfl, rfl⟩

theorem serving_sound_responding : ∃ (s : CacheSystem CacheSystem.BareProof Nat) (conn : Connection _ Nat) (s' : _)
    (conn' : _), step s conn (.respond SendOutcome.good) = .ok (some (s', conn')) ∧ conn'.sent.length = 2 ∧
      Sends s' conn conn' := by
  obtain ⟨s, conn, hreach, s', conn', hstep, hlength⟩ := reachable_responding
  obtain ⟨next, hnext, hsends⟩ := serving_sound hreach (.respond SendOutcome.good)
  refine ⟨s, conn, s', conn', hstep, hlength, hsends s' conn' ?_⟩
  exact Except.ok.inj (hnext.symm.trans hstep)

end Connection

end UtreexoBridge
