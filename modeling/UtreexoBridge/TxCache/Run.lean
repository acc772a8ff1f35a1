import UtreexoBridge.TxCache.Jobs

/-!
# Runs of the transaction proof cache

Any number of threads call the cache in any order; a run is a list of calls.
-/

namespace UtreexoBridge

open PreparedProof

variable {P H : Type}

inductive CacheCall (P H : Type)
  | activate (point : ChainPoint H)
  | invalidate
  | publish (point : ChainPoint H) (proof : P) (delay : Nat)
  | erase (txid : H)
  | find (txid : H) (sequence : Option Nat)
  | findMatching (request : TransactionRegenerationRequest H)
  | waitFor (request : TransactionRegenerationRequest H) (deadline delay : Nat) (cancelled : Bool)
  | resume (waiter : Waiter H) (cancelledWait cancelled : Bool)
  | takeRegeneration
  | completeRegeneration (request : TransactionRegenerationRequest H)
  | announcementsAfter (cursor maxEntries maxVectors : Nat) (expectedEpoch : Option Nat)
  | txids
  | stats
  /-- The clock advances. -/
  | tick (delay : Nat)

inductive CacheReply (P H : Type)
  | done
  | published (result : Except String Bool)
  /-- What `Find`, `FindMatching` and a resumed `WaitFor` return. -/
  | entry (entry : Option (PreparedTransactionEntry P H))
  | waitFor (reply : WaitReply P H)
  | request (request : Option (TransactionRegenerationRequest H))
  | completed (hit : Bool)
  | announcements (entries : List (TransactionAnnouncementEntry P H)) (cursor : Nat)
  | txids (txids : List H)
  | stats (stats : TransactionCacheStats) (entries regenerations : Nat)

namespace CacheSystem

variable [DecidableEq H] [PreparedProof P H]

/-- One call, or one half of a `WaitFor`. A waiter that may not go on yet has no step. -/
def call (s : CacheSystem P H) : CacheCall P H → Except Fault (Option (CacheReply P H × CacheSystem P H))
  | .activate point => .ok (some (.done, { s with cache := s.cache.activate point }))
  | .invalidate => .ok (some (.done, { s with cache := s.cache.clear }))
  | .publish point proof delay =>
    (s.cache.publish point proof delay).map fun (result, cache) => some (.published result, { s with cache })
  | .erase txid => (s.cache.eraseTxid txid).map fun cache => some (.done, { s with cache })
  | .find txid sequence => (s.cache.find txid sequence).map fun (e, cache) => some (.entry e, { s with cache })
  | .findMatching request => (s.cache.matchRequest request).map fun (e, cache) => some (.entry e, { s with cache })
  | .waitFor request deadline delay cancelled =>
    (s.waitFor request deadline delay cancelled).map fun (reply, s) => some (.waitFor reply, s)
  | .resume waiter cancelledWait cancelled =>
    .ok ((s.resume waiter cancelledWait cancelled).map fun (e, s) => (.entry e, s))
  | .takeRegeneration =>
    s.cache.takeRegeneration.map fun (request, cache) => some (.request request, { s with cache })
  | .completeRegeneration request =>
    (s.cache.completeRegeneration request).map fun (hit, cache) => some (.completed hit, { s with cache })
  | .announcementsAfter cursor maxEntries maxVectors expectedEpoch =>
    let ((entries, cursor), cache) := s.cache.announcementsAfter cursor maxEntries maxVectors expectedEpoch
    .ok (some (.announcements entries cursor, { s with cache }))
  | .txids => .ok (some (.txids s.cache.txids.1, { s with cache := s.cache.txids.2 }))
  | .stats =>
    let ((stats, entries, regenerations), cache) := s.cache.readStats
    .ok (some (.stats stats entries regenerations, { s with cache }))
  | .tick delay => .ok (some (.done, { s with cache := s.cache.elapse delay }))

/-- The states of a run from a new cache. -/
inductive Reachable (config : TransactionCacheConfig) : CacheSystem P H → Prop
  | new {c : TransactionProofCache P H} (h : TransactionProofCache.new config = .ok c) : Reachable config ⟨c, []⟩
  | call {s s' : CacheSystem P H} {x : CacheCall P H} {reply : CacheReply P H} (h : Reachable config s)
      (hcall : s.call x = .ok (some (reply, s'))) : Reachable config s'

structure Valid (config : TransactionCacheConfig) (s : CacheSystem P H) : Prop where
  bounds : config.valid
  config_eq : s.cache.config = config
  consistent : s.cache.Consistent
  jobs : s.cache.Jobs s.waiters

/-- What a returned entry is, for the call that returns it and the state it leaves. -/
def Served (s : CacheSystem P H) : CacheCall P H → CacheReply P H → Prop
  | .find txid _, .entry (some e) =>
    PreparedProof.txid e.proof = txid ∧ s.cache.now < e.expires ∧ e.identity.epoch = s.cache.stats.epoch
  | .findMatching request, .entry (some e) =>
    e.identity = request.identity ∧ s.cache.now < e.expires ∧ e.identity.epoch = s.cache.stats.epoch
  | .waitFor request _ _ _, .waitFor (.returned (some e)) =>
    e.identity = request.identity ∧ e.identity.epoch = s.cache.stats.epoch
  | .resume w _ _, .entry (some e) => e.identity = w.request.identity ∧ e.identity.epoch = s.cache.stats.epoch
  | .announcementsAfter .., .announcements entries _ => ∀ a ∈ entries, a.identity.epoch = s.cache.stats.epoch
  | _, _ => True

variable {config : TransactionCacheConfig} {s s' : CacheSystem P H}

omit [DecidableEq H] in
theorem Valid.maxEntries_pos (h : Valid config s) : 0 < s.cache.config.maxEntries := by
  have := h.bounds
  rw [h.config_eq]
  simp only [TransactionCacheConfig.valid, Bool.and_eq_true, decide_eq_true_eq] at this
  exact this.1.1.1.1.1

omit [DecidableEq H] in
theorem Valid.frame (h : Valid config s) {c : TransactionProofCache P H} (hcons : c.Consistent)
    (hframe : s.cache.Frame c) : Valid config { s with cache := c } :=
  ⟨h.bounds, hframe.config.trans h.config_eq, hcons, h.jobs.of_frame hframe⟩

theorem Valid.expire (h : Valid config s) : Valid config { s with cache := s.cache.expire } :=
  h.frame h.consistent.expire.1 h.consistent.expire.2

theorem Valid.epoch_of_mem (h : Valid config s) {e : PreparedTransactionEntry P H} (he : e ∈ s.cache.expire.entries) :
    e.identity.epoch = s.cache.expire.stats.epoch := (h.consistent.expire.1.anchored e he).2

/-! ## Waiting -/

theorem Valid.waitFor (h : Valid config s) (request : TransactionRegenerationRequest H) (deadline delay : Nat)
    (cancelled : Bool) :
    ∃ reply s', s.waitFor request deadline delay cancelled = .ok (reply, s') ∧ Valid config s' ∧
      (∀ e, reply = .returned (some e) → e.identity = request.identity ∧ e.identity.epoch = s'.cache.stats.epoch) ∧
      ∀ w, reply = .waiting w → w.request = request := by
  obtain ⟨result, hmatch, hresult⟩ := h.consistent.matchRequest request
  have hexp := h.expire
  have hlate : Valid config { s with cache := s.cache.expire.elapse delay } :=
    ⟨h.bounds, hexp.config_eq, hexp.consistent.elapse delay, hexp.jobs.frame rfl rfl rfl rfl rfl rfl⟩
  unfold CacheSystem.waitFor
  rw [hmatch]
  cases result with
  | some e =>
    refine ⟨_, _, rfl, hexp, fun x hx => ?_, fun w hw => ?_⟩
    · cases hx
      obtain ⟨hident, -, hmem⟩ := hresult e rfl
      exact ⟨hident, h.epoch_of_mem hmem⟩
    · cases hw
  | none =>
    simp only
    by_cases hstop : (!(s.cache.expire.elapse delay).stats.ready) = true ∨
        request.identity.epoch ≠ (s.cache.expire.elapse delay).stats.epoch ∨
        (s.cache.expire.elapse delay).now ≥ deadline ∨ cancelled = true
    · rw [if_pos hstop]
      refine ⟨_, _, rfl, hlate, fun e he => ?_, fun w hw => ?_⟩
      · cases he
      · cases hw
    · rw [if_neg hstop]
      simp only [not_or, not_not] at hstop
      rcases hlate.jobs.lookup request with ⟨hnone, hno⟩ | ⟨j, hj, job, hjob, rfl, hlookup⟩
      · simp only [hnone]
        split_ifs with hfull
        · refine ⟨_, _, rfl, hlate, fun e he => ?_, fun w hw => ?_⟩
          · cases he
          · cases hw
        · refine ⟨_, _, rfl, ⟨h.bounds, hlate.config_eq, ?_, ?_⟩, fun e he => ?_, fun w hw => ?_⟩
          · exact (hlate.consistent.setStats { s.cache.expire.stats with
              regenerationQueued := s.cache.expire.stats.regenerationQueued + 1 } rfl rfl).of_entries rfl rfl rfl rfl rfl
              rfl rfl
          · exact hlate.jobs.enqueue hno deadline hstop.2.1 (Nat.lt_of_not_le hfull) _ rfl
          · cases he
          · cases hw
            rfl
      · simp only [hlookup]
        refine ⟨_, _, rfl, ⟨h.bounds, hlate.config_eq, ?_, ?_⟩, fun e he => ?_, fun w hw => ?_⟩
        · exact (hlate.consistent.setStats { s.cache.expire.stats with
            regenerationCoalesced := s.cache.expire.stats.regenerationCoalesced + 1 } rfl rfl).of_entries rfl rfl rfl rfl
            rfl rfl rfl
        · exact hlate.jobs.join hjob deadline _ rfl
        · cases he
        · cases hw
          rfl

theorem Valid.resume (h : Valid config s) {w : Waiter H} {cancelledWait cancelled : Bool}
    {result : Option (PreparedTransactionEntry P H)} (hresume : s.resume w cancelledWait cancelled = some (result, s')) :
    Valid config s' ∧
      ∀ e, result = some e → e.identity = w.request.identity ∧ e.identity.epoch = s'.cache.stats.epoch := by
  unfold CacheSystem.resume at hresume
  split at hresume
  · cases hresume
  · rename_i job hjob
    have hw : w ∈ s.waiters := by
      by_contra hno
      rw [if_neg hno] at hjob
      cases hjob
    rw [if_pos hw] at hjob
    obtain ⟨old, hold, hreq⟩ := h.jobs.waiting w hw
    obtain rfl : old = job := Option.some.inj (hold.symm.trans hjob)
    by_cases hmay : s.mayResume w old cancelledWait
    · rw [if_pos hmay] at hresume
      simp only [Option.some.injEq, Prod.mk.injEq] at hresume
      obtain ⟨hres, rfl⟩ := hresume
      have hfind := TransactionProofCache.findJob_setJob h.jobs hold hreq { old with waiters := old.waiters - 1 } hreq
      constructor
      · by_cases hlast : old.waiters - 1 = 0 ∧ (old.running = false ∨ old.done = true) ∧ w.job ∈ s.cache.regeneration
        · have hjobs := h.jobs.leave hw hjob false (by simpa using hlast)
          rw [if_pos (by simpa [hfind] using hlast)]
          exact ⟨h.bounds, h.config_eq, h.consistent.of_entries rfl rfl rfl rfl rfl rfl rfl, hjobs⟩
        · have hjobs := h.jobs.leave hw hjob true (by simpa using hlast)
          rw [if_neg (by simpa [hfind] using hlast)]
          exact ⟨h.bounds, h.config_eq, h.consistent.of_entries rfl rfl rfl rfl rfl rfl rfl, hjobs⟩
      · intro e he
        rw [he] at hres
        split_ifs at hres with hfresh
        have hident : e.identity = w.request.identity := hreq ▸ h.jobs.result _ old e hold hres
        refine ⟨hident, ?_⟩
        rw [hident, hfresh.2.2.1]
        split_ifs <;> rfl
    · rw [if_neg hmay] at hresume
      cases hresume

/-! ## Any call -/

omit [DecidableEq H] in
theorem mem_announceLoop {maxEntries maxVectors : Nat} {entries : List (PreparedTransactionEntry P H)} {cursor : Nat}
    {output : List (TransactionAnnouncementEntry P H)} {vectors : Nat} {a : TransactionAnnouncementEntry P H}
    (ha : a ∈ (TransactionProofCache.announceLoop maxEntries maxVectors entries cursor output vectors).1) :
    a ∈ output ∨ ∃ e ∈ entries, a = ⟨e.sequence, e.proof, e.identity⟩ := by
  induction entries generalizing cursor output vectors with
  | nil => exact Or.inl ha
  | cons e rest ih =>
    unfold TransactionProofCache.announceLoop at ha
    simp only at ha
    split_ifs at ha
    · rcases ih ha with ha | ⟨x, hx, rfl⟩
      · exact Or.inl ha
      · exact Or.inr ⟨x, List.mem_cons_of_mem _ hx, rfl⟩
    · exact Or.inl ha
    · rcases ih ha with ha | ⟨x, hx, rfl⟩
      · rcases List.mem_append.mp ha with ha | ha
        · exact Or.inl ha
        · exact Or.inr ⟨e, List.mem_cons_self, List.mem_singleton.mp ha⟩
      · exact Or.inr ⟨x, List.mem_cons_of_mem _ hx, rfl⟩

theorem announcementsAfter_spec (c : TransactionProofCache P H) (cursor maxEntries maxVectors : Nat)
    (expectedEpoch : Option Nat) :
    (c.announcementsAfter cursor maxEntries maxVectors expectedEpoch).2 = c.expire ∧
      ∀ a ∈ (c.announcementsAfter cursor maxEntries maxVectors expectedEpoch).1.1,
        (∃ e ∈ c.expire.entries, a = ⟨e.sequence, e.proof, e.identity⟩) ∧
          ∀ epoch, expectedEpoch = some epoch → epoch = c.expire.stats.epoch := by
  unfold TransactionProofCache.announcementsAfter
  simp only
  split_ifs with hstop
  · exact ⟨rfl, by simp⟩
  · refine ⟨rfl, fun a ha => ⟨?_, ?_⟩⟩
    · rcases mem_announceLoop ha with ha | ⟨e, he, rfl⟩
      · cases ha
      · exact ⟨e, (List.mem_filter.mp he).1, rfl⟩
    · intro epoch hepoch
      simp only [not_or, hepoch, Option.any_some, decide_eq_true_eq, not_not] at hstop
      exact hstop.2.2.2

theorem Valid.activate (h : Valid config s) (point : ChainPoint H) :
    Valid config { s with cache := s.cache.activate point } := by
  refine ⟨h.bounds, ?_, h.consistent.activate point, ?_⟩
  · unfold TransactionProofCache.activate
    split_ifs
    · exact h.config_eq
    · exact h.config_eq
  · unfold TransactionProofCache.activate
    split_ifs
    · exact h.jobs.clear.frame rfl rfl rfl rfl rfl rfl
    · exact h.jobs.frame rfl rfl rfl rfl rfl rfl

/-- No call faults; every call keeps the invariant and returns only entries it may return. -/
theorem Valid.call (h : Valid config s) (x : CacheCall P H) :
    ∃ next, s.call x = .ok next ∧ ∀ reply s', next = some (reply, s') → Valid config s' ∧ Served s' x reply := by
  have hexpire := h.expire
  cases x with
  | activate point =>
    refine ⟨_, rfl, fun reply s' heq => ?_⟩
    cases heq
    exact ⟨h.activate point, trivial⟩
  | invalidate =>
    refine ⟨_, rfl, fun reply s' heq => ?_⟩
    cases heq
    exact ⟨⟨h.bounds, h.config_eq, TransactionProofCache.consistent_clear _, h.jobs.clear⟩, trivial⟩
  | publish point proof delay =>
    obtain ⟨result, c', hpublish, hcons, hconfig, hjobs, hnext, hreg, hpending, hepoch⟩ :=
      h.consistent.publish h.maxEntries_pos point proof delay
    refine ⟨_, by rw [CacheSystem.call, hpublish]; rfl, fun reply s' heq => ?_⟩
    cases heq
    exact ⟨⟨h.bounds, hconfig.trans h.config_eq, hcons, h.jobs.frame hconfig hjobs hnext hreg hpending hepoch⟩, trivial⟩
  | erase txid =>
    obtain ⟨c', herase, hcons, hframe, -⟩ := h.consistent.eraseTxid txid
    refine ⟨_, by rw [CacheSystem.call, herase]; rfl, fun reply s' heq => ?_⟩
    cases heq
    exact ⟨h.frame hcons hframe, trivial⟩
  | find txid sequence =>
    obtain ⟨result, hfind, hresult⟩ := h.consistent.find txid sequence
    refine ⟨_, by rw [CacheSystem.call, hfind]; rfl, fun reply s' heq => ?_⟩
    cases heq
    refine ⟨hexpire, ?_⟩
    cases result with
    | none => trivial
    | some e =>
      obtain ⟨hid, hfresh, hmem⟩ := hresult e rfl
      exact ⟨hid, by rw [h.consistent.expire.2.now]; exact hfresh, h.epoch_of_mem hmem⟩
  | findMatching request =>
    obtain ⟨result, hmatch, hresult⟩ := h.consistent.matchRequest request
    refine ⟨_, by rw [CacheSystem.call, hmatch]; rfl, fun reply s' heq => ?_⟩
    cases heq
    refine ⟨hexpire, ?_⟩
    cases result with
    | none => trivial
    | some e =>
      obtain ⟨hident, hfresh, hmem⟩ := hresult e rfl
      exact ⟨hident, by rw [h.consistent.expire.2.now]; exact hfresh, h.epoch_of_mem hmem⟩
  | waitFor request deadline delay cancelled =>
    obtain ⟨result, s1, hwait, hvalid, hresult, -⟩ := h.waitFor request deadline delay cancelled
    refine ⟨_, by rw [CacheSystem.call, hwait]; rfl, fun reply s' heq => ?_⟩
    cases heq
    refine ⟨hvalid, ?_⟩
    rcases result with (_ | e) | w
    · trivial
    · exact hresult e rfl
    · trivial
  | resume w cancelledWait cancelled =>
    refine ⟨_, rfl, fun reply s' heq => ?_⟩
    obtain ⟨⟨result, s1⟩, hresume, heq⟩ := Option.map_eq_some_iff.mp heq
    cases heq
    obtain ⟨hvalid, hresult⟩ := h.resume hresume
    refine ⟨hvalid, ?_⟩
    cases result with
    | none => trivial
    | some e => exact hresult e rfl
  | takeRegeneration =>
    obtain ⟨result, c', htake, hjobs, hconfig, hentries, hmap, hpoint, hnow, hsequence, hstats⟩ := h.jobs.takeRegeneration
    refine ⟨_, by rw [CacheSystem.call, htake]; rfl, fun reply s' heq => ?_⟩
    cases heq
    exact ⟨⟨h.bounds, hconfig.trans h.config_eq,
      h.consistent.of_entries hconfig hnow hpoint hsequence hstats hentries hmap, hjobs⟩, trivial⟩
  | completeRegeneration request =>
    obtain ⟨result, c', hcomplete, hjobs, hcons, hconfig⟩ := h.jobs.completeRegeneration h.consistent request
    refine ⟨_, by rw [CacheSystem.call, hcomplete]; rfl, fun reply s' heq => ?_⟩
    cases heq
    exact ⟨⟨h.bounds, hconfig.trans h.config_eq, hcons, hjobs⟩, trivial⟩
  | announcementsAfter cursor maxEntries maxVectors expectedEpoch =>
    obtain ⟨hcache, hentries⟩ := announcementsAfter_spec s.cache cursor maxEntries maxVectors expectedEpoch
    rcases hres : s.cache.announcementsAfter cursor maxEntries maxVectors expectedEpoch with ⟨⟨entries, after⟩, cache⟩
    rw [hres] at hcache hentries
    refine ⟨_, by simp only [CacheSystem.call, hres]; rfl, fun reply s' heq => ?_⟩
    cases heq
    obtain rfl : cache = s.cache.expire := hcache
    refine ⟨hexpire, fun a ha => ?_⟩
    obtain ⟨⟨e, he, rfl⟩, -⟩ := hentries a ha
    exact h.epoch_of_mem he
  | txids =>
    refine ⟨_, rfl, fun reply s' heq => ?_⟩
    cases heq
    exact ⟨hexpire, trivial⟩
  | stats =>
    refine ⟨_, rfl, fun reply s' heq => ?_⟩
    cases heq
    exact ⟨hexpire, trivial⟩
  | tick delay =>
    refine ⟨_, rfl, fun reply s' heq => ?_⟩
    cases heq
    exact ⟨⟨h.bounds, h.config_eq, h.consistent.elapse delay, h.jobs.frame rfl rfl rfl rfl rfl rfl⟩, trivial⟩

theorem Reachable.valid (h : Reachable config s) : Valid config s := by
  induction h with
  | @new c hnew =>
    unfold TransactionProofCache.new at hnew
    split_ifs at hnew with hvalid
    cases hnew
    exact ⟨hvalid, rfl, TransactionProofCache.consistent_of_no_entries rfl rfl rfl,
      TransactionProofCache.jobs_new rfl rfl rfl⟩
  | call h hcall ih =>
    obtain ⟨next, hnext, hrest⟩ := ih.call _
    rw [hnext] at hcall
    exact (hrest _ _ (Except.ok.inj hcall)).1

/-! ## What a run keeps -/

/-- The two maps and the byte counter agree in every reachable state, `Expire` removes what has expired and nothing
else, and no call faults or returns an entry of another epoch or identity. -/
theorem cache_run_consistent (h : Reachable config s) :
    s.cache.Consistent ∧ s.cache.config = config ∧
      (∀ e, e ∈ s.cache.expire.entries ↔ e ∈ s.cache.entries ∧ s.cache.now < e.expires) ∧
      ∀ x, ∃ next, s.call x = .ok next ∧ ∀ reply s', next = some (reply, s') → Served s' x reply := by
  have hvalid := h.valid
  refine ⟨hvalid.consistent, hvalid.config_eq, fun e => hvalid.consistent.mem_expire, fun x => ?_⟩
  obtain ⟨next, hnext, hrest⟩ := hvalid.call x
  exact ⟨next, hnext, fun reply s' heq => (hrest reply s' heq).2⟩

/-- Queue, map and waiters stay in step in every reachable state, and a `WaitFor` returns what was asked for. -/
theorem regeneration_run_consistent (h : Reachable config s) :
    s.cache.pending.Nodup ∧ (∀ request, request ∈ s.cache.pending ↔ s.cache.Queued request) ∧
      (∃ result c, s.cache.takeRegeneration = .ok (result, c)) ∧
      s.cache.regeneration.length ≤ config.maxRegenerations ∧
      (∀ j ∈ s.cache.regeneration, ∃ job, s.cache.jobs j = some job ∧
        job.waiters = TransactionProofCache.waitersOn s.waiters j ∧
        (job.waiters = 0 → job.running = true ∧ job.done = false)) ∧
      (∀ request deadline delay cancelled, ∃ reply s',
        s.waitFor request deadline delay cancelled = .ok (reply, s') ∧ ∀ e, reply = .returned (some e) →
          e.identity = request.identity ∧ e.identity.epoch = s'.cache.stats.epoch) ∧
      ∀ w cancelledWait cancelled e s', s.resume w cancelledWait cancelled = some (some e, s') →
        e.identity = w.request.identity ∧ e.identity.epoch = s'.cache.stats.epoch := by
  have hvalid := h.valid
  have hjobs := hvalid.jobs
  refine ⟨hjobs.pending_nodup, hjobs.mem_pending, ?_, ?_, ?_, ?_, ?_⟩
  · obtain ⟨result, c, htake, -⟩ := hjobs.takeRegeneration
    exact ⟨result, c, htake⟩
  · rw [← hvalid.config_eq]
    exact hjobs.size
  · intro j hj
    obtain ⟨job, hjob, -⟩ := hjobs.known j hj
    exact ⟨job, hjob, hjobs.counted j job hjob, hjobs.idle j hj job hjob⟩
  · intro request deadline delay cancelled
    obtain ⟨reply, s', hwait, -, hreply, -⟩ := hvalid.waitFor request deadline delay cancelled
    exact ⟨reply, s', hwait, hreply⟩
  · intro w cancelledWait cancelled e s' hresume
    exact (hvalid.resume hresume).2 e rfl

structure BareProof where
  txid : Nat

instance : PreparedProof BareProof Nat := ⟨BareProof.txid, fun _ => 64, 128, fun _ => 1, fun p => .ok (p.txid + 1)⟩

theorem reachable_published : ∃ s : CacheSystem BareProof Nat,
    Reachable ⟨4, 1000, 60, 2⟩ s ∧ s.cache.entries.length = 1 ∧ s.cache.stats.bytes = 448 :=
  ⟨_, .call (.call (.new rfl) (x := .activate ⟨7, 0⟩) rfl) (x := .publish ⟨7, 0⟩ ⟨1⟩ 3) rfl, rfl, rfl⟩

theorem reachable_waiting : ∃ s : CacheSystem BareProof Nat,
    Reachable ⟨4, 1000, 60, 2⟩ s ∧ s.cache.pending.length = 1 ∧ s.waiters.length = 1 :=
  ⟨_, .call (.call (.new rfl) (x := .activate ⟨7, 0⟩) rfl) (x := .waitFor ⟨1, ⟨0, 2⟩⟩ 50 1 false) rfl, rfl, rfl⟩

theorem cache_run_consistent_published : ∃ s : CacheSystem BareProof Nat,
    s.cache.entries.length = 1 ∧ s.cache.stats.bytes = 448 ∧ s.cache.Consistent := by
  obtain ⟨s, hreach, hentries, hbytes⟩ := reachable_published
  exact ⟨s, hentries, hbytes, (cache_run_consistent hreach).1⟩

theorem regeneration_run_consistent_waiting : ∃ s : CacheSystem BareProof Nat,
    s.cache.pending.length = 1 ∧ s.waiters.length = 1 ∧ s.cache.pending.Nodup := by
  obtain ⟨s, hreach, hpending, hwaiters⟩ := reachable_waiting
  exact ⟨s, hpending, hwaiters, (regeneration_run_consistent hreach).1⟩

end CacheSystem

end UtreexoBridge
