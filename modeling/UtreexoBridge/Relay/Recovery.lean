import UtreexoBridge.Bytes.ByteHash
import UtreexoBridge.Relay.Inventory

/-!
# What the recovery scan returns

While the relay scans nothing enters the cache, so an id that is looked up once
and not found stays uncached. The cursor moves past what was looked up and
starts over at the end.
-/

namespace UtreexoBridge

open PreparedProof

variable {P H : Type} [DecidableEq H] [PreparedProof P H]

/-! ## The cache under the scan -/

namespace TransactionProofCache

variable {c c' : TransactionProofCache P H}

/-- There is nothing to find in a cache that is not ready. -/
def Active (c : TransactionProofCache P H) : Prop := c.Consistent ∧ (c.stats.ready = false → c.entries = [])

theorem expire_of_fresh (h : ∀ e ∈ c.entries, c.now < e.expires) : c.expire = c := by
  unfold expire
  cases hentries : c.entries with
  | nil => rfl
  | cons e rest =>
    have hfresh := h e (hentries ▸ List.mem_cons_self)
    rw [List.length_cons, eraseWhile, hentries]
    exact if_neg (by simpa using hfresh)

/-- Time went on to a reading of the clock, and what had expired by then is gone. -/
structure Swept (c c' : TransactionProofCache P H) : Prop where
  consistent : c'.Consistent
  config : c'.config = c.config
  point : c'.point = c.point
  epoch : c'.stats.epoch = c.stats.epoch
  ready : c'.stats.ready = c.stats.ready
  pending : c'.pending = c.pending
  now_le : c.now ≤ c'.now
  mem_entries : ∀ e, e ∈ c'.entries ↔ e ∈ c.entries ∧ c'.now < e.expires
  /-- Nothing changes if nothing expires. -/
  same : (∀ e ∈ c.entries, c'.now < e.expires) → c' = { c with now := c'.now }

theorem Consistent.swept (h : c.Consistent) (delay : Nat) : Swept c (c.elapse delay).expire := by
  obtain ⟨hcons, hframe⟩ := (h.elapse delay).expire
  have hnow : (c.elapse delay).expire.now = c.now + delay := hframe.now
  refine ⟨hcons, hframe.config, hframe.point, hframe.epoch, hframe.ready, hframe.pending, ?_, fun e => ?_, fun hfresh => ?_⟩
  · rw [hnow]
    exact Nat.le_add_right _ _
  · rw [hnow]
    exact (h.elapse delay).mem_expire
  · have hself : (c.elapse delay).expire = c.elapse delay := expire_of_fresh fun e he => by
      have := hfresh e he
      rwa [hnow] at this
    rw [hself]
    rfl

omit [DecidableEq H] in
theorem Swept.trans {c'' : TransactionProofCache P H} (h : Swept c c') (h' : Swept c' c'') : Swept c c'' := by
  refine ⟨h'.consistent, h'.config.trans h.config, h'.point.trans h.point, h'.epoch.trans h.epoch,
    h'.ready.trans h.ready, h'.pending.trans h.pending, h.now_le.trans h'.now_le, fun e => ?_, fun hfresh => ?_⟩
  · rw [h'.mem_entries, h.mem_entries]
    have hle := h'.now_le
    constructor
    · rintro ⟨⟨he, -⟩, hlate⟩
      exact ⟨he, hlate⟩
    · rintro ⟨he, hlate⟩
      exact ⟨⟨he, by omega⟩, hlate⟩
  · have hfirst := h.same fun e he => Nat.lt_of_le_of_lt h'.now_le (hfresh e he)
    have hsecond := h'.same fun e he => hfresh e ((h.mem_entries e).mp he).1
    rw [hsecond, hfirst]

omit [DecidableEq H] in
theorem Swept.self (h : Swept c c') : Swept c' c' :=
  ⟨h.consistent, rfl, rfl, rfl, rfl, rfl, le_rfl,
    fun e => ⟨fun he => ⟨he, ((h.mem_entries e).mp he).2⟩, And.left⟩, fun _ => rfl⟩

omit [DecidableEq H] in
theorem Swept.active (h : Swept c c') (hactive : c.Active) : c'.Active := by
  refine ⟨h.consistent, fun hready => ?_⟩
  apply List.eq_nil_iff_forall_not_mem.mpr
  intro e he
  have hold := ((h.mem_entries e).mp he).1
  rw [hactive.2 (h.ready ▸ hready)] at hold
  cases hold

/-- A lookup fails exactly when no entry of that id is left. -/
theorem Active.find (h : c.Active) (id : H) :
    ∃ found, c.find id none = .ok (found, c.expire) ∧
      (found.isNone ↔ ∀ e ∈ c.expire.entries, txid e.proof ≠ id) := by
  obtain ⟨hcons, hframe⟩ := h.1.expire
  unfold TransactionProofCache.find
  simp only
  split_ifs with hready
  · refine ⟨none, rfl, fun _ e he => ?_, fun _ => rfl⟩
    have hnil := h.2 (by simpa [hframe.ready] using hready)
    rw [h.1.mem_expire, hnil] at he
    exact absurd he.1 List.not_mem_nil
  · cases hid : c.expire.byTxid id with
    | none =>
      refine ⟨none, rfl, fun _ e he heq => ?_, fun _ => rfl⟩
      have hsome := (hcons.byTxid_iff id e.sequence).mpr ⟨e, he, rfl, heq⟩
      rw [hid] at hsome
      cases hsome
    | some sequence =>
      obtain ⟨e, he, htxid, -, hat, -⟩ := hcons.entryAt hid
      simp only [hat, Option.any_none, Bool.false_eq_true, if_false]
      refine ⟨some e, rfl, fun hnone => ?_, fun hall => absurd htxid (hall e he)⟩
      cases hnone

theorem Consistent.mem_eraseTxid (h : c.Consistent) (id : H) :
    ∃ c', c.eraseTxid id = .ok c' ∧ c'.Consistent ∧ Frame c c' ∧
      ∀ e, e ∈ c'.entries ↔ e ∈ c.entries ∧ txid e.proof ≠ id := by
  unfold TransactionProofCache.eraseTxid
  cases hid : c.byTxid id with
  | none =>
    refine ⟨c, rfl, h, Frame.refl c, fun e => ⟨fun he => ⟨he, fun heq => ?_⟩, And.left⟩⟩
    have hsome := (h.byTxid_iff id e.sequence).mpr ⟨e, he, rfl, heq⟩
    rw [hid] at hsome
    cases hsome
  | some sequence =>
    obtain ⟨x, hx, htxid, hseq, -, herase⟩ := h.entryAt hid
    refine ⟨_, herase, h.eraseEntry hx, frame_eraseEntry c x, fun e => ?_⟩
    rw [mem_eraseEntry]
    apply and_congr_right
    intro he
    -- a sequence number and a txid both name one entry
    constructor
    · intro hne heq
      exact hne (congrArg PreparedTransactionEntry.sequence (h.eq_of_txid he hx (heq.trans htxid.symm)))
    · intro hne heq
      exact hne (h.eq_of_sequence he hx heq ▸ htxid)

theorem Consistent.eraseAll (h : c.Consistent) (ids : List H) :
    ∃ c', TransactionRelay.eraseAll c ids = .ok c' ∧ c'.Consistent ∧ Frame c c' ∧
      ∀ e, e ∈ c'.entries ↔ e ∈ c.entries ∧ txid e.proof ∉ ids := by
  induction ids generalizing c with
  | nil => exact ⟨c, rfl, h, Frame.refl c, by simp⟩
  | cons id ids ih =>
    obtain ⟨c1, herase, hcons, hframe, hmem⟩ := h.mem_eraseTxid id
    obtain ⟨c2, hrest, hcons2, hframe2, hmem2⟩ := ih hcons
    refine ⟨c2, ?_, hcons2, hframe.trans hframe2, fun e => ?_⟩
    · rw [TransactionRelay.eraseAll, herase]
      exact hrest
    · rw [hmem2, hmem, List.mem_cons, not_or, and_assoc]

end TransactionProofCache

/-! ## One id and all ids -/

namespace TransactionRelay

open TransactionProofCache

variable {batchSize scanCursor : Nat} {delay : Nat → Nat} {c : TransactionProofCache P H} {retained before : List H}
  {s : RecoveryScan P H}

variable (batchSize scanCursor c retained before s) in
/-- The scan behind the ids of `before`, from a cache that held those of `retained`. -/
structure Scanned : Prop where
  swept : Swept c s.cache
  mem_missing : ∀ id, id ∈ s.missing ↔ id ∈ retained ∧ id ∉ before
  count_eq : s.count = before.length
  sublist : s.candidates.Sublist before
  length_le : s.candidates.length ≤ batchSize
  uncached : ∀ id ∈ s.candidates, ∀ e ∈ s.cache.entries, txid e.proof ≠ id
  /-- Up to the cursor nothing is looked up. -/
  waiting : before.length ≤ scanCursor → s.nextCursor = scanCursor ∧ s.candidates = []
  /-- Behind it every id is, until the batch is full. -/
  looking : scanCursor < before.length → scanCursor < s.nextCursor ∧ s.nextCursor ≤ before.length ∧
    (s.nextCursor < before.length → batchSize ≤ s.candidates.length)
  found : ∀ i id, scanCursor ≤ i → i < s.nextCursor → before[i]? = some id →
    id ∈ s.candidates ∨ ∃ e ∈ c.entries, txid e.proof = id ∧ c.now < e.expires

theorem Scanned.visit (h : Scanned batchSize scanCursor c retained before s) (hactive : c.Active) (hbatch : 0 < batchSize)
    (delay : Nat → Nat) (id : H) :
    ∃ s', visit batchSize scanCursor delay s id = .ok s' ∧ Scanned batchSize scanCursor c retained (before ++ [id]) s' := by
  have hcount := h.count_eq
  have hmissing : ∀ other, other ∈ s.missing.filter (· ≠ id) ↔ other ∈ retained ∧ other ∉ before ++ [id] := by
    intro other
    rw [List.mem_filter, h.mem_missing, List.mem_append, List.mem_singleton, not_or, and_assoc]
    simp only [ne_eq, decide_not, Bool.not_eq_true', decide_eq_false_iff_not]
  by_cases hlook : s.count ≥ scanCursor ∧ s.candidates.length < batchSize
  · have hlast := h.swept.active hactive
    have hlater := hlast.1.swept (delay (s.count + 1))
    have hready : (s.cache.elapse (delay (s.count + 1))).Active := ⟨hlast.1.elapse _, hlast.2⟩
    obtain ⟨found, hfind, hnone⟩ := hready.find id
    have hswept := h.swept.trans hlater
    refine ⟨⟨(s.cache.elapse (delay (s.count + 1))).expire, s.missing.filter (· ≠ id),
      if found.isNone then s.candidates ++ [id] else s.candidates, s.count + 1, s.count + 1⟩, by
      rw [TransactionRelay.visit, if_pos hlook, hfind], ?_⟩
    -- the batch has room, so every id from the cursor on was looked up
    have hprevious : scanCursor < before.length → s.nextCursor = before.length := by
      intro hbehind
      obtain ⟨-, hle, hfull⟩ := h.looking hbehind
      by_contra hne
      have := hfull (by omega)
      omega
    refine ⟨hswept, hmissing, ?_, ?_, ?_, fun other hother e he => ?_, fun hle => ?_, fun hlt => ?_,
      fun i other hi hnext hother => ?_⟩
    · rw [List.length_append, List.length_singleton, hcount]
    · show (if found.isNone then s.candidates ++ [id] else s.candidates).Sublist (before ++ [id])
      split_ifs
      · exact h.sublist.append (List.Sublist.refl _)
      · exact h.sublist.trans (List.sublist_append_left _ _)
    · show (if found.isNone then s.candidates ++ [id] else s.candidates).length ≤ batchSize
      split_ifs
      · rw [List.length_append, List.length_singleton]
        exact hlook.2
      · exact h.length_le
    · have hold : other ∈ s.candidates → txid e.proof ≠ other := fun hin =>
        h.uncached other hin e ((hlater.mem_entries e).mp he).1
      have hother' : other ∈ if found.isNone then s.candidates ++ [id] else s.candidates := hother
      split_ifs at hother' with hmiss
      · rcases List.mem_append.mp hother' with hin | hin
        · exact hold hin
        · rw [List.mem_singleton.mp hin]
          exact hnone.mp hmiss e he
      · exact hold hother'
    · rw [List.length_append, List.length_singleton] at hle
      omega
    · show scanCursor < s.count + 1 ∧ _ ∧ _
      rw [List.length_append, List.length_singleton]
      refine ⟨by omega, ?_, fun hbefore => ?_⟩
      · show s.count + 1 ≤ _
        omega
      · have hbefore : s.count + 1 < before.length + 1 := hbefore
        omega
    · have hlt : i < s.count + 1 := hnext
      show (other ∈ if found.isNone then s.candidates ++ [id] else s.candidates) ∨ _
      by_cases hi' : i < before.length
      · rw [List.getElem?_append_left hi'] at hother
        rcases h.found i other hi (by rw [hprevious (by omega)]; exact hi') hother with hin | hcached
        · refine .inl ?_
          split_ifs
          · exact List.mem_append_left _ hin
          · exact hin
        · exact .inr hcached
      · have hiLast : i = before.length := by omega
        rw [hiLast, List.getElem?_concat_length, Option.some.injEq] at hother
        subst hother
        cases hmiss : found.isNone with
        | true => exact .inl (List.mem_append_right _ (List.mem_singleton_self _))
        | false =>
          refine .inr ?_
          by_contra hnot
          have hall : found.isNone := hnone.mpr fun e he heq => by
            obtain ⟨hin, hfresh⟩ := (hswept.mem_entries e).mp he
            exact hnot ⟨e, hin, heq, Nat.lt_of_le_of_lt hswept.now_le hfresh⟩
          rw [hall] at hmiss
          cases hmiss
  · refine ⟨{ s with missing := s.missing.filter (· ≠ id), count := s.count + 1 }, by
      rw [TransactionRelay.visit, if_neg hlook], ?_⟩
    have hfull : scanCursor < (before ++ [id]).length → scanCursor < before.length ∧ batchSize ≤ s.candidates.length := by
      intro hlt
      rw [List.length_append, List.length_singleton] at hlt
      have hcandidates : batchSize ≤ s.candidates.length := by
        by_contra hroom
        exact hlook ⟨by omega, by omega⟩
      refine ⟨?_, hcandidates⟩
      by_contra hle
      rw [(h.waiting (by omega)).2] at hcandidates
      exact absurd hcandidates (by rw [List.length_nil]; omega)
    refine ⟨h.swept, hmissing, ?_, h.sublist.trans (List.sublist_append_left _ _), h.length_le, h.uncached, fun hle => ?_,
      fun hlt => ?_, fun i other hi hnext hother => ?_⟩
    · rw [List.length_append, List.length_singleton]
      exact congrArg (· + 1) hcount
    · rw [List.length_append] at hle
      exact h.waiting (by omega)
    · obtain ⟨hbehind, hcandidates⟩ := hfull hlt
      obtain ⟨hnext, hle, -⟩ := h.looking hbehind
      exact ⟨hnext, hle.trans (List.length_append ▸ Nat.le_add_right _ _), fun _ => hcandidates⟩
    · have hlt : i < s.nextCursor := hnext
      have hbehind : scanCursor < before.length := by
        by_contra hle
        rw [(h.waiting (by omega)).1] at hlt
        omega
      have hle := (h.looking hbehind).2.1
      rw [List.getElem?_append_left (by omega)] at hother
      exact h.found i other hi hlt hother

theorem Scanned.visitAll [StoredHash H] (h : Scanned batchSize scanCursor c retained before s) (hactive : c.Active)
    (hbatch : 0 < batchSize) (delay : Nat → Nat) (ids : List H) :
    ∃ s', visitAll batchSize scanCursor delay s ids = .ok s' ∧
      Scanned batchSize scanCursor c retained (before ++ ids) s' := by
  induction ids generalizing before s with
  | nil => exact ⟨s, rfl, by rwa [List.append_nil]⟩
  | cons id ids ih =>
    obtain ⟨s1, hvisit, hscanned⟩ := h.visit hactive hbatch delay id
    obtain ⟨s', hall, hscanned'⟩ := ih hscanned
    refine ⟨s', ?_, ?_⟩
    · rw [TransactionRelay.visitAll, hvisit]
      exact hall
    · rwa [List.append_assoc] at hscanned'

/-! ## One call -/

variable [StoredHash H] {relay : TransactionRelay P H} {json : List UInt8} {ids : List H}

omit [StoredHash H] in
theorem swept_start (hactive : relay.cache.Active) (delay : Nat → Nat) :
    Swept relay.cache (relay.startScan delay).cache := hactive.1.swept (delay 0)

omit [StoredHash H] in
theorem scanned_start (hactive : relay.cache.Active) (delay : Nat → Nat) :
    Scanned relay.batchSize relay.scanCursor (relay.startScan delay).cache (relay.startScan delay).missing []
      (relay.startScan delay) where
  swept := (swept_start hactive delay).self
  mem_missing id := by simp
  count_eq := rfl
  sublist := List.Sublist.refl _
  length_le := Nat.zero_le _
  uncached id hid := absurd hid List.not_mem_nil
  waiting _ := ⟨rfl, rfl⟩
  looking hlt := absurd hlt (Nat.not_lt_zero _)
  found i id _ _ hid := by simp at hid

theorem visits_start (hactive : relay.cache.Active) (hbatch : 0 < relay.batchSize) (delay : Nat → Nat) (ids : List H) :
    ∃ s, visitAll relay.batchSize relay.scanCursor delay (relay.startScan delay) ids = .ok s ∧
      Scanned relay.batchSize relay.scanCursor (relay.startScan delay).cache (relay.startScan delay).missing ids s :=
  (scanned_start hactive delay).visitAll ((swept_start hactive delay).active hactive) hbatch delay ids

/-- What a call on an inventory does. -/
structure Recovered (relay : TransactionRelay P H) (ids candidates : List H) (relay' : TransactionRelay P H) : Prop where
  batchSize : relay'.batchSize = relay.batchSize
  active : relay'.cache.Active
  now_le : relay.cache.now ≤ relay'.cache.now
  mem_entries : ∀ e, e ∈ relay'.cache.entries ↔
    e ∈ relay.cache.entries ∧ relay'.cache.now < e.expires ∧ txid e.proof ∈ ids
  sublist : candidates.Sublist ids
  length_le : candidates.length ≤ relay.batchSize
  uncached : ∀ id ∈ candidates, ∀ e ∈ relay'.cache.entries, txid e.proof ≠ id
  /-- What the cursor passes is returned, unless it was cached before. -/
  cursor : (ids.length ≤ relay.scanCursor ∧ relay'.scanCursor = 0) ∨
    ∃ next, relay.scanCursor < next ∧ next ≤ ids.length ∧
      relay'.scanCursor = (if next = ids.length then 0 else next) ∧
      ∀ i id, relay.scanCursor ≤ i → i < next → ids[i]? = some id →
        id ∈ candidates ∨ ∃ e ∈ relay.cache.entries, txid e.proof = id ∧ relay.cache.now < e.expires

theorem recovered (hactive : relay.cache.Active) (hbatch : 0 < relay.batchSize) (delay : Nat → Nat)
    (h : IsInventory json ids) :
    ∃ candidates relay', relay.recoveryCandidates delay (.ok json) = .ok (.ok candidates, relay') ∧
      Recovered relay ids candidates relay' := by
  have hstart := swept_start hactive delay
  obtain ⟨s, hvisits, hscanned⟩ := visits_start hactive hbatch delay ids
  have hswept := hstart.trans hscanned.swept
  obtain ⟨cache, herase, hcons, hframe, hmem⟩ := hscanned.swept.consistent.eraseAll s.missing
  rw [recoveryCandidates_inventory h, hvisits]
  dsimp only
  rw [herase]
  refine ⟨_, _, rfl, rfl, ⟨hcons, fun hready => ?_⟩, ?_, fun e => ?_, hscanned.sublist, hscanned.length_le,
    fun id hid e he => hscanned.uncached id hid e ((hmem e).mp he).1, ?_⟩
  · have hnil := (hswept.active hactive).2 (hframe.ready ▸ hready)
    apply List.eq_nil_iff_forall_not_mem.mpr
    intro e he
    have hold := ((hmem e).mp he).1
    rw [hnil] at hold
    cases hold
  · show relay.cache.now ≤ cache.now
    rw [hframe.now]
    exact hswept.now_le
  · show e ∈ cache.entries ↔ _ ∧ cache.now < _ ∧ _
    rw [hframe.now, hmem, hscanned.mem_missing]
    constructor
    · rintro ⟨he, hkept⟩
      obtain ⟨hold, hfresh⟩ := (hswept.mem_entries e).mp he
      refine ⟨hold, hfresh, ?_⟩
      by_contra hid
      exact hkept ⟨List.mem_map_of_mem ((hscanned.swept.mem_entries e).mp he).1, hid⟩
    · rintro ⟨hold, hfresh, hid⟩
      exact ⟨(hswept.mem_entries e).mpr ⟨hold, hfresh⟩, fun hgone => hgone.2 hid⟩
  · by_cases hbehind : relay.scanCursor < ids.length
    · obtain ⟨hlt, hle, -⟩ := hscanned.looking hbehind
      refine .inr ⟨s.nextCursor, hlt, hle, ?_, fun i id hi hnext hid => ?_⟩
      · rw [hscanned.count_eq]
        split_ifs <;> first | rfl | omega
      · rcases hscanned.found i id hi hnext hid with hin | ⟨e, he, hid, hfresh⟩
        · exact .inl hin
        · exact .inr ⟨e, ((hstart.mem_entries e).mp he).1, hid, Nat.lt_of_le_of_lt hstart.now_le hfresh⟩
    · refine .inl ⟨by omega, if_pos ?_⟩
      rw [(hscanned.waiting (by omega)).1, hscanned.count_eq]
      omega

/-- A call that fails keeps the cursor and takes nothing but expired entries from the cache. -/
theorem recoveryCandidates_error (hactive : relay.cache.Active) (hbatch : 0 < relay.batchSize) (delay : Nat → Nat)
    (h : ¬∃ ids : List H, IsInventory json ids) :
    ∃ message cache, relay.recoveryCandidates delay (.ok json) = .ok (.error message, { relay with cache }) ∧
      Swept relay.cache cache := by
  have hvisits : ∀ ids, ∃ s, visitAll relay.batchSize relay.scanCursor delay (relay.startScan delay) ids = .ok s :=
    fun ids => (visits_start hactive hbatch delay ids).imp fun _ => And.left
  obtain ⟨ids, s, message, hids, herror⟩ := recoveryCandidates_other delay hvisits h
  obtain ⟨s', hs', hscanned⟩ := visits_start hactive hbatch delay ids
  rw [hids] at hs'
  obtain rfl := Except.ok.inj hs'
  exact ⟨message, s.cache, herror, (swept_start hactive delay).trans hscanned.swept⟩

/-! ## Calls in a row -/

/-- How many calls it takes at most to get past a place of the inventory. -/
def callsUntil (length cursor place : Nat) : Nat :=
  if cursor ≤ place then place - cursor else length - cursor + 1 + place

theorem callsUntil_lt {length cursor place : Nat} (h : place < length) : callsUntil length cursor place < 2 * length := by
  unfold callsUntil
  split_ifs <;> omega

theorem recoverTimes_ok (h : IsInventory json ids) (delay : Nat → Nat → Nat) (calls : Nat)
    (hactive : relay.cache.Active) (hbatch : 0 < relay.batchSize) :
    ∃ results relay', recoverTimes (.ok json) delay calls relay = .ok (results, relay') := by
  induction calls generalizing relay with
  | zero => exact ⟨[], relay, rfl⟩
  | succ calls ih =>
    obtain ⟨candidates, relay1, hcall, hrecovered⟩ := recovered hactive hbatch (delay calls) h
    obtain ⟨results, relay', hrest⟩ := ih hrecovered.active (hrecovered.batchSize ▸ hbatch)
    exact ⟨.ok candidates :: results, relay', by rw [recoverTimes, hcall]; dsimp only; rw [hrest]⟩

theorem recoverTimes_returns (h : IsInventory json ids) {place : Nat} {id : H} (hid : ids[place]? = some id)
    (delay : Nat → Nat → Nat) {calls : Nat} (hactive : relay.cache.Active) (hbatch : 0 < relay.batchSize)
    (huncached : ∀ e ∈ relay.cache.entries, txid e.proof = id → e.expires ≤ relay.cache.now)
    (hcalls : callsUntil ids.length relay.scanCursor place < calls) {results : List (Except String (List H))}
    {relay' : TransactionRelay P H} (hrun : recoverTimes (.ok json) delay calls relay = .ok (results, relay')) :
    ∃ candidates, .ok candidates ∈ results ∧ id ∈ candidates := by
  induction calls generalizing relay results with
  | zero => exact absurd hcalls (Nat.not_lt_zero _)
  | succ calls ih =>
    obtain ⟨candidates, relay1, hcall, hrecovered⟩ := recovered hactive hbatch (delay calls) h
    have hbatch1 : 0 < relay1.batchSize := hrecovered.batchSize ▸ hbatch
    obtain ⟨rest, last, hrest⟩ := recoverTimes_ok h delay calls hrecovered.active hbatch1
    rw [recoverTimes, hcall] at hrun
    dsimp only at hrun
    rw [hrest] at hrun
    cases hrun
    by_cases hin : id ∈ candidates
    · exact ⟨candidates, List.mem_cons_self, hin⟩
    · have hplace : place < ids.length := (List.getElem?_eq_some_iff.mp hid).1
      have huncached1 : ∀ e ∈ relay1.cache.entries, txid e.proof = id → e.expires ≤ relay1.cache.now := by
        intro e he heq
        exact (huncached e ((hrecovered.mem_entries e).mp he).1 heq).trans hrecovered.now_le
      -- the cursor did not pass the place, or it started behind it
      have hless : callsUntil ids.length relay1.scanCursor place < calls := by
        rcases hrecovered.cursor with ⟨hpast, hzero⟩ | ⟨next, hlt, hle, hnext, hreturned⟩
        · rw [hzero]
          unfold callsUntil at hcalls ⊢
          split_ifs at hcalls ⊢ <;> omega
        · have hmissed : ¬(relay.scanCursor ≤ place ∧ place < next) := by
            rintro ⟨hfrom, hto⟩
            rcases hreturned place id hfrom hto hid with hreturn | ⟨e, he, heq, hfresh⟩
            · exact hin hreturn
            · have := huncached e he heq
              omega
          rw [hnext]
          unfold callsUntil at hcalls ⊢
          split_ifs at hcalls ⊢ <;> omega
      obtain ⟨found, hmem, hfound⟩ := ih hrecovered.active hbatch1 huncached1 hless hrest
      exact ⟨found, List.mem_cons_of_mem _ hmem, hfound⟩

end TransactionRelay

/-! ## Reachable caches -/

namespace CacheSystem

variable {config : TransactionCacheConfig} {s s' : CacheSystem P H}

def Anchored (c : TransactionProofCache P H) : Prop := c.stats.ready = c.point.isSome

omit [DecidableEq H] [PreparedProof P H] in
theorem Anchored.frame {c c' : TransactionProofCache P H} (h : Anchored c) (hframe : TransactionProofCache.Frame c c') :
    Anchored c' := by
  rw [Anchored, hframe.ready, hframe.point]
  exact h

theorem Anchored.publish {c c' : TransactionProofCache P H} (h : Anchored c) (hcons : c.Consistent)
    {point : ChainPoint H} {proof : P} {delay : Nat} {result : Except String Bool}
    (hpublish : c.publish point proof delay = .ok (result, c')) : Anchored c' := by
  have hexpire := h.frame hcons.expire.2
  unfold TransactionProofCache.publish at hpublish
  split at hpublish
  · cases hpublish
    exact h
  · dsimp only at hpublish
    split_ifs at hpublish
    · cases hpublish
      exact h
    · cases hpublish
      exact hexpire
    · obtain ⟨c1, herase, hcons1, hframe, -⟩ := hcons.expire.1.eraseTxid (txid proof)
      rw [herase] at hpublish
      cases hpublish
      obtain ⟨-, hevict, -⟩ := hcons1.evict_front (memoryUsage proof + entrySize P + 256)
      have hroom : Anchored (c1.evict (memoryUsage proof + entrySize P + 256)) := (hexpire.frame hframe).frame hevict
      exact hroom

omit [PreparedProof P H] in
theorem Anchored.resume (h : Anchored s.cache) {w : Waiter H} {cancelledWait cancelled : Bool}
    {result : Option (PreparedTransactionEntry P H)} (hresume : s.resume w cancelledWait cancelled = some (result, s')) :
    Anchored s'.cache := by
  unfold CacheSystem.resume at hresume
  split at hresume
  · cases hresume
  · split_ifs at hresume
    cases hresume
    dsimp only
    split_ifs <;> exact h

theorem Anchored.waitFor (h : Anchored s.cache) (hcons : s.cache.Consistent)
    {request : TransactionRegenerationRequest H} {deadline delay : Nat} {cancelled : Bool} {reply : WaitReply P H}
    (hwait : s.waitFor request deadline delay cancelled = .ok (reply, s')) : Anchored s'.cache := by
  have hexpire := h.frame hcons.expire.2
  obtain ⟨result, hmatch, -⟩ := hcons.matchRequest request
  unfold CacheSystem.waitFor at hwait
  rw [hmatch] at hwait
  cases result with
  | some e =>
    cases hwait
    exact hexpire
  | none =>
    dsimp only at hwait
    split at hwait
    · cases hwait
      exact hexpire
    · split at hwait
      · cases hwait
        exact hexpire
      · split at hwait
        · cases hwait
          exact hexpire
        · cases hwait
          exact hexpire

theorem Anchored.completeRegeneration {c c' : TransactionProofCache P H} (h : Anchored c) (hcons : c.Consistent)
    {request : TransactionRegenerationRequest H} {hit : Bool}
    (hcomplete : c.completeRegeneration request = .ok (hit, c')) : Anchored c' := by
  have hexpire := h.frame hcons.expire.2
  obtain ⟨result, hmatch, -⟩ := hcons.matchRequest request
  unfold TransactionProofCache.completeRegeneration at hcomplete
  split at hcomplete
  · cases hcomplete
    exact h
  · split at hcomplete
    · cases hcomplete
      exact h
    · rw [hmatch] at hcomplete
      cases hcomplete
      cases result <;> exact hexpire

theorem Reachable.anchored (h : Reachable config s) : Anchored s.cache := by
  induction h with
  | @new c hnew =>
    unfold TransactionProofCache.new at hnew
    split_ifs at hnew
    cases hnew
    rfl
  | @call s s' x reply h hcall ih =>
    have hcons := h.valid.consistent
    have hexpire := ih.frame hcons.expire.2
    cases x with
    | activate point =>
      cases hcall
      rfl
    | invalidate =>
      cases hcall
      rfl
    | publish point proof delay =>
      rw [CacheSystem.call] at hcall
      rcases hpublish : s.cache.publish point proof delay with fault | ⟨result, cache⟩
      · rw [hpublish] at hcall
        cases hcall
      · rw [hpublish] at hcall
        cases hcall
        exact ih.publish hcons hpublish
    | erase id =>
      obtain ⟨cache, herase, -, hframe, -⟩ := hcons.eraseTxid id
      rw [CacheSystem.call, herase] at hcall
      cases hcall
      exact ih.frame hframe
    | find id sequence =>
      obtain ⟨result, hfind, -⟩ := hcons.find id sequence
      rw [CacheSystem.call, hfind] at hcall
      cases hcall
      exact hexpire
    | findMatching request =>
      obtain ⟨result, hmatch, -⟩ := hcons.matchRequest request
      rw [CacheSystem.call, hmatch] at hcall
      cases hcall
      exact hexpire
    | waitFor request deadline delay cancelled =>
      rw [CacheSystem.call] at hcall
      rcases hwait : s.waitFor request deadline delay cancelled with fault | ⟨result, next⟩
      · rw [hwait] at hcall
        cases hcall
      · rw [hwait] at hcall
        cases hcall
        exact ih.waitFor hcons hwait
    | resume w cancelledWait cancelled =>
      obtain ⟨⟨result, next⟩, hresume, heq⟩ := Option.map_eq_some_iff.mp (Except.ok.inj hcall)
      cases heq
      exact ih.resume hresume
    | takeRegeneration =>
      obtain ⟨result, cache, htake, -, -, -, -, hpoint, -, -, hstats⟩ := h.valid.jobs.takeRegeneration
      rw [CacheSystem.call, htake] at hcall
      cases hcall
      show cache.stats.ready = cache.point.isSome
      rw [hstats, hpoint]
      exact ih
    | completeRegeneration request =>
      rw [CacheSystem.call] at hcall
      rcases hcomplete : s.cache.completeRegeneration request with fault | ⟨hit, cache⟩
      · rw [hcomplete] at hcall
        cases hcall
      · rw [hcomplete] at hcall
        cases hcall
        exact ih.completeRegeneration hcons hcomplete
    | announcementsAfter cursor maxEntries maxVectors expectedEpoch =>
      have hcache := (announcementsAfter_spec s.cache cursor maxEntries maxVectors expectedEpoch).1
      cases hcall
      show Anchored (s.cache.announcementsAfter cursor maxEntries maxVectors expectedEpoch).2
      rw [hcache]
      exact hexpire
    | txids =>
      cases hcall
      exact hexpire
    | stats =>
      cases hcall
      exact hexpire
    | tick delay =>
      cases hcall
      exact ih

theorem Reachable.active (h : Reachable config s) : s.cache.Active := by
  refine ⟨h.valid.consistent, fun hready => ?_⟩
  apply List.eq_nil_iff_forall_not_mem.mpr
  intro e he
  have hpoint := (h.valid.consistent.anchored e he).1
  have hanchored := h.anchored
  rw [Anchored, hready, hpoint] at hanchored
  cases hanchored

end CacheSystem

/-! ## The scan -/

/-- **The recovery scan.** It accepts the inventories and nothing else. When it refuses a text, the cursor stays and the
cache loses what has expired. On an inventory the cache loses the ids that are not in it, and the candidates are
uncached ids of the inventory in its order, one batch at most. Calls in a row on one inventory return every id that was
uncached at the start. -/
theorem recoveryCandidates_scan [StoredHash H] {config : TransactionCacheConfig} {s : CacheSystem P H}
    (hreach : CacheSystem.Reachable config s) {relay : TransactionRelay P H} (hcache : relay.cache = s.cache)
    (hbatch : 0 < relay.batchSize) (json : List UInt8) (delay : Nat → Nat) :
    ∃ result relay', relay.recoveryCandidates delay (.ok json) = .ok (result, relay') ∧
      ((∃ candidates, result = .ok candidates) ↔ ∃ ids : List H, IsInventory json ids) ∧
      (∀ message, result = .error message → relay'.scanCursor = relay.scanCursor ∧
        (∀ e, e ∈ relay'.cache.entries ↔ e ∈ relay.cache.entries ∧ relay'.cache.now < e.expires) ∧
        ((∀ e ∈ relay.cache.entries, relay'.cache.now < e.expires) →
          relay'.cache = { relay.cache with now := relay'.cache.now })) ∧
      ∀ ids : List H, IsInventory json ids →
        (∃ candidates, result = .ok candidates ∧
          (∀ e, e ∈ relay'.cache.entries ↔
            e ∈ relay.cache.entries ∧ relay'.cache.now < e.expires ∧ txid e.proof ∈ ids) ∧
          candidates.length ≤ relay.batchSize ∧ candidates.Sublist ids ∧
          ∀ id ∈ candidates, ∀ e ∈ relay'.cache.entries, txid e.proof ≠ id) ∧
        ∀ delays : Nat → Nat → Nat, ∃ results last,
          TransactionRelay.recoverTimes (.ok json) delays (2 * ids.length) relay = .ok (results, last) ∧
          ∀ id ∈ ids, (∀ e ∈ relay.cache.entries, txid e.proof = id → e.expires ≤ relay.cache.now) →
            ∃ candidates, .ok candidates ∈ results ∧ id ∈ candidates := by
  have hactive : relay.cache.Active := by
    rw [hcache]
    exact hreach.active
  by_cases hinventory : ∃ ids : List H, IsInventory json ids
  · obtain ⟨known, hknown⟩ := hinventory
    obtain ⟨candidates, relay', hcall, -⟩ := TransactionRelay.recovered hactive hbatch delay hknown
    refine ⟨.ok candidates, relay', hcall, ⟨fun _ => ⟨known, hknown⟩, fun _ => ⟨candidates, rfl⟩⟩, nofun,
      fun ids hids => ⟨?_, fun delays => ?_⟩⟩
    · obtain ⟨candidates', last, hcall', hrecovered⟩ := TransactionRelay.recovered hactive hbatch delay hids
      rw [hcall] at hcall'
      cases hcall'
      exact ⟨candidates, rfl, hrecovered.mem_entries, hrecovered.length_le, hrecovered.sublist, hrecovered.uncached⟩
    · obtain ⟨results, last, hrun⟩ := TransactionRelay.recoverTimes_ok hids delays (2 * ids.length) hactive hbatch
      refine ⟨results, last, hrun, fun id hid huncached => ?_⟩
      obtain ⟨place, hplace, rfl⟩ := List.getElem_of_mem hid
      exact TransactionRelay.recoverTimes_returns hids (List.getElem?_eq_getElem hplace) delays hactive hbatch huncached
        (TransactionRelay.callsUntil_lt hplace) hrun
  · obtain ⟨message, cache, hcall, hswept⟩ := TransactionRelay.recoveryCandidates_error hactive hbatch delay hinventory
    refine ⟨.error message, { relay with cache }, hcall, ⟨?_, fun hexists => absurd hexists hinventory⟩,
      fun _ _ => ⟨rfl, hswept.mem_entries, hswept.same⟩, fun ids hids => absurd ⟨ids, hids⟩ hinventory⟩
    rintro ⟨candidates, hcandidates⟩
    cases hcandidates

/-! ## A cache with one proof -/

structure IdProof where
  txid : ByteHash

instance : PreparedProof IdProof ByteHash := ⟨IdProof.txid, fun _ => 64, 128, fun _ => 1, fun p => .ok p.txid⟩

def relayConfig : TransactionCacheConfig := ⟨4, 1000, 60, 2⟩

theorem reachable_cached : ∃ s : CacheSystem IdProof ByteHash, CacheSystem.Reachable relayConfig s ∧
    s.cache.entries.map (fun e => txid e.proof) = [leafHash 1] :=
  ⟨_, .call (.call (.new rfl) (x := .activate ⟨7, .zero⟩) rfl) (x := .publish ⟨7, .zero⟩ ⟨leafHash 1⟩ 3) rfl, rfl⟩

def zeroDigits : List UInt8 := List.replicate 64 48

/-- One id, between the brackets of an array. -/
def zeroInventory : List UInt8 := 91 :: (34 :: (zeroDigits ++ [34]) ++ [93])

theorem stringText_zeros (count : Nat) : Rpc.StringText (List.replicate count 48) := by
  apply TransactionRelay.stringText_of_hex
  intro b hb
  rw [List.eq_of_mem_replicate hb]
  rfl

theorem isInventory_zero : IsInventory zeroInventory [ByteHash.zero] := by
  refine ⟨[], zeroInventory, [], [zeroDigits], rfl, TransactionRelay.blank_nil, TransactionRelay.blank_nil, .arr ?_,
    .cons (by decide +kernel) .nil⟩
  exact .lastElement TransactionRelay.blank_nil TransactionRelay.blank_nil (.strText (stringText_zeros 64) rfl)

theorem recoveryCandidates_scan_zero : ∃ (s : CacheSystem IdProof ByteHash)
    (results : List (Except String (List ByteHash))) (last : TransactionRelay IdProof ByteHash),
    TransactionRelay.recoverTimes (.ok zeroInventory) (fun _ _ => 1) 2 ⟨s.cache, 64, 5⟩ = .ok (results, last) ∧
      ∃ candidates, .ok candidates ∈ results ∧ ByteHash.zero ∈ candidates := by
  obtain ⟨s, hreach, hentries⟩ := reachable_cached
  have hcache : (⟨s.cache, 64, 5⟩ : TransactionRelay IdProof ByteHash).cache = s.cache := rfl
  have hbatch : 0 < (⟨s.cache, 64, 5⟩ : TransactionRelay IdProof ByteHash).batchSize := Nat.succ_pos 63
  obtain ⟨result, relay', hcall, -, -, hinventory⟩ := recoveryCandidates_scan hreach hcache hbatch zeroInventory fun _ => 1
  obtain ⟨results, last, hrun, hreturns⟩ := (hinventory _ isInventory_zero).2 fun _ _ => 1
  refine ⟨s, results, last, hrun, hreturns .zero List.mem_cons_self fun e he hid => ?_⟩
  have hkey : txid e.proof ∈ [leafHash 1] := hentries ▸ List.mem_map_of_mem he
  rw [hid, List.mem_singleton] at hkey
  exact absurd hkey (by decide)

/-- A digit of an id as an escape of JSON. -/
def escapedInventory : List UInt8 := 91 :: (34 :: (92 :: 117 :: 48 :: 48 :: 51 :: 48 :: List.replicate 63 48 ++ [34]) ++ [93])

/-- The inside of a string with its escapes resolved. -/
def unescape (raw : List UInt8) : Option (List UInt8) :=
  match Rpc.JsonCursor.stringBody [] (raw ++ [34]) with
  | .ok (text, []) => some text
  | _ => none

/-- A call that fails on a text that is no array takes an expired proof out of the cache. A call fails on an id of 64 digits
one of which is escaped. -/
theorem recoveryCandidates_error_expires :
    (∃ s : CacheSystem IdProof ByteHash, CacheSystem.Reachable relayConfig s ∧ ∃ message relay',
      TransactionRelay.recoveryCandidates ⟨s.cache, 64, 0⟩ (fun _ => 0) (.ok []) = .ok (.error message, relay') ∧
        s.cache.entries.length = 1 ∧ relay'.cache.entries = []) ∧
    (Rpc.JsonText unescape (.value (.arr [.str zeroDigits])) escapedInventory ∧
      ∀ s : CacheSystem IdProof ByteHash, ∃ message relay', TransactionRelay.recoveryCandidates ⟨s.cache, 64, 0⟩ (fun _ => 0)
        (.ok escapedInventory) = .ok (.error message, relay')) := by
  refine ⟨?_, ?_, fun s => ?_⟩
  · refine ⟨_, .call (.call (.call (.new rfl) (x := .activate ⟨7, .zero⟩) rfl) (x := .publish ⟨7, .zero⟩ ⟨leafHash 1⟩ 3) rfl)
      (x := .tick 60000000000) rfl, _, _, rfl, rfl, rfl⟩
  · refine .arr ?_
    exact .lastElement TransactionRelay.blank_nil TransactionRelay.blank_nil
      (.strText (.unicode (by decide) (stringText_zeros 63)) (by decide +kernel))
  · exact ⟨_, _, rfl⟩

end UtreexoBridge
