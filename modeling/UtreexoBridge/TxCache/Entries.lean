import Mathlib.Algebra.BigOperators.Group.List.Basic
import UtreexoBridge.TxCache.Spec

/-!
# The entries of the transaction proof cache

Entries leave one at a time, from the front or by their txid, and enter at the
back. `Consistent` is what every such step keeps.
-/

namespace UtreexoBridge.TransactionProofCache

open PreparedProof

variable {P H : Type} {c c' : TransactionProofCache P H} {e : PreparedTransactionEntry P H}

structure Frame (c c' : TransactionProofCache P H) : Prop where
  config : c'.config = c.config
  now : c'.now = c.now
  point : c'.point = c.point
  sequence : c'.sequence = c.sequence
  jobs : c'.jobs = c.jobs
  nextJob : c'.nextJob = c.nextJob
  regeneration : c'.regeneration = c.regeneration
  pending : c'.pending = c.pending
  epoch : c'.stats.epoch = c.stats.epoch
  ready : c'.stats.ready = c.stats.ready

theorem Frame.refl (c : TransactionProofCache P H) : Frame c c := ⟨rfl, rfl, rfl, rfl, rfl, rfl, rfl, rfl, rfl, rfl⟩

theorem Frame.trans {c'' : TransactionProofCache P H} (h : Frame c c') (h' : Frame c' c'') : Frame c c'' :=
  ⟨h'.config.trans h.config, h'.now.trans h.now, h'.point.trans h.point, h'.sequence.trans h.sequence,
    h'.jobs.trans h.jobs, h'.nextJob.trans h.nextJob, h'.regeneration.trans h.regeneration,
    h'.pending.trans h.pending, h'.epoch.trans h.epoch, h'.ready.trans h.ready⟩

variable [PreparedProof P H]

/-- The invariant of the two maps and the byte counter. -/
structure Consistent (c : TransactionProofCache P H) : Prop where
  sequences : c.entries.Pairwise fun x y => x.sequence < y.sequence
  sequence_le : ∀ e ∈ c.entries, e.sequence ≤ c.sequence
  /-- The txid map holds the entries and nothing else. -/
  byTxid_iff : ∀ txid sequence, c.byTxid txid = some sequence ↔
    ∃ e ∈ c.entries, e.sequence = sequence ∧ PreparedProof.txid e.proof = txid
  bytes_eq : c.stats.bytes = (c.entries.map (·.bytes)).sum
  bytes_le : c.stats.bytes ≤ c.config.maxBytes
  length_le : c.entries.length ≤ c.config.maxEntries
  /-- Every entry belongs to the current point and epoch. -/
  anchored : ∀ e ∈ c.entries, c.point = some e.point ∧ e.identity.epoch = c.stats.epoch
  expiry : c.entries.Pairwise fun x y => x.expires ≤ y.expires
  expires_le : ∀ e ∈ c.entries, e.expires ≤ c.now + c.config.lifetime * 1000000000

theorem Consistent.eq_of_sequence (h : c.Consistent) {x y : PreparedTransactionEntry P H} (hx : x ∈ c.entries)
    (hy : y ∈ c.entries) (heq : x.sequence = y.sequence) : x = y := by
  by_contra hne
  rcases List.pairwise_iff_getElem.mp h.sequences with hpair
  obtain ⟨i, hi, rfl⟩ := List.getElem_of_mem hx
  obtain ⟨j, hj, rfl⟩ := List.getElem_of_mem hy
  rcases Nat.lt_trichotomy i j with hlt | rfl | hgt
  · have := hpair i j hi hj hlt
    omega
  · exact hne rfl
  · have := hpair j i hj hi hgt
    omega

theorem Consistent.eq_of_txid (h : c.Consistent) {x y : PreparedTransactionEntry P H} (hx : x ∈ c.entries)
    (hy : y ∈ c.entries) (heq : txid x.proof = txid y.proof) : x = y := by
  have hsx := (h.byTxid_iff _ _).mpr ⟨x, hx, rfl, rfl⟩
  have hsy := (h.byTxid_iff _ _).mpr ⟨y, hy, rfl, rfl⟩
  rw [heq, hsy] at hsx
  exact h.eq_of_sequence hx hy (Option.some.inj hsx).symm

/-! ## Removing an entry -/

variable [DecidableEq H]

theorem mem_eraseEntry {x : PreparedTransactionEntry P H} :
    x ∈ (c.eraseEntry e).entries ↔ x ∈ c.entries ∧ x.sequence ≠ e.sequence := by
  simp [eraseEntry]

theorem frame_eraseEntry (c : TransactionProofCache P H) (e : PreparedTransactionEntry P H) :
    Frame c (c.eraseEntry e) := ⟨rfl, rfl, rfl, rfl, rfl, rfl, rfl, rfl, rfl, rfl⟩

omit [PreparedProof P H] [DecidableEq H] in
theorem sum_filter_sequence {l : List (PreparedTransactionEntry P H)}
    (hsorted : l.Pairwise fun x y => x.sequence < y.sequence) (he : e ∈ l) :
    (l.map (·.bytes)).sum = e.bytes + ((l.filter (·.sequence ≠ e.sequence)).map (·.bytes)).sum := by
  induction l with
  | nil => cases he
  | cons x l ih =>
    obtain ⟨hx, hl⟩ := List.pairwise_cons.mp hsorted
    rcases List.mem_cons.mp he with rfl | he
    · have hrest : l.filter (·.sequence ≠ e.sequence) = l := by
        rw [List.filter_eq_self]
        intro y hy
        have := hx y hy
        simp only [ne_eq, decide_not, Bool.not_eq_eq_eq_not, Bool.not_true, decide_eq_false_iff_not]
        omega
      simp only [ne_eq, not_true_eq_false, decide_false, Bool.false_eq_true, not_false_eq_true,
        List.filter_cons_of_neg, List.map_cons, List.sum_cons]
      rw [hrest]
    · have hne : x.sequence ≠ e.sequence := Nat.ne_of_lt (hx e he)
      rw [List.filter_cons_of_pos (by simpa using hne), List.map_cons, List.sum_cons, ih hl he, List.map_cons,
        List.sum_cons]
      omega

theorem Consistent.eraseEntry (h : c.Consistent) (he : e ∈ c.entries) : (c.eraseEntry e).Consistent := by
  have hsum := sum_filter_sequence h.sequences he
  have hbytes : (c.eraseEntry e).stats.bytes = ((c.eraseEntry e).entries.map (·.bytes)).sum := by
    have hle := h.bytes_eq
    show sub64 c.stats.bytes e.bytes = _
    rw [sub64, if_pos (by omega)]
    simp only [TransactionProofCache.eraseEntry]
    omega
  refine ⟨h.sequences.sublist List.filter_sublist, fun x hx => h.sequence_le x (mem_eraseEntry.mp hx).1, ?_, hbytes, ?_,
    ?_, fun x hx => h.anchored x (mem_eraseEntry.mp hx).1, h.expiry.sublist List.filter_sublist,
    fun x hx => h.expires_le x (mem_eraseEntry.mp hx).1⟩
  · intro id seq
    show Function.update c.byTxid (txid e.proof) none id = some seq ↔ _
    by_cases hid : id = txid e.proof
    · subst hid
      rw [Function.update_self]
      constructor
      · intro hno
        cases hno
      · rintro ⟨x, hx, -, hid⟩
        obtain ⟨hx, hne⟩ := mem_eraseEntry.mp hx
        exact absurd (congrArg PreparedTransactionEntry.sequence (h.eq_of_txid hx he hid)) hne
    · rw [Function.update_of_ne hid, h.byTxid_iff]
      constructor
      · rintro ⟨x, hx, hseq, rfl⟩
        refine ⟨x, mem_eraseEntry.mpr ⟨hx, fun heq => hid ?_⟩, hseq, rfl⟩
        rw [h.eq_of_sequence hx he heq]
      · rintro ⟨x, hx, hrest⟩
        exact ⟨x, (mem_eraseEntry.mp hx).1, hrest⟩
  · have hle := h.bytes_le
    have heq := h.bytes_eq
    show sub64 c.stats.bytes e.bytes ≤ c.config.maxBytes
    rw [sub64, if_pos (by omega)]
    omega
  · exact le_trans (List.length_filter_le _ _) h.length_le

omit [DecidableEq H] in
theorem Consistent.setStats (h : c.Consistent) (stats : TransactionCacheStats) (hbytes : stats.bytes = c.stats.bytes)
    (hepoch : stats.epoch = c.stats.epoch) : Consistent { c with stats } :=
  ⟨h.sequences, h.sequence_le, h.byTxid_iff, hbytes.trans h.bytes_eq, by rw [hbytes]; exact h.bytes_le, h.length_le,
    fun e he => ⟨(h.anchored e he).1, (h.anchored e he).2.trans hepoch.symm⟩, h.expiry, h.expires_le⟩

omit [DecidableEq H] in
theorem Consistent.of_entries (h : c.Consistent) (hconfig : c'.config = c.config) (hnow : c'.now = c.now)
    (hpoint : c'.point = c.point) (hsequence : c'.sequence = c.sequence) (hstats : c'.stats = c.stats)
    (hentries : c'.entries = c.entries) (hmap : c'.byTxid = c.byTxid) : c'.Consistent := by
  refine ⟨?_, ?_, ?_, ?_, ?_, ?_, ?_, ?_, ?_⟩
  · rw [hentries]
    exact h.sequences
  · rw [hentries, hsequence]
    exact h.sequence_le
  · rw [hentries, hmap]
    exact h.byTxid_iff
  · rw [hentries, hstats]
    exact h.bytes_eq
  · rw [hstats, hconfig]
    exact h.bytes_le
  · rw [hentries, hconfig]
    exact h.length_le
  · rw [hentries, hpoint, hstats]
    exact h.anchored
  · rw [hentries]
    exact h.expiry
  · rw [hentries, hnow, hconfig]
    exact h.expires_le

/-! ## Removing from the front -/

/-- What a front loop may count. -/
structure Counts (count : TransactionCacheStats → TransactionCacheStats) : Prop where
  bytes : ∀ s, (count s).bytes = s.bytes
  epoch : ∀ s, (count s).epoch = s.epoch
  ready : ∀ s, (count s).ready = s.ready

variable {more : TransactionProofCache P H → PreparedTransactionEntry P H → Bool}
  {count : TransactionCacheStats → TransactionCacheStats}

omit [PreparedProof P H] [DecidableEq H] in
theorem filter_front {l : List (PreparedTransactionEntry P H)}
    (hsorted : (e :: l).Pairwise fun x y => x.sequence < y.sequence) :
    (e :: l).filter (·.sequence ≠ e.sequence) = l := by
  obtain ⟨he, -⟩ := List.pairwise_cons.mp hsorted
  rw [List.filter_cons_of_neg (by simp), List.filter_eq_self]
  intro x hx
  have := he x hx
  simpa using (by omega : x.sequence ≠ e.sequence)

/-- The loop keeps the invariant, removes a prefix of entries that asked for it, and stops at one that did not. -/
theorem Consistent.erase_front (hcount : Counts count) (h : c.Consistent) (fuel : Nat) (hfuel : c.entries.length ≤ fuel) :
    (eraseWhile more count fuel c).Consistent ∧ Frame c (eraseWhile more count fuel c) ∧
      (eraseWhile more count fuel c).entries <:+ c.entries ∧
      ∀ e rest, (eraseWhile more count fuel c).entries = e :: rest → more (eraseWhile more count fuel c) e = false := by
  induction fuel generalizing c with
  | zero =>
    have hnil : c.entries = [] := List.length_eq_zero_iff.mp (Nat.le_zero.mp hfuel)
    refine ⟨h, Frame.refl c, List.suffix_refl _, fun e rest hcons => ?_⟩
    rw [eraseWhile, hnil] at hcons
    cases hcons
  | succ fuel ih =>
    unfold eraseWhile
    split
    · rename_i hnil
      refine ⟨h, Frame.refl c, List.suffix_refl _, fun e rest hcons => ?_⟩
      rw [hnil] at hcons
      cases hcons
    · rename_i e rest hcons
      split_ifs with hmore
      · have he : e ∈ c.entries := by rw [hcons]; exact List.mem_cons_self
        have hrest : (c.eraseEntry e).entries = rest := by
          show c.entries.filter _ = rest
          rw [hcons]
          exact filter_front (hcons ▸ h.sequences)
        have hstep : Consistent { c.eraseEntry e with stats := count (c.eraseEntry e).stats } :=
          (h.eraseEntry he).setStats _ (hcount.bytes _) (hcount.epoch _)
        have hframe : Frame c { c.eraseEntry e with stats := count (c.eraseEntry e).stats } :=
          ⟨rfl, rfl, rfl, rfl, rfl, rfl, rfl, rfl, hcount.epoch _, hcount.ready _⟩
        obtain ⟨h1, h2, h3, h4⟩ := ih hstep (by
          show (c.eraseEntry e).entries.length ≤ fuel
          rw [hrest]
          rw [hcons, List.length_cons] at hfuel
          omega)
        refine ⟨h1, hframe.trans h2, h3.trans ?_, h4⟩
        show (c.eraseEntry e).entries <:+ c.entries
        rw [hrest, hcons]
        exact List.suffix_cons e rest
      · refine ⟨h, Frame.refl c, List.suffix_refl _, fun e' rest' hcons' => ?_⟩
        rw [hcons] at hcons'
        cases hcons'
        simpa using hmore

theorem Consistent.mem_erase_front (hcount : Counts count) (h : c.Consistent) (fuel : Nat) (he : e ∈ c.entries)
    (hstays : ∀ c' : TransactionProofCache P H, Frame c c' → more c' e = false) :
    e ∈ (eraseWhile more count fuel c).entries := by
  induction fuel generalizing c with
  | zero => exact he
  | succ fuel ih =>
    unfold eraseWhile
    split
    · exact he
    · rename_i x rest hcons
      split_ifs with hmore
      · have hx : x ∈ c.entries := by rw [hcons]; exact List.mem_cons_self
        have hframe : Frame c { c.eraseEntry x with stats := count (c.eraseEntry x).stats } :=
          ⟨rfl, rfl, rfl, rfl, rfl, rfl, rfl, rfl, hcount.epoch _, hcount.ready _⟩
        refine ih ((h.eraseEntry hx).setStats _ (hcount.bytes _) (hcount.epoch _)) ?_ fun c' hc' =>
          hstays c' (hframe.trans hc')
        refine mem_eraseEntry.mpr ⟨he, fun heq => ?_⟩
        rw [h.eq_of_sequence he hx heq] at hstays
        rw [hstays c (Frame.refl c)] at hmore
        cases hmore
      · exact he

theorem counts_expired : Counts fun s => { s with expired := s.expired + 1 } :=
  ⟨fun _ => rfl, fun _ => rfl, fun _ => rfl⟩

theorem counts_evicted : Counts fun s => { s with evicted := s.evicted + 1 } :=
  ⟨fun _ => rfl, fun _ => rfl, fun _ => rfl⟩

theorem Consistent.expire_front (h : c.Consistent) :
    c.expire.Consistent ∧ Frame c c.expire ∧ c.expire.entries <:+ c.entries ∧
      ∀ e rest, c.expire.entries = e :: rest → decide (e.expires ≤ c.expire.now) = false :=
  h.erase_front counts_expired c.entries.length (le_refl _)

theorem Consistent.expire (h : c.Consistent) : c.expire.Consistent ∧ Frame c c.expire :=
  ⟨h.expire_front.1, h.expire_front.2.1⟩

/-- Entries expire in the order of the map, so the front loop finds every expired one. -/
theorem Consistent.expire_fresh (h : c.Consistent) : ∀ e ∈ c.expire.entries, c.now < e.expires := by
  obtain ⟨hcons, hframe, -, hstop⟩ := h.expire_front
  intro e he
  cases hlist : c.expire.entries with
  | nil =>
    rw [hlist] at he
    cases he
  | cons x rest =>
    have hx := hstop x rest hlist
    simp only [decide_eq_false_iff_not, not_le, hframe.now] at hx
    have hexp := hcons.expiry
    rw [hlist] at hexp he
    rcases List.mem_cons.mp he with rfl | he
    · exact hx
    · exact lt_of_lt_of_le hx ((List.pairwise_cons.mp hexp).1 e he)

theorem Consistent.mem_expire (h : c.Consistent) : e ∈ c.expire.entries ↔ e ∈ c.entries ∧ c.now < e.expires := by
  refine ⟨fun he => ⟨h.expire_front.2.2.1.subset he, h.expire_fresh e he⟩, fun ⟨he, hfresh⟩ => ?_⟩
  refine h.mem_erase_front counts_expired _ he fun c' hframe => ?_
  rw [hframe.now]
  simpa using hfresh

/-! ## Looking up -/

theorem Consistent.entryAt (h : c.Consistent) {id : H} {sequence : Nat} (hid : c.byTxid id = some sequence) :
    ∃ e ∈ c.entries, txid e.proof = id ∧ e.sequence = sequence ∧ c.entryAt sequence = .ok e ∧
      c.eraseSequence sequence = .ok (c.eraseEntry e) := by
  obtain ⟨e, he, hseq, htxid⟩ := (h.byTxid_iff _ _).mp hid
  have hfind : c.entries.find? (·.sequence = sequence) = some e := by
    cases hf : c.entries.find? (·.sequence = sequence) with
    | none =>
      have := List.find?_eq_none.mp hf e he
      simp [hseq] at this
    | some x =>
      have hx := List.find?_some hf
      simp only [decide_eq_true_eq] at hx
      rw [h.eq_of_sequence (List.mem_of_find?_eq_some hf) he (hx.trans hseq.symm)]
  refine ⟨e, he, htxid, hseq, ?_, ?_⟩
  · unfold TransactionProofCache.entryAt
    rw [hfind]
  · unfold eraseSequence
    rw [hfind]

theorem Consistent.matchRequest (h : c.Consistent) (request : TransactionRegenerationRequest H) :
    ∃ result, c.matchRequest request = .ok (result, c.expire) ∧ ∀ e, result = some e →
      e.identity = request.identity ∧ c.now < e.expires ∧ e ∈ c.expire.entries := by
  obtain ⟨hcons, -⟩ := h.expire
  unfold TransactionProofCache.matchRequest
  simp only
  split_ifs with hready
  · exact ⟨none, rfl, by simp⟩
  · cases hid : c.expire.byTxid request.txid with
    | none => exact ⟨none, rfl, by simp⟩
    | some sequence =>
      obtain ⟨e, he, -, -, hat, -⟩ := hcons.entryAt hid
      simp only [hat]
      refine ⟨_, rfl, fun x hx => ?_⟩
      split_ifs at hx with hident
      cases hx
      exact ⟨hident, h.expire_fresh e he, he⟩

theorem Consistent.find (h : c.Consistent) (id : H) (sequence : Option Nat) :
    ∃ result, c.find id sequence = .ok (result, c.expire) ∧ ∀ e, result = some e →
      txid e.proof = id ∧ c.now < e.expires ∧ e ∈ c.expire.entries := by
  obtain ⟨hcons, -⟩ := h.expire
  unfold TransactionProofCache.find
  simp only
  split_ifs with hready
  · exact ⟨none, rfl, by simp⟩
  · cases hid : c.expire.byTxid id with
    | none => exact ⟨none, rfl, by simp⟩
    | some found =>
      obtain ⟨e, he, htxid, -, hat, -⟩ := hcons.entryAt hid
      simp only [hat]
      split_ifs
      · exact ⟨none, rfl, by simp⟩
      · refine ⟨_, rfl, fun x hx => ?_⟩
        cases hx
        exact ⟨htxid, h.expire_fresh e he, he⟩

/-! ## Publishing -/

theorem Consistent.eraseTxid (h : c.Consistent) (id : H) :
    ∃ c', c.eraseTxid id = .ok c' ∧ c'.Consistent ∧ Frame c c' ∧ c'.byTxid id = none := by
  unfold TransactionProofCache.eraseTxid
  cases hid : c.byTxid id with
  | none => exact ⟨c, rfl, h, Frame.refl c, hid⟩
  | some sequence =>
    obtain ⟨e, he, htxid, -, -, herase⟩ := h.entryAt hid
    refine ⟨_, herase, h.eraseEntry he, frame_eraseEntry c e, ?_⟩
    show Function.update c.byTxid (txid e.proof) none id = none
    rw [htxid, Function.update_self]

theorem Consistent.evict_front (h : c.Consistent) (bytes : Nat) :
    (c.evict bytes).Consistent ∧ Frame c (c.evict bytes) ∧ (c.evict bytes).entries <:+ c.entries ∧
      ∀ e rest, (c.evict bytes).entries = e :: rest →
        (decide ((c.evict bytes).entries.length ≥ (c.evict bytes).config.maxEntries) ||
          decide (bytes > sub64 (c.evict bytes).config.maxBytes (c.evict bytes).stats.bytes)) = false :=
  h.erase_front counts_evicted c.entries.length (le_refl _)

theorem Consistent.evict (h : c.Consistent) (bytes : Nat) (hbytes : bytes ≤ c.config.maxBytes)
    (hentries : 0 < c.config.maxEntries) :
    (c.evict bytes).Consistent ∧ Frame c (c.evict bytes) ∧ (c.evict bytes).entries <:+ c.entries ∧
      (c.evict bytes).entries.length < c.config.maxEntries ∧
      (c.evict bytes).stats.bytes + bytes ≤ c.config.maxBytes := by
  obtain ⟨hcons, hframe, hsuffix, hstop⟩ := h.evict_front bytes
  refine ⟨hcons, hframe, hsuffix, ?_⟩
  cases hlist : (c.evict bytes).entries with
  | nil =>
    have hzero : (c.evict bytes).stats.bytes = 0 := by
      rw [hcons.bytes_eq, hlist]
      rfl
    exact ⟨hentries, by rw [hzero]; omega⟩
  | cons x rest =>
    have hx := hstop x rest hlist
    have hle := hcons.bytes_le
    rw [hframe.config] at hx hle
    simp only [ge_iff_le, gt_iff_lt, Bool.or_eq_false_iff, decide_eq_false_iff_not, not_le, not_lt, sub64, if_pos hle] at hx
    rw [← hlist]
    exact ⟨hx.1, by omega⟩

omit [DecidableEq H] in
theorem Consistent.elapse (h : c.Consistent) (delay : Nat) : (c.elapse delay).Consistent :=
  ⟨h.sequences, h.sequence_le, h.byTxid_iff, h.bytes_eq, h.bytes_le, h.length_le, h.anchored, h.expiry, fun e he => by
    have := h.expires_le e he
    show e.expires ≤ c.now + delay + c.config.lifetime * 1000000000
    omega⟩

theorem Consistent.append (h : c.Consistent) {point : ChainPoint H} {proof : P} {bytes : Nat} {digest : H}
    (hpoint : c.point = some point) (hnew : c.byTxid (txid proof) = none) (hroom : c.entries.length < c.config.maxEntries)
    (hbytes : c.stats.bytes + bytes ≤ c.config.maxBytes) : (c.append point proof bytes digest).Consistent := by
  have hfresh : ∀ x ∈ c.entries, txid x.proof ≠ txid proof := by
    intro x hx heq
    have := (h.byTxid_iff _ _).mpr ⟨x, hx, rfl, heq⟩
    rw [hnew] at this
    cases this
  unfold TransactionProofCache.append
  simp only [hnew, Option.isSome_none, Bool.false_eq_true, if_false]
  refine ⟨?_, ?_, ?_, ?_, hbytes, ?_, ?_, ?_, ?_⟩
  · rw [List.pairwise_append]
    refine ⟨h.sequences, List.pairwise_singleton _ _, fun x hx y hy => ?_⟩
    rw [List.mem_singleton] at hy
    rw [hy]
    exact Nat.lt_succ_of_le (h.sequence_le x hx)
  · intro x hx
    rcases List.mem_append.mp hx with hx | hx
    · exact Nat.le_succ_of_le (h.sequence_le x hx)
    · rw [List.mem_singleton] at hx
      rw [hx]
  · intro id seq
    simp only [List.mem_append, List.mem_singleton]
    by_cases hid : id = txid proof
    · subst hid
      rw [Function.update_self]
      constructor
      · intro hs
        exact ⟨_, Or.inr rfl, Option.some.inj hs, rfl⟩
      · rintro ⟨x, hx | rfl, hseq, hid⟩
        · exact absurd hid (hfresh x hx)
        · rw [← hseq]
    · rw [Function.update_of_ne hid, h.byTxid_iff]
      constructor
      · rintro ⟨x, hx, hrest⟩
        exact ⟨x, Or.inl hx, hrest⟩
      · rintro ⟨x, hx | rfl, hseq, htxid⟩
        · exact ⟨x, hx, hseq, htxid⟩
        · exact absurd htxid.symm hid
  · simp [h.bytes_eq]
  · rw [List.length_append, List.length_singleton]
    exact hroom
  · intro x hx
    rcases List.mem_append.mp hx with hx | hx
    · exact h.anchored x hx
    · rw [List.mem_singleton] at hx
      rw [hx]
      exact ⟨hpoint, rfl⟩
  · rw [List.pairwise_append]
    refine ⟨h.expiry, List.pairwise_singleton _ _, fun x hx y hy => ?_⟩
    rw [List.mem_singleton] at hy
    rw [hy]
    exact h.expires_le x hx
  · intro x hx
    rcases List.mem_append.mp hx with hx | hx
    · exact h.expires_le x hx
    · rw [List.mem_singleton] at hx
      rw [hx]

theorem Consistent.publish (h : c.Consistent) (hentries : 0 < c.config.maxEntries) (point : ChainPoint H) (proof : P)
    (delay : Nat) :
    ∃ result c', c.publish point proof delay = .ok (result, c') ∧ c'.Consistent ∧ c'.config = c.config ∧
      c'.jobs = c.jobs ∧ c'.nextJob = c.nextJob ∧ c'.regeneration = c.regeneration ∧ c'.pending = c.pending ∧
      c'.stats.epoch = c.stats.epoch := by
  unfold TransactionProofCache.publish
  cases hdigest : digest proof with
  | error message => exact ⟨_, _, rfl, h, rfl, rfl, rfl, rfl, rfl, rfl⟩
  | ok value =>
    simp only
    obtain ⟨hexp, fexp⟩ := h.expire
    split_ifs with hanchor hbytes
    · exact ⟨_, _, rfl, h, rfl, rfl, rfl, rfl, rfl, rfl⟩
    · exact ⟨_, _, rfl, hexp.setStats _ rfl rfl, fexp.config, fexp.jobs, fexp.nextJob, fexp.regeneration, fexp.pending,
        fexp.epoch⟩
    · obtain ⟨c1, herase, h1, f1, hnone⟩ := hexp.eraseTxid (txid proof)
      have hconfig := f1.config.trans fexp.config
      obtain ⟨h2, f2, hsuffix, hroom, hfit⟩ := h1.evict (memoryUsage proof + entrySize P + 256)
        (by rw [f1.config]; omega) (by rw [hconfig]; exact hentries)
      have hpoint : c.point = some point := by
        rw [not_or, not_not] at hanchor
        exact hanchor.2
      have hnew : (c1.evict (memoryUsage proof + entrySize P + 256)).byTxid (txid proof) = none := by
        rw [Option.eq_none_iff_forall_ne_some]
        intro seq hseq
        obtain ⟨x, hx, -, hid⟩ := (h2.byTxid_iff _ _).mp hseq
        have := (h1.byTxid_iff _ _).mpr ⟨x, hsuffix.subset hx, rfl, hid⟩
        rw [hnone] at this
        cases this
      simp only [herase]
      refine ⟨_, _, rfl, (h2.elapse delay).append ?_ hnew (by rw [← f2.config] at hroom; exact hroom)
        (by rw [← f2.config] at hfit; exact hfit), ?_, ?_, ?_, ?_, ?_, ?_⟩
      · exact f2.point.trans (f1.point.trans (fexp.point.trans hpoint))
      · exact f2.config.trans hconfig
      · exact f2.jobs.trans (f1.jobs.trans fexp.jobs)
      · exact f2.nextJob.trans (f1.nextJob.trans fexp.nextJob)
      · exact f2.regeneration.trans (f1.regeneration.trans fexp.regeneration)
      · exact f2.pending.trans (f1.pending.trans fexp.pending)
      · exact f2.epoch.trans (f1.epoch.trans fexp.epoch)

/-! ## The anchor -/

omit [DecidableEq H] in
theorem consistent_of_no_entries (h : c.entries = []) (hmap : c.byTxid = fun _ => none) (hbytes : c.stats.bytes = 0) :
    c.Consistent := by
  refine ⟨by rw [h]; exact List.Pairwise.nil, by simp [h], ?_, by rw [hbytes, h]; rfl, by rw [hbytes]; exact Nat.zero_le _,
    by rw [h]; exact Nat.zero_le _, by simp [h], by rw [h]; exact List.Pairwise.nil, by simp [h]⟩
  intro id seq
  simp [h, hmap]

omit [DecidableEq H] in
theorem consistent_clear (c : TransactionProofCache P H) : c.clear.Consistent := consistent_of_no_entries rfl rfl rfl

theorem Consistent.activate (h : c.Consistent) (point : ChainPoint H) : (c.activate point).Consistent := by
  unfold TransactionProofCache.activate
  cases hpoint : c.point with
  | none =>
    -- without a point there are no entries to keep
    have hnil : c.entries = [] := by
      rw [List.eq_nil_iff_forall_not_mem]
      intro e he
      have := (h.anchored e he).1
      rw [hpoint] at this
      cases this
    refine consistent_of_no_entries hnil ?_ ?_
    · funext id
      rw [Option.eq_none_iff_forall_ne_some]
      intro seq hseq
      obtain ⟨x, hx, -⟩ := (h.byTxid_iff _ _).mp hseq
      rw [hnil] at hx
      cases hx
    · show c.stats.bytes = 0
      rw [h.bytes_eq, hnil]
      rfl
  | some old =>
    simp only [Option.any_some, decide_eq_true_eq]
    by_cases hne : old ≠ point
    · rw [if_pos hne]
      exact consistent_of_no_entries rfl rfl rfl
    · rw [if_neg hne]
      have hold : c.point = some point := by rw [hpoint, not_not.mp hne]
      exact ⟨h.sequences, h.sequence_le, h.byTxid_iff, h.bytes_eq, h.bytes_le, h.length_le,
        fun e he => ⟨hold ▸ (h.anchored e he).1, (h.anchored e he).2⟩, h.expiry, h.expires_le⟩

end UtreexoBridge.TransactionProofCache
