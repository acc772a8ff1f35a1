import Mathlib.Data.List.Nodup
import UtreexoBridge.TxCache.Entries

/-!
# Regeneration jobs

A job is shared by the `WaitFor` calls that wait for its request. It leaves the
map with its last waiter, with its completion or with the epoch, whichever is
first, so the queue, the map and the waiters are kept in step by every call.
-/

namespace UtreexoBridge.TransactionProofCache

variable {P H : Type} {c c' : TransactionProofCache P H} {waiters waiters' : List (Waiter H)} {j : Nat}
  {job job' : Regeneration P H} {request : TransactionRegenerationRequest H}

/-- The `WaitFor` calls that hold a job. -/
def waitersOn (waiters : List (Waiter H)) (j : Nat) : Nat := waiters.countP (·.job = j)

/-- A job that is still in the queue. -/
def Queued (c : TransactionProofCache P H) (request : TransactionRegenerationRequest H) : Prop :=
  ∃ j ∈ c.regeneration, ∃ job, c.jobs j = some job ∧ job.request = request ∧ job.running = false ∧ job.done = false

/-- What holds between two calls of the jobs, the map, the queue and the waiting calls. -/
structure Jobs (c : TransactionProofCache P H) (waiters : List (Waiter H)) : Prop where
  nodup : c.regeneration.Nodup
  known : ∀ j ∈ c.regeneration, ∃ job, c.jobs j = some job ∧ job.request.identity.epoch = c.stats.epoch
  fresh : ∀ j, c.nextJob ≤ j → c.jobs j = none
  distinct : ∀ i ∈ c.regeneration, ∀ j ∈ c.regeneration, ∀ a b, c.jobs i = some a → c.jobs j = some b →
    a.request = b.request → i = j
  pending_nodup : c.pending.Nodup
  mem_pending : ∀ request, request ∈ c.pending ↔ c.Queued request
  counted : ∀ j job, c.jobs j = some job → job.waiters = waitersOn waiters j
  /-- Only a running job outlives its waiters. -/
  idle : ∀ j ∈ c.regeneration, ∀ job, c.jobs j = some job → job.waiters = 0 → job.running = true ∧ job.done = false
  waiting : ∀ w ∈ waiters, ∃ job, c.jobs w.job = some job ∧ job.request = w.request
  result : ∀ j job e, c.jobs j = some job → job.result = some e → e.identity = job.request.identity
  size : c.regeneration.length ≤ c.config.maxRegenerations

theorem Jobs.frame (h : Jobs c waiters) (hconfig : c'.config = c.config) (hjobs : c'.jobs = c.jobs)
    (hnext : c'.nextJob = c.nextJob) (hreg : c'.regeneration = c.regeneration) (hpending : c'.pending = c.pending)
    (hepoch : c'.stats.epoch = c.stats.epoch) : Jobs c' waiters := by
  have hqueued : ∀ r, c'.Queued r ↔ c.Queued r := by
    intro r
    unfold Queued
    rw [hjobs, hreg]
  refine ⟨?_, ?_, ?_, ?_, ?_, ?_, ?_, ?_, ?_, ?_, ?_⟩
  · rw [hreg]
    exact h.nodup
  · rw [hreg, hjobs, hepoch]
    exact h.known
  · rw [hnext, hjobs]
    exact h.fresh
  · rw [hreg, hjobs]
    exact h.distinct
  · rw [hpending]
    exact h.pending_nodup
  · intro r
    rw [hpending, hqueued]
    exact h.mem_pending r
  · rw [hjobs]
    exact h.counted
  · rw [hreg, hjobs]
    exact h.idle
  · rw [hjobs]
    exact h.waiting
  · rw [hjobs]
    exact h.result
  · rw [hreg, hconfig]
    exact h.size

theorem Jobs.of_frame (h : Jobs c waiters) (hframe : Frame c c') : Jobs c' waiters :=
  h.frame hframe.config hframe.jobs hframe.nextJob hframe.regeneration hframe.pending hframe.epoch

theorem jobs_new (hjobs : c.jobs = fun _ => none) (hreg : c.regeneration = []) (hpending : c.pending = []) :
    Jobs c [] := by
  refine ⟨by simp [hreg], by simp [hreg], by simp [hjobs], by simp [hreg], by simp [hpending], ?_, by simp [hjobs],
    by simp [hreg], by simp, by simp [hjobs], by simp [hreg]⟩
  simp [hpending, Queued, hreg]

/-- `Clear` completes every job of the map without a result; the waiters still hold them. -/
theorem Jobs.clear (h : Jobs c waiters) : Jobs c.clear waiters := by
  have hjob : ∀ j job, c.clear.jobs j = some job → ∃ old, c.jobs j = some old ∧ job.request = old.request ∧
      job.waiters = old.waiters ∧ ∀ e, job.result = some e → old.result = some e := by
    intro j job hj
    simp only [TransactionProofCache.clear] at hj
    split_ifs at hj with hmem
    · obtain ⟨old, hold, rfl⟩ := Option.map_eq_some_iff.mp hj
      exact ⟨old, hold, rfl, rfl, by simp⟩
    · exact ⟨job, hj, rfl, rfl, fun e he => he⟩
  refine ⟨List.nodup_nil, by simp [TransactionProofCache.clear], ?_, by simp [TransactionProofCache.clear],
    List.nodup_nil, by simp [TransactionProofCache.clear, Queued], ?_, by simp [TransactionProofCache.clear], ?_, ?_,
    Nat.zero_le _⟩
  · intro j hj
    simp only [TransactionProofCache.clear]
    rw [h.fresh j hj]
    simp
  · intro j job hj
    obtain ⟨old, hold, -, hw, -⟩ := hjob j job hj
    rw [hw]
    exact h.counted j old hold
  · intro w hw
    obtain ⟨old, hold, hreq⟩ := h.waiting w hw
    simp only [TransactionProofCache.clear, hold, Option.map_some]
    split_ifs
    · exact ⟨_, rfl, hreq⟩
    · exact ⟨_, rfl, hreq⟩
  · intro j job e hj he
    obtain ⟨old, hold, hreq, -, hres⟩ := hjob j job hj
    rw [hreq]
    exact h.result j old e hold (hres e he)

/-! ## Finding a job -/

variable [DecidableEq H]

theorem findJob_eq_some (h : Jobs c waiters) :
    c.findJob request = some j ↔ j ∈ c.regeneration ∧ ∃ job, c.jobs j = some job ∧ job.request = request := by
  constructor
  · intro hfind
    have hsome := List.find?_some hfind
    simp only [Option.any_eq_true, decide_eq_true_eq] at hsome
    exact ⟨List.mem_of_find?_eq_some hfind, hsome⟩
  · rintro ⟨hj, job, hjob, hreq⟩
    cases hfind : c.findJob request with
    | none =>
      have := List.find?_eq_none.mp hfind j hj
      simp [hjob, hreq] at this
    | some i =>
      have hsome := List.find?_some hfind
      simp only [Option.any_eq_true, decide_eq_true_eq] at hsome
      obtain ⟨a, ha, hareq⟩ := hsome
      rw [h.distinct i (List.mem_of_find?_eq_some hfind) j hj a job ha hjob (hareq.trans hreq.symm)]

theorem findJob_setJob (h : Jobs c waiters) (hjob : c.jobs j = some job) (hold : job.request = request)
    (job' : Regeneration P H) (hreq : job'.request = request) : (c.setJob j job').findJob request = some j ↔ j ∈ c.regeneration := by
  have hsame : (c.setJob j job').findJob request = c.findJob request := by
    unfold findJob setJob
    congr 1
    funext i
    show (Function.update c.jobs j (some job') i).any _ = (c.jobs i).any _
    rcases eq_or_ne i j with rfl | hne
    · rw [Function.update_self, hjob, Option.any_some, Option.any_some, hreq, hold]
    · rw [Function.update_of_ne hne]
  rw [hsame, findJob_eq_some h]
  exact ⟨fun hj => hj.1, fun hj => ⟨hj, job, hjob, hold⟩⟩

theorem Jobs.lookup (h : Jobs c waiters) (request : TransactionRegenerationRequest H) :
    ((c.findJob request).bind (fun j => (c.jobs j).map fun job => (j, job)) = none ∧
        ∀ j ∈ c.regeneration, ∀ job, c.jobs j = some job → job.request ≠ request) ∨
      ∃ j ∈ c.regeneration, ∃ job, c.jobs j = some job ∧ job.request = request ∧
        (c.findJob request).bind (fun j => (c.jobs j).map fun job => (j, job)) = some (j, job) := by
  cases hfind : c.findJob request with
  | none =>
    refine Or.inl ⟨rfl, fun j hj job hjob hreq => ?_⟩
    rw [(findJob_eq_some h).mpr ⟨hj, job, hjob, hreq⟩] at hfind
    cases hfind
  | some j =>
    obtain ⟨hj, job, hjob, hreq⟩ := (findJob_eq_some h).mp hfind
    exact Or.inr ⟨j, hj, job, hjob, hreq, by simp [hjob]⟩

/-! ## Changing one job -/

omit [DecidableEq H] in
/-- One job changes, and may leave the map; the queue must hold its request exactly as long as it waits there. -/
theorem Jobs.update (h : Jobs c waiters) (hjob : c.jobs j = some job) (job' : Regeneration P H) (keep : Bool) (hconfig : c'.config = c.config)
    (hjobs : c'.jobs = Function.update c.jobs j (some job')) (hnext : c'.nextJob = c.nextJob)
    (hreg : c'.regeneration = if keep then c.regeneration else c.regeneration.erase j)
    (hepoch : c'.stats.epoch = c.stats.epoch) (hrequest : job'.request = job.request)
    (hnodup : c'.pending.Nodup)
    (hpending : ∀ r, r ∈ c'.pending ↔ (r ∈ c.pending ∧ (j ∈ c.regeneration → r ≠ job.request)) ∨
      (r = job.request ∧ keep = true ∧ j ∈ c.regeneration ∧ job'.running = false ∧ job'.done = false))
    (hcount : ∀ i, waitersOn waiters' i = if i = j then job'.waiters else waitersOn waiters i)
    (hidle : keep = true → j ∈ c.regeneration → job'.waiters = 0 → job'.running = true ∧ job'.done = false)
    (hwaiting : ∀ w ∈ waiters', ∃ old, c.jobs w.job = some old ∧ old.request = w.request)
    (hresult : ∀ e, job'.result = some e → e.identity = job.request.identity) : Jobs c' waiters' := by
  have hmem : ∀ i, i ∈ c'.regeneration ↔ i ∈ c.regeneration ∧ (i = j → keep = true) := by
    intro i
    rw [hreg]
    cases keep with
    | true => simp
    | false => simp [h.nodup.mem_erase_iff, and_comm]
  -- every job of the new state comes from one of the old with the same request
  have hold : ∀ i a, c'.jobs i = some a → ∃ b, c.jobs i = some b ∧ a.request = b.request ∧
      (i = j ∧ a = job' ∧ b = job ∨ i ≠ j ∧ a = b) := by
    intro i a ha
    rw [hjobs] at ha
    rcases eq_or_ne i j with rfl | hne
    · rw [Function.update_self] at ha
      cases ha
      exact ⟨job, hjob, hrequest, Or.inl ⟨rfl, rfl, rfl⟩⟩
    · rw [Function.update_of_ne hne] at ha
      exact ⟨a, ha, rfl, Or.inr ⟨hne, rfl⟩⟩
  have hnew : ∀ i b, c.jobs i = some b → ∃ a, c'.jobs i = some a ∧ a.request = b.request := by
    intro i b hb
    rw [hjobs]
    rcases eq_or_ne i j with rfl | hne
    · rw [hjob] at hb
      cases hb
      exact ⟨job', Function.update_self .., hrequest⟩
    · exact ⟨b, by rw [Function.update_of_ne hne]; exact hb, rfl⟩
  refine ⟨?_, ?_, ?_, ?_, hnodup, ?_, ?_, ?_, ?_, ?_, ?_⟩
  · rw [hreg]
    split_ifs
    · exact h.nodup
    · exact h.nodup.erase j
  · intro i hi
    obtain ⟨b, hb, hep⟩ := h.known i ((hmem i).mp hi).1
    obtain ⟨a, ha, hreq⟩ := hnew i b hb
    exact ⟨a, ha, by rw [hreq, hep, hepoch]⟩
  · intro i hi
    rw [hnext] at hi
    rw [hjobs, Function.update_of_ne, h.fresh i hi]
    rintro rfl
    rw [h.fresh i hi] at hjob
    cases hjob
  · intro i hi k hk a b ha hb hab
    obtain ⟨a0, ha0, hra, -⟩ := hold i a ha
    obtain ⟨b0, hb0, hrb, -⟩ := hold k b hb
    exact h.distinct i ((hmem i).mp hi).1 k ((hmem k).mp hk).1 a0 b0 ha0 hb0 (by rw [← hra, ← hrb, hab])
  · intro r
    rw [hpending]
    constructor
    · rintro (⟨hr, hne⟩ | ⟨rfl, hkeep, hj, hrun, hdone⟩)
      · obtain ⟨i, hi, b, hb, rfl, hrun, hdone⟩ := (h.mem_pending r).mp hr
        have hij : i ≠ j := by
          rintro rfl
          rw [hjob] at hb
          cases hb
          exact hne hi rfl
        exact ⟨i, (hmem i).mpr ⟨hi, fun h => absurd h hij⟩, b, by rw [hjobs, Function.update_of_ne hij]; exact hb, rfl,
          hrun, hdone⟩
      · exact ⟨j, (hmem j).mpr ⟨hj, fun _ => hkeep⟩, job', by rw [hjobs, Function.update_self], hrequest, hrun, hdone⟩
    · rintro ⟨i, hi, a, ha, rfl, hrun, hdone⟩
      obtain ⟨hi, hkeep⟩ := (hmem i).mp hi
      obtain ⟨b, hb, hreq, ⟨rfl, rfl, rfl⟩ | ⟨hne, rfl⟩⟩ := hold i a ha
      · exact Or.inr ⟨hreq, hkeep rfl, hi, hrun, hdone⟩
      · refine Or.inl ⟨(h.mem_pending _).mpr ⟨i, hi, a, hb, rfl, hrun, hdone⟩, fun hj heq => hne ?_⟩
        exact h.distinct i hi j hj a job hb hjob heq
  · intro i a ha
    obtain ⟨b, hb, -, ⟨rfl, rfl, rfl⟩ | ⟨hne, rfl⟩⟩ := hold i a ha
    · rw [hcount, if_pos rfl]
    · rw [hcount, if_neg hne]
      exact h.counted i a hb
  · intro i hi a ha hzero
    obtain ⟨hi, hkeep⟩ := (hmem i).mp hi
    obtain ⟨b, hb, -, ⟨rfl, rfl, rfl⟩ | ⟨hne, rfl⟩⟩ := hold i a ha
    · exact hidle (hkeep rfl) hi hzero
    · exact h.idle i hi a hb hzero
  · intro w hw
    obtain ⟨b, hb, hreq⟩ := hwaiting w hw
    obtain ⟨a, ha, hra⟩ := hnew w.job b hb
    exact ⟨a, ha, hra.trans hreq⟩
  · intro i a e ha he
    obtain ⟨b, hb, hreq, ⟨rfl, rfl, rfl⟩ | ⟨hne, rfl⟩⟩ := hold i a ha
    · rw [hreq]
      exact hresult e he
    · exact h.result i a e hb he
  · rw [hconfig, hreg]
    split_ifs
    · exact h.size
    · exact le_trans List.length_erase_le h.size

omit [DecidableEq H] in
theorem Jobs.mem_pending_split (h : Jobs c waiters) (hjob : c.jobs j = some job) (r : TransactionRegenerationRequest H) :
    r ∈ c.pending ↔ (r ∈ c.pending ∧ (j ∈ c.regeneration → r ≠ job.request)) ∨
      (r = job.request ∧ true = true ∧ j ∈ c.regeneration ∧ job.running = false ∧ job.done = false) := by
  constructor
  · intro hr
    by_cases hj : j ∈ c.regeneration ∧ r = job.request
    · obtain ⟨i, hi, b, hb, hreq, hrun, hdone⟩ := (h.mem_pending r).mp hr
      obtain rfl := h.distinct i hi j hj.1 b job hb hjob (hreq.trans hj.2)
      rw [hjob] at hb
      cases hb
      exact Or.inr ⟨hj.2, rfl, hj.1, hrun, hdone⟩
    · exact Or.inl ⟨hr, fun hmem heq => hj ⟨hmem, heq⟩⟩
  · rintro (⟨hr, -⟩ | ⟨rfl, -, hj, hrun, hdone⟩)
    · exact hr
    · exact (h.mem_pending _).mpr ⟨j, hj, job, hjob, rfl, hrun, hdone⟩

omit [DecidableEq H] in
theorem Jobs.not_pending (h : Jobs c waiters) (hj : j ∈ c.regeneration) (hjob : c.jobs j = some job)
    (hbusy : job.running = true ∨ job.done = true) : job.request ∉ c.pending := by
  intro hr
  obtain ⟨i, hi, b, hb, hreq, hrun, hdone⟩ := (h.mem_pending _).mp hr
  obtain rfl := h.distinct i hi j hj b job hb hjob hreq
  rw [hjob] at hb
  cases hb
  rcases hbusy with hbusy | hbusy
  · rw [hbusy] at hrun
    cases hrun
  · rw [hbusy] at hdone
    cases hdone

/-! ## The calls -/

omit [DecidableEq H] in
theorem waitersOn_append (waiters : List (Waiter H)) (w : Waiter H) (i : Nat) :
    waitersOn (waiters ++ [w]) i = if i = w.job then waitersOn waiters w.job + 1 else waitersOn waiters i := by
  unfold waitersOn
  rw [List.countP_append]
  split_ifs with hi
  · subst hi
    simp
  · simp [Ne.symm hi]

theorem waitersOn_erase {w : Waiter H} (hw : w ∈ waiters) (i : Nat) :
    waitersOn (waiters.erase w) i = if i = w.job then waitersOn waiters w.job - 1 else waitersOn waiters i := by
  unfold waitersOn
  have hperm := (List.perm_cons_erase hw).countP_eq
  split_ifs with hi
  · subst hi
    simp [hperm (fun x => decide (x.job = w.job))]
  · simp [hperm (fun x => decide (x.job = i)), Ne.symm hi]

/-- The queue's front always has its job, so `at` finds it. -/
theorem Jobs.takeRegeneration (h : Jobs c waiters) :
    ∃ result c', c.takeRegeneration = .ok (result, c') ∧ Jobs c' waiters ∧ c'.config = c.config ∧
      c'.entries = c.entries ∧ c'.byTxid = c.byTxid ∧ c'.point = c.point ∧ c'.now = c.now ∧
      c'.sequence = c.sequence ∧ c'.stats = c.stats := by
  unfold TransactionProofCache.takeRegeneration
  cases hpending : c.pending with
  | nil => exact ⟨none, c, rfl, h, rfl, rfl, rfl, rfl, rfl, rfl, rfl⟩
  | cons request rest =>
    have hfront : request ∈ c.pending := by rw [hpending]; exact List.mem_cons_self
    obtain ⟨hnot, hnodup⟩ := List.nodup_cons.mp (hpending ▸ h.pending_nodup)
    rcases h.lookup request with ⟨-, hno⟩ | ⟨j, hj, job, hjob, hreq, hlookup⟩
    · obtain ⟨j, hj, job, hjob, hreq, -⟩ := (h.mem_pending request).mp hfront
      exact absurd hreq (hno j hj job hjob)
    · have hfind : (TransactionProofCache.findJob { c with pending := rest } request).bind
          (fun j => (c.jobs j).map fun job => (j, job)) = some (j, job) := hlookup
      simp only [hfind]
      refine ⟨_, _, rfl, ?_, rfl, rfl, rfl, rfl, rfl, rfl, rfl⟩
      refine h.update hjob _ true rfl rfl rfl rfl rfl rfl hnodup (fun r => ?_) (fun i => ?_) ?_ h.waiting ?_
      · show r ∈ rest ↔ _
        rw [hpending, List.mem_cons, hreq]
        constructor
        · intro hr
          exact Or.inl ⟨Or.inr hr, fun _ heq => hnot (heq ▸ hr)⟩
        · rintro (⟨rfl | hr, hne⟩ | ⟨-, -, -, hrun, -⟩)
          · exact absurd rfl (hne hj)
          · exact hr
          · cases hrun
      · split_ifs with hi
        · rw [hi]
          exact (h.counted j job hjob).symm
        · rfl
      · intro _ hmem hzero
        exact ⟨rfl, (h.idle j hmem job hjob hzero).2⟩
      · exact fun e he => h.result j job e hjob he

omit [DecidableEq H] in
theorem Jobs.join (h : Jobs c waiters) (hjob : c.jobs j = some job) (deadline : Nat)
    (stats : TransactionCacheStats) (hepoch : stats.epoch = c.stats.epoch) :
    Jobs { c.setJob j { job with waiters := job.waiters + 1 } with stats } (waiters ++ [⟨job.request, j, deadline⟩]) := by
  refine h.update hjob _ true rfl rfl rfl rfl hepoch rfl h.pending_nodup (h.mem_pending_split hjob) (fun i => ?_) ?_ ?_
    (fun e he => h.result j job e hjob he)
  · rw [waitersOn_append, h.counted j job hjob]
  · intro _ _ hzero
    cases hzero
  · intro w hw
    rcases List.mem_append.mp hw with hw | hw
    · exact h.waiting w hw
    · rw [List.mem_singleton] at hw
      rw [hw]
      exact ⟨job, hjob, rfl⟩

omit [DecidableEq H] in
theorem Jobs.enqueue (h : Jobs c waiters)
    (hnone : ∀ j ∈ c.regeneration, ∀ job, c.jobs j = some job → job.request ≠ request) (deadline : Nat)
    (hepoch : request.identity.epoch = c.stats.epoch) (hsize : c.regeneration.length < c.config.maxRegenerations)
    (stats : TransactionCacheStats) (hstats : stats.epoch = c.stats.epoch) :
    Jobs { c.setJob c.nextJob ⟨request, 1, false, false, none⟩ with
      stats, nextJob := c.nextJob + 1, regeneration := c.regeneration ++ [c.nextJob], pending := c.pending ++ [request] }
      (waiters ++ [⟨request, c.nextJob, deadline⟩]) := by
  have hlt : ∀ j job, c.jobs j = some job → j ≠ c.nextJob := by
    rintro j job hjob rfl
    rw [h.fresh c.nextJob (le_refl _)] at hjob
    cases hjob
  have hnew : c.nextJob ∉ c.regeneration := by
    intro hmem
    obtain ⟨job, hjob, -⟩ := h.known _ hmem
    exact hlt _ job hjob rfl
  have hfree : waitersOn waiters c.nextJob = 0 := by
    unfold waitersOn
    rw [List.countP_eq_zero]
    intro w hw
    obtain ⟨job, hjob, -⟩ := h.waiting w hw
    simpa using hlt _ job hjob
  have hcases : ∀ i a, Function.update c.jobs c.nextJob (some ⟨request, 1, false, false, none⟩) i = some a →
      (i = c.nextJob ∧ a = ⟨request, 1, false, false, none⟩) ∨ (i ≠ c.nextJob ∧ c.jobs i = some a) := by
    intro i a ha
    rcases eq_or_ne i c.nextJob with rfl | hne
    · rw [Function.update_self] at ha
      cases ha
      exact Or.inl ⟨rfl, rfl⟩
    · rw [Function.update_of_ne hne] at ha
      exact Or.inr ⟨hne, ha⟩
  have hstays : ∀ i a, c.jobs i = some a →
      Function.update c.jobs c.nextJob (some ⟨request, 1, false, false, none⟩) i = some a := by
    intro i a ha
    rw [Function.update_of_ne (hlt i a ha)]
    exact ha
  have hreg : ∀ i, i ∈ c.regeneration ++ [c.nextJob] ↔ i ∈ c.regeneration ∨ i = c.nextJob := by
    intro i
    rw [List.mem_append, List.mem_singleton]
  have hpending : request ∉ c.pending := by
    intro hr
    obtain ⟨j, hj, job, hjob, hreq, -⟩ := (h.mem_pending request).mp hr
    exact hnone j hj job hjob hreq
  refine ⟨?_, ?_, ?_, ?_, ?_, ?_, ?_, ?_, ?_, ?_, ?_⟩
  · exact List.Nodup.append h.nodup (List.nodup_singleton _) (by simpa using hnew)
  · intro i hi
    rcases (hreg i).mp hi with hi | rfl
    · obtain ⟨job, hjob, hep⟩ := h.known i hi
      exact ⟨job, hstays i job hjob, hep.trans hstats.symm⟩
    · exact ⟨_, Function.update_self .., hepoch.trans hstats.symm⟩
  · intro i hi
    have hne : i ≠ c.nextJob := by
      rintro rfl
      exact absurd hi (Nat.not_succ_le_self _)
    show Function.update c.jobs c.nextJob _ i = none
    rw [Function.update_of_ne hne]
    exact h.fresh i (le_trans (Nat.le_succ _) hi)
  · intro i hi k hk a b ha hb hab
    -- the new request is not in the old map
    rcases hcases i a ha with ⟨rfl, rfl⟩ | ⟨hi', ha'⟩ <;> rcases hcases k b hb with ⟨rfl, rfl⟩ | ⟨hk', hb'⟩
    · rfl
    · exact absurd hab.symm (hnone k (((hreg k).mp hk).resolve_right hk') b hb')
    · exact absurd hab (hnone i (((hreg i).mp hi).resolve_right hi') a ha')
    · exact h.distinct i (((hreg i).mp hi).resolve_right hi') k (((hreg k).mp hk).resolve_right hk') a b ha' hb' hab
  · exact List.Nodup.append h.pending_nodup (List.nodup_singleton _) (by simpa using hpending)
  · intro r
    show r ∈ c.pending ++ [request] ↔ _
    rw [List.mem_append, List.mem_singleton]
    constructor
    · rintro (hr | rfl)
      · obtain ⟨j, hj, job, hjob, hrest⟩ := (h.mem_pending r).mp hr
        exact ⟨j, (hreg j).mpr (Or.inl hj), job, hstays j job hjob, hrest⟩
      · exact ⟨c.nextJob, (hreg _).mpr (Or.inr rfl), _, Function.update_self .., rfl, rfl, rfl⟩
    · rintro ⟨i, hi, a, ha, rfl, hrest⟩
      rcases hcases i a ha with ⟨rfl, rfl⟩ | ⟨hi', ha'⟩
      · exact Or.inr rfl
      · exact Or.inl ((h.mem_pending _).mpr ⟨i, ((hreg i).mp hi).resolve_right hi', a, ha', rfl, hrest⟩)
  · intro i a ha
    rw [waitersOn_append]
    rcases hcases i a ha with ⟨rfl, rfl⟩ | ⟨hne, ha'⟩
    · rw [if_pos rfl, hfree]
    · rw [if_neg hne]
      exact h.counted i a ha'
  · intro i hi a ha hzero
    rcases hcases i a ha with ⟨rfl, rfl⟩ | ⟨hne, ha'⟩
    · cases hzero
    · exact h.idle i (((hreg i).mp hi).resolve_right hne) a ha' hzero
  · intro w hw
    rcases List.mem_append.mp hw with hw | hw
    · obtain ⟨job, hjob, hreq⟩ := h.waiting w hw
      exact ⟨job, hstays _ job hjob, hreq⟩
    · rw [List.mem_singleton] at hw
      rw [hw]
      exact ⟨_, Function.update_self .., rfl⟩
  · intro i a e ha he
    rcases hcases i a ha with ⟨rfl, rfl⟩ | ⟨hne, ha'⟩
    · cases he
    · exact h.result i a e ha' he
  · show (c.regeneration ++ [c.nextJob]).length ≤ c.config.maxRegenerations
    rw [List.length_append, List.length_singleton]
    exact hsize

/-- A `WaitFor` call gives its job back; the last one takes it out of the map unless it runs. -/
theorem Jobs.leave (h : Jobs c waiters) {w : Waiter H} (hw : w ∈ waiters) (hjob : c.jobs w.job = some job) (keep : Bool)
    (hkeep : keep = false ↔ job.waiters - 1 = 0 ∧ (job.running = false ∨ job.done = true) ∧ w.job ∈ c.regeneration) :
    Jobs { c.setJob w.job { job with waiters := job.waiters - 1 } with
      regeneration := if keep then c.regeneration else c.regeneration.erase w.job
      pending := if keep then c.pending else c.pending.filter (· ≠ w.request) } (waiters.erase w) := by
  have hreq : job.request = w.request := by
    obtain ⟨old, hold, hreq⟩ := h.waiting w hw
    rw [hjob] at hold
    cases hold
    exact hreq
  refine h.update hjob { job with waiters := job.waiters - 1 } keep rfl rfl rfl rfl rfl rfl ?_ (fun r => ?_)
    (fun i => ?_) ?_ (fun x hx => h.waiting x (List.mem_of_mem_erase hx)) (fun e he => h.result _ job e hjob he)
  · show (if keep then c.pending else c.pending.filter (· ≠ w.request)).Nodup
    split_ifs
    · exact h.pending_nodup
    · exact h.pending_nodup.filter _
  · show r ∈ (if keep then c.pending else c.pending.filter (· ≠ w.request)) ↔ _
    cases keep with
    | true => exact h.mem_pending_split hjob r
    | false =>
      have hmem := (hkeep.mp rfl).2.2
      simp [hreq, hmem]
  · rw [waitersOn_erase hw, h.counted _ job hjob]
  · intro hk hmem hzero
    have hnot : ¬(job.running = false ∨ job.done = true) := by
      intro hstop
      rw [hkeep.mpr ⟨hzero, hstop, hmem⟩] at hk
      cases hk
    rw [not_or] at hnot
    exact ⟨by simpa using hnot.1, by simpa using hnot.2⟩

variable [PreparedProof P H]

theorem Jobs.completeRegeneration (h : Jobs c waiters) (hcons : c.Consistent)
    (request : TransactionRegenerationRequest H) :
    ∃ result c', c.completeRegeneration request = .ok (result, c') ∧ Jobs c' waiters ∧ c'.Consistent ∧
      c'.config = c.config := by
  unfold TransactionProofCache.completeRegeneration
  rcases h.lookup request with ⟨hnone, -⟩ | ⟨j, hj, job, hjob, hreq, hlookup⟩
  · simp only [hnone]
    exact ⟨_, _, rfl, h, hcons, rfl⟩
  · simp only [hlookup]
    by_cases hbusy : (!job.running) = true ∨ job.done = true
    · rw [if_pos hbusy]
      exact ⟨_, _, rfl, h, hcons, rfl⟩
    · rw [if_neg hbusy]
      obtain ⟨result, hmatch, hresult⟩ := hcons.matchRequest request
      obtain ⟨hexp, hframe⟩ := hcons.expire
      rw [not_or] at hbusy
      have hrunning : job.running = true := by simpa using hbusy.1
      simp only [hmatch]
      refine ⟨_, _, rfl, ?_, ?_, hframe.config⟩
      · refine h.update hjob { job with result, done := true } (decide (job.waiters ≠ 0)) hframe.config ?_
          hframe.nextJob ?_ ?_ rfl ?_ (fun r => ?_) (fun i => ?_) ?_ h.waiting ?_
        · show Function.update c.expire.jobs j _ = _
          rw [hframe.jobs]
        · show (if job.waiters = 0 then c.expire.regeneration.erase j else c.expire.regeneration) = _
          rw [hframe.regeneration]
          by_cases hzero : job.waiters = 0 <;> simp [hzero]
        · show (countResult c.expire.stats _).epoch = _
          rw [← hframe.epoch]
          unfold countResult
          split_ifs <;> rfl
        · show c.expire.pending.Nodup
          rw [hframe.pending]
          exact h.pending_nodup
        · show r ∈ c.expire.pending ↔ _
          rw [hframe.pending]
          constructor
          · intro hr
            exact Or.inl ⟨hr, fun _ heq => h.not_pending hj hjob (Or.inl hrunning) (heq ▸ hr)⟩
          · rintro (⟨hr, -⟩ | ⟨-, -, -, -, hdone⟩)
            · exact hr
            · cases hdone
        · split_ifs with hi
          · rw [hi]
            exact (h.counted j job hjob).symm
          · rfl
        · intro hkeep _ hzero
          exact absurd hzero (by simpa using hkeep)
        · intro e he
          rw [hreq]
          exact (hresult e he).1
      · have hset : Consistent { c.expire with stats := countResult c.expire.stats result.isSome } := by
          refine hexp.setStats _ ?_ ?_
          · unfold countResult
            split_ifs <;> rfl
          · unfold countResult
            split_ifs <;> rfl
        exact hset.of_entries rfl rfl rfl rfl rfl rfl rfl

end UtreexoBridge.TransactionProofCache
