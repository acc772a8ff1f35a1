import UtreexoBridge.P2P.Accounting

/-!
# The peaks of a server (`UpdatePeak`)

A peak is the greatest value that its counter was reported with, up to the
threads that are in `UpdatePeak`.
-/

namespace UtreexoBridge.P2P

open SharedCounters

namespace P2PServer

variable {config : P2PServerConfig} {s s' t : P2PServer} {highPeers highProofs : Nat}

/-- The peaks, and the counters below them. -/
structure Peaks (config : P2PServerConfig) (s : P2PServer) (highPeers highProofs : Nat) : Prop where
  peers : Tracks s.peakActivePeers highPeers s.raisingPeers
  peers_le : highPeers ≤ config.maxPeers
  nowActive : ∀ peer nowActive, s.acceptor = .counted peer nowActive →
    s.activePeers ≤ nowActive ∧ nowActive ≤ config.maxPeers
  activePeers_le : s.activePeers ≤ highPeers + s.acceptor.counting
  proofs : Tracks s.peakActiveProofRequests highProofs s.raisingProofs
  proofs_le : highProofs ≤ config.maxConcurrentProofRequests
  activeProofRequests_le : s.activeProofRequests ≤ highProofs

theorem Peaks.init (config : P2PServerConfig) : Peaks config P2PServer.init 0 0 := by
  refine ⟨⟨Nat.le_refl _, nofun, nofun, Or.inl (Nat.le_refl _)⟩, Nat.zero_le _, nofun, Nat.le_refl _, ?_, Nat.zero_le _,
    Nat.le_refl _⟩
  exact ⟨Nat.le_refl _, fun _ ⟨_, hc, _⟩ => absurd hc List.not_mem_nil,
    fun _ _ ⟨_, hc, _⟩ => absurd hc List.not_mem_nil, Or.inl (Nat.le_refl _)⟩

/-! ### The peak of the proofs -/

theorem workerStep_raising {peer : Peer} {worker worker' : Worker} (h : WorkerStep config peer s worker s' worker') :
    s'.peakActiveProofRequests = s.peakActiveProofRequests ∧ worker'.raising = worker.raising ∧
        worker'.holding ≤ worker.holding ∨
      s'.peakActiveProofRequests = s.peakActiveProofRequests ∧ worker.raising = none ∧
        worker'.raising = some (.load s'.activeProofRequests) ∨
      ∃ r fails, worker.raising = some r ∧
        s'.peakActiveProofRequests = (r.next s.peakActiveProofRequests fails).1 ∧
        worker'.raising = (r.next s.peakActiveProofRequests fails).2 ∧ worker'.holding ≤ worker.holding := by
  cases h with
  | acquire => exact Or.inr (Or.inl ⟨rfl, rfl, rfl⟩)
  | raise r fails => exact Or.inr (Or.inr ⟨r, fails, rfl, rfl, rfl, Nat.le_refl _⟩)
  | release => exact Or.inl ⟨rfl, rfl, Nat.zero_le _⟩
  | _ => exact Or.inl ⟨rfl, rfl, Nat.le_refl _⟩

theorem workerStep_peak {peer : Peer} {worker worker' : Worker} (h : WorkerStep config peer s worker s' worker') :
    s'.peakActivePeers = s.peakActivePeers := by
  cases h <;> rfl

theorem Peaks.client_proofs (h : Peaks config s highPeers highProofs) (haccounted : s.Accounted config) {i : Nat}
    {c : Client} {worker : Worker} (hi : s.clients[i]? = some c)
    (hstep : WorkerStep config c.peer s c.worker s' worker) (hclients : t.clients = s.clients.set i ⟨c.peer, worker⟩)
    (hactive : t.activeProofRequests = s'.activeProofRequests)
    (hpeak : t.peakActiveProofRequests = s'.peakActiveProofRequests) :
    Tracks t.peakActiveProofRequests (max highProofs t.activeProofRequests) t.raisingProofs := by
  obtain ⟨hheld, -⟩ := haccounted.client_proofs hi hstep
  have hsum := proofHolders_stepped hi worker
  have hproofs := haccounted.proofs
  have hle := h.activeProofRequests_le
  -- the threads behind the step
  have hnew : ∀ r, t.raisingProofs r → s.raisingProofs r ∨ worker.raising = some r := by
    rintro r ⟨d, hd, hr⟩
    rw [hclients] at hd
    rcases List.mem_or_eq_of_mem_set hd with hd | rfl
    · exact Or.inl ⟨d, hd, hr⟩
    · exact Or.inr hr
  have hold : ∀ r, s.raisingProofs r → c.worker.raising = some r ∨ t.raisingProofs r := by
    rintro r ⟨d, hd, hr⟩
    rcases mem_set_or hi hd with rfl | hd
    · exact Or.inl hr
    · exact Or.inr ⟨d, hclients ▸ hd, hr⟩
  have hmem : ∀ r, worker.raising = some r → t.raisingProofs r := by
    intro r hr
    obtain ⟨hlt, -⟩ := List.getElem?_eq_some_iff.mp hi
    exact ⟨⟨c.peer, worker⟩, hclients ▸ List.mem_set hlt _, hr⟩
  have hc : ∀ r, c.worker.raising = some r → s.raisingProofs r :=
    fun r hr => ⟨c, List.mem_of_getElem? hi, hr⟩
  rw [hactive, hpeak]
  rcases workerStep_raising hstep with ⟨hpeak, hsame, hweight⟩ | ⟨hpeak, hnone, hload⟩ | ⟨r, fails, hr, hpeak, hnext, hweight⟩
  · rw [Nat.max_eq_left (by omega), hpeak]
    refine h.proofs.congr fun r => ⟨fun hr => ?_, fun hr => ?_⟩
    · rcases hnew r hr with hr | hr
      · exact hr
      · exact hc r (hsame ▸ hr)
    · rcases hold r hr with hr | hr
      · exact hmem r (hsame.trans hr)
      · exact hr
  · rw [hpeak]
    refine h.proofs.enter fun r => ⟨fun hr => ?_, fun hr => ?_⟩
    · rcases hnew r hr with hr | hr
      · exact Or.inl hr
      · exact Or.inr (Option.some.inj (hr.symm.trans hload))
    · rcases hr with hr | rfl
      · rcases hold r hr with hr | hr
        · rw [hnone] at hr
          cases hr
        · exact hr
      · exact hmem _ hload
  · rw [Nat.max_eq_left (by omega), hpeak]
    refine h.proofs.next (hc r hr) (fun r' hr' => ?_) (fun r' hr' => ?_) fun r' hr' => hmem r' (hnext.trans hr')
    · exact (hnew r' hr').imp_right fun hr' => hnext.symm.trans hr'
    · exact (hold r' hr').imp_left fun hr' => Option.some.inj (hr'.symm.trans hr)

theorem accept_raising (h : AcceptStep config s s') :
    s'.peakActiveProofRequests = s.peakActiveProofRequests ∧ ∀ r, s'.raisingProofs r ↔ s.raisingProofs r := by
  unfold raisingProofs
  cases h with
  | start peer nowActive hacceptor =>
    refine ⟨rfl, fun r => ⟨?_, ?_⟩⟩
    · rintro ⟨c, hc, hr⟩
      rcases List.mem_append.mp hc with hc | hc
      · exact ⟨c, hc, hr⟩
      · obtain rfl := List.mem_singleton.mp hc
        cases hr
    · rintro ⟨c, hc, hr⟩
      exact ⟨c, List.mem_append_left _ hc, hr⟩
  | _ => exact ⟨rfl, fun r => Iff.rfl⟩

/-! ### The peak of the peers -/

theorem next_value {r r' : Raise} {shared : Nat} {fails : Bool} (h : (r.next shared fails).2 = some r') :
    r'.value = r.value := by
  cases r with
  | load value =>
    obtain rfl := Option.some.inj h
    rfl
  | compare value prior =>
    dsimp only [Raise.next] at h
    split_ifs at h
    obtain rfl := Option.some.inj h
    rfl

theorem raising_started (raise : Option Raise) : (raise.elim Acceptor.waiting Acceptor.started).raising = raise := by
  cases raise <;> rfl

theorem accept_peak (h : AcceptStep config s s') :
    s'.peakActivePeers = s.peakActivePeers ∧ s'.acceptor.raising = none ∧ s.acceptor.raising = none ∨
      (∃ peer nowActive, s.acceptor = .counted peer nowActive ∧ s'.peakActivePeers = s.peakActivePeers ∧
        s'.activePeers = s.activePeers ∧ s'.acceptor.raising = some (.load nowActive)) ∨
      ∃ r fails, s.acceptor.raising = some r ∧ s'.peakActivePeers = (r.next s.peakActivePeers fails).1 ∧
        s'.acceptor.raising = (r.next s.peakActivePeers fails).2 := by
  cases h with
  | start peer nowActive hacceptor => exact Or.inr (Or.inl ⟨peer, nowActive, hacceptor, rfl, rfl, rfl⟩)
  | raise r fails hacceptor =>
    exact Or.inr (Or.inr ⟨r, fails, by rw [hacceptor]; rfl, rfl, raising_started _⟩)
  | rejectFull hacceptor => exact Or.inl ⟨rfl, by rw [hacceptor]; rfl, by rw [hacceptor]; rfl⟩
  | reserve peer hacceptor => exact Or.inl ⟨rfl, rfl, by rw [hacceptor]; rfl⟩
  | rejectAddress peer hacceptor => exact Or.inl ⟨rfl, rfl, by rw [hacceptor]; rfl⟩
  | entryFailed peer hacceptor => exact Or.inl ⟨rfl, rfl, by rw [hacceptor]; rfl⟩
  | socketFailed peer hacceptor => exact Or.inl ⟨rfl, rfl, by rw [hacceptor]; rfl⟩
  | register peer hacceptor => exact Or.inl ⟨rfl, rfl, by rw [hacceptor]; rfl⟩
  | count peer hacceptor => exact Or.inl ⟨rfl, rfl, by rw [hacceptor]; rfl⟩
  | startFailed peer nowActive hacceptor => exact Or.inl ⟨rfl, rfl, by rw [hacceptor]; rfl⟩
  | unwind hacceptor => exact Or.inl ⟨rfl, rfl, by rw [hacceptor]; rfl⟩

theorem Peaks.accept_tracks (h : Peaks config s highPeers highProofs) (hstep : AcceptStep config s s') :
    Tracks s'.peakActivePeers (max highPeers s'.accepted) s'.raisingPeers ∧
      max highPeers s'.accepted ≤ config.maxPeers := by
  rcases accept_peak hstep with ⟨hpeak, hnone, hnone'⟩ | ⟨peer, nowActive, hacceptor, hpeak, -, hload⟩ |
    ⟨r, fails, hr, hpeak, hnext⟩
  · unfold accepted
    rw [hnone, hpeak, Option.elim, Nat.max_zero]
    refine ⟨h.peers.congr fun r => ?_, h.peers_le⟩
    unfold raisingPeers
    rw [hnone, hnone']
  · unfold accepted
    rw [hload, hpeak, Option.elim, Raise.value]
    refine ⟨h.peers.enter fun r => ?_, Nat.max_le.mpr ⟨h.peers_le, (h.nowActive peer nowActive hacceptor).2⟩⟩
    unfold raisingPeers
    rw [hload, hacceptor]
    constructor
    · exact fun hr => Or.inr (Option.some.inj hr).symm
    · rintro (hr | rfl)
      · cases hr
      · rfl
  · have hle : s'.accepted ≤ highPeers := by
      unfold accepted
      cases hafter : s'.acceptor.raising with
      | none => exact Nat.zero_le _
      | some r' =>
        have hvalue := next_value (hnext.symm.trans hafter)
        have hhigh := h.peers.value_le r hr
        rw [Option.elim]
        omega
    rw [Nat.max_eq_left hle, hpeak]
    refine ⟨h.peers.next hr (fun r' hr' => Or.inr (hnext.symm.trans hr')) (fun r' hr' => ?_) fun r' hr' => ?_, h.peers_le⟩
    · exact Or.inl (Option.some.inj (hr'.symm.trans hr))
    · exact hnext.trans hr'

/-- What `fetch_add` returned is at least what is counted until the thread is made. -/
theorem Peaks.accept_nowActive (h : Peaks config s highPeers highProofs) (haccounted : s.Accounted config)
    (hstep : AcceptStep config s s') (peer : Peer) (nowActive : Nat) (hcounted : s'.acceptor = .counted peer nowActive) :
    s'.activePeers ≤ nowActive ∧ nowActive ≤ config.maxPeers := by
  obtain ⟨-, hlimit⟩ := haccounted.accept_peers hstep
  cases hstep with
  | rejectFull hacceptor => exact h.nowActive peer nowActive hcounted
  | count peer' hacceptor =>
    obtain ⟨-, hnow⟩ := Acceptor.counted.inj hcounted
    exact ⟨hnow.le, hnow ▸ hlimit⟩
  | raise r fails hacceptor =>
    dsimp only at hcounted
    cases hafter : (r.next s.peakActivePeers fails).2 with
    | none =>
      rw [hafter] at hcounted
      cases hcounted
    | some r' =>
      rw [hafter] at hcounted
      cases hcounted
  | _ => cases hcounted

theorem Peaks.accept_current (h : Peaks config s highPeers highProofs) (haccounted : s.Accounted config)
    (hstep : AcceptStep config s s') : s'.activePeers ≤ max highPeers s'.accepted + s'.acceptor.counting := by
  have hlimit := config.maxPeers_range
  have hpeers := haccounted.peers
  have hpeersLe := haccounted.peers_le
  have hcurrent := h.activePeers_le
  have hmax := Nat.le_max_left highPeers s'.accepted
  cases hstep with
  | rejectFull hacceptor => exact hcurrent.trans (Nat.add_le_add_right hmax _)
  | count peer hacceptor =>
    rw [hacceptor] at hcurrent hpeersLe
    dsimp only [Acceptor.counting, Acceptor.reserving] at hcurrent hpeersLe hmax ⊢
    rw [fetchAdd_eq (by omega)]
    omega
  | start peer nowActive hacceptor =>
    exact (h.nowActive peer nowActive hacceptor).1.trans (Nat.le_max_right highPeers nowActive)
  | startFailed peer nowActive hacceptor =>
    rw [hacceptor] at hcurrent
    exact hcurrent.trans (Nat.add_le_add_right hmax _)
  | unwind hacceptor =>
    unfold countedPeers at hpeers
    rw [hacceptor] at hcurrent hpeers hpeersLe
    dsimp only [Acceptor.counting, Acceptor.reserving] at hcurrent hpeers hpeersLe hmax ⊢
    rw [fetchSub_eq (by omega) (by omega)]
    omega
  | raise r fails hacceptor =>
    rw [hacceptor] at hcurrent
    exact (hcurrent.trans hmax).trans (Nat.le_add_right _ _)
  | reserve peer hacceptor =>
    rw [hacceptor] at hcurrent
    exact hcurrent.trans hmax
  | rejectAddress peer hacceptor =>
    rw [hacceptor] at hcurrent
    exact hcurrent.trans hmax
  | entryFailed peer hacceptor =>
    rw [hacceptor] at hcurrent
    exact hcurrent.trans hmax
  | socketFailed peer hacceptor =>
    rw [hacceptor] at hcurrent
    exact hcurrent.trans hmax
  | register peer hacceptor =>
    rw [hacceptor] at hcurrent
    exact hcurrent.trans hmax

/-- **One step** of any thread keeps the peaks. -/
theorem Peaks.step (h : Peaks config s highPeers highProofs) (haccounted : s.Accounted config) (hstep : Step config s s') :
    Peaks config s' (max highPeers s'.accepted) (max highProofs s'.activeProofRequests) := by
  have haccounted' := haccounted.step hstep
  cases hstep with
  | client i c s' worker hi hworker =>
    obtain ⟨-, hacceptor⟩ := workerStep_frame hworker
    obtain ⟨-, hless⟩ := haccounted.client_peers hi hworker
    have hpeak := workerStep_peak hworker
    have hhigh : max highPeers s'.accepted = highPeers := by
      refine Nat.max_eq_left ?_
      unfold accepted
      rw [hacceptor]
      cases hraising : s.acceptor.raising with
      | none => exact Nat.zero_le _
      | some r => exact h.peers.value_le r hraising
    have hraise : ∀ r, s'.acceptor.raising = some r ↔ s.acceptor.raising = some r := fun r => by rw [hacceptor]
    refine ⟨?_, ?_, ?_, ?_, h.client_proofs haccounted hi hworker rfl rfl rfl,
      Nat.max_le.mpr ⟨h.proofs_le, haccounted'.proofs_le⟩, Nat.le_max_right _ _⟩
    · show Tracks s'.peakActivePeers (max highPeers s'.accepted) _
      rw [hhigh, hpeak]
      exact h.peers.congr hraise
    · exact hhigh.le.trans h.peers_le
    · intro peer nowActive hcounted
      obtain ⟨hle, hlimit⟩ := h.nowActive peer nowActive (hacceptor.symm.trans hcounted)
      exact ⟨hless.trans hle, hlimit⟩
    · have hcurrent := h.activePeers_le
      show s'.activePeers ≤ max highPeers s'.accepted + s'.acceptor.counting
      rw [hhigh, hacceptor]
      exact hless.trans hcurrent
  | accept _ haccept =>
    obtain ⟨hpeers, hpeersLe⟩ := h.accept_tracks haccept
    obtain ⟨hpeak, hraising⟩ := accept_raising haccept
    obtain ⟨hactive, -⟩ := accept_proofs haccept
    have hproofs := h.activeProofRequests_le
    have hhigh : max highProofs s'.activeProofRequests = highProofs := Nat.max_eq_left (by omega)
    refine ⟨hpeers, hpeersLe, ?_, ?_, ?_, ?_, Nat.le_max_right _ _⟩
    · exact h.accept_nowActive haccounted haccept
    · exact h.accept_current haccounted haccept
    · rw [hhigh, hpeak]
      exact h.proofs.congr hraising
    · rw [hhigh]
      exact h.proofs_le

end P2PServer

/-! ## Every run -/

variable {config : P2PServerConfig} {s : P2PServer} {highPeers highProofs : Nat}

theorem Reaches.accounted (h : Reaches config s highPeers highProofs) : s.Accounted config := by
  induction h with
  | init => exact P2PServer.Accounted.init config
  | step s s' highPeers highProofs _ hstep ih => exact ih.step hstep

theorem Reaches.peaks (h : Reaches config s highPeers highProofs) : s.Peaks config highPeers highProofs := by
  induction h with
  | init => exact P2PServer.Peaks.init config
  | step s s' highPeers highProofs hrun hstep ih => exact ih.step hrun.accounted hstep

theorem P2PServer.Accounted.quiet (h : s.Accounted config) (hacceptor : s.acceptor = .waiting)
    (hgone : ∀ c ∈ s.clients, c.worker = .finished) :
    s.activePeers = 0 ∧ s.activeProofRequests = 0 ∧ (∀ key, s.activePeersByIp key = none) ∧ s.clientSockets = [] := by
  have hcounted := total_eq_zero fun c hc => congrArg Worker.counted (hgone c hc)
  have hholding := total_eq_zero fun c hc => congrArg Worker.holding (hgone c hc)
  have hlisted : ∀ p : Client → Prop, ∀ inst : DecidablePred p,
      total (fun c => if p c then c.worker.listed else 0) s.clients = 0 := fun p inst => total_eq_zero fun c hc => by
    rw [hgone c hc]
    exact ite_self 0
  refine ⟨?_, h.proofs.trans hholding, fun key => ?_, ?_⟩
  · rw [h.peers, countedPeers, hcounted, hacceptor]
    rfl
  · have hkey := h.byIp key
    rw [listedFrom, hlisted, hacceptor] at hkey
    cases hentry : s.activePeersByIp key with
    | none => rfl
    | some count =>
      rw [peersFromIp, hentry] at hkey
      exact absurd (hentry.trans (congrArg some hkey)) (h.byIp_ne_zero key)
  · refine List.eq_nil_iff_forall_not_mem.mpr fun socket hmem => ?_
    have hsocket := h.sockets socket
    rw [listedOn, hlisted, hacceptor] at hsocket
    exact List.count_eq_zero.mp hsocket hmem

/-- **The accounts of a server.** In every order of the steps of its threads: the counters and the containers are what
the threads have, within the limits; a peak is exact unless a thread is in `UpdatePeak`, and covers what is counted; and
when every peer is gone, nothing is left. -/
theorem server_accounting (h : Reaches config s highPeers highProofs) :
    s.Accounted config ∧
      (s.acceptor.raising = none →
        s.peakActivePeers = highPeers ∧ s.activePeers ≤ s.peakActivePeers + s.acceptor.counting) ∧
      ((∀ c ∈ s.clients, c.worker.raising = none) →
        s.peakActiveProofRequests = highProofs ∧ s.activeProofRequests ≤ s.peakActiveProofRequests) ∧
      s.peakActivePeers ≤ config.maxPeers ∧ s.peakActiveProofRequests ≤ config.maxConcurrentProofRequests ∧
      (s.acceptor = .waiting → (∀ c ∈ s.clients, c.worker = .finished) →
        s.activePeers = 0 ∧ s.activeProofRequests = 0 ∧ (∀ key, s.activePeersByIp key = none) ∧
          s.clientSockets = []) := by
  have haccounted := h.accounted
  have hpeaks := h.peaks
  refine ⟨haccounted, fun hidle => ?_, fun hidle => ?_, hpeaks.peers.shared_le.trans hpeaks.peers_le,
    hpeaks.proofs.shared_le.trans hpeaks.proofs_le, haccounted.quiet⟩
  · have hexact := hpeaks.peers.settled fun r hr => nomatch hidle.symm.trans hr
    exact ⟨hexact, hexact ▸ hpeaks.activePeers_le⟩
  · have hexact := hpeaks.proofs.settled fun r ⟨c, hc, hr⟩ => nomatch (hidle c hc).symm.trans hr
    exact ⟨hexact, hexact ▸ hpeaks.activeProofRequests_le⟩

/-! ### A run -/

def sampleServerConfig : P2PServerConfig := ⟨1, 1, 1, by decide, by decide, by decide⟩

def samplePeer : Peer := ⟨7, 0x0100007f⟩

def workingServer : P2PServer :=
  { P2PServer.init.register samplePeer with
    activePeers := 1, activeProofRequests := 1, acceptedPeers := 1,
    acceptor := .started (.load 1), clients := [⟨samplePeer, .working (some (.load 1))⟩] }

theorem reaches_workingServer : Reaches sampleServerConfig workingServer 1 1 := by
  have hinit : Reaches sampleServerConfig P2PServer.init 0 0 := .init
  have hreserve := hinit.step _ _ _ _ (.accept _ _ (.reserve _ samplePeer rfl (by decide) rfl))
  have hregister := hreserve.step _ _ _ _ (.accept _ _ (.register _ samplePeer rfl (by decide)))
  have hcount := hregister.step _ _ _ _ (.accept _ _ (.count _ samplePeer rfl))
  have hstart := hcount.step _ _ _ _ (.accept _ _ (.start _ samplePeer 1 rfl))
  have hload := hstart.step _ _ _ _ (.client _ 0 ⟨samplePeer, .serving⟩ _ _ rfl (.load _))
  have hacquire := hload.step _ _ _ _ (.client _ 0 ⟨samplePeer, .acquiring 0⟩ _ _ rfl (.acquire _ (by decide)))
  exact hacquire

/-- The accounts there: the peak of the proofs is still to be raised. -/
theorem server_accounting_working : Reaches sampleServerConfig workingServer 1 1 ∧ workingServer.proofHolders = 1 ∧
    workingServer.Accounted sampleServerConfig ∧ workingServer.peakActiveProofRequests ≤ 1 :=
  ⟨reaches_workingServer, rfl, (server_accounting reaches_workingServer).1,
    (server_accounting reaches_workingServer).2.2.2.2.1⟩

end UtreexoBridge.P2P
