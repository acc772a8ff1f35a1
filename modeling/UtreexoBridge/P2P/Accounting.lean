import UtreexoBridge.P2P.Server

/-!
# The accounts of a server

The counters and containers are what the threads have, in every order of their
steps.
-/

namespace UtreexoBridge.P2P

open SharedCounters

/-! ## Counters and entries -/

theorem fetchAdd_eq {counter : Nat} (h : counter < 1024) : fetchAdd counter = counter + 1 := by
  unfold fetchAdd
  omega

theorem fetchSub_eq {counter : Nat} (hpos : 0 < counter) (h : counter ≤ 1024) : fetchSub counter = counter - 1 := by
  unfold fetchSub
  omega

section Entries

variable {byIp : UInt32 → Option Nat} {key : UInt32}

theorem registerAddress_getD (h : (byIp key).getD 0 < 1024) (k : UInt32) :
    (registerAddress byIp key k).getD 0 = (byIp k).getD 0 + if key = k then 1 else 0 := by
  unfold registerAddress
  by_cases hk : k = key
  · subst hk
    rw [if_pos rfl, if_pos rfl, Option.getD_some, fetchAdd_eq h]
  · rw [if_neg hk, if_neg (Ne.symm hk), Nat.add_zero]

theorem registerAddress_ne_zero (h : (byIp key).getD 0 < 1024) {k : UInt32} (hk : byIp k ≠ some 0) :
    registerAddress byIp key k ≠ some 0 := by
  unfold registerAddress
  split
  · rw [fetchAdd_eq h]
    exact fun hzero => absurd (Option.some.inj hzero) (Nat.succ_ne_zero _)
  · exact hk

theorem releaseAddress_getD (hpos : 0 < (byIp key).getD 0) (h : (byIp key).getD 0 ≤ 1024) (k : UInt32) :
    (releaseAddress byIp key k).getD 0 + (if key = k then 1 else 0) = (byIp k).getD 0 := by
  cases hentry : byIp key with
  | none =>
    rw [hentry] at hpos
    exact absurd hpos (Nat.lt_irrefl 0)
  | some count =>
    rw [hentry] at hpos h
    unfold releaseAddress
    rw [hentry]
    dsimp only
    by_cases hk : k = key
    · subst hk
      rw [Option.getD_some] at hpos h
      rw [if_pos rfl, if_pos rfl, hentry, fetchSub_eq hpos h, Option.getD_some]
      split
      · rw [Option.getD_none]
        omega
      · rw [Option.getD_some]
        omega
    · rw [if_neg hk, if_neg (Ne.symm hk), Nat.add_zero]

theorem releaseAddress_ne_zero {k : UInt32} (hk : byIp k ≠ some 0) : releaseAddress byIp key k ≠ some 0 := by
  unfold releaseAddress
  cases byIp key with
  | none => exact hk
  | some count =>
    dsimp only
    split
    · split
      · exact nofun
      · rename_i hzero
        exact fun hsome => hzero (Option.some.inj hsome)
    · exact hk

theorem release_register (h : (byIp key).getD 0 < 1024) (hkey : byIp key ≠ some 0) :
    releaseAddress (registerAddress byIp key) key = byIp := by
  have hentry : registerAddress byIp key key = some ((byIp key).getD 0 + 1) := by
    rw [registerAddress, if_pos rfl, fetchAdd_eq h]
  funext k
  unfold releaseAddress
  rw [hentry]
  dsimp only
  rw [fetchSub_eq (Nat.succ_pos _) h, Nat.succ_sub_one]
  by_cases hk : k = key
  · subst hk
    rw [if_pos rfl]
    cases hold : byIp k with
    | none => rfl
    | some count =>
      rw [Option.getD_some, if_neg fun hzero => hkey (hold.trans (congrArg some hzero))]
  · rw [if_neg hk, registerAddress, if_neg hk]

end Entries

/-! ## The accounts -/

/-- What the threads have is what is counted, within the limits. -/
structure P2PServer.Accounted (config : P2PServerConfig) (s : P2PServer) : Prop where
  peers : s.activePeers = s.countedPeers
  peers_le : s.activePeers + s.acceptor.reserving ≤ config.maxPeers
  proofs : s.activeProofRequests = s.proofHolders
  proofs_le : s.activeProofRequests ≤ config.maxConcurrentProofRequests
  byIp : ∀ key, s.peersFromIp key = s.listedFrom key
  byIp_ne_zero : ∀ key, s.activePeersByIp key ≠ some 0
  byIp_le : ∀ key, s.peersFromIp key ≤ config.maxPeersPerIp
  sockets : ∀ socket, s.clientSockets.count socket = s.listedOn socket
  connected : ∀ socket, s.connectedOn socket ≤ 1

namespace P2PServer

variable {config : P2PServerConfig} {s s' : P2PServer}

theorem Accounted.init (config : P2PServerConfig) : Accounted config P2PServer.init := by
  refine ⟨rfl, Nat.zero_le _, rfl, Nat.zero_le _, fun _ => rfl, fun _ => nofun, fun _ => Nat.zero_le _, fun _ => rfl,
    fun _ => Nat.zero_le _⟩

theorem listedOn_le_connectedOn (s : P2PServer) (socket : Nat) : s.listedOn socket ≤ s.connectedOn socket := by
  have hclients := total_le (fun c : Client => show (if c.peer.socket = socket then c.worker.listed else 0) ≤
    if c.peer.socket = socket then c.worker.connected else 0 by
      split
      · cases c.worker <;> exact Nat.le_of_ble_eq_true rfl
      · exact Nat.le_refl 0) s.clients
  unfold listedOn connectedOn
  cases s.acceptor <;> simp only [Acceptor.listed, Acceptor.connected, Option.elim] <;> omega

theorem count_filter_socket (sockets : List Nat) (closing socket : Nat) :
    (sockets.filter (· ≠ closing)).count socket = if socket = closing then 0 else sockets.count socket := by
  split
  · rename_i hsame
    rw [hsame]
    exact List.count_eq_zero.mpr fun hmem => by simpa using (List.mem_filter.mp hmem).2
  · rename_i hother
    exact List.count_filter (by simpa using hother)

/-! ### The thread of a peer -/

variable {peer : Peer} {worker worker' : Worker}

theorem workerStep_frame (h : WorkerStep config peer s worker s' worker') :
    s'.clients = s.clients ∧ s'.acceptor = s.acceptor := by
  cases h <;> exact ⟨rfl, rfl⟩

theorem workerStep_peers (h : WorkerStep config peer s worker s' worker') :
    s'.activePeers = s.activePeers ∧ worker'.counted = worker.counted ∨
      s'.activePeers = fetchSub s.activePeers ∧ worker.counted = 1 ∧ worker'.counted = 0 := by
  cases h with
  | leave => exact Or.inr ⟨rfl, rfl, rfl⟩
  | _ => exact Or.inl ⟨rfl, rfl⟩

theorem workerStep_proofs (h : WorkerStep config peer s worker s' worker') :
    s'.activeProofRequests = s.activeProofRequests ∧ worker'.holding = worker.holding ∨
      s.activeProofRequests < config.maxConcurrentProofRequests ∧
        s'.activeProofRequests = fetchAdd s.activeProofRequests ∧ worker.holding = 0 ∧ worker'.holding = 1 ∨
      s'.activeProofRequests = fetchSub s.activeProofRequests ∧ worker.holding = 1 ∧ worker'.holding = 0 := by
  cases h with
  | acquire hfree => exact Or.inr (Or.inl ⟨hfree, rfl, rfl, rfl⟩)
  | release => exact Or.inr (Or.inr ⟨rfl, rfl, rfl⟩)
  | _ => exact Or.inl ⟨rfl, rfl⟩

theorem workerStep_listed (h : WorkerStep config peer s worker s' worker') :
    s'.activePeersByIp = s.activePeersByIp ∧ s'.clientSockets = s.clientSockets ∧ worker'.listed = worker.listed ∨
      s'.activePeersByIp = (s.unregister peer).activePeersByIp ∧ s'.clientSockets = (s.unregister peer).clientSockets ∧
        worker.listed = 1 ∧ worker'.listed = 0 := by
  cases h with
  | remove => exact Or.inr ⟨rfl, rfl, rfl, rfl⟩
  | _ => exact Or.inl ⟨rfl, rfl, rfl⟩

theorem workerStep_connected (h : WorkerStep config peer s worker s' worker') :
    worker'.connected ≤ worker.connected := by
  cases h <;> exact Nat.le_of_ble_eq_true rfl

section Client

variable {i : Nat} {c : Client}

def stepped (s' : P2PServer) (i : Nat) (c : Client) (worker : Worker) : P2PServer :=
  { s' with clients := s'.clients.set i ⟨c.peer, worker⟩ }

theorem countedPeers_stepped (hi : s.clients[i]? = some c) (worker : Worker) :
    (s.stepped i c worker).countedPeers + c.worker.counted = s.countedPeers + worker.counted := by
  have hset := total_set hi (·.worker.counted) ⟨c.peer, worker⟩
  unfold countedPeers stepped
  dsimp only at hset ⊢
  omega

theorem proofHolders_stepped (hi : s.clients[i]? = some c) (worker : Worker) :
    (s.stepped i c worker).proofHolders + c.worker.holding = s.proofHolders + worker.holding :=
  total_set hi (·.worker.holding) ⟨c.peer, worker⟩

theorem listedFrom_stepped (hi : s.clients[i]? = some c) (worker : Worker) (key : UInt32) :
    (s.stepped i c worker).listedFrom key + (if c.peer.addressKey = key then c.worker.listed else 0) =
      s.listedFrom key + if c.peer.addressKey = key then worker.listed else 0 := by
  have hset := total_set hi (fun c => if c.peer.addressKey = key then c.worker.listed else 0) ⟨c.peer, worker⟩
  unfold listedFrom stepped
  dsimp only at hset ⊢
  omega

theorem listedOn_stepped (hi : s.clients[i]? = some c) (worker : Worker) (socket : Nat) :
    (s.stepped i c worker).listedOn socket + (if c.peer.socket = socket then c.worker.listed else 0) =
      s.listedOn socket + if c.peer.socket = socket then worker.listed else 0 := by
  have hset := total_set hi (fun c => if c.peer.socket = socket then c.worker.listed else 0) ⟨c.peer, worker⟩
  unfold listedOn stepped
  dsimp only at hset ⊢
  omega

theorem connectedOn_stepped (hi : s.clients[i]? = some c) (worker : Worker) (socket : Nat) :
    (s.stepped i c worker).connectedOn socket + (if c.peer.socket = socket then c.worker.connected else 0) =
      s.connectedOn socket + if c.peer.socket = socket then worker.connected else 0 := by
  have hset := total_set hi (fun c => if c.peer.socket = socket then c.worker.connected else 0) ⟨c.peer, worker⟩
  unfold connectedOn stepped
  dsimp only at hset ⊢
  omega

theorem threads_congr {t : P2PServer} (hclients : t.clients = s.clients) (hacceptor : t.acceptor = s.acceptor) :
    t.countedPeers = s.countedPeers ∧ t.proofHolders = s.proofHolders ∧ t.listedFrom = s.listedFrom ∧
      t.listedOn = s.listedOn ∧ t.connectedOn = s.connectedOn := by
  refine ⟨?_, ?_, funext fun key => ?_, funext fun socket => ?_, funext fun socket => ?_⟩
  · rw [countedPeers, countedPeers, hclients, hacceptor]
  · rw [proofHolders, proofHolders, hclients]
  · rw [listedFrom, listedFrom, hclients, hacceptor]
  · rw [listedOn, listedOn, hclients, hacceptor]
  · rw [connectedOn, connectedOn, hclients, hacceptor]

theorem Accounted.client_peers (h : s.Accounted config) (hi : s.clients[i]? = some c)
    (hstep : WorkerStep config c.peer s c.worker s' worker) :
    s'.activePeers = (s.stepped i c worker).countedPeers ∧ s'.activePeers ≤ s.activePeers := by
  have hlimit := config.maxPeers_range
  have hsum := countedPeers_stepped hi worker
  have hpeers := h.peers
  have hle := h.peers_le
  rcases workerStep_peers hstep with ⟨hsame, hweight⟩ | ⟨hsub, hone, hzero⟩
  · omega
  · rw [hsub, fetchSub_eq (by omega) (by omega)]
    omega

theorem Accounted.client_proofs (h : s.Accounted config) (hi : s.clients[i]? = some c)
    (hstep : WorkerStep config c.peer s c.worker s' worker) :
    s'.activeProofRequests = (s.stepped i c worker).proofHolders ∧
      s'.activeProofRequests ≤ config.maxConcurrentProofRequests := by
  have hlimit := config.maxConcurrentProofRequests_range
  have hsum := proofHolders_stepped hi worker
  have hproofs := h.proofs
  have hle := h.proofs_le
  rcases workerStep_proofs hstep with ⟨hsame, hweight⟩ | ⟨hfree, hadd, hzero, hone⟩ | ⟨hsub, hone, hzero⟩
  · omega
  · rw [hadd, fetchAdd_eq (by omega)]
    omega
  · rw [hsub, fetchSub_eq (by omega) (by omega)]
    omega

theorem Accounted.client_byIp (h : s.Accounted config) (hi : s.clients[i]? = some c)
    (hstep : WorkerStep config c.peer s c.worker s' worker) (key : UInt32) :
    s'.peersFromIp key = (s.stepped i c worker).listedFrom key ∧ s'.activePeersByIp key ≠ some 0 ∧
      s'.peersFromIp key ≤ s.peersFromIp key := by
  have hsum := listedFrom_stepped hi worker
  have hbyIp := h.byIp
  rcases workerStep_listed hstep with ⟨hsame, -, hweight⟩ | ⟨hrelease, -, hone, hzero⟩
  · unfold peersFromIp at hbyIp ⊢
    rw [hsame, hbyIp]
    have hkey := hsum key
    rw [hweight] at hkey
    exact ⟨by omega, h.byIp_ne_zero key, Nat.le_refl _⟩
  · -- the entry of the peer counts the peer itself
    have hlimit := config.maxPeersPerIp_range
    have hown := hsum c.peer.addressKey
    rw [if_pos rfl, if_pos rfl, hone, hzero, ← hbyIp] at hown
    have hle := h.byIp_le c.peer.addressKey
    have hpos : 0 < (s.activePeersByIp c.peer.addressKey).getD 0 := by
      unfold peersFromIp at hown
      omega
    have hrest := releaseAddress_getD hpos (hle.trans hlimit.2) key
    have hkey := hsum key
    rw [hone, hzero, ← hbyIp] at hkey
    unfold peersFromIp at hkey ⊢
    rw [hrelease]
    refine ⟨?_, releaseAddress_ne_zero (h.byIp_ne_zero key), ?_⟩
    · unfold unregister
      dsimp only
      by_cases hsame : c.peer.addressKey = key
      · rw [if_pos hsame] at hrest
        rw [if_pos hsame, if_pos hsame] at hkey
        omega
      · rw [if_neg hsame] at hrest
        rw [if_neg hsame, if_neg hsame] at hkey
        omega
    · unfold unregister
      dsimp only
      omega

theorem Accounted.client_sockets (h : s.Accounted config) (hi : s.clients[i]? = some c)
    (hstep : WorkerStep config c.peer s c.worker s' worker) (socket : Nat) :
    s'.clientSockets.count socket = (s.stepped i c worker).listedOn socket := by
  have hsum := listedOn_stepped hi worker socket
  have hsockets := h.sockets socket
  rcases workerStep_listed hstep with ⟨-, hsame, hweight⟩ | ⟨-, hfilter, hone, hzero⟩
  · rw [hsame, hsockets]
    rw [hweight] at hsum
    omega
  · -- no other open peer has the socket
    have hle := (s.listedOn_le_connectedOn socket).trans (h.connected socket)
    rw [hone, hzero] at hsum
    rw [hfilter, unregister, count_filter_socket]
    split at hsum
    · rename_i hsame
      rw [if_pos hsame.symm]
      omega
    · rename_i hother
      rw [if_neg (Ne.symm hother), hsockets]
      omega

theorem Accounted.client (h : s.Accounted config) (hi : s.clients[i]? = some c)
    (hstep : WorkerStep config c.peer s c.worker s' worker) :
    Accounted config { s' with clients := s.clients.set i ⟨c.peer, worker⟩ } := by
  obtain ⟨-, hacceptor⟩ := workerStep_frame hstep
  have hthreads : ({ s' with clients := s.clients.set i ⟨c.peer, worker⟩ } : P2PServer).acceptor =
      (s.stepped i c worker).acceptor := hacceptor
  obtain ⟨hcounted, hheld, hfrom, hon, hopen⟩ :=
    @threads_congr (s.stepped i c worker) { s' with clients := s.clients.set i ⟨c.peer, worker⟩ } rfl hthreads
  obtain ⟨hpeers, hpeersLe⟩ := h.client_peers hi hstep
  obtain ⟨hproofs, hproofsLe⟩ := h.client_proofs hi hstep
  have hbyIp := h.client_byIp hi hstep
  refine ⟨hpeers.trans hcounted.symm, ?_, hproofs.trans hheld.symm, hproofsLe, fun key => ?_,
    fun key => (hbyIp key).2.1, fun key => (hbyIp key).2.2.trans (h.byIp_le key), fun socket => ?_, fun socket => ?_⟩
  · have hle := h.peers_le
    dsimp only
    rw [hacceptor]
    omega
  · rw [hfrom]
    exact (hbyIp key).1
  · rw [hon]
    exact h.client_sockets hi hstep socket
  · rw [hopen]
    have hsum := connectedOn_stepped hi worker socket
    have hweight := workerStep_connected hstep
    have hle := h.connected socket
    split at hsum <;> omega

end Client

/-! ### The accepting thread -/

/-- Behind a step of `UpdatePeak` the accepting thread has no peer. -/
theorem raised_idle (raise : Option Raise) :
    (raise.elim Acceptor.waiting Acceptor.started).counting = 0 ∧
      (raise.elim Acceptor.waiting Acceptor.started).reserving = 0 ∧
      (raise.elim Acceptor.waiting Acceptor.started).listed = none ∧
      (raise.elim Acceptor.waiting Acceptor.started).connected = none := by
  cases raise <;> exact ⟨rfl, rfl, rfl, rfl⟩

theorem Accounted.accept_peers (h : s.Accounted config) (hstep : AcceptStep config s s') :
    s'.activePeers = s'.countedPeers ∧ s'.activePeers + s'.acceptor.reserving ≤ config.maxPeers := by
  have hlimit := config.maxPeers_range
  have hpeers := h.peers
  have hle := h.peers_le
  unfold countedPeers at hpeers ⊢
  cases hstep with
  | rejectFull hacceptor hfull => exact ⟨hpeers, hle⟩
  | reserve peer hacceptor hfree hfresh =>
    rw [hacceptor] at hpeers
    exact ⟨hpeers, hfree⟩
  | rejectAddress peer hacceptor hfull =>
    rw [hacceptor] at hpeers
    exact ⟨hpeers, Nat.le_of_add_right_le hle⟩
  | entryFailed peer hacceptor hfree =>
    rw [hacceptor] at hpeers
    exact ⟨hpeers, Nat.le_of_add_right_le hle⟩
  | socketFailed peer hacceptor hfree =>
    rw [hacceptor] at hpeers
    exact ⟨hpeers, Nat.le_of_add_right_le hle⟩
  | register peer hacceptor hfree =>
    rw [hacceptor] at hpeers hle
    exact ⟨hpeers, hle⟩
  | count peer hacceptor =>
    -- the place was reserved
    rw [hacceptor] at hpeers hle
    dsimp only [Acceptor.counting, Acceptor.reserving] at hpeers hle
    dsimp only [Acceptor.counting, Acceptor.reserving]
    rw [fetchAdd_eq (by omega)]
    omega
  | start peer nowActive hacceptor =>
    rw [hacceptor] at hpeers hle
    dsimp only [Acceptor.counting, Acceptor.reserving] at hpeers hle
    dsimp only [Acceptor.counting, Acceptor.reserving]
    rw [total_append]
    exact ⟨hpeers, hle⟩
  | startFailed peer nowActive hacceptor =>
    rw [hacceptor] at hpeers hle
    dsimp only [Acceptor.counting, Acceptor.reserving] at hpeers hle
    exact ⟨hpeers, hle⟩
  | unwind hacceptor =>
    rw [hacceptor] at hpeers hle
    dsimp only [Acceptor.counting, Acceptor.reserving] at hpeers hle
    dsimp only [Acceptor.counting, Acceptor.reserving]
    rw [fetchSub_eq (by omega) (by omega)]
    omega
  | raise r fails hacceptor =>
    rw [hacceptor] at hpeers hle
    dsimp only [Acceptor.counting, Acceptor.reserving] at hpeers hle
    obtain ⟨hcounting, hreserving, -, -⟩ := raised_idle (r.next s.peakActivePeers fails).2
    dsimp only
    rw [hcounting, hreserving]
    exact ⟨hpeers, hle⟩

theorem accept_proofs (hstep : AcceptStep config s s') :
    s'.activeProofRequests = s.activeProofRequests ∧ s'.proofHolders = s.proofHolders := by
  unfold proofHolders
  cases hstep with
  | start =>
    dsimp only
    rw [total_append]
    exact ⟨rfl, rfl⟩
  | _ => exact ⟨rfl, rfl⟩

theorem Accounted.accept_byIp (h : s.Accounted config) (hstep : AcceptStep config s s') (key : UInt32) :
    s'.peersFromIp key = s'.listedFrom key ∧ s'.activePeersByIp key ≠ some 0 ∧
      s'.peersFromIp key ≤ config.maxPeersPerIp := by
  have hlimit := config.maxPeersPerIp_range
  have hbyIp := h.byIp key
  have hpositive := h.byIp_ne_zero key
  have hle := h.byIp_le key
  unfold peersFromIp at hle
  unfold peersFromIp listedFrom at hbyIp ⊢
  cases hstep with
  | rejectFull hacceptor hfull => exact ⟨hbyIp, hpositive, hle⟩
  | reserve peer hacceptor hfree hfresh =>
    rw [hacceptor] at hbyIp
    exact ⟨hbyIp, hpositive, hle⟩
  | rejectAddress peer hacceptor hfull =>
    rw [hacceptor] at hbyIp
    exact ⟨hbyIp, hpositive, hle⟩
  | entryFailed peer hacceptor hfree =>
    rw [hacceptor] at hbyIp
    exact ⟨hbyIp, hpositive, hle⟩
  | socketFailed peer hacceptor hfree =>
    rw [hacceptor] at hbyIp
    dsimp only
    rw [release_register (Nat.lt_of_lt_of_le hfree hlimit.2) (h.byIp_ne_zero _)]
    exact ⟨hbyIp, hpositive, hle⟩
  | register peer hacceptor hfree =>
    rw [hacceptor] at hbyIp
    have hroom := Nat.lt_of_lt_of_le hfree hlimit.2
    dsimp only [P2PServer.register, Acceptor.listed, Option.elim] at hbyIp ⊢
    rw [registerAddress_getD hroom]
    refine ⟨by omega, registerAddress_ne_zero hroom hpositive, ?_⟩
    split
    · rename_i hsame
      rw [← hsame]
      exact hfree
    · exact hle
  | count peer hacceptor =>
    rw [hacceptor] at hbyIp
    exact ⟨hbyIp, hpositive, hle⟩
  | start peer nowActive hacceptor =>
    rw [hacceptor] at hbyIp
    dsimp only
    rw [total_append]
    exact ⟨hbyIp, hpositive, hle⟩
  | startFailed peer nowActive hacceptor =>
    have hown := h.byIp peer.addressKey
    unfold peersFromIp listedFrom at hown
    rw [hacceptor] at hbyIp hown
    dsimp only [Acceptor.listed, Option.elim] at hbyIp hown ⊢
    rw [if_pos rfl] at hown
    have hpos : 0 < (s.activePeersByIp peer.addressKey).getD 0 := by omega
    have hrest := releaseAddress_getD hpos ((h.byIp_le _).trans hlimit.2) key
    dsimp only [unregister]
    exact ⟨by omega, releaseAddress_ne_zero hpositive, by omega⟩
  | unwind hacceptor =>
    rw [hacceptor] at hbyIp
    exact ⟨hbyIp, hpositive, hle⟩
  | raise r fails hacceptor =>
    rw [hacceptor] at hbyIp
    dsimp only
    rw [(raised_idle (r.next s.peakActivePeers fails).2).2.2.1]
    exact ⟨hbyIp, hpositive, hle⟩

theorem Accounted.accept_sockets (h : s.Accounted config) (hstep : AcceptStep config s s') (socket : Nat) :
    s'.clientSockets.count socket = s'.listedOn socket := by
  have hsockets := h.sockets socket
  have hone := (s.listedOn_le_connectedOn socket).trans (h.connected socket)
  unfold listedOn at hsockets hone ⊢
  cases hstep with
  | rejectFull hacceptor hfull => exact hsockets
  | reserve peer hacceptor hfree hfresh =>
    rw [hacceptor] at hsockets
    exact hsockets
  | rejectAddress peer hacceptor hfull =>
    rw [hacceptor] at hsockets
    exact hsockets
  | entryFailed peer hacceptor hfree =>
    rw [hacceptor] at hsockets
    exact hsockets
  | socketFailed peer hacceptor hfree =>
    rw [hacceptor] at hsockets
    exact hsockets
  | register peer hacceptor hfree =>
    rw [hacceptor] at hsockets
    dsimp only [P2PServer.register, Acceptor.listed, Option.elim] at hsockets ⊢
    rw [List.count_append, hsockets, List.count_singleton]
    by_cases hsame : peer.socket = socket
    · rw [if_pos hsame, if_pos (by simpa using hsame)]
    · rw [if_neg hsame, if_neg (by simpa using hsame)]
  | count peer hacceptor =>
    rw [hacceptor] at hsockets
    exact hsockets
  | start peer nowActive hacceptor =>
    rw [hacceptor] at hsockets
    dsimp only
    rw [total_append]
    exact hsockets
  | startFailed peer nowActive hacceptor =>
    rw [hacceptor] at hsockets hone
    dsimp only [unregister, Acceptor.listed, Option.elim] at hsockets hone ⊢
    rw [count_filter_socket]
    by_cases hsame : peer.socket = socket
    · rw [if_pos hsame] at hone
      rw [if_pos hsame.symm]
      omega
    · rw [if_neg hsame] at hsockets
      rw [if_neg (Ne.symm hsame), hsockets]
  | unwind hacceptor =>
    rw [hacceptor] at hsockets
    exact hsockets
  | raise r fails hacceptor =>
    rw [hacceptor] at hsockets
    dsimp only
    rw [(raised_idle (r.next s.peakActivePeers fails).2).2.2.1]
    exact hsockets

theorem Accounted.accept_connected (h : s.Accounted config) (hstep : AcceptStep config s s') (socket : Nat) :
    s'.connectedOn socket ≤ 1 := by
  have hle := h.connected socket
  unfold connectedOn at hle ⊢
  cases hstep with
  | rejectFull hacceptor hfull => exact hle
  | reserve peer hacceptor hfree hfresh =>
    unfold connectedOn at hfresh
    dsimp only [Acceptor.connected, Option.elim]
    split
    · rename_i hsame
      rw [hsame] at hfresh
      omega
    · omega
  | rejectAddress peer hacceptor hfull => exact Nat.le_trans (Nat.le_add_right _ _) hle
  | entryFailed peer hacceptor hfree => exact Nat.le_trans (Nat.le_add_right _ _) hle
  | socketFailed peer hacceptor hfree => exact Nat.le_trans (Nat.le_add_right _ _) hle
  | register peer hacceptor hfree =>
    rw [hacceptor] at hle
    exact hle
  | count peer hacceptor =>
    rw [hacceptor] at hle
    exact hle
  | start peer nowActive hacceptor =>
    rw [hacceptor] at hle
    dsimp only
    rw [total_append]
    exact hle
  | startFailed peer nowActive hacceptor => exact Nat.le_trans (Nat.le_add_right _ _) hle
  | unwind hacceptor => exact Nat.le_trans (Nat.le_add_right _ _) hle
  | raise r fails hacceptor =>
    dsimp only
    rw [(raised_idle (r.next s.peakActivePeers fails).2).2.2.2]
    exact Nat.le_trans (Nat.le_add_right _ _) hle

/-- **One step** of any thread keeps the accounts. -/
theorem Accounted.step (h : s.Accounted config) (hstep : Step config s s') : s'.Accounted config := by
  cases hstep with
  | client i c s' worker hi hworker => exact h.client hi hworker
  | accept _ haccept =>
    obtain ⟨hpeers, hpeersLe⟩ := h.accept_peers haccept
    obtain ⟨hproofs, hholders⟩ := accept_proofs haccept
    have hbyIp := h.accept_byIp haccept
    refine ⟨hpeers, hpeersLe, ?_, ?_, fun key => (hbyIp key).1, fun key => (hbyIp key).2.1, fun key => (hbyIp key).2.2,
      h.accept_sockets haccept, h.accept_connected haccept⟩
    · rw [hproofs, hholders]
      exact h.proofs
    · rw [hproofs]
      exact h.proofs_le

end P2PServer

end UtreexoBridge.P2P
