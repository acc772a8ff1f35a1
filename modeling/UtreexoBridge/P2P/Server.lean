import UtreexoBridge.SharedCounters

/-!
# The peers of a server (`AcceptLoop`, `RemoveClient`, `TryAcquireProofWork`, `UpdatePeak`)

The accepting thread and the threads of the peers share counters, and a step of
a thread is one atomic operation or one critical section. The limits hold in
every order of steps, no count is lost, and the peaks are exact.
-/

namespace UtreexoBridge.P2P

open SharedCounters

/-! ## The state -/

/-- The limits that `ValidateP2PServerConfig` takes. -/
structure P2PServerConfig where
  maxPeers : Nat
  maxPeersPerIp : Nat
  maxConcurrentProofRequests : Nat
  maxPeers_range : 0 < maxPeers ∧ maxPeers ≤ 1024
  maxPeersPerIp_range : 0 < maxPeersPerIp ∧ maxPeersPerIp ≤ 1024
  maxConcurrentProofRequests_range : 0 < maxConcurrentProofRequests ∧ maxConcurrentProofRequests ≤ 1024

structure Peer where
  socket : Nat
  addressKey : UInt32
  deriving DecidableEq

/-- The accepting thread. It holds `clients_mutex` from `admitted` on. -/
inductive Acceptor
  | waiting
  /-- `active_peers` was below the limit. -/
  | admitted (peer : Peer)
  /-- The peer is in the containers. -/
  | registered (peer : Peer)
  /-- `active_peers` counts the peer. -/
  | counted (peer : Peer) (nowActive : Nat)
  /-- No thread could be made, and the peer is out of the containers. -/
  | unwinding
  /-- The peer has its thread, and `UpdatePeak` runs. -/
  | started (raise : Raise)

/-- The thread of a peer. -/
inductive Worker
  | serving
  /-- `TryAcquireProofWork` with the value it knows. -/
  | acquiring (active : Nat)
  /-- It holds proof work; `UpdatePeak` may be running. -/
  | working (raise : Option Raise)
  /-- `RemoveClient` behind its critical section. -/
  | removed
  /-- The socket is closed. -/
  | closed
  | finished

structure Client where
  peer : Peer
  worker : Worker

structure P2PServer where
  activePeers : Nat
  peakActivePeers : Nat
  activeProofRequests : Nat
  peakActiveProofRequests : Nat
  acceptedPeers : Nat
  rejectedMaxPeers : Nat
  rejectedPerIp : Nat
  activePeersByIp : UInt32 → Option Nat
  clientSockets : List Nat
  acceptor : Acceptor
  clients : List Client

def P2PServer.init : P2PServer :=
  ⟨0, 0, 0, 0, 0, 0, 0, fun _ => none, [], .waiting, []⟩

/-! ## Operations -/

/-- `fetch_add(1)` on 32 bits. -/
def fetchAdd (counter : Nat) : Nat := (counter + 1) % 2 ^ 32

/-- `fetch_sub(1)` on 32 bits. -/
def fetchSub (counter : Nat) : Nat := (counter + (2 ^ 32 - 1)) % 2 ^ 32

/-- `try_emplace` and the increment. -/
def registerAddress (byIp : UInt32 → Option Nat) (key : UInt32) : UInt32 → Option Nat :=
  fun k => if k = key then some (fetchAdd ((byIp key).getD 0)) else byIp k

/-- The decrement, and the erasure of an entry that became zero. -/
def releaseAddress (byIp : UInt32 → Option Nat) (key : UInt32) : UInt32 → Option Nat :=
  match byIp key with
  | none => byIp
  | some count => fun k => if k = key then (if fetchSub count = 0 then none else some (fetchSub count)) else byIp k

namespace P2PServer

def peersFromIp (s : P2PServer) (key : UInt32) : Nat := (s.activePeersByIp key).getD 0

/-- Into `active_peers_by_ip` and `client_sockets`. -/
def register (s : P2PServer) (peer : Peer) : P2PServer :=
  { s with activePeersByIp := registerAddress s.activePeersByIp peer.addressKey,
           clientSockets := s.clientSockets ++ [peer.socket] }

def unregister (s : P2PServer) (peer : Peer) : P2PServer :=
  { s with activePeersByIp := releaseAddress s.activePeersByIp peer.addressKey,
           clientSockets := s.clientSockets.filter (· ≠ peer.socket) }

end P2PServer

/-! ## What a thread has -/

/-- In `active_peers`. -/
def Worker.counted : Worker → Nat
  | .finished => 0
  | _ => 1

def Worker.listed : Worker → Nat
  | .serving | .acquiring _ | .working _ => 1
  | _ => 0

/-- In `active_proof_requests`. -/
def Worker.holding : Worker → Nat
  | .working _ => 1
  | _ => 0

def Worker.connected : Worker → Nat
  | .closed | .finished => 0
  | _ => 1

def Worker.raising : Worker → Option Raise
  | .working raise => raise
  | _ => none

def Acceptor.counting : Acceptor → Nat
  | .counted _ _ | .unwinding => 1
  | _ => 0

/-- A place below `max_peers` that is taken but not counted. -/
def Acceptor.reserving : Acceptor → Nat
  | .admitted _ | .registered _ => 1
  | _ => 0

/-- The peer that is in the containers and has no thread. -/
def Acceptor.listed : Acceptor → Option Peer
  | .registered peer | .counted peer _ => some peer
  | _ => none

def Acceptor.connected : Acceptor → Option Peer
  | .admitted peer | .registered peer | .counted peer _ => some peer
  | _ => none

def Acceptor.raising : Acceptor → Option Raise
  | .started raise => some raise
  | _ => none

namespace P2PServer

def countedPeers (s : P2PServer) : Nat := total (·.worker.counted) s.clients + s.acceptor.counting

def proofHolders (s : P2PServer) : Nat := total (·.worker.holding) s.clients

/-- The peers of an address in the containers. -/
def listedFrom (s : P2PServer) (key : UInt32) : Nat :=
  total (fun c => if c.peer.addressKey = key then c.worker.listed else 0) s.clients +
    s.acceptor.listed.elim 0 fun peer => if peer.addressKey = key then 1 else 0

/-- The peers with a socket in the containers. -/
def listedOn (s : P2PServer) (socket : Nat) : Nat :=
  total (fun c => if c.peer.socket = socket then c.worker.listed else 0) s.clients +
    s.acceptor.listed.elim 0 fun peer => if peer.socket = socket then 1 else 0

/-- The open peers with a socket. -/
def connectedOn (s : P2PServer) (socket : Nat) : Nat :=
  total (fun c => if c.peer.socket = socket then c.worker.connected else 0) s.clients +
    s.acceptor.connected.elim 0 fun peer => if peer.socket = socket then 1 else 0

/-- The threads that are in `UpdatePeak` for the proofs. -/
def raisingProofs (s : P2PServer) (r : Raise) : Prop := ∃ c ∈ s.clients, c.worker.raising = some r

def raisingPeers (s : P2PServer) (r : Raise) : Prop := s.acceptor.raising = some r

end P2PServer

/-! ## Steps -/

/-- A step of the thread of a peer on what is shared. Only `remove` needs the lock. -/
inductive WorkerStep (config : P2PServerConfig) (peer : Peer) : P2PServer → Worker → P2PServer → Worker → Prop
  | load (s) : WorkerStep config peer s .serving s (.acquiring s.activeProofRequests)
  | busy (s active) : ¬active < config.maxConcurrentProofRequests → WorkerStep config peer s (.acquiring active) s .serving
  | acquire (s) : s.activeProofRequests < config.maxConcurrentProofRequests →
      WorkerStep config peer s (.acquiring s.activeProofRequests)
        { s with activeProofRequests := fetchAdd s.activeProofRequests }
        (.working (some (.load (fetchAdd s.activeProofRequests))))
  | retry (s active) : active < config.maxConcurrentProofRequests →
      WorkerStep config peer s (.acquiring active) s (.acquiring s.activeProofRequests)
  | raise (s r fails) : WorkerStep config peer s (.working (some r))
      { s with peakActiveProofRequests := (r.next s.peakActiveProofRequests fails).1 }
      (.working (r.next s.peakActiveProofRequests fails).2)
  | release (s) : WorkerStep config peer s (.working none)
      { s with activeProofRequests := fetchSub s.activeProofRequests } .serving
  | remove (s) : s.acceptor = .waiting → WorkerStep config peer s .serving (s.unregister peer) .removed
  | close (s) : WorkerStep config peer s .removed s .closed
  | leave (s) : WorkerStep config peer s .closed { s with activePeers := fetchSub s.activePeers } .finished

/-- A step of the accepting thread. `accept` gives a socket that is not open. -/
inductive AcceptStep (config : P2PServerConfig) : P2PServer → P2PServer → Prop
  | rejectFull (s) : s.acceptor = .waiting → ¬s.activePeers < config.maxPeers →
      AcceptStep config s { s with rejectedMaxPeers := s.rejectedMaxPeers + 1 }
  | reserve (s peer) : s.acceptor = .waiting → s.activePeers < config.maxPeers → s.connectedOn peer.socket = 0 →
      AcceptStep config s { s with acceptor := .admitted peer }
  | rejectAddress (s peer) : s.acceptor = .admitted peer → ¬s.peersFromIp peer.addressKey < config.maxPeersPerIp →
      AcceptStep config s { s with rejectedPerIp := s.rejectedPerIp + 1, acceptor := .waiting }
  /-- No room for the worker or the entry of the address. -/
  | entryFailed (s peer) : s.acceptor = .admitted peer → s.peersFromIp peer.addressKey < config.maxPeersPerIp →
      AcceptStep config s { s with acceptor := .waiting }
  /-- No room for the socket: the address is registered and taken back. -/
  | socketFailed (s peer) : s.acceptor = .admitted peer → s.peersFromIp peer.addressKey < config.maxPeersPerIp →
      AcceptStep config s
        { s with acceptor := .waiting,
                 activePeersByIp := releaseAddress (registerAddress s.activePeersByIp peer.addressKey) peer.addressKey }
  | register (s peer) : s.acceptor = .admitted peer → s.peersFromIp peer.addressKey < config.maxPeersPerIp →
      AcceptStep config s { s.register peer with acceptor := .registered peer }
  | count (s peer) : s.acceptor = .registered peer →
      AcceptStep config s
        { s with activePeers := fetchAdd s.activePeers, acceptor := .counted peer (fetchAdd s.activePeers) }
  | start (s peer nowActive) : s.acceptor = .counted peer nowActive →
      AcceptStep config s { s with clients := s.clients ++ [⟨peer, .serving⟩], acceptedPeers := s.acceptedPeers + 1,
                                   acceptor := .started (.load nowActive) }
  | startFailed (s peer nowActive) : s.acceptor = .counted peer nowActive →
      AcceptStep config s { s.unregister peer with acceptor := .unwinding }
  | unwind (s) : s.acceptor = .unwinding →
      AcceptStep config s { s with activePeers := fetchSub s.activePeers, acceptor := .waiting }
  | raise (s r fails) : s.acceptor = .started r →
      AcceptStep config s
        { s with peakActivePeers := (r.next s.peakActivePeers fails).1,
                 acceptor := (r.next s.peakActivePeers fails).2.elim .waiting .started }

inductive Step (config : P2PServerConfig) : P2PServer → P2PServer → Prop
  | accept (s s') : AcceptStep config s s' → Step config s s'
  | client (s i c s' worker) : s.clients[i]? = some c → WorkerStep config c.peer s c.worker s' worker →
      Step config s { s' with clients := s.clients.set i ⟨c.peer, worker⟩ }

/-- The number of peers with which the accepting thread is in `UpdatePeak`. -/
def P2PServer.accepted (s : P2PServer) : Nat := s.acceptor.raising.elim 0 Raise.value

/-- The states of a run, with the greatest number of peers at which one was accepted, and of holders of proof work. -/
inductive Reaches (config : P2PServerConfig) : P2PServer → Nat → Nat → Prop
  | init : Reaches config P2PServer.init 0 0
  | step (s s' highPeers highProofs) : Reaches config s highPeers highProofs → Step config s s' →
      Reaches config s' (max highPeers s'.accepted) (max highProofs s'.activeProofRequests)

end UtreexoBridge.P2P
