import UtreexoBridge.P2P.Message

/-!
# Messages on a connection (`ReadExactUntil`, `ReadMessageUntil`)

The bytes of a peer come in pieces of any size. What is read depends on the
bytes alone.
-/

namespace UtreexoBridge.P2P

open Bytes

/-! ## Pieces -/

/-- What one round of `poll` and `recv` yields. -/
inductive Arrival
  | data (bytes : List UInt8)
  /-- `EINTR`, `EAGAIN` or `EWOULDBLOCK`. -/
  | again
  /-- The deadline, or a failure. -/
  | ended (message : String)

/-- `ReadExactUntil`: the bytes, and what has not been taken. An empty piece is the end of the stream. -/
def readExactUntil : Nat → List Arrival → Except String (List UInt8 × List Arrival)
  | 0, arrivals => .ok ([], arrivals)
  | _ + 1, [] => .error "P2P message read timed out"
  | _ + 1, .ended message :: _ => .error message
  | need + 1, .again :: arrivals => readExactUntil (need + 1) arrivals
  | need + 1, .data bytes :: arrivals =>
    if bytes = [] then .error "P2P peer closed connection"
    else if need + 1 < bytes.length then .ok (bytes.take (need + 1), .data (bytes.drop (need + 1)) :: arrivals)
    else
      match readExactUntil (need + 1 - bytes.length) arrivals with
      | .error message => .error message
      | .ok (more, rest) => .ok (bytes ++ more, rest)

/-- The bytes that come before the stream ends. -/
def received : List Arrival → List UInt8
  | [] => []
  | .ended _ :: _ => []
  | .again :: arrivals => received arrivals
  | .data bytes :: arrivals => if bytes = [] then [] else bytes ++ received arrivals

theorem readExactUntil_ok {need : Nat} {arrivals rest : List Arrival} {bytes : List UInt8}
    (h : readExactUntil need arrivals = .ok (bytes, rest)) :
    bytes.length = need ∧ received arrivals = bytes ++ received rest := by
  induction arrivals generalizing need bytes with
  | nil =>
    cases need with
    | zero =>
      cases h
      exact ⟨rfl, rfl⟩
    | succ need => cases h
  | cons arrival arrivals ih =>
    cases need with
    | zero =>
      cases h
      exact ⟨rfl, rfl⟩
    | succ need =>
      cases arrival with
      | ended message => cases h
      | again => exact ih h
      | data piece =>
        rw [readExactUntil] at h
        split at h
        · cases h
        rename_i hpiece
        rw [received, if_neg hpiece]
        split at h
        · rename_i hlong
          cases h
          have hrest : piece.drop (need + 1) ≠ [] := by
            rw [Ne, List.drop_eq_nil_iff]
            omega
          refine ⟨by rw [List.length_take]; omega, ?_⟩
          rw [received, if_neg hrest, ← List.append_assoc, List.take_append_drop]
        · rename_i hshort
          split at h
          · cases h
          · rename_i more rest' hmore
            cases h
            obtain ⟨hlength, hbytes⟩ := ih hmore
            refine ⟨by rw [List.length_append]; omega, ?_⟩
            rw [hbytes, List.append_assoc]

theorem readExactUntil_of_le {need : Nat} {arrivals : List Arrival} (h : need ≤ (received arrivals).length) :
    ∃ rest, readExactUntil need arrivals = .ok ((received arrivals).take need, rest) ∧
      received rest = (received arrivals).drop need := by
  have hexists : ∃ bytes rest, readExactUntil need arrivals = .ok (bytes, rest) := by
    induction arrivals generalizing need with
    | nil =>
      obtain rfl : need = 0 := Nat.le_zero.mp h
      exact ⟨[], [], rfl⟩
    | cons arrival arrivals ih =>
      cases need with
      | zero => exact ⟨[], _, rfl⟩
      | succ need =>
        cases arrival with
        | ended message => exact absurd h (Nat.not_succ_le_zero need)
        | again => exact ih h
        | data piece =>
          rw [received] at h
          rw [readExactUntil]
          split_ifs at h ⊢ with hpiece hlong
          · exact absurd h (Nat.not_succ_le_zero need)
          · exact ⟨_, _, rfl⟩
          · rw [List.length_append] at h
            obtain ⟨bytes, rest, hread⟩ := @ih (need + 1 - piece.length) (by omega)
            rw [hread]
            exact ⟨_, _, rfl⟩
  obtain ⟨bytes, rest, hread⟩ := hexists
  obtain ⟨hlength, hbytes⟩ := readExactUntil_ok hread
  refine ⟨rest, ?_, ?_⟩
  · rw [hread, hbytes, ← hlength, List.take_left]
  · rw [hbytes, ← hlength, List.drop_left]

/-! ## One message -/

section Read

variable (H : Type) [Wire.WireHash H]

/-- `ReadMessageUntil`: the message, what is left of the budget, and what has not been taken. -/
def readMessageUntil (network : BitcoinNetwork) (maxPayload : Nat) (budget : Option Nat) (arrivals : List Arrival) :
    Except String (P2PMessage × Option Nat × List Arrival) :=
  match readExactUntil messageHeaderSize arrivals with
  | .error message => .error message
  | .ok (header, arrivals) =>
    if header.take 4 ≠ networkMagic network then .error "wrong P2P network magic"
    else if payloadLength header > maxPayload then .error "P2P payload exceeds configured maximum"
    else
      let wireBytes := messageHeaderSize + payloadLength header
      if budget.any fun remaining => wireBytes > remaining then .error "P2P inbound byte rate limit exceeded"
      else
        match readExactUntil (payloadLength header) arrivals with
        | .error message => .error message
        | .ok (payload, arrivals) =>
          match decodeP2PMessage H network (header ++ payload) maxPayload with
          | .error message => .error message
          | .ok message => .ok (message, budget.map (· - wireBytes), arrivals)

def readMessages (network : BitcoinNetwork) (maxPayload : Nat) : Nat → List Arrival →
    Except String (List P2PMessage × List Arrival)
  | 0, arrivals => .ok ([], arrivals)
  | count + 1, arrivals =>
    match readMessageUntil H network maxPayload none arrivals with
    | .error message => .error message
    | .ok (m, _, arrivals) =>
      match readMessages network maxPayload count arrivals with
      | .error message => .error message
      | .ok (messages, arrivals) => .ok (m :: messages, arrivals)

end Read

variable {H : Type} [Wire.WireHash H] {network : BitcoinNetwork} {m : P2PMessage} {limit : Nat} {budget : Option Nat}
  {arrivals : List Arrival}

theorem payloadLength_append {header : List UInt8} (h : header.length = messageHeaderSize) (payload : List UInt8) :
    payloadLength (header ++ payload) = payloadLength header := by
  unfold payloadLength
  unfold messageHeaderSize at h
  rw [List.drop_append_of_le_length (by omega), List.take_append_of_le_length (by rw [List.length_drop]; omega)]

theorem readMessageUntil_ok {budget' : Option Nat} {rest : List Arrival}
    (h : readMessageUntil H network limit budget arrivals = .ok (m, budget', rest)) :
    m.Sendable ∧ m.payload.length ≤ limit ∧ received arrivals = m.wire H network ++ received rest ∧
      (∀ remaining ∈ budget, (m.wire H network).length ≤ remaining) ∧
        budget' = budget.map (· - (m.wire H network).length) := by
  unfold readMessageUntil at h
  cases hheader : readExactUntil messageHeaderSize arrivals with
  | error message =>
    rw [hheader] at h
    cases h
  | ok result =>
    obtain ⟨header, rest1⟩ := result
    rw [hheader] at h
    dsimp only at h
    obtain ⟨hlength, hbytes⟩ := readExactUntil_ok hheader
    split at h
    · cases h
    split at h
    · cases h
    split at h
    · cases h
    rename_i hbudget
    cases hpayload : readExactUntil (payloadLength header) rest1 with
    | error message =>
      rw [hpayload] at h
      cases h
    | ok result =>
      obtain ⟨payload, rest2⟩ := result
      rw [hpayload] at h
      dsimp only at h
      obtain ⟨hsize, hbytes'⟩ := readExactUntil_ok hpayload
      split at h
      · cases h
      · rename_i hdecode
        cases h
        obtain ⟨hsendable, hlimit, hwire⟩ := decodeP2PMessage_iff.mp hdecode
        have hcount : (m.wire H network).length = messageHeaderSize + payloadLength header := by
          rw [← hwire, List.length_append, hlength, hsize]
        refine ⟨hsendable, hlimit, by rw [hbytes, hbytes', ← hwire, List.append_assoc], ?_, by rw [hcount]⟩
        rintro remaining hremaining
        rw [hcount]
        by_contra hover
        refine hbudget (Option.any_eq_true _ _ |>.mpr ⟨remaining, hremaining, ?_⟩)
        simpa using hover

theorem readMessageUntil_wire (h : m.Sendable) (hlimit : m.payload.length ≤ limit) {tail : List UInt8}
    (hbytes : received arrivals = m.wire H network ++ tail)
    (hbudget : ∀ remaining ∈ budget, (m.wire H network).length ≤ remaining) :
    ∃ rest, readMessageUntil H network limit budget arrivals =
      .ok (m, budget.map (· - (m.wire H network).length), rest) ∧ received rest = tail := by
  have hlength : (m.wire H network).length = messageHeaderSize + m.payload.length := length_wire h.short
  have hsize : payloadLength (m.wire H network) = m.payload.length := payloadLength_wire h
  obtain ⟨hmagic, -, -, -, hpayload⟩ := header_fields (length_networkMagic network)
    (length_commandBytes h.short) (length_appendUnsigned 4 m.payload.length) (length_payloadChecksum H m.payload)
  -- the header
  have hheaderLength : ((m.wire H network).take messageHeaderSize).length = messageHeaderSize := by
    rw [List.length_take]
    omega
  have hmagic' : ((m.wire H network).take messageHeaderSize).take 4 = networkMagic network := by
    rw [List.take_take]
    exact hmagic
  have hsize' : payloadLength ((m.wire H network).take messageHeaderSize) = m.payload.length := by
    have happend := payloadLength_append hheaderLength ((m.wire H network).drop messageHeaderSize)
    rw [← hsize, ← happend, List.take_append_drop]
  have htake : (received arrivals).take messageHeaderSize = (m.wire H network).take messageHeaderSize := by
    rw [hbytes, List.take_append_of_le_length (by omega)]
  have hdrop : (received arrivals).drop messageHeaderSize = m.payload ++ tail := by
    rw [hbytes, List.drop_append_of_le_length (by omega)]
    exact congrArg (· ++ tail) hpayload
  have hle : messageHeaderSize ≤ (received arrivals).length := by
    rw [hbytes, List.length_append]
    omega
  obtain ⟨rest1, hheader, hrest1⟩ := readExactUntil_of_le hle
  rw [htake] at hheader
  rw [hdrop] at hrest1
  -- the payload
  have hle' : m.payload.length ≤ (received rest1).length := by
    rw [hrest1, List.length_append]
    omega
  obtain ⟨rest2, hread, hrest2⟩ := readExactUntil_of_le hle'
  rw [hrest1, List.take_left] at hread
  rw [hrest1, List.drop_left] at hrest2
  have hwire : (m.wire H network).take messageHeaderSize ++ m.payload = m.wire H network := by
    conv_rhs => rw [← List.take_append_drop messageHeaderSize (m.wire H network)]
    exact congrArg _ hpayload.symm
  refine ⟨rest2, ?_, hrest2⟩
  unfold readMessageUntil
  rw [hheader]
  dsimp only
  rw [hmagic', if_neg (by simp), hsize', if_neg (Nat.not_lt.mpr hlimit), if_neg, hread]
  · dsimp only
    rw [hwire, decode_wire h hlimit, hlength]
  · rintro hover
    obtain ⟨remaining, hremaining, hlarge⟩ := (Option.any_eq_true _ _).mp hover
    have hfits := hbudget remaining hremaining
    rw [hlength] at hfits
    exact absurd (of_decide_eq_true hlarge) (Nat.not_lt.mpr hfits)

theorem readMessages_length {count : Nat} {ms : List P2PMessage} {rest : List Arrival}
    (h : readMessages H network limit count arrivals = .ok (ms, rest)) : ms.length = count := by
  induction count generalizing arrivals ms with
  | zero =>
    cases h
    rfl
  | succ count ih =>
    unfold readMessages at h
    split at h
    · cases h
    split at h
    · cases h
    · rename_i hmore
      cases h
      rw [List.length_cons, ih hmore]

theorem readMessages_iff {ms : List P2PMessage} {tail : List UInt8} :
    (∃ rest, readMessages H network limit ms.length arrivals = .ok (ms, rest) ∧ received rest = tail) ↔
      (∀ m ∈ ms, m.Sendable ∧ m.payload.length ≤ limit) ∧
        received arrivals = ms.flatMap (·.wire H network) ++ tail := by
  induction ms generalizing arrivals with
  | nil =>
    constructor
    · rintro ⟨rest, h, htail⟩
      cases h
      exact ⟨fun m hm => absurd hm List.not_mem_nil, htail⟩
    · rintro ⟨-, htail⟩
      exact ⟨arrivals, rfl, htail⟩
  | cons m ms ih =>
    rw [List.length_cons, List.flatMap_cons, List.append_assoc, List.forall_mem_cons]
    unfold readMessages
    constructor
    · rintro ⟨rest, h, htail⟩
      cases hfirst : readMessageUntil H network limit none arrivals with
      | error message =>
        rw [hfirst] at h
        cases h
      | ok result =>
        obtain ⟨m1, budget', rest1⟩ := result
        rw [hfirst] at h
        dsimp only at h
        split at h
        · cases h
        · rename_i hmore
          cases h
          obtain ⟨hsendable, hlimit, hbytes, -⟩ := readMessageUntil_ok hfirst
          obtain ⟨hall, hbytes'⟩ := ih.mp ⟨rest, hmore, htail⟩
          exact ⟨⟨⟨hsendable, hlimit⟩, hall⟩, by rw [hbytes, hbytes']⟩
    · rintro ⟨⟨⟨hsendable, hlimit⟩, hall⟩, hbytes⟩
      obtain ⟨rest1, hfirst, hrest1⟩ := readMessageUntil_wire hsendable hlimit hbytes
        (show ∀ remaining ∈ (none : Option Nat), _ from fun remaining h => nomatch h)
      obtain ⟨rest, hmore, htail⟩ := ih.mpr ⟨hall, hrest1⟩
      refine ⟨rest, ?_, htail⟩
      rw [hfirst]
      dsimp only
      rw [hmore]

end UtreexoBridge.P2P
