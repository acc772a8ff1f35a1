import UtreexoBridge.P2P.Stream

/-!
# From a sender to a reader (`SendAllUntil`, `SendMessageUntil`)

A send may stop anywhere. The reader gets the messages whose send succeeded, and
no other.
-/

namespace UtreexoBridge.P2P

open Bytes

/-! ## Sending -/

/-- What one round of `poll` and `send` yields. -/
inductive Departure
  | taken (count : Nat)
  /-- `EINTR`, `EAGAIN` or `EWOULDBLOCK`. -/
  | again
  /-- The deadline, or a failure. -/
  | ended (message : String)

/-- `SendAllUntil`: the bytes that went out, and the rounds that are left or the failure. -/
def sendAllUntil : List UInt8 → List Departure → List UInt8 × Except String (List Departure)
  | [], departures => ([], .ok departures)
  | _ :: _, [] => ([], .error "P2P message write timed out")
  | _ :: _, .ended message :: _ => ([], .error message)
  | c :: data, .again :: departures => sendAllUntil (c :: data) departures
  | c :: data, .taken count :: departures =>
    if count = 0 then ([], .error "socket write made no progress")
    else
      let (sent, result) := sendAllUntil ((c :: data).drop count) departures
      ((c :: data).take count ++ sent, result)

section Send

variable (H : Type) [Wire.WireHash H]

def sendMessageUntil (network : BitcoinNetwork) (m : P2PMessage) (departures : List Departure) :
    List UInt8 × Except String (List Departure) :=
  match encodeP2PHeader H network m.command m.payload with
  | .error message => ([], .error message)
  | .ok header =>
    match sendAllUntil header departures with
    | (sent, .error message) => (sent, .error message)
    | (sent, .ok departures) =>
      let (more, result) := sendAllUntil m.payload departures
      (sent ++ more, result)

/-- Messages, one after the other until a send fails: the bytes that went out, and the messages whose send succeeded. -/
def sendMessages (network : BitcoinNetwork) : List P2PMessage → List Departure → List UInt8 × List P2PMessage
  | [], _ => ([], [])
  | m :: messages, departures =>
    match sendMessageUntil H network m departures with
    | (sent, .error _) => (sent, [])
    | (sent, .ok departures) =>
      let (more, done) := sendMessages network messages departures
      (sent ++ more, m :: done)

end Send

theorem sendAllUntil_spec (data : List UInt8) (departures : List Departure) :
    (sendAllUntil data departures).1 <+: data ∧
      ((sendAllUntil data departures).1 = data ↔ ∃ rest, (sendAllUntil data departures).2 = .ok rest) := by
  induction departures generalizing data with
  | nil =>
    cases data with
    | nil => exact ⟨List.prefix_refl [], fun _ => ⟨[], rfl⟩, fun _ => rfl⟩
    | cons c data => exact ⟨List.nil_prefix, iff_of_false (List.cons_ne_nil c data).symm fun ⟨_, h⟩ => nomatch h⟩
  | cons departure departures ih =>
    cases data with
    | nil => exact ⟨List.prefix_refl [], fun _ => ⟨_, rfl⟩, fun _ => rfl⟩
    | cons c data =>
      cases departure with
      | ended message => exact ⟨List.nil_prefix, iff_of_false (List.cons_ne_nil c data).symm fun ⟨_, h⟩ => nomatch h⟩
      | again => exact ih (c :: data)
      | taken count =>
        rw [sendAllUntil]
        split
        · exact ⟨List.nil_prefix, iff_of_false (List.cons_ne_nil c data).symm fun ⟨_, h⟩ => nomatch h⟩
        · obtain ⟨hpart, hall⟩ := ih ((c :: data).drop count)
          have hsplit := List.take_append_drop count (c :: data)
          refine ⟨?_, Iff.trans ⟨fun h => ?_, fun h => ?_⟩ hall⟩
          · conv_rhs => rw [← hsplit]
            exact (List.prefix_append_right_inj _).mpr hpart
          · exact List.append_cancel_left (h.trans hsplit.symm)
          · dsimp only
            rw [h, hsplit]

section Delivery

variable {H : Type} [Wire.WireHash H] {network : BitcoinNetwork} {limit : Nat} {arrivals : List Arrival}

theorem sendMessageUntil_ok {m : P2PMessage} {departures rest : List Departure} {sent : List UInt8}
    (h : sendMessageUntil H network m departures = (sent, .ok rest)) : m.Sendable ∧ sent = m.wire H network := by
  unfold sendMessageUntil at h
  cases hheader : encodeP2PHeader H network m.command m.payload with
  | error message =>
    rw [hheader] at h
    cases h
  | ok header =>
    rw [hheader] at h
    obtain ⟨hsendable, hwire⟩ := encodeP2PHeader_ok hheader
    refine ⟨hsendable, ?_⟩
    obtain ⟨-, hall⟩ := sendAllUntil_spec header departures
    dsimp only at h
    rcases hfirst : sendAllUntil header departures with ⟨sent1, message | departures1⟩
    · rw [hfirst] at h
      cases h
    · rw [hfirst] at h hall
      obtain ⟨-, hall'⟩ := sendAllUntil_spec m.payload departures1
      obtain ⟨hsent, hresult⟩ := Prod.mk.inj h
      rw [← hsent, ← hwire, ← hall.mpr ⟨_, rfl⟩, hall'.mpr ⟨_, hresult⟩]

theorem sendMessageUntil_error {m : P2PMessage} {departures : List Departure} {sent : List UInt8} {message : String}
    (h : sendMessageUntil H network m departures = (sent, .error message)) :
    sent = [] ∨ m.Sendable ∧ ∃ missing, missing ≠ [] ∧ sent ++ missing = m.wire H network := by
  unfold sendMessageUntil at h
  cases hheader : encodeP2PHeader H network m.command m.payload with
  | error message' =>
    rw [hheader] at h
    exact Or.inl (Prod.mk.inj h).1.symm
  | ok header =>
    rw [hheader] at h
    obtain ⟨hsendable, hwire⟩ := encodeP2PHeader_ok hheader
    refine Or.inr ⟨hsendable, ?_⟩
    obtain ⟨⟨missing, hmissing⟩, hall⟩ := sendAllUntil_spec header departures
    dsimp only at h
    rcases hfirst : sendAllUntil header departures with ⟨sent1, message1 | departures1⟩
    · -- the header is cut
      rw [hfirst] at h hmissing hall
      obtain ⟨rfl, -⟩ := Prod.mk.inj h
      refine ⟨missing ++ m.payload, ?_, by rw [← List.append_assoc, hmissing, hwire]⟩
      rintro hempty
      rw [(List.append_eq_nil_iff.mp hempty).1, List.append_nil] at hmissing
      obtain ⟨rest, hrest⟩ := hall.mp hmissing
      cases hrest
    · -- the payload is cut
      rw [hfirst] at h hall
      have hheader' : sent1 = header := hall.mpr ⟨departures1, rfl⟩
      obtain ⟨⟨missing', hmissing'⟩, hall'⟩ := sendAllUntil_spec m.payload departures1
      obtain ⟨hsent, hresult⟩ := Prod.mk.inj h
      refine ⟨missing', ?_, by rw [← hsent, hheader', List.append_assoc, hmissing', hwire]⟩
      rintro rfl
      rw [List.append_nil] at hmissing'
      obtain ⟨rest, hrest⟩ := hall'.mp hmissing'
      rw [hresult] at hrest
      cases hrest

theorem sendMessages_spec (messages : List P2PMessage) (departures : List Departure) :
    ∃ part, (sendMessages H network messages departures).2 <+: messages ∧
      (∀ m ∈ (sendMessages H network messages departures).2, m.Sendable) ∧
      (sendMessages H network messages departures).1 =
        (sendMessages H network messages departures).2.flatMap (·.wire H network) ++ part ∧
      (part = [] ∨ ∃ m : P2PMessage, m.Sendable ∧ ∃ missing, missing ≠ [] ∧ part ++ missing = m.wire H network) := by
  induction messages generalizing departures with
  | nil => exact ⟨[], List.prefix_refl [], fun m hm => absurd hm List.not_mem_nil, rfl, Or.inl rfl⟩
  | cons m messages ih =>
    unfold sendMessages
    rcases hsend : sendMessageUntil H network m departures with ⟨sent, message | departures'⟩
    · refine ⟨sent, List.nil_prefix, fun m hm => absurd hm List.not_mem_nil, rfl, ?_⟩
      exact (sendMessageUntil_error hsend).imp_right fun hpart => ⟨m, hpart⟩
    · obtain ⟨hsendable, rfl⟩ := sendMessageUntil_ok hsend
      obtain ⟨part, hdone, hall, hbytes, hpart⟩ := ih departures'
      refine ⟨part, List.cons_prefix_cons.mpr ⟨rfl, hdone⟩, List.forall_mem_cons.mpr ⟨hsendable, hall⟩, ?_, hpart⟩
      dsimp only
      rw [List.flatMap_cons, List.append_assoc, ← hbytes]

/-! ## One message begins no other -/

theorem eq_of_wire_append {m m' : P2PMessage} {tail tail' : List UInt8} (h : m.Sendable) (h' : m'.Sendable)
    (hbytes : m.wire H network ++ tail = m'.wire H network ++ tail') : m = m' ∧ tail = tail' := by
  have hne : m.wire H network ++ tail ≠ [] := by
    have hlength : (m.wire H network).length = messageHeaderSize + m.payload.length := length_wire h.short
    intro hempty
    rw [(List.append_eq_nil_iff.mp hempty).1, List.length_nil, messageHeaderSize] at hlength
    omega
  have hreceived : received [.data (m.wire H network ++ tail)] = m.wire H network ++ tail := by
    rw [received, if_neg hne, received, List.append_nil]
  have hlimit := Nat.le_max_left m.payload.length m'.payload.length
  have hlimit' := Nat.le_max_right m.payload.length m'.payload.length
  have hbudget : ∀ message : P2PMessage, ∀ remaining ∈ (none : Option Nat),
      (message.wire H network).length ≤ remaining :=
    fun _ remaining hnone => absurd hnone (Option.not_mem_none remaining)
  -- both are what is read
  obtain ⟨rest, hread, hrest⟩ := readMessageUntil_wire h hlimit hreceived (hbudget m)
  obtain ⟨rest', hread', hrest'⟩ := readMessageUntil_wire h' hlimit' (hreceived.trans hbytes) (hbudget m')
  rw [hread] at hread'
  obtain ⟨hm, hpair⟩ := Prod.mk.inj (Except.ok.inj hread')
  exact ⟨hm, by rw [← hrest, ← hrest', (Prod.mk.inj hpair).2]⟩

theorem begins_of_flatMap_wire {ms done : List P2PMessage} {part tail : List UInt8} (hms : ∀ m ∈ ms, m.Sendable)
    (hdone : ∀ m ∈ done, m.Sendable)
    (hpart : part = [] ∨ ∃ m : P2PMessage, m.Sendable ∧ ∃ missing, missing ≠ [] ∧ part ++ missing = m.wire H network)
    (hbytes : ms.flatMap (·.wire H network) ++ tail = done.flatMap (·.wire H network) ++ part) : ms <+: done := by
  induction ms generalizing done with
  | nil => exact List.nil_prefix
  | cons m ms ih =>
    obtain ⟨hm, hms⟩ := List.forall_mem_cons.mp hms
    rw [List.flatMap_cons, List.append_assoc] at hbytes
    cases done with
    | nil =>
      rw [List.flatMap_nil, List.nil_append] at hbytes
      rcases hpart with rfl | ⟨m', hm', missing, hmissing, hwire⟩
      · have hlength : (m.wire H network).length = messageHeaderSize + m.payload.length := length_wire hm.short
        rw [(List.append_eq_nil_iff.mp hbytes).1, List.length_nil, messageHeaderSize] at hlength
        omega
      · rw [← hbytes, List.append_assoc] at hwire
        have hcut := (eq_of_wire_append hm hm' (hwire.trans (List.append_nil _).symm)).2
        exact absurd (List.append_eq_nil_iff.mp hcut).2 hmissing
    | cons m' done =>
      obtain ⟨hm', hdone'⟩ := List.forall_mem_cons.mp hdone
      rw [List.flatMap_cons, List.append_assoc] at hbytes
      obtain ⟨rfl, hrest⟩ := eq_of_wire_append hm hm' hbytes
      exact List.cons_prefix_cons.mpr ⟨rfl, ih hms hdone' hrest⟩

/-! ## Delivery -/

/-- **Delivery.** Wherever the sends stop and however the bytes are cut, a reader of a part of the bytes gets messages
whose send succeeded, in their order, and a reader of all of them gets all of these. -/
theorem messages_delivered (messages : List P2PMessage) (departures : List Departure) :
    (sendMessages H network messages departures).2 <+: messages ∧
      (received arrivals <+: (sendMessages H network messages departures).1 → ∀ count ms rest,
        readMessages H network limit count arrivals = .ok (ms, rest) →
          ms.length = count ∧ ms <+: (sendMessages H network messages departures).2) ∧
      (received arrivals = (sendMessages H network messages departures).1 →
        (∀ m ∈ (sendMessages H network messages departures).2, m.payload.length ≤ limit) →
          ∃ rest, readMessages H network limit (sendMessages H network messages departures).2.length arrivals =
            .ok ((sendMessages H network messages departures).2, rest)) := by
  obtain ⟨part, hdone, hall, hbytes, hpart⟩ := @sendMessages_spec H _ network messages departures
  refine ⟨hdone, ?_, ?_⟩
  · rintro ⟨lost, hlost⟩ count ms rest hread
    obtain rfl := readMessages_length hread
    obtain ⟨hms, hstream⟩ := readMessages_iff.mp ⟨rest, hread, rfl⟩
    have hsent : ms.flatMap (·.wire H network) ++ (received rest ++ lost) =
        (sendMessages H network messages departures).2.flatMap (·.wire H network) ++ part := by
      rw [← List.append_assoc, ← hstream, hlost, hbytes]
    exact ⟨rfl, begins_of_flatMap_wire (fun m hm => (hms m hm).1) hall hpart hsent⟩
  · rintro hreceived hlimit
    obtain ⟨rest, hread, -⟩ := readMessages_iff.mpr ⟨fun m hm => ⟨hall m hm, hlimit m hm⟩, hreceived.trans hbytes⟩
    exact ⟨rest, hread⟩

end Delivery

end UtreexoBridge.P2P
