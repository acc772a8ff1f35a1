import UtreexoBridge.Bytes.Scans
import UtreexoBridge.Rpc.Http
import UtreexoBridge.Wire.TransactionProof

/-!
# P2P messages (`EncodeP2PMessage`, `DecodeP2PMessage`)

A message has one encoding, and only it decodes to the message.
-/

namespace UtreexoBridge.P2P

open Bytes Rpc

/-! ## Messages -/

inductive BitcoinNetwork
  | mainnet
  | testnet3
  | signet
  | regtest
  deriving DecidableEq

def networkMagic : BitcoinNetwork → List UInt8
  | .mainnet => [0xf9, 0xbe, 0xb4, 0xd9]
  | .testnet3 => [0x0b, 0x11, 0x09, 0x07]
  | .signet => [0x0a, 0x03, 0xcf, 0x40]
  | .regtest => [0xfa, 0xbf, 0xb5, 0xda]

@[simp] theorem length_networkMagic (network : BitcoinNetwork) : (networkMagic network).length = 4 := by
  cases network <;> rfl

structure P2PMessage where
  command : List UInt8
  payload : List UInt8
  deriving DecidableEq

def messageHeaderSize : Nat := 24

def printable (c : UInt8) : Bool := !(c < 0x20 || c > 0x7e)

section Codec

variable (H : Type) [Wire.WireHash H]

def payloadChecksum (payload : List UInt8) : List UInt8 := (StoredHash.bytes (Wire.doubleSha256 payload : H)).take 4

theorem length_payloadChecksum (payload : List UInt8) : (payloadChecksum H payload).length = 4 := by
  rw [payloadChecksum, List.length_take, StoredHash.length_bytes]
  rfl

def commandBytes (command : List UInt8) : List UInt8 := command ++ List.replicate (12 - command.length) 0

def encodeP2PHeader (network : BitcoinNetwork) (command payload : List UInt8) : Except String (List UInt8) :=
  if command = [] ∨ command.length > 12 then .error "P2P command must contain 1 through 12 bytes"
  else if command.any fun c => !printable c then .error "P2P command contains a non-printable byte"
  else if payload.length > 2 ^ 32 - 1 then .error "P2P payload is too large"
  else
    .ok (networkMagic network ++
      (commandBytes command ++ (appendUnsigned 4 payload.length ++ payloadChecksum H payload)))

def encodeP2PMessage (network : BitcoinNetwork) (command payload : List UInt8) : Except String (List UInt8) :=
  match encodeP2PHeader H network command payload with
  | .error message => .error message
  | .ok header => .ok (header ++ payload)

/-- The loop over the bytes of the command. -/
def decodeCommand : List UInt8 → Bool → Option (List UInt8)
  | [], _ => some []
  | c :: rest, padded =>
    if c = 0 then decodeCommand rest true
    else if padded || !printable c then none
    else (decodeCommand rest padded).map (c :: ·)

def payloadLength (header : List UInt8) : Nat := valueOf ((header.drop 16).take 4)

def decodeP2PMessage (network : BitcoinNetwork) (message : List UInt8) (maxPayloadBytes : Nat) :
    Except String P2PMessage :=
  if message.length < messageHeaderSize then .error "truncated P2P header"
  else if message.take 4 ≠ networkMagic network then .error "wrong P2P network magic"
  else
    match decodeCommand ((message.drop 4).take 12) false with
    | none => .error "invalid P2P command padding"
    | some command =>
      if command = [] then .error "empty P2P command"
      else if payloadLength message > maxPayloadBytes then .error "P2P payload exceeds configured maximum"
      else if message.length ≠ messageHeaderSize + payloadLength message then
        .error "P2P message length does not match its header"
      else if payloadChecksum H (message.drop messageHeaderSize) ≠ (message.drop 20).take 4 then
        .error "P2P payload checksum mismatch"
      else .ok ⟨command, message.drop messageHeaderSize⟩

end Codec

/-! ## Commands -/

/-- What `EncodeP2PHeader` takes. -/
structure P2PMessage.Sendable (m : P2PMessage) : Prop where
  nonempty : m.command ≠ []
  short : m.command.length ≤ 12
  printable : ∀ c ∈ m.command, printable c = true
  size : m.payload.length ≤ 2 ^ 32 - 1

theorem printable_ne_zero {c : UInt8} (h : printable c = true) : c ≠ 0 := by
  rintro rfl
  cases h

theorem length_commandBytes {command : List UInt8} (h : command.length ≤ 12) : (commandBytes command).length = 12 := by
  rw [commandBytes, List.length_append, List.length_replicate]
  omega

theorem decodeCommand_zeros (count : Nat) (padded : Bool) : decodeCommand (List.replicate count 0) padded = some [] := by
  induction count generalizing padded with
  | zero => rfl
  | succ count ih =>
    rw [List.replicate_succ, decodeCommand, if_pos rfl]
    exact ih true

theorem decodeCommand_padded {command : List UInt8} (h : ∀ c ∈ command, printable c = true) (count : Nat) :
    decodeCommand (command ++ List.replicate count 0) false = some command := by
  induction command with
  | nil => exact decodeCommand_zeros count false
  | cons c command ih =>
    have hc := h c List.mem_cons_self
    rw [List.cons_append, decodeCommand, if_neg (printable_ne_zero hc), if_neg (by rw [hc]; decide),
      ih fun d hd => h d (List.mem_cons_of_mem _ hd)]
    rfl

theorem decodeCommand_true {bytes command : List UInt8} (h : decodeCommand bytes true = some command) :
    command = [] ∧ bytes = List.replicate bytes.length 0 := by
  induction bytes with
  | nil => exact ⟨(Option.some.inj h).symm, rfl⟩
  | cons c bytes ih =>
    rw [decodeCommand] at h
    split_ifs at h with hzero hbad
    · obtain ⟨hcommand, hbytes⟩ := ih h
      refine ⟨hcommand, ?_⟩
      rw [List.length_cons, List.replicate_succ, hzero, ← hbytes]
    · exact absurd rfl hbad

theorem decodeCommand_eq_some {bytes command : List UInt8} (h : decodeCommand bytes false = some command) :
    (∀ c ∈ command, printable c = true) ∧ ∃ count, bytes = command ++ List.replicate count 0 := by
  induction bytes generalizing command with
  | nil =>
    obtain rfl := Option.some.inj h
    exact ⟨fun c hc => absurd hc List.not_mem_nil, 0, rfl⟩
  | cons c bytes ih =>
    rw [decodeCommand] at h
    split_ifs at h with hzero hbad
    · obtain ⟨rfl, hbytes⟩ := decodeCommand_true h
      refine ⟨fun c hc => absurd hc List.not_mem_nil, bytes.length + 1, ?_⟩
      rw [List.nil_append, List.replicate_succ, hzero, ← hbytes]
    · obtain ⟨rest, hrest, rfl⟩ := Option.map_eq_some_iff.mp h
      obtain ⟨hall, count, hbytes⟩ := ih hrest
      refine ⟨fun d hd => ?_, count, by rw [hbytes, List.cons_append]⟩
      rcases List.mem_cons.mp hd with rfl | hd
      · simpa using hbad
      · exact hall d hd

/-! ## The codec -/

section Codec

variable {H : Type} [Wire.WireHash H] {network : BitcoinNetwork} {m : P2PMessage} {bytes : List UInt8} {limit : Nat}

/-- The bytes of a message. -/
def P2PMessage.wire (H : Type) [Wire.WireHash H] (network : BitcoinNetwork) (m : P2PMessage) : List UInt8 :=
  networkMagic network ++
    (commandBytes m.command ++ (appendUnsigned 4 m.payload.length ++ payloadChecksum H m.payload)) ++ m.payload

theorem encodeP2PMessage_iff :
    encodeP2PMessage H network m.command m.payload = .ok bytes ↔ m.Sendable ∧ bytes = m.wire H network := by
  unfold encodeP2PMessage encodeP2PHeader
  by_cases hlength : m.command = [] ∨ m.command.length > 12
  · rw [if_pos hlength]
    refine iff_of_false (by simp) fun h => ?_
    rcases hlength with hempty | hlong
    · exact h.1.nonempty hempty
    · exact absurd h.1.short (Nat.not_le.mpr hlong)
  rw [if_neg hlength]
  by_cases hchars : (m.command.any fun c => !printable c) = true
  · rw [if_pos hchars]
    refine iff_of_false (by simp) fun h => ?_
    obtain ⟨c, hc, hbad⟩ := List.any_eq_true.mp hchars
    rw [h.1.printable c hc] at hbad
    cases hbad
  rw [if_neg hchars]
  by_cases hsize : m.payload.length > 2 ^ 32 - 1
  · rw [if_pos hsize]
    exact iff_of_false (by simp) fun h => absurd h.1.size (Nat.not_le.mpr hsize)
  rw [if_neg hsize]
  have hsendable : m.Sendable := by
    refine ⟨fun hempty => hlength (Or.inl hempty), Nat.le_of_not_lt fun hlong => hlength (Or.inr hlong), fun c hc => ?_,
      Nat.le_of_not_lt hsize⟩
    by_contra hbad
    exact hchars (List.any_eq_true.mpr ⟨c, hc, by simpa using hbad⟩)
  constructor
  · rintro ⟨⟩
    exact ⟨hsendable, rfl⟩
  · rintro ⟨-, rfl⟩
    rfl

theorem encodeP2PHeader_ok {header : List UInt8} (h : encodeP2PHeader H network m.command m.payload = .ok header) :
    m.Sendable ∧ header ++ m.payload = m.wire H network := by
  refine encodeP2PMessage_iff.mp ?_
  rw [encodeP2PMessage, h]

theorem length_wire (hshort : m.command.length ≤ 12) :
    (m.wire H network).length = messageHeaderSize + m.payload.length := by
  unfold P2PMessage.wire
  rw [List.length_append, List.length_append, List.length_append, List.length_append, length_networkMagic,
    length_commandBytes hshort, length_appendUnsigned, length_payloadChecksum]
  rfl

theorem split_header (bytes : List UInt8) : bytes =
    bytes.take 4 ++ ((bytes.drop 4).take 12 ++ ((bytes.drop 16).take 4 ++ (bytes.drop 20).take 4)) ++ bytes.drop 24 := by
  have hsplit : ∀ i count, (bytes.drop i).take count ++ bytes.drop (i + count) = bytes.drop i := by
    intro i count
    rw [← List.drop_drop, List.take_append_drop]
  have h20 := hsplit 20 4
  have h16 := hsplit 16 4
  have h4 := hsplit 4 12
  rw [List.append_assoc, List.append_assoc, List.append_assoc, h20, h16, h4, List.take_append_drop]

theorem header_fields {magic command size checksum payload : List UInt8} (hmagic : magic.length = 4)
    (hcommand : command.length = 12) (hsize : size.length = 4) (hchecksum : checksum.length = 4) :
    (magic ++ (command ++ (size ++ checksum)) ++ payload).take 4 = magic ∧
      ((magic ++ (command ++ (size ++ checksum)) ++ payload).drop 4).take 12 = command ∧
      ((magic ++ (command ++ (size ++ checksum)) ++ payload).drop 16).take 4 = size ∧
      ((magic ++ (command ++ (size ++ checksum)) ++ payload).drop 20).take 4 = checksum ∧
      (magic ++ (command ++ (size ++ checksum)) ++ payload).drop 24 = payload := by
  have hdrop4 : (magic ++ (command ++ (size ++ checksum)) ++ payload).drop 4 = command ++ (size ++ (checksum ++ payload)) := by
    rw [← hmagic, List.append_assoc, List.drop_left, List.append_assoc, List.append_assoc]
  have hdrop16 : (magic ++ (command ++ (size ++ checksum)) ++ payload).drop 16 = size ++ (checksum ++ payload) := by
    rw [show 16 = 4 + 12 from rfl, ← List.drop_drop, hdrop4, ← hcommand, List.drop_left]
  have hdrop20 : (magic ++ (command ++ (size ++ checksum)) ++ payload).drop 20 = checksum ++ payload := by
    rw [show 20 = 16 + 4 from rfl, ← List.drop_drop, hdrop16, ← hsize, List.drop_left]
  refine ⟨?_, ?_, ?_, ?_, ?_⟩
  · rw [← hmagic, List.append_assoc, List.take_left]
  · rw [hdrop4, ← hcommand, List.take_left]
  · rw [hdrop16, ← hsize, List.take_left]
  · rw [hdrop20, ← hchecksum, List.take_left]
  · rw [show 24 = 20 + 4 from rfl, ← List.drop_drop, hdrop20, ← hchecksum, List.drop_left]

theorem payloadLength_wire (h : m.Sendable) : payloadLength (m.wire H network) = m.payload.length := by
  obtain ⟨-, -, hsize, -, -⟩ := header_fields (length_networkMagic network)
    (length_commandBytes h.short) (length_appendUnsigned 4 m.payload.length) (length_payloadChecksum H m.payload)
  rw [payloadLength, P2PMessage.wire, hsize]
  exact valueOf_appendUnsigned 4 _ (Nat.lt_of_le_of_lt h.size (by decide))

theorem decode_wire (h : m.Sendable) (hlimit : m.payload.length ≤ limit) :
    decodeP2PMessage H network (m.wire H network) limit = .ok m := by
  obtain ⟨hmagic, hcommand, -, hchecksum, hpayload⟩ := header_fields (length_networkMagic network)
    (length_commandBytes h.short) (length_appendUnsigned 4 m.payload.length) (length_payloadChecksum H m.payload)
  have hlength : (m.wire H network).length = messageHeaderSize + m.payload.length := length_wire h.short
  have hsize : payloadLength (m.wire H network) = m.payload.length := payloadLength_wire h
  have hdecode : decodeCommand (commandBytes m.command) false = some m.command := decodeCommand_padded h.printable _
  unfold decodeP2PMessage
  rw [hsize, hlength, if_neg (by omega)]
  unfold P2PMessage.wire messageHeaderSize
  rw [hmagic, if_neg (by simp), hcommand, hdecode]
  dsimp only
  rw [if_neg h.nonempty, if_neg (Nat.not_lt.mpr hlimit), if_neg (by simp), hpayload, hchecksum, if_neg (by simp)]

theorem decodeP2PMessage_iff : decodeP2PMessage H network bytes limit = .ok m ↔
    m.Sendable ∧ m.payload.length ≤ limit ∧ bytes = m.wire H network := by
  refine ⟨fun h => ?_, fun ⟨hsendable, hlimit, hbytes⟩ => hbytes ▸ decode_wire hsendable hlimit⟩
  unfold decodeP2PMessage at h
  split at h
  · cases h
  rename_i hshort
  split at h
  · cases h
  rename_i hmagic
  cases hcommand : decodeCommand ((bytes.drop 4).take 12) false with
  | none =>
    rw [hcommand] at h
    cases h
  | some command =>
    rw [hcommand] at h
    dsimp only at h
    split_ifs at h with hempty hlimit hlength hchecksum
    cases h
    obtain ⟨hprintable, count, hpadded⟩ := decodeCommand_eq_some hcommand
    have htwelve : command.length + count = 12 := by
      have hlen := congrArg List.length hpadded
      rw [List.length_append, List.length_replicate, List.length_take, List.length_drop] at hlen
      unfold messageHeaderSize at hshort
      omega
    have hpayload : (bytes.drop messageHeaderSize).length = payloadLength bytes := by
      rw [List.length_drop]
      omega
    have hfour : ((bytes.drop 16).take 4).length = 4 := by
      rw [List.length_take, List.length_drop]
      unfold messageHeaderSize at hshort
      omega
    have hsize : payloadLength bytes < 2 ^ 32 := by
      have hlt := valueOf_lt ((bytes.drop 16).take 4)
      rw [hfour] at hlt
      exact hlt
    refine ⟨⟨hempty, by dsimp only; omega, hprintable, by dsimp only; omega⟩, by dsimp only; omega, ?_⟩
    have hfield : (bytes.drop 16).take 4 = appendUnsigned 4 (bytes.drop messageHeaderSize).length := by
      have hvalue := appendUnsigned_valueOf ((bytes.drop 16).take 4)
      rw [hfour] at hvalue
      rw [hpayload]
      exact hvalue.symm
    unfold P2PMessage.wire commandBytes
    dsimp only
    rw [← not_not.mp hmagic, ← hfield, not_not.mp hchecksum, show 12 - command.length = count by omega, ← hpadded]
    exact split_header bytes

/-- **The codec.** What decodes is what was encoded, and an encoding within the limit decodes. -/
theorem decodeP2PMessage_iff_encode : decodeP2PMessage H network bytes limit = .ok m ↔
    encodeP2PMessage H network m.command m.payload = .ok bytes ∧ m.payload.length ≤ limit := by
  rw [decodeP2PMessage_iff, encodeP2PMessage_iff]
  exact ⟨fun ⟨hsendable, hlimit, hbytes⟩ => ⟨⟨hsendable, hbytes⟩, hlimit⟩,
    fun ⟨⟨hsendable, hbytes⟩, hlimit⟩ => ⟨hsendable, hlimit, hbytes⟩⟩

end Codec

end UtreexoBridge.P2P
