import UtreexoBridge.Archive.Payload
import UtreexoBridge.Sha256

/-!
# Opening an archive (`RecoverWal`)

The WAL is replayed slot by slot. What follows the last committed record was
being written when the process stopped, and is cut off.
-/

namespace UtreexoBridge.Archive

open Bytes

structure DiskIndexEntry (H : Type) where
  dataOffset : Nat
  dataSize : Nat
  blockHash : H
  dataDigest : H
  deriving DecidableEq

def DiskIndexEntry.present {H : Type} (entry : DiskIndexEntry H) : Bool := entry.dataSize ≠ 0

structure Files where
  wal : List UInt8
  data : List UInt8
  deriving DecidableEq

structure Recovered (H : Type) where
  sawBase : Bool
  basePoint : ChainPoint H
  durablePoint : ChainPoint H
  baseState : Option (AccumulatorState H)
  baseDataSize : Nat
  baseDataDigest : H
  index : List (DiskIndexEntry H)
  statePresent : List Bool
  dataEnd : Nat

/-- `values.resize(i + 1)` if it is shorter, then `values[i] = value`. -/
def putAt {α : Type} (values : List α) (i : Nat) (filler value : α) : List α :=
  (values ++ List.replicate (i + 1 - values.length) filler).set i value

def validProofRecordSize (size maxPayload : Nat) : Bool :=
  let overhead := dataHeaderSize + maxStateSize + dataFooterSize
  dataHeaderSize + dataFooterSize ≤ size ∧ maxPayload ≤ 2 ^ 64 - 1 - overhead ∧ size ≤ maxPayload + overhead

variable {H : Type} [ArchiveHash H]

def entryFromEvent (event : WalEvent H) : DiskIndexEntry H :=
  ⟨event.dataOffset, event.dataSize, event.point.blockHash, event.dataDigest⟩

/-- `DiskIndexEntry{}`. -/
def DiskIndexEntry.empty : DiskIndexEntry H := ⟨0, 0, ForestHash.null, ForestHash.null⟩

def Recovered.empty : Recovered H :=
  ⟨false, ⟨0, ForestHash.null⟩, ⟨0, ForestHash.null⟩, none, 0, ForestHash.null, [], [], 0⟩

variable [DecidableEq H]

structure ParsedProofRecord (H : Type) where
  proof : CachedBlockProof H
  state : Option (AccumulatorState H)

/-- The accumulator state in a record and where its payload begins. -/
def recordState (header : DataHeader H) (point : ChainPoint H) (bytes : List UInt8) :
    Except String (Option (AccumulatorState H) × Nat) :=
  let bodySize := bytes.length - dataHeaderSize - dataFooterSize
  if header.version = legacyStoreFormat then
    if header.payloadSize ≠ bodySize then .error "legacy proof record size is inconsistent"
    else .ok (none, dataHeaderSize)
  else if bodySize < statePrefixSize + stateDigestSize ∨
      header.payloadSize > bodySize - statePrefixSize - stateDigestSize then
    .error "state-bearing proof record is truncated"
  else
    let stateSize := bodySize - header.payloadSize
    if stateSize < statePrefixSize + stateDigestSize ∨ stateSize > maxStateSize then
      .error "stored accumulator state size is invalid"
    else
      (parseAuthenticatedState ((bytes.drop dataHeaderSize).take stateSize) point).map fun state =>
        (some state, dataHeaderSize + stateSize)

def parseDataRecord (expectedPoint : ChainPoint H) (expectedPrevious expectedDigest : H) (bytes : List UInt8) :
    Except String (ParsedProofRecord H) :=
  if bytes.length < dataHeaderSize + dataFooterSize then .error "stored proof record is truncated"
  else if bytes.drop (bytes.length - dataCommit.length) ≠ dataCommit then
    .error "stored proof commit marker is missing"
  else
    let storedDigest : H := StoredHash.ofBytes ((bytes.drop (bytes.length - dataFooterSize)).take 32)
    if ArchiveHash.sha256 (bytes.take (bytes.length - dataFooterSize)) ≠ storedDigest then
      .error "stored proof checksum mismatch"
    else
      match readDataHeader (bytes.take dataHeaderSize) with
      | some (header, []) =>
        if header.point ≠ expectedPoint ∨ header.previousHash ≠ expectedPrevious then
          .error "stored proof header is inconsistent"
        else do
          let (state, payloadOffset) ← recordState header expectedPoint bytes
          let commitment := state.elim storedDigest fun state =>
            recordCommitment storedDigest (accumulatorStateDigest state)
          if commitment ≠ expectedDigest then
            throw "stored proof commitment does not match its WAL record"
          let proof ← parseFullUtreexoProof header.point.height ((bytes.drop payloadOffset).take header.payloadSize)
          if proof.point.blockHash ≠ expectedPoint.blockHash then
            throw "stored proof payload hash does not match its record"
          return ⟨proof, state⟩
      | _ => .error "stored proof header is inconsistent"

/-! ## One event -/

/-- The first record. -/
def applyBase (data : List UInt8) (r : Recovered H) (event : WalEvent H) : Except String (Recovered H) :=
  let legacy : Bool := event.formatVersion = legacyStoreFormat
  if event.kind ≠ .base ∨ event.dataOffset ≠ 0 ∨ event.previousHash ≠ ForestHash.null ∨
      (legacy ∧ (event.dataSize ≠ 0 ∨ event.dataDigest ≠ ForestHash.null)) ∨
      (!legacy ∧ (event.dataSize < dataHeaderSize + statePrefixSize + stateDigestSize + dataFooterSize ∨
        event.dataSize > data.length)) then
    .error "proof index WAL does not begin with a valid base"
  else
    let r := { r with sawBase := true, basePoint := event.point, durablePoint := event.point }
    if legacy then .ok r
    else
      match validateDataEnvelope data event true with
      | .error message => .error message
      | .ok none => .error "proof-store base record has no accumulator state"
      | .ok (some state) =>
        .ok { r with
          baseState := some state, baseDataSize := event.dataSize, baseDataDigest := event.dataDigest,
          dataEnd := event.dataSize }

/-- The additional checks on a store that has no format marker yet. -/
def checkLegacyRecord (data : List UInt8) (event : WalEvent H) : Except String Unit := do
  let record ← preadExact data event.dataSize event.dataOffset
  match parseDataRecord event.point event.previousHash event.dataDigest record with
  | .error message => throw ("markerless legacy proof data failed validation: " ++ message)
  | .ok _ => return ()

def applyConnect (maxRecordBytes : Nat) (data : List UInt8) (allowTail : Bool) (r : Recovered H) (event : WalEvent H) :
    Except String (Recovered H) :=
  if event.point.height ≠ add32 r.durablePoint.height 1 ∨ event.previousHash ≠ r.durablePoint.blockHash ∨
      event.dataOffset ≠ r.dataEnd ∨ !validProofRecordSize event.dataSize maxRecordBytes ∨
      event.dataOffset > data.length ∨ event.dataSize > data.length - event.dataOffset then
    .error "proof CONNECT WAL record is not contiguous"
  else
    match validateDataEnvelope data event false with
    | .error message => .error message
    | .ok state =>
      match if allowTail then .ok () else checkLegacyRecord data event with
      | .error message => .error message
      | .ok () =>
        let relative := sub32 (sub32 event.point.height r.basePoint.height) 1
        .ok { r with
          index := putAt r.index relative .empty (entryFromEvent event)
          statePresent := putAt r.statePresent relative false state.isSome
          durablePoint := event.point
          dataEnd := r.dataEnd + event.dataSize }

def applyTruncate (r : Recovered H) (event : WalEvent H) : Except Fault (Except String (Recovered H)) :=
  if event.point.height < r.basePoint.height ∨ event.point.height ≥ r.durablePoint.height ∨
      event.previousHash ≠ r.durablePoint.blockHash ∨ event.dataOffset ≠ 0 ∨ event.dataSize ≠ 0 ∨
      event.dataDigest ≠ ForestHash.null then
    .ok (.error "invalid proof TRUNCATE WAL record")
  else
    let expected :=
      if event.point.height = r.basePoint.height then some r.basePoint.blockHash
      else (r.index[event.point.height - r.basePoint.height - 1]?).map (·.blockHash)
    match expected with
    | none => .error .outOfBounds
    | some expected =>
      if expected ≠ event.point.blockHash then
        .ok (.error "proof TRUNCATE WAL hash does not match active history")
      else
        .ok (.ok { r with
          index := r.index.take (event.point.height - r.basePoint.height)
          statePresent := r.statePresent.take (event.point.height - r.basePoint.height)
          durablePoint := event.point })

def applyEvent (maxRecordBytes : Nat) (data : List UInt8) (allowTail : Bool) (r : Recovered H) (event : WalEvent H) :
    Except Fault (Except String (Recovered H)) :=
  if !r.sawBase then .ok (applyBase data r event)
  else
    match event.kind with
    | .connect => .ok (applyConnect maxRecordBytes data allowTail r event)
    | .truncate => applyTruncate r event
    | .base => .ok (.error "proof WAL contains a second base record")

/-! ## The scan -/

/-- The record slot at an offset. -/
def slotAt (wal : List UInt8) (offset : Nat) : List UInt8 := (wal.drop offset).take walRecordSize

/-- The loop over the complete slots, `count` of them left: what was replayed and how much of the WAL is valid. -/
def recoverLoop (maxRecordBytes : Nat) (files : Files) (allowTail : Bool) :
    Nat → Nat → Recovered H → Except Fault (Except String (Recovered H × Nat))
  | 0, offset, r => .ok (.ok (r, offset))
  | count + 1, offset, r =>
    let bytes := slotAt files.wal offset
    if !committed bytes ∧ count = 0 then
      if allowTail then .ok (.ok (r, offset))
      else .ok (.error "markerless legacy proof store has an uncommitted WAL tail")
    else
      match parseWal bytes with
      | .error message => .ok (.error ("proof index WAL offset " ++ toString offset ++ ": " ++ message))
      | .ok event =>
        match applyEvent maxRecordBytes files.data allowTail r event with
        | .error fault => .error fault
        | .ok (.error message) => .ok (.error message)
        | .ok (.ok r) => recoverLoop maxRecordBytes files allowTail count (offset + walRecordSize) r

/-- After the loop: cut both files to what the records cover. -/
def finishRecovery (files : Files) (allowTail : Bool) (r : Recovered H) (validWalSize : Nat) :
    Except String (Recovered H × Files) :=
  if !r.sawBase then .error "proof index WAL has no committed base record"
  else if validWalSize ≠ files.wal.length ∧ !allowTail then
    .error "markerless legacy proof store has a recoverable WAL tail"
  else if files.data.length < r.dataEnd then .error "proof data is shorter than its durable WAL"
  else if files.data.length ≠ r.dataEnd ∧ !allowTail then
    .error "markerless legacy proof store has an uncommitted data tail"
  else .ok (r, ⟨files.wal.take validWalSize, files.data.take r.dataEnd⟩)

def recoverWal (maxRecordBytes : Nat) (files : Files) (allowTail : Bool) :
    Except Fault (Except String (Recovered H × Files)) :=
  if !allowTail ∧ files.wal.length % walRecordSize ≠ 0 then
    .ok (.error "markerless legacy proof store has an incomplete WAL tail")
  else if files.wal.length / walRecordSize = 0 then .ok (.error "proof index WAL has no complete base record")
  else
    match recoverLoop maxRecordBytes files allowTail (files.wal.length / walRecordSize) 0 .empty with
    | .error fault => .error fault
    | .ok (.error message) => .ok (.error message)
    | .ok (.ok (r, validWalSize)) => .ok (finishRecovery files allowTail r validWalSize)

/-! ## Committed prefixes -/

variable {maxRecordBytes : Nat} {data : List UInt8}

/-- The bytes are record slots that parse and apply one after the other. -/
inductive Replays (maxRecordBytes : Nat) (data : List UInt8) : Recovered H → List UInt8 → Recovered H → Prop
  | nil (r : Recovered H) : Replays maxRecordBytes data r [] r
  | cons {r r' r'' : Recovered H} {slot rest : List UInt8} {event : WalEvent H} (hsize : slot.length = walRecordSize)
      (hparse : parseWal slot = .ok event) (happly : applyEvent maxRecordBytes data true r event = .ok (.ok r'))
      (hrest : Replays maxRecordBytes data r' rest r'') : Replays maxRecordBytes data r (slot ++ rest) r''

/-- No complete slot of the tail ends with the commit marker. -/
def Uncommitted (tail : List UInt8) : Prop :=
  ∀ i, (i + 1) * walRecordSize ≤ tail.length → committed (slotAt tail (i * walRecordSize)) = false

omit [ArchiveHash H] [DecidableEq H] in
theorem slotAt_append (front back : List UInt8) (offset : Nat) :
    slotAt (front ++ back) (front.length + offset) = slotAt back offset := by
  unfold slotAt
  rw [List.drop_append, List.drop_eq_nil_of_le (Nat.le_add_right _ _), List.nil_append, Nat.add_sub_cancel_left]

omit [ArchiveHash H] [DecidableEq H] in
theorem slotAt_slot {slot : List UInt8} (hsize : slot.length = walRecordSize) (rest : List UInt8) :
    slotAt (slot ++ rest) 0 = slot := by
  unfold slotAt
  rw [List.drop_zero, ← hsize, List.take_left]

theorem committed_of_parse {slot : List UInt8} {event : WalEvent H} (h : parseWal slot = .ok event) :
    committed slot = true := by
  unfold parseWal at h
  split_ifs at h with h1 h2 h3
  simpa using h2

theorem parseWal_uncommitted {slot : List UInt8} (hsize : slot.length = walRecordSize) (h : committed slot = false) :
    parseWal slot = (.error "proof WAL commit marker is missing" : Except String (WalEvent H)) := by
  unfold parseWal
  rw [if_neg (by simp [hsize]), if_pos (by simp [h])]

theorem Replays.length {r r' : Recovered H} {wal : List UInt8} (h : Replays maxRecordBytes data r wal r') :
    ∃ count, wal.length = count * walRecordSize := by
  induction h with
  | nil r => exact ⟨0, rfl⟩
  | cons hsize _ _ _ ih =>
    obtain ⟨count, hcount⟩ := ih
    exact ⟨count + 1, by rw [List.length_append, hsize, hcount, Nat.succ_mul, Nat.add_comm]⟩

theorem recoverLoop_step {files : Files} {offset count : Nat} {r r' : Recovered H} {event : WalEvent H}
    (hparse : parseWal (slotAt files.wal offset) = .ok event)
    (happly : applyEvent maxRecordBytes files.data true r event = .ok (.ok r')) :
    recoverLoop maxRecordBytes files true (count + 1) offset r =
      recoverLoop maxRecordBytes files true count (offset + walRecordSize) r' := by
  have hcommitted := committed_of_parse hparse
  rw [recoverLoop]
  simp only [hcommitted, Bool.not_true, Bool.false_eq_true, false_and, if_false, hparse, happly]

theorem recoverLoop_replays {r r' : Recovered H} {wal : List UInt8} (h : Replays maxRecordBytes data r wal r')
    (front tail : List UInt8) (count : Nat) :
    recoverLoop maxRecordBytes ⟨front ++ (wal ++ tail), data⟩ true (wal.length / walRecordSize + count) front.length r =
      recoverLoop maxRecordBytes ⟨front ++ (wal ++ tail), data⟩ true count (front.length + wal.length) r' := by
  induction h generalizing front with
  | nil r => rw [List.length_nil, Nat.zero_div, Nat.zero_add, Nat.add_zero]
  | @cons r r' r'' slot rest event hsize hparse happly hrest ih =>
    have hdiv : (slot ++ rest).length / walRecordSize = rest.length / walRecordSize + 1 := by
      rw [List.length_append, hsize, Nat.add_comm, Nat.add_div_right _ (by decide)]
    have hslot : slotAt (front ++ (slot ++ rest ++ tail)) front.length = slot := by
      rw [← Nat.add_zero front.length, slotAt_append, List.append_assoc, slotAt_slot hsize]
    have hwal : front ++ (slot ++ rest ++ tail) = (front ++ slot) ++ (rest ++ tail) := by
      simp only [List.append_assoc]
    have hstep := ih (front ++ slot)
    rw [hdiv, Nat.add_right_comm, recoverLoop_step (by rw [hslot]; exact hparse) happly]
    rw [hwal]
    rw [List.length_append, hsize] at hstep
    rw [hstep, List.length_append, hsize, Nat.add_assoc]

theorem applyBase_spec {r r' : Recovered H} {event : WalEvent H} (h : applyBase data r event = .ok r')
    (hend : r.dataEnd ≤ data.length) : r'.dataEnd ≤ data.length ∧ r'.sawBase = true := by
  unfold applyBase at h
  simp only at h
  split at h
  · cases h
  · rename_i hvalid
    split at h
    · cases h
      exact ⟨hend, rfl⟩
    · rename_i hlegacy
      split at h
      · cases h
      · cases h
      · cases h
        simp only [not_or, not_and, not_lt] at hvalid
        exact ⟨(hvalid.2.2.2.2 (by simpa using hlegacy)).2, rfl⟩

theorem applyConnect_spec {allowTail : Bool} {r r' : Recovered H} {event : WalEvent H}
    (h : applyConnect maxRecordBytes data allowTail r event = .ok r') :
    r'.dataEnd ≤ data.length ∧ r'.sawBase = r.sawBase := by
  unfold applyConnect at h
  split at h
  · cases h
  · rename_i hvalid
    split at h
    · cases h
    · split at h
      · cases h
      · cases h
        simp only [not_or, not_not, not_lt] at hvalid
        obtain ⟨-, -, hoffset, -, hin, hsize⟩ := hvalid
        refine ⟨?_, rfl⟩
        show r.dataEnd + event.dataSize ≤ data.length
        omega

theorem applyTruncate_spec {r r' : Recovered H} {event : WalEvent H} (h : applyTruncate r event = .ok (.ok r')) :
    r'.dataEnd = r.dataEnd ∧ r'.sawBase = r.sawBase := by
  unfold applyTruncate at h
  split at h
  · cases h
  · simp only at h
    split at h
    · cases h
    · split at h
      · cases h
      · cases h
        exact ⟨rfl, rfl⟩

theorem applyEvent_spec {r r' : Recovered H} {event : WalEvent H}
    (h : applyEvent maxRecordBytes data true r event = .ok (.ok r')) (hend : r.dataEnd ≤ data.length) :
    r'.dataEnd ≤ data.length ∧ r'.sawBase = true := by
  unfold applyEvent at h
  split at h
  · exact applyBase_spec (Except.ok.inj h) hend
  · rename_i hbase
    have hsaw : r.sawBase = true := by simpa using hbase
    split at h
    · obtain ⟨hle, hsame⟩ := applyConnect_spec (Except.ok.inj h)
      exact ⟨hle, hsame.trans hsaw⟩
    · obtain ⟨hle, hsame⟩ := applyTruncate_spec h
      exact ⟨hle ▸ hend, hsame.trans hsaw⟩
    · cases h

theorem Replays.spec {r r' : Recovered H} {wal : List UInt8} (h : Replays maxRecordBytes data r wal r')
    (hend : r.dataEnd ≤ data.length) : r'.dataEnd ≤ data.length ∧ (wal ≠ [] → r'.sawBase = true) := by
  induction h with
  | nil r => exact ⟨hend, fun hno => absurd rfl hno⟩
  | @cons r r' r'' slot rest event hsize hparse happly hrest ih =>
    obtain ⟨hle, hsaw⟩ := applyEvent_spec happly hend
    obtain ⟨hle', hsaw'⟩ := ih hle
    refine ⟨hle', fun _ => ?_⟩
    cases hrest with
    | nil => exact hsaw
    | cons hsize' =>
      refine hsaw' fun hnil => ?_
      rw [List.append_eq_nil_iff] at hnil
      rw [hnil.1] at hsize'
      exact absurd hsize' (by decide)

/-! ## The tail -/

theorem recoverLoop_tail (front tail : List UInt8) (htail : Uncommitted tail) (r : Recovered H) :
    recoverLoop maxRecordBytes ⟨front ++ tail, data⟩ true (tail.length / walRecordSize) front.length r =
      if tail.length < 2 * walRecordSize then .ok (.ok (r, front.length))
      else .ok (.error ("proof index WAL offset " ++ toString front.length ++ ": " ++ "proof WAL commit marker is missing")) := by
  have hfirst : walRecordSize ≤ tail.length → committed (slotAt (front ++ tail) front.length) = false := by
    intro hle
    have := htail 0 (by omega)
    rwa [Nat.zero_mul, ← slotAt_append front, Nat.add_zero] at this
  have hpos : 0 < walRecordSize := by decide
  rcases Nat.lt_or_ge tail.length walRecordSize with hshort | hlong
  · rw [Nat.div_eq_of_lt hshort, if_pos (by omega)]
    rfl
  · rcases Nat.lt_or_ge tail.length (2 * walRecordSize) with hone | hmore
    · have hdiv : tail.length / walRecordSize = 0 + 1 := by
        rw [Nat.div_eq_iff hpos]
        omega
      rw [if_pos hone, hdiv, recoverLoop]
      simp only [hfirst hlong, Bool.not_false, and_self, if_true]
    · -- the first of several uncommitted slots is not the last slot
      obtain ⟨count, hdiv⟩ : ∃ count, tail.length / walRecordSize = count + 1 + 1 := by
        refine ⟨tail.length / walRecordSize - 2, ?_⟩
        have := (Nat.le_div_iff_mul_le hpos).mpr hmore
        omega
      have hsize : (slotAt (front ++ tail) front.length).length = walRecordSize := by
        unfold slotAt
        rw [List.drop_left, List.length_take]
        omega
      rw [if_neg (by omega), hdiv, recoverLoop]
      simp only [hfirst hlong, Bool.not_false, Nat.add_eq_zero_iff, Nat.one_ne_zero, and_false, if_false,
        parseWal_uncommitted hsize (hfirst hlong)]

theorem recoverWal_tail {wal tail : List UInt8} {r : Recovered H} (h : Replays maxRecordBytes data .empty wal r)
    (hwal : wal ≠ []) (htail : Uncommitted tail) :
    recoverWal maxRecordBytes ⟨wal ++ tail, data⟩ true =
      if tail.length < 2 * walRecordSize then .ok (.ok (r, ⟨wal, data.take r.dataEnd⟩))
      else .ok (.error ("proof index WAL offset " ++ toString wal.length ++ ": " ++ "proof WAL commit marker is missing")) := by
  have hpos : 0 < walRecordSize := by decide
  obtain ⟨count, hcount⟩ := h.length
  obtain ⟨hend, hsaw⟩ := h.spec (Nat.zero_le _)
  have hloop := recoverLoop_replays h [] tail (tail.length / walRecordSize)
  rw [List.nil_append, List.length_nil, Nat.zero_add, recoverLoop_tail wal tail htail] at hloop
  have hslots : (wal ++ tail).length / walRecordSize = wal.length / walRecordSize + tail.length / walRecordSize := by
    rw [List.length_append, hcount, Nat.add_comm, Nat.add_mul_div_right _ _ hpos, Nat.mul_div_cancel _ hpos, Nat.add_comm]
  have hsome : (wal ++ tail).length / walRecordSize ≠ 0 := by
    have hlen : wal.length ≠ 0 := fun hzero => hwal (List.length_eq_zero_iff.mp hzero)
    rw [hslots, hcount, Nat.mul_div_cancel _ hpos]
    rintro hzero
    rw [hcount, Nat.eq_zero_of_add_eq_zero_right hzero, Nat.zero_mul] at hlen
    exact hlen rfl
  unfold recoverWal
  rw [if_neg (by simp), if_neg hsome, hslots, hloop]
  split_ifs with hshort
  · have hfinish : finishRecovery ⟨wal ++ tail, data⟩ true r wal.length = .ok (r, ⟨wal, data.take r.dataEnd⟩) := by
      unfold finishRecovery
      rw [if_neg (by simp [hsaw hwal]), if_neg (by simp), if_neg (by simpa using hend), if_neg (by simp), List.take_left]
    simp only [hfinish]
  · rfl

/-- Opening an archive cuts off an uncommitted tail and keeps the committed prefix exactly when the tail has at most one
complete slot. -/
theorem recoverWal_tail_iff {wal tail : List UInt8} {r : Recovered H} (h : Replays maxRecordBytes data .empty wal r)
    (hwal : wal ≠ []) (htail : Uncommitted tail) :
    recoverWal maxRecordBytes ⟨wal ++ tail, data⟩ true = .ok (.ok (r, ⟨wal, data.take r.dataEnd⟩)) ↔
      tail.length < 2 * walRecordSize := by
  rw [recoverWal_tail h hwal htail]
  constructor
  · intro heq
    by_contra hlong
    rw [if_neg hlong] at heq
    cases heq
  · intro hshort
    rw [if_pos hshort]

/-! ## A legacy base and zeros -/

abbrev RawHash := { bytes : List UInt8 // bytes.length = 32 }

theorem length_zeroBytes : (List.replicate 32 (0 : UInt8)).length = 32 := rfl

def zeroHash : RawHash := ⟨List.replicate 32 0, length_zeroBytes⟩

/-- Of the hash functions of the forest and of leaves, which the archive does not use, nothing is said. -/
instance : ArchiveHash RawHash where
  parentHash a _ := a
  lowWord _ := 0
  null := zeroHash
  bytes h := h.1
  ofBytes bytes := if h : bytes.length = 32 then ⟨bytes, h⟩ else zeroHash
  sha512_256 _ := zeroHash
  length_bytes h := h.2
  ofBytes_bytes h := dif_pos h.2
  sha256 bytes := ⟨UtreexoBridge.sha256 bytes, length_sha256 bytes⟩

def legacyBase : WalEvent RawHash := ⟨1, .base, ⟨0, zeroHash⟩, zeroHash, 0, 0, zeroHash⟩

def legacyBaseRecovered : Recovered RawHash := { Recovered.empty with sawBase := true }

theorem fits_legacyBase : legacyBase.Fits := ⟨by decide, by decide, by decide, by decide⟩

theorem replays_legacyBase : Replays 1024 [] .empty (serializeWal legacyBase) legacyBaseRecovered := by
  rw [← List.append_nil (serializeWal legacyBase)]
  exact .cons (length_serializeWal legacyBase) (parseWal_serializeWal fits_legacyBase) rfl (.nil _)

omit [DecidableEq H] in
theorem serializeWal_ne_nil (event : WalEvent H) : serializeWal event ≠ [] := by
  intro hnil
  have := length_serializeWal event
  rw [hnil] at this
  exact absurd this (by decide)

theorem uncommitted_zeros (count : Nat) : Uncommitted (List.replicate count 0) := by
  intro i hi
  have hslot : slotAt (List.replicate count 0) (i * walRecordSize) = List.replicate walRecordSize 0 := by
    unfold slotAt
    rw [List.drop_replicate, List.take_replicate, Nat.min_eq_left]
    rw [Nat.succ_mul, List.length_replicate] at hi
    omega
  rw [hslot]
  unfold committed
  rw [List.length_replicate, List.drop_replicate]
  decide

/-- One complete slot of zeros is cut off. -/
theorem recoverWal_tail_one_slot :
    recoverWal 1024 ⟨serializeWal legacyBase ++ List.replicate 200 0, []⟩ true =
      .ok (.ok (legacyBaseRecovered, ⟨serializeWal legacyBase, []⟩)) :=
  (recoverWal_tail_iff replays_legacyBase (serializeWal_ne_nil _) (uncommitted_zeros 200)).mpr
    (by rw [List.length_replicate]; decide)

/-- Two complete slots of zeros, as an interrupted group commit can leave them, keep the archive from opening. -/
theorem recoverWal_tail_two_slots :
    ¬∀ (maxRecordBytes : Nat) (data wal tail : List UInt8) (r : Recovered RawHash),
      Replays maxRecordBytes data .empty wal r → wal ≠ [] → Uncommitted tail →
        recoverWal maxRecordBytes ⟨wal ++ tail, data⟩ true = .ok (.ok (r, ⟨wal, data.take r.dataEnd⟩)) := by
  intro h
  have hopen := h 1024 [] (serializeWal legacyBase) (List.replicate 352 0) legacyBaseRecovered replays_legacyBase
    (serializeWal_ne_nil _) (uncommitted_zeros 352)
  rw [recoverWal_tail replays_legacyBase (serializeWal_ne_nil _) (uncommitted_zeros 352),
    if_neg (by rw [List.length_replicate]; decide)] at hopen
  cases hopen

end UtreexoBridge.Archive
