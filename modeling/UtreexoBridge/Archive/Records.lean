import UtreexoBridge.Archive.Recover

/-!
# Data records read back

Whatever `PrepareProof` and `PrepareBaseState` wrote somewhere in the data file
passes every check that a reader makes of it there.
-/

namespace UtreexoBridge.Archive

open Bytes

variable {H : Type} [ArchiveHash H] {state : AccumulatorState H} {point : ChainPoint H} {previousHash : H}
  {payload : List UInt8}

/-- A state that `ValidateAccumulatorState` accepts, with fields of the widths of their types. -/
structure StateFits (state : AccumulatorState H) : Prop where
  numLeaves : state.numLeaves < 2 ^ 64
  height : state.point.height < 2 ^ 32
  roots : state.roots.length = popcount state.numLeaves

omit [ArchiveHash H] in
theorem StateFits.roots_le (h : StateFits state) : state.roots.length ≤ 64 := by
  rw [h.roots, popcount]
  exact le_trans (List.countP_le_length) (by rw [List.length_range])

/-! ## Accumulator states -/

theorem length_appendAccumulatorState (state : AccumulatorState H) :
    (appendAccumulatorState state).length = statePrefixSize + state.roots.length * 32 := by
  simp only [appendAccumulatorState, List.length_append, length_appendUnsigned, length_hashes, statePrefixSize]
  omega

omit [ArchiveHash H] in
theorem reads_statePrefix {numLeaves rootCount : Nat} (hleaves : numLeaves < 2 ^ 64) (hroots : rootCount < 2 ^ 32) :
    Reads readStatePrefix (appendUnsigned 8 numLeaves ++ (appendUnsigned 4 rootCount ++ appendUnsigned 4 0))
      (numLeaves, rootCount) :=
  (reads_unsigned hleaves).bind ((reads_unsigned hroots).bind (reads_reserved.bind_last (reads_pure _)))

theorem parseAccumulatorState_append [DecidableEq H] (h : StateFits state) :
    parseAccumulatorState (appendAccumulatorState state) state.point = .ok state := by
  have hroots := h.roots_le
  have hfields : readStatePrefix (appendAccumulatorState state) =
      some ((state.numLeaves, state.roots.length), state.roots.flatMap StoredHash.bytes) := by
    have hread := reads_statePrefix h.numLeaves (lt_of_le_of_lt hroots (by decide)) (state.roots.flatMap StoredHash.bytes)
    simpa only [appendAccumulatorState, List.append_assoc] using hread
  have hmany : readMany readHash state.roots.length (state.roots.flatMap StoredHash.bytes) = some (state.roots, []) := by
    have hread : Reads (readMany readHash state.roots.length) (state.roots.flatMap StoredHash.bytes) state.roots :=
      reads_many fun root _ => reads_hash root
    simpa only [List.append_nil] using hread []
  unfold parseAccumulatorState
  simp only [hfields]
  rw [if_neg (by rw [length_appendAccumulatorState]; omega)]
  simp only [hmany, ne_eq, not_true_eq_false, if_false]
  rw [validateAccumulatorState, if_neg (not_not.mpr h.roots)]
  rfl

theorem parseAuthenticatedState_append [DecidableEq H] (h : StateFits state) :
    parseAuthenticatedState (appendAccumulatorState state ++ StoredHash.bytes (accumulatorStateDigest state)) state.point =
      .ok state := by
  have hroots := h.roots_le
  have hlength : (appendAccumulatorState state ++ StoredHash.bytes (accumulatorStateDigest state)).length =
      (appendAccumulatorState state).length + stateDigestSize := by
    rw [List.length_append, StoredHash.length_bytes]
    rfl
  have hbody : (appendAccumulatorState state ++ StoredHash.bytes (accumulatorStateDigest state)).length -
      stateDigestSize = (appendAccumulatorState state).length := by omega
  have hsize : ¬((appendAccumulatorState state ++ StoredHash.bytes (accumulatorStateDigest state)).length <
      statePrefixSize + stateDigestSize ∨
      (appendAccumulatorState state ++ StoredHash.bytes (accumulatorStateDigest state)).length > maxStateSize) := by
    have hdigest : stateDigestSize = 32 := rfl
    have hmax : maxStateSize = statePrefixSize + 2048 + stateDigestSize := rfl
    rw [hlength, length_appendAccumulatorState]
    omega
  unfold parseAuthenticatedState
  rw [if_neg hsize, hbody, List.take_left, parseAccumulatorState_append h]
  simp only [List.drop_left, StoredHash.ofBytes_bytes, ne_eq, not_true_eq_false, if_false]

/-! ## The parts of a record -/

omit [ArchiveHash H] in
theorem preadExact_append (front bytes back : List UInt8) :
    preadExact (front ++ (bytes ++ back)) bytes.length front.length = .ok bytes := by
  unfold preadExact
  rw [if_pos (by simp only [List.length_append]; omega), List.drop_left, List.take_left]

theorem length_dataHeader (point : ChainPoint H) (previousHash : H) (payloadSize : Nat) :
    (dataHeader point previousHash payloadSize).length = dataHeaderSize := by
  simp only [dataHeader, List.length_append, length_appendUnsigned, StoredHash.length_bytes]
  rfl

theorem readDataHeader_dataHeader (hheight : point.height < 2 ^ 32) (hpayload : payload.length < 2 ^ 64) :
    readDataHeader (dataHeader point previousHash payload.length) =
      some (⟨storeFormat, point, previousHash, payload.length⟩, []) := by
  have hread : Reads readDataHeader (dataHeader point previousHash payload.length)
      ⟨storeFormat, point, previousHash, payload.length⟩ :=
    (reads_magic dataMagic).bind ((reads_storeVersion (by decide)).bind ((reads_unsigned hheight).bind
      ((reads_hash point.blockHash).bind ((reads_hash previousHash).bind
        ((reads_unsigned hpayload).bind_last (reads_pure _))))))
  simpa only [List.append_nil] using hread []

def recordBody (point : ChainPoint H) (previousHash : H) (state : AccumulatorState H) (payload : List UInt8) :
    List UInt8 :=
  dataHeader point previousHash payload.length ++ (appendAccumulatorState state ++
    (StoredHash.bytes (accumulatorStateDigest state) ++ payload))

theorem dataRecord_fst (point : ChainPoint H) (previousHash : H) (state : AccumulatorState H) (payload : List UInt8) :
    (dataRecord point previousHash state payload).1 = recordBody point previousHash state payload ++
      (StoredHash.bytes (ArchiveHash.sha256 (recordBody point previousHash state payload) : H) ++ dataCommit) := rfl

theorem dataRecord_snd (point : ChainPoint H) (previousHash : H) (state : AccumulatorState H) (payload : List UInt8) :
    (dataRecord point previousHash state payload).2 =
      recordCommitment (ArchiveHash.sha256 (recordBody point previousHash state payload)) (accumulatorStateDigest state) :=
  rfl

theorem length_recordBody (point : ChainPoint H) (previousHash : H) (state : AccumulatorState H) (payload : List UInt8) :
    (recordBody point previousHash state payload).length =
      dataHeaderSize + statePrefixSize + state.roots.length * 32 + stateDigestSize + payload.length := by
  simp only [recordBody, List.length_append, length_dataHeader, length_appendAccumulatorState, StoredHash.length_bytes,
    stateDigestSize]
  omega

theorem length_dataRecord (point : ChainPoint H) (previousHash : H) (state : AccumulatorState H) (payload : List UInt8) :
    (dataRecord point previousHash state payload).1.length =
      dataHeaderSize + statePrefixSize + state.roots.length * 32 + stateDigestSize + payload.length + dataFooterSize := by
  rw [dataRecord_fst, List.length_append, length_recordBody, List.length_append, StoredHash.length_bytes]
  rfl

/-- The data file holds a record at an offset. -/
def Located (data : List UInt8) (offset : Nat) (record : List UInt8) : Prop :=
  ∃ front back, data = front ++ (record ++ back) ∧ front.length = offset

omit [ArchiveHash H] in
theorem Located.append {data record : List UInt8} {offset : Nat} (h : Located data offset record) (more : List UInt8) :
    Located (data ++ more) offset record := by
  obtain ⟨front, back, rfl, hfront⟩ := h
  exact ⟨front, back ++ more, by simp only [List.append_assoc], hfront⟩

omit [ArchiveHash H] in
theorem Located.length_le {data record : List UInt8} {offset : Nat} (h : Located data offset record) :
    offset + record.length ≤ data.length := by
  obtain ⟨front, back, rfl, rfl⟩ := h
  simp only [List.length_append]
  omega

omit [ArchiveHash H] in
theorem Located.pread {data before bytes after : List UInt8} {offset : Nat}
    (h : Located data offset (before ++ (bytes ++ after))) :
    preadExact data bytes.length (offset + before.length) = .ok bytes := by
  obtain ⟨front, back, rfl, rfl⟩ := h
  have hsplit : front ++ (before ++ (bytes ++ after) ++ back) = (front ++ before) ++ (bytes ++ (after ++ back)) := by
    simp only [List.append_assoc]
  rw [hsplit, ← List.length_append]
  exact preadExact_append _ _ _

omit [ArchiveHash H] in
theorem Located.pread_all {data record : List UInt8} {offset : Nat} (h : Located data offset record) :
    preadExact data record.length offset = .ok record := by
  have hwhole : Located data offset ([] ++ (record ++ [])) := by simpa using h
  simpa using hwhole.pread

omit [ArchiveHash H] in
theorem Located.left {data before after : List UInt8} {offset : Nat} (h : Located data offset (before ++ after)) :
    Located data offset before := by
  obtain ⟨front, back, rfl, hfront⟩ := h
  exact ⟨front, after ++ back, by simp only [List.append_assoc], hfront⟩

omit [ArchiveHash H] in
theorem Located.right {data before after : List UInt8} {offset : Nat} (h : Located data offset (before ++ after)) :
    Located data (offset + before.length) after := by
  obtain ⟨front, back, rfl, hfront⟩ := h
  exact ⟨front ++ before, back, by simp only [List.append_assoc], by rw [List.length_append, hfront]⟩

/-! ## A located record -/

section Located

variable {data : List UInt8} {offset : Nat}

theorem pread_header (h : Located data offset (dataRecord point previousHash state payload).1) :
    preadExact data dataHeaderSize offset = .ok (dataHeader point previousHash payload.length) := by
  have hsplit : (dataRecord point previousHash state payload).1 = [] ++ (dataHeader point previousHash payload.length ++
      ((appendAccumulatorState state ++ (StoredHash.bytes (accumulatorStateDigest state) ++ payload)) ++
        (StoredHash.bytes (ArchiveHash.sha256 (recordBody point previousHash state payload) : H) ++ dataCommit))) := by
    rw [dataRecord_fst, recordBody]
    simp only [List.append_assoc, List.nil_append]
  rw [hsplit] at h
  rw [← length_dataHeader point previousHash payload.length]
  exact h.pread

theorem pread_state (h : Located data offset (dataRecord point previousHash state payload).1) :
    preadExact data (statePrefixSize + state.roots.length * 32 + stateDigestSize) (offset + dataHeaderSize) =
      .ok (appendAccumulatorState state ++ StoredHash.bytes (accumulatorStateDigest state)) := by
  have hsplit : (dataRecord point previousHash state payload).1 = dataHeader point previousHash payload.length ++
      ((appendAccumulatorState state ++ StoredHash.bytes (accumulatorStateDigest state)) ++ (payload ++
        (StoredHash.bytes (ArchiveHash.sha256 (recordBody point previousHash state payload) : H) ++ dataCommit))) := by
    rw [dataRecord_fst, recordBody]
    simp only [List.append_assoc]
  have hlength : statePrefixSize + state.roots.length * 32 + stateDigestSize =
      (appendAccumulatorState state ++ StoredHash.bytes (accumulatorStateDigest state)).length := by
    rw [List.length_append, length_appendAccumulatorState, StoredHash.length_bytes]
    rfl
  rw [hsplit] at h
  rw [hlength, ← length_dataHeader point previousHash payload.length]
  exact h.pread

theorem pread_footer (h : Located data offset (dataRecord point previousHash state payload).1) :
    preadExact data dataFooterSize (offset + (dataRecord point previousHash state payload).1.length - dataFooterSize) =
      .ok (StoredHash.bytes (ArchiveHash.sha256 (recordBody point previousHash state payload) : H) ++ dataCommit) := by
  have hoffset : offset + (dataRecord point previousHash state payload).1.length - dataFooterSize =
      offset + (recordBody point previousHash state payload).length := by
    rw [length_dataRecord, length_recordBody]
    omega
  have hlength : dataFooterSize =
      (StoredHash.bytes (ArchiveHash.sha256 (recordBody point previousHash state payload) : H) ++ dataCommit).length := by
    rw [List.length_append, StoredHash.length_bytes]
    rfl
  rw [dataRecord_fst, ← List.append_nil (_ ++ dataCommit)] at h
  rw [hoffset, hlength]
  exact h.pread

variable [DecidableEq H]

structure Describes (event : WalEvent H) (previousHash : H) (state : AccumulatorState H) (payload : List UInt8) : Prop where
  version : event.formatVersion = storeFormat
  point : event.point = state.point
  previous : event.previousHash = previousHash
  dataSize : event.dataSize = (dataRecord state.point previousHash state payload).1.length
  digest : event.dataDigest = (dataRecord state.point previousHash state payload).2

omit [DecidableEq H] in
theorem footer_digest (digest : H) : (StoredHash.ofBytes ((StoredHash.bytes digest ++ dataCommit).take 32) : H) = digest := by
  have hlength := StoredHash.length_bytes digest
  rw [← hlength, List.take_left, StoredHash.ofBytes_bytes]

omit [DecidableEq H] in
theorem footer_commit (digest : H) : (StoredHash.bytes digest ++ dataCommit).drop 32 = dataCommit := by
  rw [← StoredHash.length_bytes digest, List.drop_left]

theorem envelopeState_located {event : WalEvent H} (hfits : StateFits state)
    (hdesc : Describes event previousHash state payload)
    (h : Located data event.dataOffset (dataRecord state.point previousHash state payload).1) (base : Bool) :
    envelopeState data event base ⟨storeFormat, state.point, previousHash, payload.length⟩ = .ok (some state) := by
  have hroots := hfits.roots_le
  have hlength := hdesc.dataSize
  rw [length_dataRecord] at hlength
  have hbody : event.dataSize - dataHeaderSize - dataFooterSize =
      statePrefixSize + state.roots.length * 32 + stateDigestSize + payload.length := by omega
  have hmax : maxStateSize = statePrefixSize + 2048 + stateDigestSize := rfl
  unfold envelopeState
  simp only [hbody]
  rw [if_neg (by decide), if_neg (by omega), Nat.add_sub_cancel, if_neg (by omega), pread_state h]
  simp only [hdesc.point, parseAuthenticatedState_append hfits]
  rfl

theorem parseBaseStateRecord_record (hfits : StateFits state) :
    parseBaseStateRecord state.point (dataRecord state.point ForestHash.null state []).2
      (dataRecord state.point ForestHash.null state []).1 = .ok state := by
  have hlength := length_dataRecord state.point ForestHash.null state []
  have hbodyLength := length_recordBody state.point ForestHash.null state []
  have hcommit : dataCommit.length = 8 := rfl
  have hfooter : dataFooterSize = 32 + 8 := rfl
  let digest : H := ArchiveHash.sha256 (recordBody state.point ForestHash.null state [])
  have hfst : (dataRecord state.point ForestHash.null state []).1 =
      recordBody state.point ForestHash.null state [] ++ (StoredHash.bytes digest ++ dataCommit) := rfl
  have hmarker : (dataRecord state.point ForestHash.null state []).1.drop
      ((dataRecord state.point ForestHash.null state []).1.length - dataCommit.length) = dataCommit := by
    rw [hfst, ← List.append_assoc, List.length_append, Nat.add_sub_cancel, List.drop_left]
  have hend : (dataRecord state.point ForestHash.null state []).1.length - dataFooterSize =
      (recordBody state.point ForestHash.null state []).length := by omega
  have htake : (dataRecord state.point ForestHash.null state []).1.take
      (recordBody state.point ForestHash.null state []).length = recordBody state.point ForestHash.null state [] := by
    rw [hfst, List.take_left]
  have hdrop : (dataRecord state.point ForestHash.null state []).1.drop
      (recordBody state.point ForestHash.null state []).length = StoredHash.bytes digest ++ dataCommit := by
    rw [hfst, List.drop_left]
  have hheader : (dataRecord state.point ForestHash.null state []).1.take dataHeaderSize =
      dataHeader state.point ForestHash.null ([] : List UInt8).length := by
    rw [← length_dataHeader state.point (ForestHash.null : H) ([] : List UInt8).length, hfst, recordBody, List.append_assoc,
      List.take_left]
  have hstate : ((dataRecord state.point ForestHash.null state []).1.drop dataHeaderSize).take
      ((dataRecord state.point ForestHash.null state []).1.length - dataHeaderSize - dataFooterSize) =
      appendAccumulatorState state ++ StoredHash.bytes (accumulatorStateDigest state) := by
    have hsize : (dataRecord state.point ForestHash.null state []).1.length - dataHeaderSize - dataFooterSize =
        (appendAccumulatorState state ++ StoredHash.bytes (accumulatorStateDigest state)).length := by
      rw [List.length_append, length_appendAccumulatorState, StoredHash.length_bytes, hlength]
      have hdigest : stateDigestSize = 32 := rfl
      have hnil : ([] : List UInt8).length = 0 := rfl
      omega
    rw [hsize, ← length_dataHeader state.point (ForestHash.null : H) ([] : List UInt8).length, hfst, recordBody,
      List.append_assoc, List.drop_left, List.append_nil, List.append_assoc, ← List.append_assoc, List.take_left]
  unfold parseBaseStateRecord
  rw [if_neg (by omega), if_neg (not_not.mpr hmarker)]
  simp only [hend, htake, hdrop, footer_digest digest]
  rw [if_neg (not_not.mpr rfl), hheader, readDataHeader_dataHeader hfits.height (by decide)]
  simp only [hstate, parseAuthenticatedState_append hfits]
  rw [if_neg (by simp)]
  simp only [dataRecord_snd, digest, ne_eq, not_true_eq_false, if_false]

theorem validateDataEnvelope_located {event : WalEvent H} (hfits : StateFits state) (hpayload : payload.length < 2 ^ 64)
    (hdesc : Describes event previousHash state payload)
    (h : Located data event.dataOffset (dataRecord state.point previousHash state payload).1) :
    validateDataEnvelope data event false = .ok (some state) := by
  have hlength := hdesc.dataSize
  rw [length_dataRecord] at hlength
  have hfooter := pread_footer h
  rw [← hdesc.dataSize] at hfooter
  have hdigest := hdesc.digest
  rw [dataRecord_snd] at hdigest
  unfold validateDataEnvelope
  simp only [pread_header h, bind, Except.bind, readDataHeader_dataHeader hfits.height hpayload, hdesc.version, hdesc.point,
    hdesc.previous]
  rw [if_neg (by simp), if_neg (by omega)]
  simp only [pure, Except.pure, envelopeState_located hfits hdesc h false, hfooter, footer_digest, footer_commit,
    Option.elim_some, hdigest]
  rw [if_neg (by simp)]
  rfl

theorem validateDataEnvelope_base {event : WalEvent H} (hfits : StateFits state)
    (hdesc : Describes event ForestHash.null state [])
    (h : Located data event.dataOffset (dataRecord state.point ForestHash.null state []).1) :
    validateDataEnvelope data event true = .ok (some state) := by
  have hlength := hdesc.dataSize
  rw [length_dataRecord] at hlength
  have hfooter := pread_footer h
  rw [← hdesc.dataSize] at hfooter
  have hwhole := h.pread_all
  rw [← hdesc.dataSize] at hwhole
  have hdigest := hdesc.digest
  have hparse := parseBaseStateRecord_record hfits
  rw [← hdigest] at hparse
  rw [dataRecord_snd] at hdigest
  unfold validateDataEnvelope
  have hempty : ([] : List UInt8).length < 2 ^ 64 := by decide
  simp only [pread_header h, bind, Except.bind, readDataHeader_dataHeader hfits.height hempty, hdesc.version, hdesc.point,
    hdesc.previous]
  rw [if_neg (by simp), if_neg (by omega)]
  simp only [pure, Except.pure, envelopeState_located hfits hdesc h true, hfooter, footer_digest, footer_commit,
    Option.elim_some]
  rw [if_neg (by simp [hdigest])]
  simp only [if_true, hwhole, hparse]

theorem parseDataRecord_record {proof : CachedBlockProof H} {limit : Nat} (hfits : StateFits state)
    (hpoint : proof.point = state.point)
    (hserialize : serializeUtreexoProof proof (fullRequest proof.point.blockHash) limit = .ok payload)
    (hpayload : payload.length < 2 ^ 64) (hhashes : proof.proof.hashes.length < 2 ^ 64)
    (htargets : ∀ t ∈ proof.proof.targets, t < 2 ^ 64) (hleaves : ∀ leaf ∈ proof.leaves, leaf.Fits) :
    parseDataRecord state.point previousHash (dataRecord state.point previousHash state payload).2
      (dataRecord state.point previousHash state payload).1 =
        .ok ⟨{ point := state.point, proof := proof.proof, leaves := proof.leaves }, some state⟩ := by
  have hroots := hfits.roots_le
  have hlength := length_dataRecord state.point previousHash state payload
  have hbodyLength := length_recordBody state.point previousHash state payload
  have hcommit : dataCommit.length = 8 := rfl
  have hfooter : dataFooterSize = 32 + 8 := rfl
  have hmax : maxStateSize = statePrefixSize + 2048 + stateDigestSize := rfl
  let digest : H := ArchiveHash.sha256 (recordBody state.point previousHash state payload)
  have hfst : (dataRecord state.point previousHash state payload).1 =
      recordBody state.point previousHash state payload ++ (StoredHash.bytes digest ++ dataCommit) := rfl
  have hmarker : (dataRecord state.point previousHash state payload).1.drop
      ((dataRecord state.point previousHash state payload).1.length - dataCommit.length) = dataCommit := by
    rw [hfst, ← List.append_assoc, List.length_append, Nat.add_sub_cancel, List.drop_left]
  have hend : (dataRecord state.point previousHash state payload).1.length - dataFooterSize =
      (recordBody state.point previousHash state payload).length := by omega
  have htake : (dataRecord state.point previousHash state payload).1.take
      (recordBody state.point previousHash state payload).length = recordBody state.point previousHash state payload := by
    rw [hfst, List.take_left]
  have hdrop : (dataRecord state.point previousHash state payload).1.drop
      (recordBody state.point previousHash state payload).length = StoredHash.bytes digest ++ dataCommit := by
    rw [hfst, List.drop_left]
  have hheader : (dataRecord state.point previousHash state payload).1.take dataHeaderSize =
      dataHeader state.point previousHash payload.length := by
    rw [← length_dataHeader state.point previousHash payload.length, hfst, recordBody, List.append_assoc, List.take_left]
  have hsizes : (dataRecord state.point previousHash state payload).1.length - dataHeaderSize - dataFooterSize =
      statePrefixSize + state.roots.length * 32 + stateDigestSize + payload.length := by omega
  have hstate : ((dataRecord state.point previousHash state payload).1.drop dataHeaderSize).take
      (statePrefixSize + state.roots.length * 32 + stateDigestSize) =
      appendAccumulatorState state ++ StoredHash.bytes (accumulatorStateDigest state) := by
    have hsize : statePrefixSize + state.roots.length * 32 + stateDigestSize =
        (appendAccumulatorState state ++ StoredHash.bytes (accumulatorStateDigest state)).length := by
      rw [List.length_append, length_appendAccumulatorState, StoredHash.length_bytes]
      rfl
    have hsplit : (dataRecord state.point previousHash state payload).1 = dataHeader state.point previousHash payload.length ++
        ((appendAccumulatorState state ++ StoredHash.bytes (accumulatorStateDigest state)) ++
          (payload ++ (StoredHash.bytes digest ++ dataCommit))) := by
      rw [hfst, recordBody]
      simp only [List.append_assoc]
    rw [hsize, hsplit, ← length_dataHeader state.point previousHash payload.length, List.drop_left, List.take_left]
  have hload : ((dataRecord state.point previousHash state payload).1.drop
      (dataHeaderSize + (statePrefixSize + state.roots.length * 32 + stateDigestSize))).take payload.length = payload := by
    have hsize : dataHeaderSize + (statePrefixSize + state.roots.length * 32 + stateDigestSize) =
        (dataHeader state.point previousHash payload.length ++ (appendAccumulatorState state ++
          StoredHash.bytes (accumulatorStateDigest state))).length := by
      simp only [List.length_append, length_dataHeader, length_appendAccumulatorState, StoredHash.length_bytes]
      rfl
    have hsplit : (dataRecord state.point previousHash state payload).1 =
        (dataHeader state.point previousHash payload.length ++ (appendAccumulatorState state ++
          StoredHash.bytes (accumulatorStateDigest state))) ++ (payload ++ (StoredHash.bytes digest ++ dataCommit)) := by
      rw [hfst, recordBody]
      simp only [List.append_assoc]
    rw [hsize, hsplit, List.drop_left, List.take_left]
  have hproof := parse_serializeUtreexoProof hserialize hhashes htargets hleaves state.point.height
  rw [hpoint] at hproof
  unfold parseDataRecord
  rw [if_neg (by omega), if_neg (not_not.mpr hmarker)]
  simp only [hend, htake, hdrop, footer_digest digest]
  rw [if_neg (not_not.mpr rfl), hheader, readDataHeader_dataHeader hfits.height hpayload]
  simp only
  rw [if_neg (by simp)]
  have hrecord : recordState ⟨storeFormat, state.point, previousHash, payload.length⟩ state.point
      (dataRecord state.point previousHash state payload).1 =
      .ok (some state, dataHeaderSize + (statePrefixSize + state.roots.length * 32 + stateDigestSize)) := by
    unfold recordState
    simp only [hsizes]
    rw [if_neg (by decide), if_neg (by omega), Nat.add_sub_cancel, if_neg (by omega), hstate,
      parseAuthenticatedState_append hfits]
    rfl
  simp only [hrecord, bind, Except.bind, Option.elim_some, dataRecord_snd, digest, hload, hproof]
  rw [if_neg (by simp)]
  simp only [pure, Except.pure, ne_eq, not_true_eq_false, if_false]

/-- `ReadStateRecord`: the state of a record, without its payload. -/
def readStateRecord (maxRecordBytes : Nat) (data : List UInt8) (expectedPoint : ChainPoint H) (expectedPrevious : H)
    (entry : DiskIndexEntry H) (base : Bool) : Except String (AccumulatorState H) :=
  if !validProofRecordSize entry.dataSize maxRecordBytes then .error "proof state index contains an invalid record size"
  else do
    let bytes ← preadExact data dataHeaderSize entry.dataOffset
    match readDataHeader bytes with
    | some (header, []) =>
      if header.version ≠ storeFormat ∨ header.point ≠ expectedPoint ∨ header.previousHash ≠ expectedPrevious ∨
          header.payloadSize > maxRecordBytes ∨ (base ∧ header.payloadSize ≠ 0) then
        throw "proof state header is inconsistent with its index"
      let bytes ← preadExact data statePrefixSize (entry.dataOffset + dataHeaderSize)
      match readStatePrefix bytes with
      | some ((numLeaves, rootCount), []) =>
        if rootCount > 64 ∨ rootCount ≠ popcount numLeaves then throw "stored accumulator state prefix is invalid"
        let stateSize := statePrefixSize + rootCount * 32 + stateDigestSize
        let fixedSize := dataHeaderSize + stateSize + dataFooterSize
        if entry.dataSize < fixedSize ∨ header.payloadSize ≠ entry.dataSize - fixedSize then
          throw "proof state size is inconsistent with its record"
        let bytes ← preadExact data stateSize (entry.dataOffset + dataHeaderSize)
        let state ← parseAuthenticatedState bytes expectedPoint
        let footer ← preadExact data dataFooterSize (entry.dataOffset + entry.dataSize - dataFooterSize)
        let commitment := recordCommitment (StoredHash.ofBytes (footer.take 32)) (accumulatorStateDigest state)
        if commitment ≠ entry.dataDigest ∨ footer.drop 32 ≠ dataCommit then
          throw "proof state commitment does not match its WAL record"
        return state
      | _ => throw "stored accumulator state prefix is invalid"
    | _ => throw "proof state header is inconsistent with its index"

omit [DecidableEq H] in
theorem pread_statePrefix (h : Located data offset (dataRecord point previousHash state payload).1) :
    preadExact data statePrefixSize (offset + dataHeaderSize) =
      .ok (appendUnsigned 8 state.numLeaves ++ (appendUnsigned 4 state.roots.length ++ appendUnsigned 4 0)) := by
  have hsplit : (dataRecord point previousHash state payload).1 = dataHeader point previousHash payload.length ++
      ((appendUnsigned 8 state.numLeaves ++ (appendUnsigned 4 state.roots.length ++ appendUnsigned 4 0)) ++
        ((state.roots.flatMap StoredHash.bytes ++ (StoredHash.bytes (accumulatorStateDigest state) ++ payload)) ++
          (StoredHash.bytes (ArchiveHash.sha256 (recordBody point previousHash state payload) : H) ++ dataCommit))) := by
    rw [dataRecord_fst, recordBody, appendAccumulatorState]
    simp only [List.append_assoc]
  have hlength : statePrefixSize =
      (appendUnsigned 8 state.numLeaves ++ (appendUnsigned 4 state.roots.length ++ appendUnsigned 4 0)).length := by
    simp only [List.length_append, length_appendUnsigned]
    rfl
  rw [hsplit] at h
  rw [hlength, ← length_dataHeader point previousHash payload.length]
  exact h.pread

def entryOf (offset : Nat) (previousHash : H) (state : AccumulatorState H) (payload : List UInt8) : DiskIndexEntry H :=
  ⟨offset, (dataRecord state.point previousHash state payload).1.length, state.point.blockHash,
    (dataRecord state.point previousHash state payload).2⟩

omit [DecidableEq H] in
theorem validSize_record {maxRecordBytes : Nat} (hfits : StateFits state) (hmax : maxRecordBytes < 2 ^ 32)
    (hpayload : payload.length ≤ maxRecordBytes) :
    validProofRecordSize (dataRecord point previousHash state payload).1.length maxRecordBytes = true := by
  have hroots := hfits.roots_le
  have hstate : maxStateSize = 2096 := rfl
  have hheader : dataHeaderSize = 88 := rfl
  have hfooter : dataFooterSize = 40 := rfl
  have hdigest : stateDigestSize = 32 := rfl
  have hfixed : statePrefixSize = 16 := rfl
  unfold validProofRecordSize
  rw [length_dataRecord, decide_eq_true_iff]
  refine ⟨?_, ?_, ?_⟩ <;> omega

theorem readStateRecord_located {maxRecordBytes : Nat} (hfits : StateFits state) (hmax : maxRecordBytes < 2 ^ 32)
    (hpayload : payload.length ≤ maxRecordBytes) {base : Bool} (hbase : base = true → payload = [])
    (h : Located data offset (dataRecord state.point previousHash state payload).1) :
    readStateRecord maxRecordBytes data state.point previousHash (entryOf offset previousHash state payload) base =
      .ok state := by
  have hroots := hfits.roots_le
  have hlength := length_dataRecord state.point previousHash state payload
  have hfields : readStatePrefix (appendUnsigned 8 state.numLeaves ++
      (appendUnsigned 4 state.roots.length ++ appendUnsigned 4 0)) = some ((state.numLeaves, state.roots.length), []) := by
    have hread := reads_statePrefix hfits.numLeaves (lt_of_le_of_lt hroots (by decide)) []
    rwa [List.append_nil] at hread
  have hempty : base = true → payload.length = 0 := fun hb => by rw [hbase hb, List.length_nil]
  unfold readStateRecord
  rw [entryOf, if_neg (by simp [validSize_record hfits hmax hpayload])]
  simp only [pread_header h, bind, Except.bind, readDataHeader_dataHeader hfits.height (by omega : payload.length < 2 ^ 64)]
  rw [if_neg (by
    simp only [not_true_eq_false, ne_eq, false_or, not_or, not_lt, not_and, not_not]
    exact ⟨hpayload, hempty⟩)]
  simp only [pure, Except.pure, pread_statePrefix h, hfields]
  rw [if_neg (by simp only [not_or, not_lt, not_not, ne_eq]; exact ⟨hroots, hfits.roots⟩)]
  rw [if_neg (by simp only [not_or, not_lt, not_not, ne_eq]; omega)]
  simp only [pread_state h, parseAuthenticatedState_append hfits, pread_footer h, footer_digest, footer_commit]
  rw [if_neg (by simp [dataRecord_snd])]

end Located

end UtreexoBridge.Archive
