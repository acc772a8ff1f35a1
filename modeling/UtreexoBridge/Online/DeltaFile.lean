import UtreexoBridge.Bytes.ByteHash
import UtreexoBridge.Online.Store
import UtreexoBridge.Wal.RoundTrip

/-!
# Delta files (`WriteDeltaRun`, `MappedDeltaRun::Parse`)

A header of fixed size, the records, the hashes of the chain behind the base's,
a checksum over all of it and a commit marker. The reader finds each part from
the counts in the header.
-/

namespace UtreexoBridge

open Bytes

def deltaMagic : List UInt8 := [0x55, 0x54, 0x52, 0x44, 0x45, 0x4c, 0x54, 0x31]

def deltaCommit : List UInt8 := [0x44, 0x45, 0x4c, 0x54, 0x41, 0x4f, 0x4b, 0x31]

def deltaFormatVersion : Nat := 1

def deltaFlagSnapshot : Nat := 1

def deltaHeaderSize : Nat := 432

def deltaTrailerSize : Nat := 16

def deltaRecordSize : Nat := 52

variable {H : Type} [StoredHash H]

/-! ## Writing -/

def serializeDeltaHeader (state : DeltaState H) : List UInt8 :=
  deltaMagic ++ (appendUnsigned 4 deltaFormatVersion ++ (appendUnsigned 4 (if state.snapshot then deltaFlagSnapshot else 0) ++
    (appendUnsigned 8 state.generation ++ (appendUnsigned 8 state.previousGeneration ++
      (appendUnsigned 8 state.baseGeneration ++ (appendUnsigned 8 state.physicalBaseLsn ++
        (StoredHash.bytes state.baseFingerprint ++ (appendUnsigned 8 state.previousLsn ++ (appendUnsigned 8 state.endLsn ++
          (appendUnsigned 8 state.baseChainCount ++ (appendPoint state.point ++ (appendUnsigned 8 state.numLeaves ++
            (appendUnsigned 4 state.next ++ (appendUnsigned 8 state.liveNodes ++ (appendUnsigned 8 state.chainHashCount ++
              (appendUnsigned 8 state.recordCount ++ appendRoots state.roots))))))))))))))))

/-- A `DeltaDiskRecord` in memory. -/
def appendDiskRecord (entry : Nat × NodeRecord H) : List UInt8 := appendUnsigned 4 entry.1 ++ appendRecord entry.2

/-- What is written, the records of all buffers one after the other. -/
def deltaBytes (state : DeltaState H) (records : List (Nat × NodeRecord H)) (suffix : List H) : List UInt8 :=
  let header := serializeDeltaHeader state
  let recordBytes := records.flatMap appendDiskRecord
  let suffixBytes := suffix.flatMap StoredHash.bytes
  let value := extendChecksum (extendChecksum (extendChecksum checksumOffset header) recordBytes) suffixBytes
  header ++ (recordBytes ++ (suffixBytes ++ (appendUnsigned 8 value ++ deltaCommit)))

/-- The checks of `WriteDeltaRun`, and the file that it publishes. -/
def publishDelta [DecidableEq H] (state : DeltaState H) (chainHashes : List H) (records : List (Nat × NodeRecord H)) :
    Except String (List UInt8) :=
  if state.generation = 0 ∨ state.recordCount ≥ noNode ∨ state.baseChainCount = 0 ∨
      state.chainHashCount ≠ chainHashes.length ∨ state.baseChainCount > chainHashes.length ∨
      chainHashes.getLast? ≠ some state.point.blockHash then
    .error "invalid forest delta publication state"
  else if ¬(records.Pairwise fun x y => x.1 < y.1) ∨ ∃ entry ∈ records, entry.1 ≥ state.next then
    .error "forest delta records are outside the arena or unsorted"
  else if records.length ≠ state.recordCount then .error "forest delta record count changed during publication"
  else .ok (deltaBytes state records (chainHashes.drop state.baseChainCount))

/-! ## Reading -/

/-- The fields before the roots, in a state without roots. -/
def readDeltaHeader : Reader (DeltaState H) := do
  let magic ← readBytes 8
  guard (magic = deltaMagic)
  let version ← readUnsigned 4
  let flags ← readUnsigned 4
  guard (version = deltaFormatVersion ∧ flags / 2 = 0)
  let generation ← readUnsigned 8
  let previousGeneration ← readUnsigned 8
  let baseGeneration ← readUnsigned 8
  let physicalBaseLsn ← readUnsigned 8
  let baseFingerprint ← readHash
  let previousLsn ← readUnsigned 8
  let endLsn ← readUnsigned 8
  let baseChainCount ← readUnsigned 8
  let point ← readPoint
  let numLeaves ← readUnsigned 8
  let next ← readUnsigned 4
  let liveNodes ← readUnsigned 8
  let chainHashCount ← readUnsigned 8
  let recordCount ← readUnsigned 8
  return ⟨flags % 2 = 1, generation, previousGeneration, baseGeneration, physicalBaseLsn, baseFingerprint, previousLsn,
    endLsn, baseChainCount, point, numLeaves, next, liveNodes, chainHashCount, recordCount, .replicate 64 0⟩

def readDiskRecord : Reader (Nat × NodeRecord H) := do
  let id ← readUnsigned 4
  let hash ← readHash
  let parent ← readUnsigned 4
  let left ← readUnsigned 4
  let right ← readUnsigned 4
  let code ← readUnsigned 1
  let type ← NodeType.ofCode code
  let reserved ← readBytes 3
  guard (reserved = [0, 0, 0])
  return (id, ⟨hash, parent, left, right, type⟩)

/-- The checks on the fields of the header. -/
def DeltaState.consistent (state : DeltaState H) : Prop :=
  ¬(state.generation = 0 ∨ state.previousGeneration ≥ state.generation ∨ state.previousLsn > state.endLsn ∨
    state.next ≥ noNode ∨ state.liveNodes > state.next ∨ state.baseChainCount = 0 ∨
    state.chainHashCount < state.baseChainCount ∨ state.chainHashCount ≠ state.point.height + 1)

instance (state : DeltaState H) : Decidable state.consistent := by
  unfold DeltaState.consistent
  infer_instance

/-- The bytes behind the header, for a header that is consistent. -/
def parseDeltaBody [DecidableEq H] (state : DeltaState H) (bytes : List UInt8) : Except String (DeltaRun H) :=
  match readMany readDiskRecord state.recordCount bytes with
  | none => .error "forest delta records are invalid or unsorted"
  | some (records, bytes) =>
    if hsorted : records.Pairwise fun x y => x.1 < y.1 then
      if ∃ entry ∈ records, entry.1 ≥ state.next ∨ ¬linkValid state.next entry.2.parent ∨
          ¬linkValid state.next entry.2.left ∨ ¬linkValid state.next entry.2.right then
        .error "forest delta records are invalid or unsorted"
      else if ∃ root ∈ state.roots.toList, ¬linkValid state.next root then .error "forest delta root is out of range"
      else
        match readMany readHash (state.chainHashCount - state.baseChainCount) bytes with
        -- the size of the file has been checked
        | none => .error "forest delta size is inconsistent"
        | some (suffix, _) =>
          if suffix ≠ [] ∧ suffix.getLast? ≠ some state.point.blockHash then
            .error "forest delta chain suffix has the wrong tip"
          else .ok ⟨state, records, suffix, hsorted⟩
    else .error "forest delta records are invalid or unsorted"

/-- `Open` without the path in its messages. -/
def parseDelta [DecidableEq H] (bytes : List UInt8) : Except String (DeltaRun H) :=
  let offset := bytes.length - deltaTrailerSize
  if bytes.length < deltaHeaderSize + deltaTrailerSize then .error "forest delta run is truncated"
  else if bytes.drop (bytes.length - 8) ≠ deltaCommit then .error "forest delta commit marker is missing"
  else if checksum (bytes.take offset) ≠ valueOf ((bytes.drop offset).take 8) then .error "forest delta checksum mismatch"
  else
    match readDeltaHeader (bytes.take deltaHeaderSize) with
    | none => .error "forest delta header is invalid"
    | some (header, rest) =>
      match readRoots rest with
      | none => .error "forest delta roots are truncated"
      | some (roots, rest) =>
        let state := { header with roots }
        let room := 2 ^ 64 - 1 - deltaHeaderSize - deltaTrailerSize
        let suffixCount := state.chainHashCount - state.baseChainCount
        if rest ≠ [] ∨ ¬state.consistent then .error "forest delta fields are inconsistent"
        else if state.recordCount > room / deltaRecordSize ∨
            suffixCount > (room - state.recordCount * deltaRecordSize) / 32 then
          .error "forest delta size overflows this platform"
        else if deltaHeaderSize + state.recordCount * deltaRecordSize + suffixCount * 32 + deltaTrailerSize ≠
            bytes.length then
          .error "forest delta size is inconsistent"
        else parseDeltaBody state (bytes.drop deltaHeaderSize)

/-! ## What is built -/

/-- A state as `SealDelta` and `CompactDeltas` build it: the next generation and LSNs in order, links and roots absent or
below `next`. -/
structure DeltaState.Built (state : DeltaState H) (records : List (Nat × NodeRecord H)) : Prop where
  generation : state.generation = word (state.previousGeneration + 1)
  previousGeneration : state.previousGeneration < 2 ^ 64
  baseGeneration : state.baseGeneration < 2 ^ 64
  physicalBaseLsn : state.physicalBaseLsn < 2 ^ 64
  previousLsn : state.previousLsn ≤ state.endLsn
  endLsn : state.endLsn < 2 ^ 64
  height : state.point.height < 2 ^ 32
  numLeaves : state.numLeaves < 2 ^ 64
  next : state.next < 2 ^ 32
  liveNodes : state.liveNodes ≤ state.next
  chainHashCount : state.chainHashCount = state.point.height + 1
  roots : ∀ root ∈ state.roots.toList, linkValid state.next root
  links : ∀ entry ∈ records, linkValid state.next entry.2.parent ∧ linkValid state.next entry.2.left ∧
    linkValid state.next entry.2.right
  types : ∀ entry ∈ records, entry.2.type = .free ∨ entry.2.type = .leaf ∨ entry.2.type = .branch

instance DeltaState.decidableBuilt (state : DeltaState H) (records : List (Nat × NodeRecord H)) :
    Decidable (state.Built records) :=
  decidable_of_iff ((state.generation = word (state.previousGeneration + 1) ∧ state.previousGeneration < 2 ^ 64 ∧
      state.baseGeneration < 2 ^ 64 ∧ state.physicalBaseLsn < 2 ^ 64) ∧
    (state.previousLsn ≤ state.endLsn ∧ state.endLsn < 2 ^ 64 ∧ state.point.height < 2 ^ 32 ∧ state.numLeaves < 2 ^ 64) ∧
    (state.next < 2 ^ 32 ∧ state.liveNodes ≤ state.next ∧ state.chainHashCount = state.point.height + 1) ∧
    (∀ root ∈ state.roots.toList, linkValid state.next root) ∧
    (∀ entry ∈ records, linkValid state.next entry.2.parent ∧ linkValid state.next entry.2.left ∧
      linkValid state.next entry.2.right) ∧
    ∀ entry ∈ records, entry.2.type = .free ∨ entry.2.type = .leaf ∨ entry.2.type = .branch)
    ⟨fun ⟨⟨h1, h2, h3, h4⟩, ⟨h5, h6, h7, h8⟩, ⟨h9, h10, h11⟩, h12, h13, h14⟩ =>
      ⟨h1, h2, h3, h4, h5, h6, h7, h8, h9, h10, h11, h12, h13, h14⟩,
    fun ⟨h1, h2, h3, h4, h5, h6, h7, h8, h9, h10, h11, h12, h13, h14⟩ =>
      ⟨⟨h1, h2, h3, h4⟩, ⟨h5, h6, h7, h8⟩, ⟨h9, h10, h11⟩, h12, h13, h14⟩⟩

/-! ## Reading what was written -/

theorem linkValid.lt_width {next link : Nat} (h : linkValid next link) (hnext : next < 2 ^ 32) : link < 256 ^ 4 := by
  have hnone : noNode < 256 ^ 4 := by decide
  rcases h with h | h <;> omega

theorem length_serializeDeltaHeader (state : DeltaState H) : (serializeDeltaHeader state).length = deltaHeaderSize := by
  simp only [serializeDeltaHeader, appendPoint, List.length_append, length_appendUnsigned, StoredHash.length_bytes,
    length_appendRoots]
  rfl

theorem length_appendDiskRecord (entry : Nat × NodeRecord H) : (appendDiskRecord entry).length = deltaRecordSize := by
  rw [appendDiskRecord, List.length_append, length_appendUnsigned, length_appendRecord]
  rfl

section Written

variable {state : DeltaState H} {records : List (Nat × NodeRecord H)} {suffix : List H}

theorem reads_deltaHeader (h : state.Built records) (hbase : state.baseChainCount < 2 ^ 64)
    (hcount : state.recordCount < 2 ^ 64) (bytes : List UInt8) :
    readDeltaHeader (serializeDeltaHeader state ++ bytes) =
      some ({ state with roots := .replicate 64 0 }, appendRoots state.roots ++ bytes) := by
  have hnoNode : noNode = 2 ^ 32 - 1 := rfl
  have hgeneration : state.generation < 256 ^ 8 := by
    rw [h.generation]
    exact Nat.mod_lt _ (by decide)
  have hprevious : state.previousLsn < 256 ^ 8 := lt_of_le_of_lt h.previousLsn h.endLsn
  have hlive : state.liveNodes < 256 ^ 8 := lt_of_le_of_lt h.liveNodes (lt_trans h.next (by decide))
  have hchain : state.chainHashCount < 256 ^ 8 := by
    have := h.height
    rw [h.chainHashCount]
    omega
  have hflags : ∀ flags, flags = (if state.snapshot then deltaFlagSnapshot else 0) →
      flags < 256 ^ 4 ∧ flags / 2 = 0 ∧ decide (flags % 2 = 1) = state.snapshot := by
    rintro flags rfl
    cases state.snapshot <;> decide
  obtain ⟨hflag, hknown, hsnapshot⟩ := hflags _ rfl
  have hread : Reads readDeltaHeader (deltaMagic ++ (appendUnsigned 4 deltaFormatVersion ++
      (appendUnsigned 4 (if state.snapshot then deltaFlagSnapshot else 0) ++
        (appendUnsigned 8 state.generation ++ (appendUnsigned 8 state.previousGeneration ++
          (appendUnsigned 8 state.baseGeneration ++ (appendUnsigned 8 state.physicalBaseLsn ++
            (StoredHash.bytes state.baseFingerprint ++ (appendUnsigned 8 state.previousLsn ++
              (appendUnsigned 8 state.endLsn ++ (appendUnsigned 8 state.baseChainCount ++ (appendPoint state.point ++
                (appendUnsigned 8 state.numLeaves ++ (appendUnsigned 4 state.next ++ (appendUnsigned 8 state.liveNodes ++
                  (appendUnsigned 8 state.chainHashCount ++ appendUnsigned 8 state.recordCount))))))))))))))))
      { state with roots := .replicate 64 0 } := by
    refine (reads_bytes deltaMagic).bind ?_
    refine (reads_guard rfl).bind_nil ?_
    refine (reads_unsigned (by decide)).bind ?_
    refine (reads_unsigned hflag).bind ?_
    refine (reads_guard ⟨rfl, hknown⟩).bind_nil ?_
    refine (reads_unsigned hgeneration).bind ?_
    refine (reads_unsigned h.previousGeneration).bind ?_
    refine (reads_unsigned h.baseGeneration).bind ?_
    refine (reads_unsigned h.physicalBaseLsn).bind ?_
    refine (reads_storedHash state.baseFingerprint).bind ?_
    refine (reads_unsigned hprevious).bind ?_
    refine (reads_unsigned h.endLsn).bind ?_
    refine (reads_unsigned hbase).bind ?_
    refine (reads_point h.height).bind ?_
    refine (reads_unsigned h.numLeaves).bind ?_
    refine (reads_unsigned h.next).bind ?_
    refine (reads_unsigned hlive).bind ?_
    refine (reads_unsigned hchain).bind ?_
    refine (reads_unsigned hcount).bind_last ?_
    rw [hsnapshot]
    exact reads_pure _
  have hbytes := hread (appendRoots state.roots ++ bytes)
  rw [← hbytes]
  simp only [serializeDeltaHeader, List.append_assoc]

theorem reads_diskRecord {entry : Nat × NodeRecord H} (hid : entry.1 < 2 ^ 32) (h : entry.2.Fits) :
    Reads readDiskRecord (appendDiskRecord entry) entry := by
  obtain ⟨hcode, htype⟩ := NodeType.code_stored h.type
  refine (reads_unsigned hid).bind ?_
  refine (reads_storedHash entry.2.hash).bind ?_
  refine (reads_unsigned h.parent).bind ?_
  refine (reads_unsigned h.left).bind ?_
  refine (reads_unsigned h.right).bind ?_
  refine (reads_unsigned hcode).bind ?_
  refine (reads_lift htype).bind_nil ?_
  exact (reads_bytes [0, 0, 0]).bind_last ((reads_guard rfl).bind_nil (reads_pure entry))

/-! ## The round trip -/

/-- What `WriteDeltaRun` checks before it publishes. -/
structure DeltaState.Publishable (state : DeltaState H) (chainHashes : List H) (records : List (Nat × NodeRecord H)) :
    Prop where
  generation : state.generation ≠ 0
  recordCount : state.recordCount < noNode
  baseChainCount : state.baseChainCount ≠ 0
  chainHashCount : state.chainHashCount = chainHashes.length
  base : state.baseChainCount ≤ chainHashes.length
  tip : chainHashes.getLast? = some state.point.blockHash
  sorted : records.Pairwise fun x y => x.1 < y.1
  ids : ∀ entry ∈ records, entry.1 < state.next
  count : records.length = state.recordCount

theorem publishDelta_eq_ok [DecidableEq H] {chainHashes : List H} {bytes : List UInt8}
    (h : publishDelta state chainHashes records = .ok bytes) :
    state.Publishable chainHashes records ∧
      bytes = deltaBytes state records (chainHashes.drop state.baseChainCount) := by
  unfold publishDelta at h
  split_ifs at h with hfields hrecords hcount
  simp only [not_or, not_le, not_not, ne_eq] at hfields hrecords hcount
  obtain ⟨hgeneration, hrecordCount, hbase, hchain, hle, htip⟩ := hfields
  obtain ⟨hsorted, hids⟩ := hrecords
  refine ⟨⟨hgeneration, by omega, hbase, hchain, by omega, htip, hsorted, ?_, hcount⟩, (Except.ok.inj h).symm⟩
  intro entry hentry
  by_contra hout
  exact hids ⟨entry, hentry, not_lt.mp hout⟩

omit [StoredHash H] in
/-- The reader accepts every field that is built and published, but for the number of slots. -/
theorem DeltaState.Built.consistent_iff {chainHashes : List H} (h : state.Built records)
    (hpublish : state.Publishable chainHashes records) : state.consistent ↔ state.next < noNode := by
  have hchain := h.chainHashCount
  have hcount := hpublish.chainHashCount
  have hbase := hpublish.base
  have hprevious : state.previousGeneration < state.generation := by
    have hlt := h.previousGeneration
    have hne := hpublish.generation
    have hgeneration := h.generation
    rcases Nat.lt_or_ge (state.previousGeneration + 1) (2 ^ 64) with hsmall | hlarge
    · rw [word, Nat.mod_eq_of_lt hsmall] at hgeneration
      omega
    · -- the generation after the last one is zero, which is not published
      have hlast : state.previousGeneration + 1 = 2 ^ 64 := by omega
      rw [word, hlast, Nat.mod_self] at hgeneration
      exact absurd hgeneration hne
  unfold DeltaState.consistent
  constructor
  · intro hall
    by_contra hnext
    exact hall (Or.inr (Or.inr (Or.inr (Or.inl (not_lt.mp hnext)))))
  · intro hnext
    have hlsn := h.previousLsn
    have hlive := h.liveNodes
    have hne := hpublish.baseChainCount
    have hgeneration := hpublish.generation
    omega

omit [StoredHash H] in
theorem DeltaState.Built.fits {entry : Nat × NodeRecord H} (h : state.Built records) (hentry : entry ∈ records) :
    entry.2.Fits := by
  obtain ⟨hparent, hleft, hright⟩ := h.links entry hentry
  exact ⟨hparent.lt_width h.next, hleft.lt_width h.next, hright.lt_width h.next, h.types entry hentry⟩

omit [StoredHash H] in
theorem getLast?_drop_chain {chainHashes : List H} {tip : H} (h : chainHashes.getLast? = some tip) {count : Nat}
    (hne : chainHashes.drop count ≠ []) : (chainHashes.drop count).getLast? = some tip := by
  rw [List.getLast?_drop, if_neg ?_, h]
  intro hle
  exact hne (List.drop_eq_nil_of_le hle)

theorem parseDeltaBody_written [DecidableEq H] {chainHashes : List H} (h : state.Built records)
    (hpublish : state.Publishable chainHashes records) (tail : List UInt8) :
    parseDeltaBody state (records.flatMap appendDiskRecord ++
      ((chainHashes.drop state.baseChainCount).flatMap StoredHash.bytes ++ tail)) =
        .ok ⟨state, records, chainHashes.drop state.baseChainCount, hpublish.sorted⟩ := by
  have hrecords : Reads (readMany readDiskRecord records.length) (records.flatMap appendDiskRecord) records :=
    reads_many fun entry hentry =>
      reads_diskRecord (lt_trans (hpublish.ids entry hentry) h.next) (h.fits hentry)
  have hsuffix : Reads (readMany readHash (chainHashes.drop state.baseChainCount).length)
      ((chainHashes.drop state.baseChainCount).flatMap StoredHash.bytes) (chainHashes.drop state.baseChainCount) :=
    reads_many fun hash _ => reads_storedHash hash
  have hlength : (chainHashes.drop state.baseChainCount).length = state.chainHashCount - state.baseChainCount := by
    rw [List.length_drop, hpublish.chainHashCount]
  rw [hpublish.count] at hrecords
  rw [hlength] at hsuffix
  have hlinks : ¬∃ entry ∈ records, entry.1 ≥ state.next ∨ ¬linkValid state.next entry.2.parent ∨
      ¬linkValid state.next entry.2.left ∨ ¬linkValid state.next entry.2.right := by
    rintro ⟨entry, hentry, hbad⟩
    obtain ⟨hparent, hleft, hright⟩ := h.links entry hentry
    rcases hbad with hbad | hbad | hbad | hbad
    · exact absurd (hpublish.ids entry hentry) (not_lt.mpr hbad)
    · exact hbad hparent
    · exact hbad hleft
    · exact hbad hright
  have hroots : ¬∃ root ∈ state.roots.toList, ¬linkValid state.next root := by
    rintro ⟨root, hroot, hbad⟩
    exact hbad (h.roots root hroot)
  have htip : ¬(chainHashes.drop state.baseChainCount ≠ [] ∧
      (chainHashes.drop state.baseChainCount).getLast? ≠ some state.point.blockHash) := by
    rintro ⟨hne, hlast⟩
    exact hlast (getLast?_drop_chain hpublish.tip hne)
  unfold parseDeltaBody
  rw [hrecords]
  dsimp only
  rw [dif_pos hpublish.sorted, if_neg hlinks, if_neg hroots, hsuffix]
  dsimp only
  rw [if_neg htip]

/-- **Delta round trip.** A published file is read as it was written, if the ids below the next one leave `NO_NODE` out. -/
theorem parseDelta_published [DecidableEq H] {chainHashes : List H} (h : state.Built records)
    (hpublish : state.Publishable chainHashes records) :
    parseDelta (deltaBytes state records (chainHashes.drop state.baseChainCount)) =
      if state.next < noNode then .ok ⟨state, records, chainHashes.drop state.baseChainCount, hpublish.sorted⟩
      else .error "forest delta fields are inconsistent" := by
  set suffix := chainHashes.drop state.baseChainCount with hsuffix
  set header := serializeDeltaHeader state with hheader
  set body := header ++ (records.flatMap appendDiskRecord ++ suffix.flatMap StoredHash.bytes) with hbody
  have hnoNode : noNode = 2 ^ 32 - 1 := rfl
  have hheaderLength : header.length = 432 := length_serializeDeltaHeader state
  have hsuffixLength : suffix.length = state.chainHashCount - state.baseChainCount := by
    rw [hsuffix, List.length_drop, hpublish.chainHashCount]
  have hbodyLength : body.length = 432 + state.recordCount * 52 + (state.chainHashCount - state.baseChainCount) * 32 := by
    rw [hbody, List.length_append, List.length_append, hheaderLength,
      length_flatMap_of_forall fun entry _ => length_appendDiskRecord entry,
      length_flatMap_of_forall fun hash _ => StoredHash.length_bytes hash, hpublish.count, hsuffixLength]
    show 432 + (state.recordCount * 52 + _) = _
    omega
  have hvalue : deltaBytes state records suffix = body ++ (appendUnsigned 8 (checksum body) ++ deltaCommit) := by
    simp only [deltaBytes, hbody, checksum, extendChecksum_append, List.append_assoc, ← hheader]
  obtain ⟨hlength, htake, hcommit, hchecked⟩ := sealed_parts body deltaCommit rfl (checksum_lt body) hvalue
  have hoffset : (deltaBytes state records suffix).length - deltaTrailerSize = body.length := by
    have htrailer : deltaTrailerSize = 16 := rfl
    omega
  have hsize : deltaHeaderSize + state.recordCount * deltaRecordSize +
      (state.chainHashCount - state.baseChainCount) * 32 + deltaTrailerSize =
        (deltaBytes state records suffix).length := by
    rw [hlength, hbodyLength]
    rfl
  have hfront : (deltaBytes state records suffix).take deltaHeaderSize = header :=
    List.take_left' hheaderLength
  have hback : (deltaBytes state records suffix).drop deltaHeaderSize = records.flatMap appendDiskRecord ++
      (suffix.flatMap StoredHash.bytes ++ (appendUnsigned 8 (checksum body) ++ deltaCommit)) := by
    rw [hvalue, hbody, List.append_assoc, List.append_assoc]
    exact List.drop_left' hheaderLength
  have hchain : state.chainHashCount ≤ 2 ^ 32 := by
    have := h.height
    rw [h.chainHashCount]
    omega
  have hbase : state.baseChainCount < 2 ^ 64 := by
    have hle := hpublish.base
    have hcount := hpublish.chainHashCount
    omega
  have hcount := hpublish.recordCount
  have hread := reads_deltaHeader h hbase (by omega) []
  rw [List.append_nil, List.append_nil, ← hheader] at hread
  have hroots := reads_roots (fun root hroot => (h.roots root hroot).lt_width h.next) []
  rw [List.append_nil] at hroots
  have hroom : ¬(state.recordCount > (2 ^ 64 - 1 - deltaHeaderSize - deltaTrailerSize) / deltaRecordSize ∨
      state.chainHashCount - state.baseChainCount >
        (2 ^ 64 - 1 - deltaHeaderSize - deltaTrailerSize - state.recordCount * deltaRecordSize) / 32) := by
    have hrecordSize : deltaRecordSize = 52 := rfl
    have hheaderSize : deltaHeaderSize = 432 := rfl
    have htrailerSize : deltaTrailerSize = 16 := rfl
    rw [hrecordSize, hheaderSize, htrailerSize]
    omega
  unfold parseDelta
  dsimp only
  rw [if_neg (by rw [← hsize]; omega), if_neg (not_not.mpr hcommit)]
  rw [hoffset, htake, hchecked, if_neg (not_not.mpr rfl), hfront, hread]
  dsimp only
  rw [hroots]
  dsimp only
  by_cases hnext : state.next < noNode
  · have hconsistent := (h.consistent_iff hpublish).mpr hnext
    rw [if_neg (by simp only [ne_eq, not_true_eq_false, false_or, not_not]; exact hconsistent), if_neg hroom, if_neg (not_not.mpr hsize), hback, if_pos hnext]
    exact parseDeltaBody_written h hpublish _
  · have hconsistent := (h.consistent_iff hpublish).not.mpr hnext
    rw [if_pos (Or.inr hconsistent), if_neg hnext]

/-- What `WriteDeltaRun` returns as the mapped run is what is read from the bytes that it published. -/
theorem parseDelta_writeDeltaRun [DecidableEq H] {directory directory' : Directory H} {chainHashes : List H} {io : DeltaIo}
    {run : DeltaRun H} (h : state.Built records)
    (hok : writeDeltaRun directory state chainHashes records io = (.ok run, directory')) :
    ∃ bytes, publishDelta state chainHashes records = .ok bytes ∧ parseDelta bytes = .ok run := by
  unfold writeDeltaRun at hok
  split_ifs at hok with hfields hexists hsorted hids hcount
  · cases hok
  · cases hok
  · cases hok
  · cases hok
  · have hpublished : publishDelta state chainHashes records =
        .ok (deltaBytes state records (chainHashes.drop state.baseChainCount)) := by
      rw [publishDelta, if_neg hfields, if_neg (not_or.mpr ⟨not_not.mpr hsorted, hids⟩), if_neg hcount]
    refine ⟨_, hpublished, ?_⟩
    obtain ⟨hpublish, -⟩ := publishDelta_eq_ok hpublished
    cases hpub : io.published with
    | error message =>
      rw [hpub] at hok
      cases hok
    | ok u =>
      cases hconfirmed : io.confirmed with
      | error message =>
        rw [hpub, hconfirmed] at hok
        cases hok
      | ok u =>
        cases hparse : state.parseError records with
        | some what =>
          rw [hpub, hconfirmed] at hok
          simp only [hparse] at hok
          cases hok
        | none =>
          rw [hpub, hconfirmed] at hok
          simp only [hparse] at hok
          have hnext : state.next < noNode := by
            by_contra hout
            unfold DeltaState.parseError at hparse
            rw [if_pos (Or.inr (Or.inr (Or.inr (Or.inl (not_lt.mp hout)))))] at hparse
            cases hparse
          rw [parseDelta_published h hpublish, if_pos hnext]
          cases hok
          rfl
  · cases hok

end Written

/-! ## Both formats -/

/-- **Persistence.** Log records read back, and a cut one does not; a published delta file reads back exactly if the
state's next id is below `NO_NODE`. -/
theorem persistence_roundTrip (H : Type) [StoredHash H] [DecidableEq H] :
    (∀ t : WalTransaction H, t.Fits → t.heightValid = true → t.afterNext < noNode →
      parseWal (serializeWal t) = .ok t.stored) ∧
    (∀ t : WalTransaction H, t.Fits → ∀ cut, cut <+: serializeWal t → cut ≠ serializeWal t →
      ∀ (parsed : WalTransaction H) size, nextRecord cut ≠ .record parsed size) ∧
    ∀ (state : DeltaState H) chainHashes records bytes, state.Built records →
      publishDelta state chainHashes records = .ok bytes →
        ((∃ run : DeltaRun H, parseDelta bytes = .ok run ∧ run.state = state ∧ run.records = records ∧
          run.chainSuffix = chainHashes.drop state.baseChainCount) ↔ state.next < noNode) := by
  refine ⟨fun t h hheight hnext => parseWal_serializeWal h hheight hnext, ?_, ?_⟩
  · intro t h cut hcut hne parsed size hrecord
    rcases nextRecord_cut h hcut hne with hshort | hincomplete
    · rw [hrecord] at hshort
      cases hshort
    · rw [hrecord] at hincomplete
      cases hincomplete
  · intro state chainHashes records bytes h hpublished
    obtain ⟨hpublish, rfl⟩ := publishDelta_eq_ok hpublished
    rw [parseDelta_published h hpublish]
    constructor
    · rintro ⟨run, hparse, -⟩
      by_contra hnext
      rw [if_neg hnext] at hparse
      cases hparse
    · intro hnext
      rw [if_pos hnext]
      exact ⟨_, rfl, rfl, rfl, rfl⟩

def pairRecords : List (Nat × NodeRecord ByteHash) :=
  [(0, ⟨leafHash 5, 2, noNode, noNode, .leaf⟩), (1, ⟨leafHash 6, 2, noNode, noNode, .leaf⟩),
    (2, ⟨ForestHash.parentHash (leafHash 5) (leafHash 6), noNode, 0, 1, .branch⟩)]

def pairTransaction : WalTransaction ByteHash where
  kind := .connect
  lsn := 1
  previous := ⟨0, .zero⟩
  point := ⟨1, leafHash 1⟩
  beforeNumLeaves := 0
  afterNumLeaves := 2
  beforeNext := 0
  afterNext := 3
  beforeRoots := .replicate 64 noNode
  afterRoots := (Vector.replicate 64 noNode).set 1 2
  changes := pairRecords.map fun (id, record) => ⟨id, .blank, record, false⟩

def pairDeltaState : DeltaState ByteHash where
  snapshot := false
  generation := 1
  previousGeneration := 0
  baseGeneration := 1
  physicalBaseLsn := 0
  baseFingerprint := .zero
  previousLsn := 0
  endLsn := 1
  baseChainCount := 1
  point := ⟨1, leafHash 1⟩
  numLeaves := 2
  next := 3
  liveNodes := 3
  chainHashCount := 2
  recordCount := 3
  roots := (Vector.replicate 64 noNode).set 1 2

theorem publishDelta_pair : pairDeltaState.Built pairRecords ∧
    publishDelta pairDeltaState [.zero, leafHash 1] pairRecords =
      .ok (deltaBytes pairDeltaState pairRecords [leafHash 1]) := by
  refine ⟨by decide +kernel, ?_⟩
  rw [publishDelta, if_neg (by decide +kernel), if_neg (by decide +kernel), if_neg (by decide +kernel)]
  rfl

theorem persistence_roundTrip_pair : parseWal (serializeWal pairTransaction) = .ok pairTransaction.stored ∧
    (∀ (parsed : WalTransaction ByteHash) size, nextRecord ((serializeWal pairTransaction).take 40) ≠ .record parsed size) ∧
      ∃ run : DeltaRun ByteHash, parseDelta (deltaBytes pairDeltaState pairRecords [leafHash 1]) = .ok run ∧
        run.records = pairRecords ∧ run.chainSuffix = [leafHash 1] := by
  obtain ⟨hwhole, hcut, hdelta⟩ := persistence_roundTrip ByteHash
  have hfits : pairTransaction.Fits := by decide +kernel
  obtain ⟨hbuilt, hpublished⟩ := publishDelta_pair
  obtain ⟨run, hparse, -, hrecords, hsuffix⟩ := (hdelta _ _ _ _ hbuilt hpublished).mpr (by decide)
  refine ⟨hwhole _ hfits rfl (by decide), ?_, run, hparse, hrecords, hsuffix⟩
  exact hcut _ hfits _ (List.take_prefix _ _) (by decide +kernel)

/-- Every id is taken, as `Allocate` allows, and nothing has changed since the last seal. -/
def fullDeltaState : DeltaState ByteHash where
  snapshot := false
  generation := 1
  previousGeneration := 0
  baseGeneration := 1
  physicalBaseLsn := 0
  baseFingerprint := .zero
  previousLsn := 0
  endLsn := 0
  baseChainCount := 1
  point := ⟨0, .zero⟩
  numLeaves := 0
  next := noNode
  liveNodes := 0
  chainHashCount := 1
  recordCount := 0
  roots := .replicate 64 noNode

/-- A file that `WriteDeltaRun` publishes and cannot open. -/
theorem fullDeltaState_refused : ∃ bytes, fullDeltaState.Built [] ∧
    publishDelta fullDeltaState [ByteHash.zero] [] = .ok bytes ∧
      (parseDelta bytes : Except String (DeltaRun ByteHash)) = .error "forest delta fields are inconsistent" := by
  have hbuilt : fullDeltaState.Built [] := by decide +kernel
  have hpublished : publishDelta fullDeltaState [ByteHash.zero] [] =
      .ok (deltaBytes fullDeltaState [] ([ByteHash.zero].drop fullDeltaState.baseChainCount)) := by
    rw [publishDelta, if_neg (by decide), if_neg (by simp), if_neg (by decide)]
  obtain ⟨hpublish, -⟩ := publishDelta_eq_ok hpublished
  refine ⟨_, hbuilt, hpublished, ?_⟩
  rw [parseDelta_published hbuilt hpublish, if_neg (by decide)]

end UtreexoBridge
