import UtreexoBridge.Bytes.Folding
import UtreexoBridge.Checkpoint.Preserve
import UtreexoBridge.Online.DeltaFile

/-!
# Files with a replaced byte

Checkpoints, WAL records and delta runs end with the same checksum. A file that
is accepted is refused once any of its bytes is another one, whichever it is.
-/

namespace UtreexoBridge

open Bytes UtreexoBridge.Compact

/-! ## The checksum -/

theorem sensitive_checksum :
    Folding.Sensitive (fun value (byte : UInt8) => word ((value ^^^ byte.toNat) * checksumPrime)) {v | v < 2 ^ 64} :=
  Folding.sensitive_xor_mul (by decide) (fun _ _ h => UInt8.toNat_inj.mp h)
    fun byte => lt_trans (UInt8.toNat_lt byte) (by decide)

theorem checksum_set_ne {bytes : List UInt8} {i : Nat} (hi : i < bytes.length) {byte : UInt8} (hne : byte ≠ bytes[i]) :
    checksum (bytes.set i byte) ≠ checksum bytes :=
  sensitive_checksum.foldl_set_ne (show checksumOffset < 2 ^ 64 by decide) hi hne

theorem valueOf_injective {bytes bytes' : List UInt8} (hlength : bytes.length = bytes'.length)
    (h : valueOf bytes = valueOf bytes') : bytes = bytes' := by
  rw [← appendUnsigned_valueOf bytes, ← appendUnsigned_valueOf bytes', hlength, h]

theorem drop_set_ne {bytes : List UInt8} {n i : Nat} (hn : n ≤ i) (hi : i < bytes.length) {byte : UInt8}
    (hne : byte ≠ bytes[i]) : (bytes.set i byte).drop n ≠ bytes.drop n := by
  intro heq
  have hsame := congrArg (·[i - n]?) heq
  simp only [List.getElem?_drop, Nat.add_sub_cancel' hn, List.getElem?_set_self hi, List.getElem?_eq_getElem hi] at hsame
  exact hne (Option.some.inj hsame)

/-- A payload of `size` bytes and its checksum behind it: with another byte in one of them they do not match. -/
theorem checksum_mismatch {bytes : List UInt8} {size i : Nat} (hsize : size + 8 ≤ bytes.length)
    (hmatch : checksum (bytes.take size) = valueOf ((bytes.drop size).take 8)) (hi : i < size + 8) {byte : UInt8}
    (hne : byte ≠ bytes[i]) :
    checksum ((bytes.set i byte).take size) ≠ valueOf (((bytes.set i byte).drop size).take 8) := by
  rw [List.take_set]
  by_cases hpayload : i < size
  · have htake : i < (bytes.take size).length := by
      rw [List.length_take]
      omega
    rw [List.drop_set, if_pos hpayload, ← hmatch]
    exact checksum_set_ne htake (by rwa [List.getElem_take])
  · rw [List.set_eq_of_length_le (by rw [List.length_take]; omega), hmatch]
    intro heq
    have hlt : i < (bytes.take (size + 8)).length := by
      rw [List.length_take]
      omega
    have hsame := valueOf_injective (by simp) heq
    rw [List.take_drop, List.take_drop, List.take_set] at hsame
    exact drop_set_ne (not_lt.mp hpayload) hlt (by rwa [List.getElem_take]) hsame.symm

theorem sealed_set {bytes commit : List UInt8} (hlong : 16 ≤ bytes.length)
    (hcommit : bytes.drop (bytes.length - 8) = commit)
    (hmatch : checksum (bytes.take (bytes.length - 16)) = valueOf ((bytes.drop (bytes.length - 16)).take 8))
    {i : Nat} (hi : i < bytes.length) {byte : UInt8} (hne : byte ≠ bytes[i]) :
    if i < bytes.length - 8 then (bytes.set i byte).drop (bytes.length - 8) = commit ∧
      checksum ((bytes.set i byte).take (bytes.length - 16)) ≠ valueOf (((bytes.set i byte).drop (bytes.length - 16)).take 8)
    else (bytes.set i byte).drop (bytes.length - 8) ≠ commit := by
  have hsize : bytes.length - 16 + 8 = bytes.length - 8 := by omega
  by_cases hbefore : i < bytes.length - 8
  · rw [if_pos hbefore]
    refine ⟨?_, checksum_mismatch (by omega) hmatch (by omega) hne⟩
    rw [List.drop_set, if_pos hbefore, hcommit]
  · rw [if_neg hbefore, ← hcommit]
    exact drop_set_ne (not_lt.mp hbefore) hi hne

/-! ## The readers -/

variable {H : Type} [StoredHash H] [DecidableEq H] {bytes : List UInt8} {i : Nat} {byte : UInt8}

theorem checkpointIntact_set (h : checkpointIntact bytes = .ok ()) (hi : i < bytes.length) (hne : byte ≠ bytes[i]) :
    ¬(bytes.set i byte).length < 8 ∧
      checksum ((bytes.set i byte).take ((bytes.set i byte).length - 8)) ≠
        valueOf ((bytes.set i byte).drop ((bytes.set i byte).length - 8)) := by
  obtain ⟨payload, rfl⟩ := checkpointIntact_iff.mp h
  obtain ⟨hlong, hmatch⟩ := intact_appendChecksum payload
  rw [List.length_set]
  refine ⟨hlong, ?_⟩
  have hdrop : ∀ l : List UInt8, l.length = (appendChecksum payload).length →
      (l.drop ((appendChecksum payload).length - 8)).take 8 = l.drop ((appendChecksum payload).length - 8) := by
    intro l hl
    rw [List.take_of_length_le]
    rw [List.length_drop]
    omega
  rw [← hdrop _ rfl] at hmatch
  rw [← hdrop _ (List.length_set ..)]
  exact checksum_mismatch (by omega) hmatch (by omega) hne

theorem loadCheckpoint_set {loaded : LoadedCheckpoint H} (h : loadCheckpoint bytes = .ok (.ok loaded))
    (hi : i < bytes.length) (hne : byte ≠ bytes[i]) :
    (loadCheckpoint (bytes.set i byte) : Except Fault (Except String (LoadedCheckpoint H))) =
        .ok (.error "checkpoint checksum mismatch") ∧
      compactCheckpoint (bytes.set i byte) = .error "input checkpoint checksum mismatch" := by
  have hfile : checkpointIntact bytes = .ok () := by
    obtain ⟨c, -, rfl, -, -⟩ := exists_raw h
    exact checkpointIntact_iff.mpr ⟨c.payload, rfl⟩
  obtain ⟨hlong, hsum⟩ := checkpointIntact_set hfile hi hne
  have hintact : checkpointIntact (bytes.set i byte) = .error "checkpoint checksum mismatch" := by
    rw [checkpointIntact, if_neg hlong, if_pos hsum]
  constructor
  · unfold loadCheckpoint
    rw [hintact]
  · rw [compactCheckpoint, if_neg hlong, if_pos hsum]

omit [DecidableEq H] in
theorem parseWal_set {t : WalTransaction H} (h : parseWal bytes = .ok t) (hi : i < bytes.length) (hne : byte ≠ bytes[i]) :
    (parseWal (bytes.set i byte) : Except String (WalTransaction H)) =
      .error (if i < bytes.length - 8 then "committed WAL checksum mismatch" else "WAL commit marker is missing") := by
  have hlong : ¬bytes.length < 32 := by
    intro hshort
    rw [parseWal, if_pos hshort] at h
    cases h
  have hcommit : bytes.drop (bytes.length - 8) = walCommit := by
    by_contra hno
    rw [parseWal, if_neg hlong, if_pos hno] at h
    cases h
  have hmatch : checksum (bytes.take (bytes.length - 16)) = valueOf ((bytes.drop (bytes.length - 16)).take 8) := by
    by_contra hno
    rw [parseWal, if_neg hlong, if_neg (not_not.mpr hcommit), if_pos hno] at h
    cases h
  have hsealed := sealed_set (by omega) hcommit hmatch hi hne
  unfold parseWal
  simp only [List.length_set]
  rw [if_neg hlong]
  by_cases hbefore : i < bytes.length - 8
  · rw [if_pos hbefore] at hsealed ⊢
    rw [if_neg (not_not.mpr hsealed.1), if_pos hsealed.2]
  · rw [if_neg hbefore] at hsealed ⊢
    rw [if_pos hsealed]

theorem parseDelta_set {run : DeltaRun H} (h : parseDelta bytes = .ok run) (hi : i < bytes.length) (hne : byte ≠ bytes[i]) :
    (parseDelta (bytes.set i byte) : Except String (DeltaRun H)) =
      .error (if i < bytes.length - 8 then "forest delta checksum mismatch" else "forest delta commit marker is missing") := by
  have hlong : ¬bytes.length < deltaHeaderSize + deltaTrailerSize := by
    intro hshort
    rw [parseDelta, if_pos hshort] at h
    cases h
  have hcommit : bytes.drop (bytes.length - 8) = deltaCommit := by
    by_contra hno
    rw [parseDelta, if_neg hlong, if_pos hno] at h
    cases h
  have hmatch : checksum (bytes.take (bytes.length - deltaTrailerSize)) =
      valueOf ((bytes.drop (bytes.length - deltaTrailerSize)).take 8) := by
    by_contra hno
    rw [parseDelta, if_neg hlong, if_neg (not_not.mpr hcommit), if_pos hno] at h
    cases h
  have hsealed := sealed_set (by unfold deltaHeaderSize deltaTrailerSize at hlong; omega) hcommit hmatch hi hne
  unfold parseDelta
  simp only [List.length_set]
  rw [if_neg hlong]
  by_cases hbefore : i < bytes.length - 8
  · rw [if_pos hbefore] at hsealed ⊢
    rw [if_neg (not_not.mpr hsealed.1)]
    exact if_pos hsealed.2
  · rw [if_neg hbefore] at hsealed ⊢
    rw [if_pos hsealed]

/-- **A replaced byte.** No accepted checkpoint, WAL record or delta run is accepted with any one byte replaced, and the
messages are those about the checksum and the commit marker. -/
theorem replaced_byte_refused (H : Type) [StoredHash H] [DecidableEq H] (bytes : List UInt8) (i : Nat) (hi : i < bytes.length)
    (byte : UInt8) (hne : byte ≠ bytes[i]) :
    (∀ loaded : LoadedCheckpoint H, loadCheckpoint bytes = .ok (.ok loaded) →
      (loadCheckpoint (bytes.set i byte) : Except Fault (Except String (LoadedCheckpoint H))) =
          .ok (.error "checkpoint checksum mismatch") ∧
        compactCheckpoint (bytes.set i byte) = .error "input checkpoint checksum mismatch") ∧
    (∀ t : WalTransaction H, parseWal bytes = .ok t → (parseWal (bytes.set i byte) : Except String (WalTransaction H)) =
      .error (if i < bytes.length - 8 then "committed WAL checksum mismatch" else "WAL commit marker is missing")) ∧
    ∀ run : DeltaRun H, parseDelta bytes = .ok run → (parseDelta (bytes.set i byte) : Except String (DeltaRun H)) =
      .error (if i < bytes.length - 8 then "forest delta checksum mismatch" else "forest delta commit marker is missing") :=
  ⟨fun _ h => loadCheckpoint_set h hi hne, fun _ h => parseWal_set h hi hne, fun _ h => parseDelta_set h hi hne⟩

/-- A byte of a checkpoint's records, the last byte of a commit marker, a byte of a delta run's header. -/
theorem replaced_byte_refused_pruned :
    (loadCheckpoint (prunedCheckpoint.set 100 1) : Except Fault (Except String (LoadedCheckpoint ByteHash))) =
        .ok (.error "checkpoint checksum mismatch") ∧
      (let record := serializeWal pairTransaction
       (parseWal (record.set (record.length - 1) 1) : Except String (WalTransaction ByteHash)) =
        .error "WAL commit marker is missing") ∧
      (parseDelta ((deltaBytes pairDeltaState pairRecords [leafHash 1]).set 100 1) : Except String (DeltaRun ByteHash)) =
        .error "forest delta checksum mismatch" := by
  obtain ⟨loaded, hload⟩ := load_prunedCheckpoint
  have hrecord : parseWal (serializeWal pairTransaction) = .ok pairTransaction.stored :=
    parseWal_serializeWal (by decide +kernel) rfl (by decide)
  obtain ⟨hbuilt, hpublished⟩ := publishDelta_pair
  obtain ⟨hpublish, -⟩ := publishDelta_eq_ok hpublished
  have hrun := parseDelta_published hbuilt hpublish
  rw [if_pos (by decide)] at hrun
  refine ⟨?_, ?_, ?_⟩
  · exact ((replaced_byte_refused ByteHash prunedCheckpoint 100 (by decide +kernel) 1 (by decide +kernel)).1 loaded hload).1
  · dsimp only
    rw [(replaced_byte_refused ByteHash _ _ (by decide +kernel) 1 (by decide +kernel)).2.1 _ hrecord,
      if_neg (by decide +kernel)]
  · have hset := (replaced_byte_refused ByteHash _ 100 (by decide +kernel) 1 (by decide +kernel)).2.2 _ hrun
    rw [if_pos (by decide +kernel)] at hset
    exact hset

end UtreexoBridge
