import UtreexoBridge.Archive.Store

/-!
# Appending to the archive's files

Both files only grow. A record stays where it is, so what a replay made of the
WAL does not change when data follows.
-/

namespace UtreexoBridge.Archive

open Bytes

variable {H : Type} [ArchiveHash H]

/-! ## Writes -/

omit [ArchiveHash H] in
theorem pwriteAll_end {file bytes file' : List UInt8} {offset : Nat} (h : pwriteAll file bytes offset = .ok file')
    (hend : offset = file.length) : file' = file ++ bytes ∧ file'.length ≤ maxOffset := by
  unfold pwriteAll at h
  split at h
  · cases h
  · rename_i hfits
    cases h
    subst hend
    rw [List.take_length, Nat.sub_self, List.replicate_zero, List.append_nil,
      List.drop_eq_nil_of_le (Nat.le_add_right _ _), List.append_nil, List.length_append]
    exact ⟨rfl, by omega⟩

/-- The events of a batch whose records begin at an offset. -/
def connectEvents : Nat → List (PreparedProof H) → List (WalEvent H)
  | _, [] => []
  | offset, proof :: batch => {
      kind := .connect, point := proof.point, previousHash := proof.previousHash, dataOffset := offset,
      dataSize := proof.record.length, dataDigest := proof.digest } ::
    connectEvents (offset + proof.record.length) batch

omit [ArchiveHash H] in
theorem length_connectEvents (offset : Nat) (batch : List (PreparedProof H)) :
    (connectEvents offset batch).length = batch.length := by
  induction batch generalizing offset with
  | nil => rfl
  | cons proof batch ih => rw [connectEvents, List.length_cons, List.length_cons, ih]

omit [ArchiveHash H] in
theorem writeRecords_end {batch : List (PreparedProof H)} {data data' : List UInt8} {offset : Nat}
    {events : List (WalEvent H)} (h : ProofStore.writeRecords batch data offset = .ok (data', events))
    (hend : offset = data.length) (hsize : data.length ≤ maxOffset) :
    data' = data ++ batch.flatMap (·.record) ∧ events = connectEvents offset batch ∧ data'.length ≤ maxOffset := by
  induction batch generalizing data offset events with
  | nil =>
    cases h
    exact ⟨by rw [List.flatMap_nil, List.append_nil], rfl, hsize⟩
  | cons proof batch ih =>
    rw [ProofStore.writeRecords] at h
    simp only [bind, Except.bind] at h
    split at h
    · cases h
    · rename_i written hwrite
      obtain ⟨rfl, hwritten⟩ := pwriteAll_end hwrite hend
      split at h
      · cases h
      · rename_i result hrest
        obtain ⟨last, more⟩ := result
        cases h
        obtain ⟨rfl, rfl, hlast⟩ := ih hrest (by rw [List.length_append, hend]) hwritten
        refine ⟨?_, rfl, hlast⟩
        rw [List.flatMap_cons, List.append_assoc]

omit [ArchiveHash H] in
theorem length_records (batch : List (PreparedProof H)) :
    (batch.flatMap (·.record)).length = (batch.map (·.record.length)).sum := by
  rw [List.length_flatMap]

/-! ## Data that follows -/

section Append

variable [DecidableEq H] {data : List UInt8} {maxRecordBytes : Nat}

omit [ArchiveHash H] [DecidableEq H] in
theorem preadExact_more {size offset : Nat} {bytes : List UInt8} (h : preadExact data size offset = .ok bytes)
    (more : List UInt8) : preadExact (data ++ more) size offset = .ok bytes := by
  unfold preadExact at h ⊢
  split at h
  · rename_i hin
    cases h
    rw [if_pos (by rw [List.length_append]; omega), List.drop_append_of_le_length (by omega),
      List.take_append_of_le_length (by rw [List.length_drop]; omega)]
  · cases h

theorem envelopeState_more {event : WalEvent H} {base : Bool} {header : DataHeader H}
    {state : Option (AccumulatorState H)} (h : envelopeState data event base header = .ok state) (more : List UInt8) :
    envelopeState (data ++ more) event base header = .ok state := by
  unfold envelopeState at h ⊢
  simp only at h ⊢
  split at h
  · rename_i hlegacy
    rw [if_pos hlegacy]
    exact h
  · rename_i hlegacy
    rw [if_neg hlegacy]
    split at h
    · cases h
    · rename_i hbody
      rw [if_neg hbody]
      split at h
      · cases h
      · rename_i hsize
        rw [if_neg hsize]
        split at h
        · cases h
        · rename_i bytes hread
          rw [preadExact_more hread more]
          exact h

theorem validateDataEnvelope_more {event : WalEvent H} {base : Bool} {state : Option (AccumulatorState H)}
    (h : validateDataEnvelope data event base = .ok state) (more : List UInt8) :
    validateDataEnvelope (data ++ more) event base = .ok state := by
  unfold validateDataEnvelope at h ⊢
  simp only [bind, Except.bind, pure, Except.pure] at h ⊢
  split at h
  · cases h
  · rename_i bytes hheader
    simp only [preadExact_more hheader more]
    split at h
    · rename_i header _
      split at h
      · cases h
      · rename_i hfields
        rw [if_neg hfields]
        split at h
        · cases h
        · rename_i hsize
          rw [if_neg hsize]
          split at h
          · cases h
          · rename_i found hstate
            simp only [envelopeState_more hstate more]
            split at h
            · cases h
            · rename_i footer hfooter
              simp only [preadExact_more hfooter more]
              split at h
              · cases h
              · rename_i hcommit
                rw [if_neg hcommit]
                split at h
                · rename_i hbase
                  rw [if_pos hbase]
                  split at h
                  · cases h
                  · rename_i record hrecord
                    simp only [preadExact_more hrecord more]
                    exact h
                · rename_i hbase
                  rw [if_neg hbase]
                  exact h
    · cases h

theorem applyEvent_more {r r' : Recovered H} {event : WalEvent H}
    (h : applyEvent maxRecordBytes data true r event = .ok (.ok r')) (more : List UInt8) :
    applyEvent maxRecordBytes (data ++ more) true r event = .ok (.ok r') := by
  unfold applyEvent at h ⊢
  split at h
  · rename_i hbase
    rw [if_pos hbase]
    have h := Except.ok.inj h
    unfold applyBase at h ⊢
    simp only at h ⊢
    split at h
    · cases h
    · rename_i hvalid
      rw [if_neg (by
        simp only [not_or, not_and, not_lt, List.length_append] at hvalid ⊢
        refine ⟨hvalid.1, hvalid.2.1, hvalid.2.2.1, hvalid.2.2.2.1, fun hnew => ?_⟩
        exact ⟨(hvalid.2.2.2.2 hnew).1, by have := (hvalid.2.2.2.2 hnew).2; omega⟩)]
      split at h
      · rename_i hlegacy
        rw [if_pos hlegacy, h]
      · rename_i hlegacy
        rw [if_neg hlegacy]
        split at h
        · cases h
        · cases h
        · rename_i state hstate
          simp only [validateDataEnvelope_more hstate more]
          rw [h]
  · rename_i hbase
    rw [if_neg hbase]
    split at h
    · have h := Except.ok.inj h
      unfold applyConnect at h ⊢
      split at h
      · cases h
      · rename_i hvalid
        rw [if_neg (by
          simp only [not_or, not_lt, List.length_append] at hvalid ⊢
          obtain ⟨h1, h2, h3, h4, h5, h6⟩ := hvalid
          exact ⟨h1, h2, h3, h4, by omega, by omega⟩)]
        split at h
        · cases h
        · rename_i state hstate
          simp only [validateDataEnvelope_more hstate more]
          simp only [if_true] at h ⊢
          rw [h]
    · exact h
    · cases h

theorem Replays.more {r r' : Recovered H} {wal : List UInt8} (h : Replays maxRecordBytes data r wal r')
    (more : List UInt8) : Replays maxRecordBytes (data ++ more) r wal r' := by
  induction h with
  | nil r => exact .nil r
  | cons hsize hparse happly _ ih => exact .cons hsize hparse (applyEvent_more happly more) ih

theorem Replays.append {r r' r'' : Recovered H} {wal wal' : List UInt8} (h : Replays maxRecordBytes data r wal r')
    (h' : Replays maxRecordBytes data r' wal' r'') : Replays maxRecordBytes data r (wal ++ wal') r'' := by
  induction h with
  | nil r => exact h'
  | cons hsize hparse happly _ ih =>
    rw [List.append_assoc]
    exact .cons hsize hparse happly (ih h')

theorem Replays.event {r r' : Recovered H} {event : WalEvent H} (hfits : event.Fits)
    (happly : applyEvent maxRecordBytes data true r event = .ok (.ok r')) :
    Replays maxRecordBytes data r (serializeWal event) r' := by
  rw [← List.append_nil (serializeWal event)]
  exact .cons (length_serializeWal event) (parseWal_serializeWal hfits) happly (.nil _)

end Append

end UtreexoBridge.Archive
