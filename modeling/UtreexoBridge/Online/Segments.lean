import UtreexoBridge.Online.Rollback
import UtreexoBridge.Wal.RoundTrip

/-!
# The segments of the log

A segment is a list of whole records, and behind them at most the front of one
that a failed append left. Pruning and the search for a record stop there.
-/

namespace UtreexoBridge

open Bytes

variable {H : Type} [StoredHash H]

/-! ## Files of records -/

/-- A segment, with what an append that failed has left at its end. -/
structure WalFile (H : Type) where
  start : Nat
  records : List (WalTransaction H)
  cut : List UInt8

def WalFile.bytes (file : WalFile H) : List UInt8 := file.records.flatMap serializeWal ++ file.cut

/-- The readers get to the end of the records and no further. -/
structure WalFile.WellFormed (file : WalFile H) : Prop where
  storable : ∀ t ∈ file.records, t.Storable
  cut : file.cut = [] ∨ (nextRecord file.cut : NextRecord H) = .short ∨ (nextRecord file.cut : NextRecord H) = .incomplete

omit [StoredHash H] in
def allRecords (files : List (WalFile H)) : List (WalTransaction H) := files.flatMap WalFile.records

theorem serializeWal_ne_nil (t : WalTransaction H) : serializeWal t ≠ [] := by
  intro hnil
  have hlength := length_serializeWal t
  rw [hnil, List.length_nil] at hlength
  omega

theorem length_records_le (records : List (WalTransaction H)) (cut : List UInt8) :
    records.length ≤ (records.flatMap serializeWal ++ cut).length := by
  induction records with
  | nil => exact Nat.zero_le _
  | cons t records ih =>
    have hlength := length_serializeWal t
    rw [List.flatMap_cons, List.append_assoc, List.length_append, List.length_cons]
    omega

/-! ## Searching for a record -/

section Read

variable [DecidableEq H] {point : ChainPoint H}

omit [StoredHash H] in
/-- The record that connected `point` last. -/
def latestConnect (point : ChainPoint H) (log : List (WalTransaction H)) : Option (WalTransaction H) :=
  (log.filter (·.connects point)).getLast?

omit [StoredHash H] in
theorem latestConnect_append (log more : List (WalTransaction H)) :
    latestConnect point (log ++ more) = (latestConnect point more).or (latestConnect point log) := by
  rw [latestConnect, List.filter_append, List.getLast?_append]
  rfl

omit [StoredHash H] in
theorem latestConnect_singleton (t : WalTransaction H) :
    latestConnect point [t] = if t.connects point then some t else none := by
  rw [latestConnect, List.filter_cons]
  split_ifs
  all_goals rfl

theorem readSegment_file {file : WalFile H} (h : file.WellFormed) {fuel : Nat} (hfuel : file.records.length < fuel)
    (found : Option (WalTransaction H)) :
    OpenStore.readSegment point fuel file.bytes found =
      .ok (((latestConnect point file.records).map WalTransaction.stored).or found) := by
  obtain ⟨start, records, cut⟩ := file
  obtain ⟨hstorable, hcut⟩ := h
  unfold WalFile.bytes
  dsimp only at hstorable hcut hfuel ⊢
  induction records generalizing fuel found with
  | nil =>
    cases fuel with
    | zero => cases hfuel
    | succ fuel =>
      rw [OpenStore.readSegment, List.flatMap_nil, List.nil_append]
      rcases hcut with hnil | hshort | hincomplete
      · rw [if_pos hnil]
        rfl
      · rw [hshort]
        split_ifs
        all_goals rfl
      · rw [hincomplete]
        split_ifs
        all_goals rfl
  | cons t records ih =>
    cases fuel with
    | zero => cases hfuel
    | succ fuel =>
      have hnonempty : (t :: records).flatMap serializeWal ++ cut ≠ [] := by
        rw [List.flatMap_cons, List.append_assoc]
        exact List.append_ne_nil_of_left_ne_nil (serializeWal_ne_nil t) _
      rw [OpenStore.readSegment, if_neg hnonempty, List.flatMap_cons, List.append_assoc,
        nextRecord_serializeWal (hstorable t List.mem_cons_self)]
      dsimp only
      rw [List.drop_left, ih _ (Nat.lt_of_succ_lt_succ hfuel) fun u hu => hstorable u (List.mem_cons_of_mem _ hu)]
      have hcons : latestConnect point (t :: records) = (latestConnect point records).or (latestConnect point [t]) :=
        latestConnect_append [t] records
      have hstored : t.stored.connects point = t.connects point := rfl
      rw [hcons, latestConnect_singleton, hstored]
      cases latestConnect point records with
      | some later => rfl
      | none => split_ifs <;> rfl

theorem readSegments_files {files : List (WalFile H)} (h : ∀ file ∈ files, file.WellFormed)
    (found : Option (WalTransaction H)) :
    OpenStore.readSegments point (files.map fun file => (file.start, file.bytes)) found =
      .ok (((latestConnect point (allRecords files)).map WalTransaction.stored).or found) := by
  induction files generalizing found with
  | nil => rfl
  | cons file files ih =>
    have hfuel : file.records.length < file.bytes.length + 1 := by
      have := length_records_le file.records file.cut
      unfold WalFile.bytes
      omega
    rw [List.map_cons, OpenStore.readSegments]
    dsimp only
    rw [readSegment_file (h file List.mem_cons_self) hfuel]
    dsimp only
    rw [ih fun other hother => h other (List.mem_cons_of_mem _ hother)]
    have hcons : latestConnect point (allRecords (file :: files)) =
        (latestConnect point (allRecords files)).or (latestConnect point file.records) := by
      rw [allRecords, List.flatMap_cons, latestConnect_append]
      rfl
    rw [hcons]
    cases latestConnect point (allRecords files) <;> rfl

end Read

/-! ## The scan of `PruneWal` -/

theorem scanSegment_mono {fuel : Nat} {bytes : List UInt8} {height lsn maxHeight maxLsn : Nat}
    (h : OpenStore.scanSegment (H := H) fuel bytes height lsn = some (maxHeight, maxLsn)) :
    height ≤ maxHeight ∧ lsn ≤ maxLsn := by
  induction fuel generalizing bytes height lsn with
  | zero => cases h
  | succ fuel ih =>
    rw [OpenStore.scanSegment] at h
    split_ifs at h with hnil
    · cases h
      exact ⟨le_refl _, le_refl _⟩
    · split at h
      · obtain ⟨hheight, hlsn⟩ := ih h
        exact ⟨le_trans (le_max_left _ _) hheight, le_trans (le_max_left _ _) hlsn⟩
      · cases h

theorem scanSegment_bounds {records : List (WalTransaction H)} (hstorable : ∀ t ∈ records, t.Storable)
    {tail : List UInt8} {fuel height lsn maxHeight maxLsn : Nat}
    (h : OpenStore.scanSegment (H := H) fuel (records.flatMap serializeWal ++ tail) height lsn =
      some (maxHeight, maxLsn)) : ∀ t ∈ records, t.point.height ≤ maxHeight ∧ t.lsn ≤ maxLsn := by
  induction records generalizing fuel height lsn with
  | nil => rintro t ⟨⟩
  | cons t records ih =>
    cases fuel with
    | zero => cases h
    | succ fuel =>
      have hnonempty : (t :: records).flatMap serializeWal ++ tail ≠ [] := by
        rw [List.flatMap_cons, List.append_assoc]
        exact List.append_ne_nil_of_left_ne_nil (serializeWal_ne_nil t) _
      rw [OpenStore.scanSegment, if_neg hnonempty, List.flatMap_cons, List.append_assoc,
        nextRecord_serializeWal (hstorable t List.mem_cons_self)] at h
      dsimp only at h
      rw [List.drop_left] at h
      intro u hu
      rcases List.mem_cons.mp hu with rfl | hu
      · obtain ⟨hheight, hlsn⟩ := scanSegment_mono h
        exact ⟨le_trans (le_max_right _ _) hheight, le_trans (le_max_right _ _) hlsn⟩
      · exact ih (fun v hv => hstorable v (List.mem_cons_of_mem _ hv)) h u hu

theorem cut_eq_nil_of_scan {file : WalFile H} (h : file.WellFormed) {fuel height lsn : Nat}
    (hscan : (OpenStore.scanSegment (H := H) fuel file.bytes height lsn).isSome) : file.cut = [] := by
  obtain ⟨start, records, cut⟩ := file
  obtain ⟨hstorable, hcut⟩ := h
  unfold WalFile.bytes at hscan
  dsimp only at hstorable hcut hscan ⊢
  induction records generalizing fuel height lsn with
  | nil =>
    cases fuel with
    | zero => cases hscan
    | succ fuel =>
      rw [OpenStore.scanSegment, List.flatMap_nil, List.nil_append] at hscan
      rcases hcut with hnil | hshort | hincomplete
      · exact hnil
      · rw [hshort] at hscan
        split_ifs at hscan with hnil
        · exact hnil
        · cases hscan
      · rw [hincomplete] at hscan
        split_ifs at hscan with hnil
        · exact hnil
        · cases hscan
  | cons t records ih =>
    cases fuel with
    | zero => cases hscan
    | succ fuel =>
      have hnonempty : (t :: records).flatMap serializeWal ++ cut ≠ [] := by
        rw [List.flatMap_cons, List.append_assoc]
        exact List.append_ne_nil_of_left_ne_nil (serializeWal_ne_nil t) _
      rw [OpenStore.scanSegment, if_neg hnonempty, List.flatMap_cons, List.append_assoc,
        nextRecord_serializeWal (hstorable t List.mem_cons_self)] at hscan
      dsimp only at hscan
      rw [List.drop_left] at hscan
      exact ih hscan fun u hu => hstorable u (List.mem_cons_of_mem _ hu)

end UtreexoBridge
