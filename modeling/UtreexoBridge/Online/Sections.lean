import UtreexoBridge.Forest.RoundTrip
import UtreexoBridge.Online.Spec

/-!
# The sections of a forest file, as both loaders read them

`ReadForest` takes the nodes one by one and `ReadForestOnline` in batches. They
are the same records of the same bytes.
-/

namespace UtreexoBridge

open Bytes

variable {H : Type} [StoredHash H]

/-! ## Nodes -/

theorem ofCode_cases {code : Nat} {type : NodeType} (h : NodeType.ofCode code = some type) :
    type = .free ∨ type = .leaf ∨ type = .branch := by
  unfold NodeType.ofCode at h
  split at h <;> cases h <;> simp

theorem lift_eq_some {α : Type} {option : Option α} {value : α} {bytes rest : List UInt8} :
    (liftM option : Reader α) bytes = some (value, rest) ↔ option = some value ∧ rest = bytes := by
  cases option with
  | none =>
    constructor
    · intro h
      cases h
    · rintro ⟨h, -⟩
      cases h
  | some value' =>
    constructor
    · intro h
      cases h
      exact ⟨rfl, rfl⟩
    · rintro ⟨h, rfl⟩
      cases h
      rfl

theorem readNode_spec {slots : Nat} {bytes rest : List UInt8} {r : NodeRecord H}
    (h : readNode slots bytes = .ok (r, rest)) :
    Readable slots r ∧ ∃ front, front.length = recordBytes ∧ bytes = front ++ rest ∧ Parses (readNode slots) front r := by
  unfold readNode at h
  obtain ⟨code, more, hcode, h⟩ := Parser.bind_eq_ok.mp h
  obtain ⟨hash, more, hhash, h⟩ := Parser.bind_eq_ok.mp h
  obtain ⟨parent, more, hparent, h⟩ := Parser.bind_eq_ok.mp h
  obtain ⟨left, more, hleft, h⟩ := Parser.bind_eq_ok.mp h
  obtain ⟨right, more, hright, h⟩ := Parser.bind_eq_ok.mp h
  obtain ⟨type, more, htype, h⟩ := Parser.bind_eq_ok.mp h
  obtain ⟨⟨⟩, more, hlinks, h⟩ := Parser.bind_eq_ok.mp h
  cases Parser.pure_eq_ok.mp h
  obtain ⟨hcode', rfl⟩ := readUnsigned_iff.mp (reading_eq_ok.mp hcode)
  obtain ⟨hlength, rfl⟩ := readBytes_iff.mp (reading_eq_ok.mp hhash)
  obtain ⟨hparent', rfl⟩ := readUnsigned_iff.mp (reading_eq_ok.mp hparent)
  obtain ⟨hleft', rfl⟩ := readUnsigned_iff.mp (reading_eq_ok.mp hleft)
  obtain ⟨hright', rfl⟩ := readUnsigned_iff.mp (reading_eq_ok.mp hright)
  obtain ⟨hknown, rfl⟩ := lift_eq_some.mp (reading_eq_ok.mp htype)
  obtain ⟨hvalid, hend⟩ := require_eq_ok.mp hlinks
  cases hend
  refine ⟨⟨hvalid, ofCode_cases hknown⟩, appendUnsigned 1 code ++ (hash ++ (appendUnsigned 4 parent ++
    (appendUnsigned 4 left ++ appendUnsigned 4 right))), ?_, by simp only [List.append_assoc], ?_⟩
  · simp only [List.length_append, length_appendUnsigned, hlength]
    rfl
  · have hbytes := reads_bytes hash
    rw [hlength] at hbytes
    unfold readNode
    refine (parses_reading (reads_unsigned hcode')).bind ?_
    refine (parses_reading hbytes).bind ?_
    refine (parses_reading (reads_unsigned hparent')).bind ?_
    refine (parses_reading (reads_unsigned hleft')).bind ?_
    refine (parses_reading (reads_unsigned hright')).bind_last ?_
    refine (parses_reading (reads_lift hknown)).bind_nil ?_
    exact (parses_require hvalid).bind_nil (parses_pure _)

theorem readNode_fixedSize (slots : Nat) : FixedSize (readNode (H := H) slots) recordBytes :=
  fun _ _ _ h => (readNode_spec h).2

theorem readNodes_readable {slots count : Nat} {bytes rest : List UInt8} {records : List (NodeRecord H)}
    (h : parseMany (readNode slots) count bytes = .ok (records, rest)) :
    records.length = count ∧ ∀ r ∈ records, Readable slots r := by
  induction count generalizing bytes records with
  | zero =>
    cases Parser.pure_eq_ok.mp h
    exact ⟨rfl, by simp⟩
  | succ count ih =>
    rw [parseMany, Parser.bind_eq_ok] at h
    obtain ⟨r, more, hr, h⟩ := h
    obtain ⟨others, end', hothers, hpure⟩ := Parser.bind_eq_ok.mp h
    cases Parser.pure_eq_ok.mp hpure
    obtain ⟨hlength, hall⟩ := ih hothers
    exact ⟨congrArg (· + 1) hlength, List.forall_mem_cons.mpr ⟨(readNode_spec hr).1, hall⟩⟩

/-! ## Batches -/

theorem readBatch_iff {slots count : Nat} {bytes rest : List UInt8} {records : List (NodeRecord H)} :
    readBatch slots count bytes = .ok (records, rest) ↔ parseMany (readNode slots) count bytes = .ok (records, rest) := by
  have hsize := (readNode_fixedSize (H := H) slots).many count
  unfold readBatch
  rw [Parser.bind_eq_ok]
  constructor
  · rintro ⟨serialized, more, hread, h⟩
    obtain ⟨hlength, rfl⟩ := readBytes_iff.mp (reading_eq_ok.mp hread)
    cases hmany : parseMany (readNode (H := H) slots) count serialized with
    | error message =>
      rw [hmany] at h
      cases h
    | ok result =>
      obtain ⟨records', left⟩ := result
      rw [hmany] at h
      cases Parser.pure_eq_ok.mp h
      obtain ⟨front, hfront, rfl, hparses⟩ := hsize _ _ _ hmany
      -- the records fill the batch
      have hnil : left = [] := by
        rw [List.length_append, hfront] at hlength
        exact List.length_eq_zero_iff.mp (by omega)
      rw [hnil, List.append_nil]
      exact hparses rest
  · intro hmany
    obtain ⟨front, hfront, rfl, hparses⟩ := hsize _ _ _ hmany
    refine ⟨front, rest, reading_eq_ok.mpr (readBytes_iff.mpr ⟨hfront, rfl⟩), ?_⟩
    have hrun := hparses []
    rw [List.append_nil] at hrun
    rw [hrun]
    rfl

theorem readBatches_iff {slots : Nat} (batches first : Nat) (hfirst : first + batches * importBatch < slots + importBatch)
    (hlast : slots ≤ first + batches * importBatch) {bytes rest : List UInt8} {records : List (NodeRecord H)} :
    readBatches slots batches first bytes = .ok (records, rest) ↔
      parseMany (readNode slots) (slots - first) bytes = .ok (records, rest) := by
  have hbatch : importBatch = 65536 := rfl
  induction batches generalizing first bytes records with
  | zero =>
    rw [show slots - first = 0 by omega]
    rfl
  | succ batches ih =>
    rw [Nat.succ_mul] at hfirst hlast
    rw [show slots - first = min importBatch (slots - first) + (slots - (first + importBatch)) by omega, parseMany_add,
      readBatches, Parser.bind_eq_ok]
    constructor
    · rintro ⟨front, middle, hfront, h⟩
      obtain ⟨back, end', hback, hpure⟩ := Parser.bind_eq_ok.mp h
      cases Parser.pure_eq_ok.mp hpure
      exact ⟨front, middle, back, readBatch_iff.mp hfront, (ih (first + importBatch) (by omega) (by omega)).mp hback, rfl⟩
    · rintro ⟨front, middle, back, hfront, hback, rfl⟩
      refine ⟨front, middle, readBatch_iff.mpr hfront, Parser.bind_eq_ok.mpr ⟨back, rest, ?_, rfl⟩⟩
      exact (ih (first + importBatch) (by omega) (by omega)).mpr hback

/-! ## The whole -/

/-- The header and the records behind it. -/
def Holds (bytes : List UInt8) (leaves slots : Nat) (roots : List Nat) (records : List (NodeRecord H)) (rest : List UInt8) :
    Prop :=
  ∃ body, readForestHeader bytes = .ok ((leaves, slots, roots), body) ∧
    parseMany (readNode slots) slots body = .ok (records, rest)

variable {bytes rest : List UInt8} {leaves slots : Nat} {roots : List Nat} {records : List (NodeRecord H)}

theorem readOnlineSections_iff :
    readOnlineSections bytes = .ok ((leaves, slots, roots, records), rest) ↔
      chunkCapacity slots < noNode ∧ Holds bytes leaves slots roots records rest := by
  have hbatch : importBatch = 65536 := rfl
  unfold readOnlineSections Holds
  rw [Parser.bind_eq_ok]
  constructor
  · rintro ⟨⟨leaves', slots', roots'⟩, body, hheader, h⟩
    obtain ⟨⟨⟩, more, hcapacity, h⟩ := Parser.bind_eq_ok.mp h
    obtain ⟨hfits, hend⟩ := require_eq_ok.mp hcapacity
    cases hend
    obtain ⟨records', end', hrecords, hpure⟩ := Parser.bind_eq_ok.mp h
    cases Parser.pure_eq_ok.mp hpure
    exact ⟨hfits, body, hheader, (readBatches_iff _ 0 (by rw [hbatch]; omega) (by rw [hbatch]; omega)).mp hrecords⟩
  · rintro ⟨hcapacity, body, hheader, hrecords⟩
    refine ⟨(leaves, slots, roots), body, hheader, Parser.bind_eq_ok.mpr ⟨(), body, require_eq_ok.mpr ⟨hcapacity, rfl⟩, ?_⟩⟩
    refine Parser.bind_eq_ok.mpr ⟨records, rest, ?_, rfl⟩
    exact (readBatches_iff _ 0 (by rw [hbatch]; omega) (by rw [hbatch]; omega)).mpr hrecords

def importNodes : Nat → NodeArena H → List (NodeRecord H) → NodeArena H
  | _, a, [] => a
  | id, a, r :: records => importNodes (id + 1) (a.importNode id r) records

theorem readNodes_iff (count id : Nat) (a a' : NodeArena H) {bytes : List UInt8} :
    readNodes slots count id a bytes = .ok (a', rest) ↔
      ∃ records, parseMany (readNode slots) count bytes = .ok (records, rest) ∧ a' = importNodes id a records := by
  induction count generalizing id a bytes with
  | zero =>
    rw [readNodes, parseMany, Parser.pure_eq_ok]
    constructor
    · intro h
      cases h
      exact ⟨[], rfl, rfl⟩
    · rintro ⟨records, hrun, rfl⟩
      cases Parser.pure_eq_ok.mp hrun
      rfl
  | succ count ih =>
    rw [readNodes, parseMany, Parser.bind_eq_ok]
    constructor
    · rintro ⟨r, more, hr, h⟩
      obtain ⟨records, hmany, rfl⟩ := (ih _ _).mp h
      exact ⟨r :: records, Parser.bind_eq_ok.mpr ⟨r, more, hr, Parser.bind_eq_ok.mpr ⟨records, rest, hmany, rfl⟩⟩, rfl⟩
    · rintro ⟨records, hrun, rfl⟩
      obtain ⟨r, more, hr, h⟩ := Parser.bind_eq_ok.mp hrun
      obtain ⟨others, end', hothers, hpure⟩ := Parser.bind_eq_ok.mp h
      cases Parser.pure_eq_ok.mp hpure
      exact ⟨r, more, hr, (ih _ _).mpr ⟨others, hothers, rfl⟩⟩

theorem readSections_eq : (readSections : Parser (Nat × Nat × List Nat × NodeArena H)) = do
    let (leaves, slots, roots) ← readForestHeader
    let arena ← readNodes slots slots 0 .new
    return (leaves, slots, roots, arena) := by
  unfold readSections readForestHeader
  simp only [bind_assoc, pure_bind]

theorem readSections_iff {a : NodeArena H} :
    readSections bytes = .ok ((leaves, slots, roots, a), rest) ↔
      ∃ records, Holds bytes leaves slots roots records rest ∧ a = importNodes 0 .new records := by
  rw [readSections_eq, Parser.bind_eq_ok]
  constructor
  · rintro ⟨⟨leaves', slots', roots'⟩, body, hheader, h⟩
    obtain ⟨a', end', hnodes, hpure⟩ := Parser.bind_eq_ok.mp h
    cases Parser.pure_eq_ok.mp hpure
    obtain ⟨records, hrecords, rfl⟩ := (readNodes_iff _ _ _ _).mp hnodes
    exact ⟨records, ⟨body, hheader, hrecords⟩, rfl⟩
  · rintro ⟨records, ⟨body, hheader, hrecords⟩, rfl⟩
    refine ⟨(leaves, slots, roots), body, hheader, Parser.bind_eq_ok.mpr ⟨_, rest, ?_, rfl⟩⟩
    exact (readNodes_iff _ _ _ _).mpr ⟨records, hrecords, rfl⟩

theorem imported_importNodes {read : Nat → NodeRecord H} (records : List (NodeRecord H)) {count : Nat} {a : NodeArena H}
    (h : Imported read count a) (hread : ∀ i (hi : i < records.length), records[i] = read (count + i)) :
    Imported read (count + records.length) (importNodes count a records) := by
  induction records generalizing count a with
  | nil => exact h
  | cons r records ih =>
    have hr : r = read count := hread 0 (by simp)
    rw [importNodes, List.length_cons, ← Nat.add_assoc, Nat.add_right_comm, hr]
    refine ih h.importNode fun i hi => ?_
    rw [show count + 1 + i = count + (i + 1) by omega]
    exact hread (i + 1) (by simpa using hi)

theorem Holds.imported (h : Holds bytes leaves slots roots records rest) :
    Imported (records.getD · zeroRecord) slots (importNodes 0 .new records) := by
  obtain ⟨body, -, hrecords⟩ := h
  have himp := imported_importNodes records (imported_new (records.getD · zeroRecord)) fun i hi => by
    rw [Nat.zero_add, List.getD_eq_getElem?_getD, List.getElem?_eq_getElem hi, Option.getD_some]
  rwa [Nat.zero_add, (readNodes_readable hrecords).1] at himp

theorem Holds.read_eq (h : Holds bytes leaves slots roots records rest) {id : Nat} (hid : id < slots) :
    (importNodes 0 .new records).read id = records.getD id zeroRecord := h.imported.read_eq id hid

theorem readForestHeader_slots {body : List UInt8} (h : readForestHeader bytes = .ok ((leaves, slots, roots), body)) :
    slots < noNode := by
  unfold readForestHeader at h
  obtain ⟨magic, more, -, h⟩ := Parser.bind_eq_ok.mp h
  obtain ⟨⟨⟩, more, -, h⟩ := Parser.bind_eq_ok.mp h
  obtain ⟨version, more, -, h⟩ := Parser.bind_eq_ok.mp h
  obtain ⟨leaves', more, -, h⟩ := Parser.bind_eq_ok.mp h
  obtain ⟨slots', more, -, h⟩ := Parser.bind_eq_ok.mp h
  obtain ⟨⟨⟩, more, -, h⟩ := Parser.bind_eq_ok.mp h
  obtain ⟨⟨⟩, more, hslots, h⟩ := Parser.bind_eq_ok.mp h
  obtain ⟨roots', more, -, h⟩ := Parser.bind_eq_ok.mp h
  cases Parser.pure_eq_ok.mp h
  exact (require_eq_ok.mp hslots).1

end UtreexoBridge
