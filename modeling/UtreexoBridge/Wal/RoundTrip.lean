import Mathlib.Data.List.Infix
import UtreexoBridge.Bytes.Scans
import UtreexoBridge.Wal.Spec

/-!
# WAL records read back

Each field is read as it was written, and so is the record. A record that was
cut off is never taken for a whole one.
-/

namespace UtreexoBridge

open Bytes

/-! ## Widths -/

/-- The links are 32 bits wide, and the type is one that is stored. -/
structure NodeRecord.Fits {H : Type} (r : NodeRecord H) : Prop where
  parent : r.parent < 2 ^ 32
  left : r.left < 2 ^ 32
  right : r.right < 2 ^ 32
  type : r.type = .free ∨ r.type = .leaf ∨ r.type = .branch

instance NodeRecord.decidableFits {H : Type} (r : NodeRecord H) : Decidable r.Fits :=
  decidable_of_iff ((r.parent < 2 ^ 32 ∧ r.left < 2 ^ 32 ∧ r.right < 2 ^ 32) ∧
    (r.type = .free ∨ r.type = .leaf ∨ r.type = .branch))
    ⟨fun ⟨⟨h1, h2, h3⟩, h4⟩ => ⟨h1, h2, h3, h4⟩, fun ⟨h1, h2, h3, h4⟩ => ⟨⟨h1, h2, h3⟩, h4⟩⟩

/-- The widths of the fields. A transaction changes a node once at most. -/
structure WalTransaction.Fits {H : Type} (t : WalTransaction H) : Prop where
  lsn : t.lsn < 2 ^ 64
  previous : t.previous.height < 2 ^ 32
  point : t.point.height < 2 ^ 32
  beforeNumLeaves : t.beforeNumLeaves < 2 ^ 64
  afterNumLeaves : t.afterNumLeaves < 2 ^ 64
  beforeNext : t.beforeNext < 2 ^ 32
  beforeRoots : ∀ root ∈ t.beforeRoots.toList, root < 2 ^ 32
  afterRoots : ∀ root ∈ t.afterRoots.toList, root < 2 ^ 32
  ids : ∀ change ∈ t.changes, change.id < 2 ^ 32
  records : ∀ change ∈ t.changes, change.before.Fits ∧ change.after.Fits
  count : t.changes.length ≤ noNode

instance WalTransaction.decidableFits {H : Type} (t : WalTransaction H) : Decidable t.Fits :=
  decidable_of_iff ((t.lsn < 2 ^ 64 ∧ t.previous.height < 2 ^ 32 ∧ t.point.height < 2 ^ 32) ∧
    (t.beforeNumLeaves < 2 ^ 64 ∧ t.afterNumLeaves < 2 ^ 64 ∧ t.beforeNext < 2 ^ 32) ∧
    ((∀ root ∈ t.beforeRoots.toList, root < 2 ^ 32) ∧ ∀ root ∈ t.afterRoots.toList, root < 2 ^ 32) ∧
    (∀ change ∈ t.changes, change.id < 2 ^ 32) ∧ (∀ change ∈ t.changes, change.before.Fits ∧ change.after.Fits) ∧
    t.changes.length ≤ noNode)
    ⟨fun ⟨⟨h1, h2, h3⟩, ⟨h4, h5, h6⟩, ⟨h7, h8⟩, h9, h10, h11⟩ => ⟨h1, h2, h3, h4, h5, h6, h7, h8, h9, h10, h11⟩,
      fun ⟨h1, h2, h3, h4, h5, h6, h7, h8, h9, h10, h11⟩ =>
        ⟨⟨h1, h2, h3⟩, ⟨h4, h5, h6⟩, ⟨h7, h8⟩, h9, h10, h11⟩⟩

/-- The transaction without the marks that are not stored. -/
def WalTransaction.stored {H : Type} (t : WalTransaction H) : WalTransaction H :=
  { t with changes := t.changes.map fun change => { change with wasDirty := false } }

/-! ## The checksum -/

theorem extendChecksum_append (value : Nat) (front back : List UInt8) :
    extendChecksum value (front ++ back) = extendChecksum (extendChecksum value front) back := List.foldl_append

theorem extendChecksum_lt {value : Nat} (h : value < 2 ^ 64) (bytes : List UInt8) :
    extendChecksum value bytes < 2 ^ 64 := by
  induction bytes generalizing value with
  | nil => exact h
  | cons byte bytes ih => exact ih (Nat.mod_lt _ (by decide))

theorem checksum_lt (bytes : List UInt8) : checksum bytes < 256 ^ 8 := extendChecksum_lt (by decide) bytes

/-! ## Fields -/

section Fields

variable {H : Type} [StoredHash H]

theorem reads_storedHash (hash : H) : Reads readHash (StoredHash.bytes hash) hash := by
  have hbytes := reads_bytes (StoredHash.bytes hash)
  rw [StoredHash.length_bytes] at hbytes
  refine hbytes.bind_last ?_
  rw [StoredHash.ofBytes_bytes]
  exact reads_pure hash

theorem NodeType.code_stored {type : NodeType} (h : type = .free ∨ type = .leaf ∨ type = .branch) :
    type.code < 256 ^ 1 ∧ NodeType.ofCode type.code = some type := by
  rcases h with rfl | rfl | rfl <;> decide

theorem reads_record {r : NodeRecord H} (h : r.Fits) : Reads readRecord (appendRecord r) r := by
  obtain ⟨hcode, htype⟩ := NodeType.code_stored h.type
  refine (reads_storedHash r.hash).bind ?_
  refine (reads_unsigned h.parent).bind ?_
  refine (reads_unsigned h.left).bind ?_
  refine (reads_unsigned h.right).bind ?_
  refine (reads_unsigned hcode).bind ?_
  refine (reads_lift htype).bind_nil ?_
  exact (reads_bytes [0, 0, 0]).bind_last (reads_pure r)

theorem reads_point {p : ChainPoint H} (h : p.height < 2 ^ 32) : Reads readPoint (appendPoint p) p :=
  (reads_unsigned h).bind ((reads_storedHash p.blockHash).bind_last (reads_pure p))

theorem reads_roots {roots : Vector Nat 64} (h : ∀ root ∈ roots.toList, root < 2 ^ 32) :
    Reads readRoots (appendRoots roots) roots := by
  have hmany : Reads (readMany (readUnsigned 4) roots.toList.length) (appendRoots roots) roots.toList :=
    reads_many fun root hroot => reads_unsigned (h root hroot)
  rw [Vector.length_toList] at hmany
  refine hmany.bind_last ?_
  have hsame : (Vector.ofFn fun row : Fin 64 => roots.toList.getD row noNode) = roots := by
    ext i hi
    rw [Vector.getElem_ofFn, List.getD_eq_getElem _ _ (by rw [Vector.length_toList]; exact hi), Vector.getElem_toList]
  rw [hsame]
  exact reads_pure roots

theorem reads_change {change : NodeChange H} (hid : change.id < 2 ^ 32) (hbefore : change.before.Fits)
    (hafter : change.after.Fits) : Reads readChange (appendChange change) { change with wasDirty := false } :=
  (reads_unsigned hid).bind ((reads_record hbefore).bind ((reads_record hafter).bind_last (reads_pure _)))

theorem reads_version : Reads readVersion (appendUnsigned 4 onlineFormatVersion) () :=
  (reads_unsigned (by decide)).bind_last (reads_guard (Or.inr rfl))

theorem reads_kind (kind : WalKind) : Reads readKind (appendUnsigned 4 kind.code) kind := by
  have hcode : kind.code < 256 ^ 4 := by cases kind <;> decide
  exact (reads_unsigned hcode).bind_last (reads_lift (by cases kind <;> rfl))

theorem reads_metadata {t : WalTransaction H} (h : t.Fits) (hnext : t.afterNext < noNode) :
    Reads readMetadata (walMetadata t) { t with
      beforeRoots := .replicate 64 0, afterRoots := .replicate 64 0, changes := [] } := by
  have hafter : t.afterNext < 256 ^ 4 := lt_trans hnext (by decide)
  refine reads_version.bind ?_
  refine (reads_kind t.kind).bind ?_
  refine (reads_unsigned h.lsn).bind ?_
  refine (reads_point h.previous).bind ?_
  refine (reads_point h.point).bind ?_
  refine (reads_unsigned h.beforeNumLeaves).bind ?_
  refine (reads_unsigned h.afterNumLeaves).bind ?_
  refine (reads_unsigned h.beforeNext).bind ?_
  exact (reads_unsigned hafter).bind_last (reads_pure _)

theorem reads_changes {t : WalTransaction H} (h : t.Fits) :
    Reads (readMany readChange t.changes.length) (t.changes.flatMap appendChange) t.stored.changes := by
  have hone : ∀ change ∈ t.stored.changes, Reads readChange (appendChange change) change := by
    intro change hchange
    obtain ⟨original, hmem, rfl⟩ := List.mem_map.mp hchange
    obtain ⟨hbefore, hafter⟩ := h.records original hmem
    exact reads_change (h.ids original hmem) hbefore hafter
  have hmany := reads_many hone
  rw [WalTransaction.stored, List.length_map, List.flatMap_map] at hmany
  exact hmany

/-! ## The record -/

theorem parsePayload_walPayload {t : WalTransaction H} (h : t.Fits) (hheight : t.heightValid = true)
    (hnext : t.afterNext < noNode) : parsePayload (walPayload t) = .ok t.stored := by
  have hcount : t.changes.length < 256 ^ 8 := lt_of_le_of_lt h.count (by decide)
  unfold parsePayload walPayload
  rw [reads_metadata h hnext]
  dsimp only
  rw [reads_roots h.beforeRoots]
  dsimp only
  rw [reads_roots h.afterRoots]
  dsimp only
  rw [reads_unsigned hcount]
  dsimp only
  rw [if_neg (not_lt.mpr h.count)]
  have hchanges := reads_changes h []
  rw [List.append_nil] at hchanges
  rw [hchanges]
  have hvalid : ({ t with
      beforeRoots := .replicate 64 0, afterRoots := .replicate 64 0, changes := [] } : WalTransaction H).heightValid = true :=
    hheight
  dsimp only
  rw [hvalid, if_neg (by simpa using hnext)]
  rfl

theorem length_appendRecord (r : NodeRecord H) : (appendRecord r).length = 48 := by
  simp [appendRecord, StoredHash.length_bytes]

theorem length_flatMap_of_forall {α : Type} {encode : α → List UInt8} {size : Nat} {values : List α}
    (h : ∀ v ∈ values, (encode v).length = size) : (values.flatMap encode).length = values.length * size := by
  induction values with
  | nil => simp
  | cons v values ih =>
    rw [List.flatMap_cons, List.length_append, h v List.mem_cons_self,
      ih fun w hw => h w (List.mem_cons_of_mem _ hw), List.length_cons, Nat.succ_mul]
    omega

theorem length_appendRoots (roots : Vector Nat 64) : (appendRoots roots).length = 256 := by
  have hlength : (appendRoots roots).length = roots.toList.length * 4 :=
    length_flatMap_of_forall fun root _ => length_appendUnsigned 4 root
  rw [hlength, Vector.length_toList]

theorem length_walPayload_le {t : WalTransaction H} (h : t.Fits) : (walPayload t).length < 2 ^ 60 := by
  have hcount := h.count
  have hnode : noNode = 2 ^ 32 - 1 := rfl
  have hchanges : (t.changes.flatMap appendChange).length = t.changes.length * 100 :=
    length_flatMap_of_forall fun change _ => by simp [appendChange, length_appendRecord]
  simp only [walPayload, walMetadata, appendPoint, List.length_append, length_appendUnsigned, StoredHash.length_bytes,
    length_appendRoots, hchanges]
  omega

theorem reads_walHeader {size : Nat} (h : size < 2 ^ 64) :
    Reads readHeader (walMagic ++ appendUnsigned 8 size) (walMagic, size) :=
  (reads_bytes walMagic).bind ((reads_unsigned h).bind_last (reads_pure _))

theorem length_serializeWal (t : WalTransaction H) : (serializeWal t).length = (walPayload t).length + 32 := by
  simp only [serializeWal, List.length_append, length_appendUnsigned]
  have hmagic : walMagic.length = 8 := rfl
  have hcommit : walCommit.length = 8 := rfl
  omega

theorem take_serializeWal (t : WalTransaction H) :
    (serializeWal t).take 16 = walMagic ++ appendUnsigned 8 (walPayload t).length := by
  rw [serializeWal]
  simp only [List.append_assoc]
  rw [← List.append_assoc]
  exact List.take_left' (by rw [List.length_append, length_appendUnsigned]; rfl)

theorem sealed_parts (body commit : List UInt8) (hcommit : commit.length = 8) {value : Nat} (h : value < 256 ^ 8)
    {bytes : List UInt8} (hbytes : bytes = body ++ (appendUnsigned 8 value ++ commit)) :
    bytes.length = body.length + 16 ∧ bytes.take body.length = body ∧ bytes.drop (bytes.length - 8) = commit ∧
      valueOf ((bytes.drop body.length).take 8) = value := by
  have hlength : bytes.length = body.length + 16 := by
    rw [hbytes, List.length_append, List.length_append, length_appendUnsigned, hcommit]
  refine ⟨hlength, by rw [hbytes, List.take_left], ?_, ?_⟩
  · have hfront : (body ++ appendUnsigned 8 value).length = bytes.length - 8 := by
      rw [List.length_append, length_appendUnsigned]
      omega
    rw [← hfront, hbytes, ← List.append_assoc, List.drop_left]
  · rw [hbytes, List.drop_left, List.take_left' (length_appendUnsigned _ _), valueOf_appendUnsigned _ _ h]

/-- **WAL round trip.** A record reads back as the transaction that it was written for. -/
theorem parseWal_serializeWal {t : WalTransaction H} (h : t.Fits) (hheight : t.heightValid = true)
    (hnext : t.afterNext < noNode) : parseWal (serializeWal t) = .ok t.stored := by
  have hlength := length_serializeWal t
  have hsize : (walPayload t).length < 2 ^ 64 := lt_trans (length_walPayload_le h) (by decide)
  set body := walMagic ++ (appendUnsigned 8 (walPayload t).length ++ walPayload t) with hbody
  have hrecord : serializeWal t = body ++ (appendUnsigned 8 (checksum body) ++ walCommit) := rfl
  have hbodyLength : body.length = (walPayload t).length + 16 := by
    rw [hbody, List.length_append, List.length_append, length_appendUnsigned]
    show 8 + (8 + (walPayload t).length) = _
    omega
  obtain ⟨htotal, htake, hcommit, hchecked⟩ := sealed_parts body walCommit rfl (checksum_lt body) hrecord
  have hoffset : (serializeWal t).length - 16 = body.length := by omega
  have hheader : readHeader ((serializeWal t).take 16) = some ((walMagic, (walPayload t).length), []) := by
    have hread := reads_walHeader hsize []
    rwa [List.append_nil, ← take_serializeWal] at hread
  have hpayload : ((serializeWal t).drop 16).take (walPayload t).length = walPayload t := by
    have hdrop : (serializeWal t).drop 16 = walPayload t ++ (appendUnsigned 8 (checksum body) ++ walCommit) := by
      rw [hrecord, hbody, List.append_assoc, List.append_assoc, ← List.append_assoc]
      exact List.drop_left' (by rw [List.length_append, length_appendUnsigned]; rfl)
    rw [hdrop, List.take_left]
  unfold parseWal
  rw [if_neg (by omega), if_neg (not_not.mpr hcommit), hoffset, htake, hchecked, if_neg (not_not.mpr rfl), hheader]
  dsimp only
  rw [if_neg (by simp only [ne_eq, not_true_eq_false, false_or, not_not]; omega), hpayload]
  exact parsePayload_walPayload h hheight hnext

/-- A record that was cut off ends the scan of its segment. -/
theorem nextRecord_cut {t : WalTransaction H} (h : t.Fits) {cut : List UInt8} (hcut : cut <+: serializeWal t)
    (hne : cut ≠ serializeWal t) :
    (nextRecord cut : NextRecord H) = .short ∨ (nextRecord cut : NextRecord H) = .incomplete := by
  have hlength := length_serializeWal t
  have hpayload := length_walPayload_le h
  have hsize : (walPayload t).length < 2 ^ 64 := lt_trans hpayload (by decide)
  have hlt : cut.length < (serializeWal t).length := by
    refine lt_of_le_of_ne hcut.length_le fun heq => hne ?_
    exact hcut.eq_of_length heq
  rcases Nat.lt_or_ge cut.length 16 with hshort | hlong
  · left
    have hnone : readHeader cut = none := by
      cases hheader : readHeader cut with
      | none => rfl
      | some result =>
        obtain ⟨magic, back, hmagic, hrest⟩ := Reader.bind_eq_some.mp hheader
        obtain ⟨size, rest, hsize, -⟩ := Reader.bind_eq_some.mp hrest
        obtain ⟨field, tail, hfield, -⟩ := Reader.bind_eq_some.mp hsize
        obtain ⟨hlen, rfl⟩ := readBytes_iff.mp hmagic
        obtain ⟨hlen', rfl⟩ := readBytes_iff.mp hfield
        rw [List.length_append, List.length_append] at hshort
        omega
    rw [nextRecord, hnone]
  · right
    obtain ⟨rest, hrest⟩ := hcut
    have hheader : readHeader cut = some ((walMagic, (walPayload t).length), cut.drop 16) := by
      have hfront : cut.take 16 = walMagic ++ appendUnsigned 8 (walPayload t).length := by
        have htake : (cut ++ rest).take 16 = walMagic ++ appendUnsigned 8 (walPayload t).length := by
          rw [hrest, take_serializeWal]
        rwa [List.take_append_of_le_length hlong] at htake
      have hread := reads_walHeader hsize (cut.drop 16)
      rwa [← hfront, List.take_append_drop] at hread
    have htotal : word ((walPayload t).length + 32) = (walPayload t).length + 32 := Nat.mod_eq_of_lt (by omega)
    rw [nextRecord, hheader]
    dsimp only
    rw [if_neg (not_not.mpr rfl), htotal, if_pos (by omega)]

/-- A record that the reader of a segment accepts. -/
structure WalTransaction.Storable {H : Type} (t : WalTransaction H) : Prop where
  fits : t.Fits
  heightValid : t.heightValid = true
  afterNext : t.afterNext < noNode

theorem nextRecord_serializeWal {t : WalTransaction H} (h : t.Storable) (rest : List UInt8) :
    nextRecord (serializeWal t ++ rest) = .record t.stored (serializeWal t).length := by
  have hlength := length_serializeWal t
  have hpayload := length_walPayload_le h.fits
  have hheader : readHeader (serializeWal t ++ rest) =
      some ((walMagic, (walPayload t).length), (serializeWal t ++ rest).drop 16) := by
    have hfront : (serializeWal t ++ rest).take 16 = walMagic ++ appendUnsigned 8 (walPayload t).length := by
      rw [List.take_append_of_le_length (by omega), take_serializeWal]
    have hread := reads_walHeader (lt_trans hpayload (by decide)) ((serializeWal t ++ rest).drop 16)
    rwa [← hfront, List.take_append_drop] at hread
  have htotal : word ((walPayload t).length + 32) = (serializeWal t).length := by
    rw [hlength]
    exact Nat.mod_eq_of_lt (by omega)
  rw [nextRecord, hheader]
  dsimp only
  rw [if_neg (not_not.mpr rfl), htotal, if_neg (by rw [List.length_append]; omega), List.take_left,
    parseWal_serializeWal h.fits h.heightValid h.afterNext]

end Fields

end UtreexoBridge
