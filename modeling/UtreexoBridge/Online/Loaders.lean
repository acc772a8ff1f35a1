import UtreexoBridge.Online.ReadForest

/-!
# Which forest files are sound (`ReadForest`, `ReadForestOnline`)

`ReadForest` checks that children know their branch. `ReadForestOnline` also
checks that nodes are children of their parent, and listed if they have none.
Neither checks that a root is listed in a row of the forest.
-/

namespace UtreexoBridge

open Bytes

variable {H : Type} [StoredHash H] [DecidableEq H] {bytes rest : List UInt8} {leaves slots : Nat} {rootList : List Nat}
  {records : List (NodeRecord H)} {f : PackedForest H} {point : ChainPoint H} {chainHashes : List H}
  {config : OnlineForestConfig}

/-! ## The loader in memory -/

theorem indexes_consistent (hholds : Holds bytes leaves slots rootList records rest)
    (hall : ∀ id < slots, Consistent (importNodes 0 .new records) id) :
    ∃ index, indexNodes (importNodes 0 .new records) (List.range slots) .new 0 =
        .ok (.ok (index, (importNodes 0 .new records).leafIds.card)) ∧
      index.Indexes (importNodes 0 .new records) (importNodes 0 .new records).leafIds := by
  have himp := hholds.imported
  obtain ⟨body, hheader, -⟩ := hholds
  have hslots := readForestHeader_slots hheader
  obtain ⟨index, S, hrun, hindex, hS⟩ := indexNodes_spec (a := importNodes 0 .new records) (by rw [himp.next_eq]; omega)
    (List.range slots) List.nodup_range (S := ∅) (by simp) (fun id hid => hall id (List.mem_range.mp hid)) (by simp)
    (KeylessLeafIndex.indexes_new _)
  have hleafIds : S = (importNodes 0 .new records).leafIds := by
    ext id
    rw [hS, NodeArena.mem_leafIds, himp.next_eq]
    simp
  subst hleafIds
  rw [Finset.card_empty] at hrun
  exact ⟨index, hrun, hindex⟩

theorem readForest_accepts (h : readForest bytes = .ok (.ok (f, rest))) :
    f.Accepted ∧ ∃ rootList records, Holds bytes f.numLeaves f.arena.next rootList records rest ∧
      f.roots = rootVector rootList ∧ ∀ id < f.arena.next, f.arena.read id = records.getD id zeroRecord := by
  unfold readForest at h
  cases hsections : readSections (H := H) bytes with
  | error message =>
    rw [hsections] at h
    cases h
  | ok result =>
    obtain ⟨⟨leaves, slots, rootList, a⟩, rest'⟩ := result
    rw [hsections] at h
    dsimp only at h
    obtain ⟨records, hholds, rfl⟩ := readSections_iff.mp hsections
    have himp := hholds.imported
    split at h
    · cases h
    · cases h
    · rename_i index count hindexed
      split at h
      · cases h
      have hall : ∀ id < slots, Consistent (importNodes 0 .new records) id := fun id hid =>
        indexNodes_accepts (List.range slots) (fun x hx => by rw [himp.next_eq]; exact List.mem_range.mp hx) hindexed id
          (List.mem_range.mpr hid)
      obtain ⟨index', hrun, hindex⟩ := indexes_consistent hholds hall
      rw [hrun] at hindexed
      cases hindexed
      cases h
      have hnext : (importNodes 0 .new records).next = slots := himp.next_eq
      obtain ⟨body, hheader, hrecords⟩ := hholds
      obtain ⟨hlength, hreadable⟩ := readNodes_readable hrecords
      refine ⟨⟨?_, fun id hid => ?_, fun id hid => ?_, hindex⟩, rootList, records, ?_, rfl, fun id hid => ?_⟩
      · show (importNodes 0 .new records).next < noNode
        rw [hnext]
        exact readForestHeader_slots hheader
      · show Readable (importNodes 0 .new records).next ((importNodes 0 .new records).read id)
        have hid' : id < slots := lt_of_lt_of_eq hid hnext
        rw [hnext, himp.read_eq id hid', List.getD_eq_getElem?_getD, List.getElem?_eq_getElem (by omega), Option.getD_some]
        exact hreadable _ (List.getElem_mem _)
      · exact hall id (lt_of_lt_of_eq hid hnext)
      · show Holds bytes leaves (importNodes 0 .new records).next rootList records rest
        rw [hnext]
        exact ⟨body, hheader, hrecords⟩
      · exact himp.read_eq id (lt_of_lt_of_eq hid hnext)

omit [DecidableEq H] in
theorem WellFormed.consistent {a : NodeArena H} {roots : List Nat} (h : WellFormed roots a.next a.read) {id : Nat}
    (hid : id < a.next) : Consistent a id := by
  refine ⟨fun htype => ⟨hid, h.leaf id hid htype⟩, fun htype => ?_⟩
  obtain ⟨hl, hltype, hlp⟩ := h.children id hid htype _ (Or.inl rfl)
  obtain ⟨hr, hrtype, hrp⟩ := h.children id hid htype _ (Or.inr rfl)
  exact ⟨⟨NodeArena.mem_liveIds.mpr ⟨hl, hltype⟩, hlp⟩, ⟨NodeArena.mem_liveIds.mpr ⟨hr, hrtype⟩, hrp⟩, (h.hash id hid htype).symm⟩

/-! ## Both loaders -/

/-- What an accepted file is expected to be, whichever way it is loaded. -/
structure Sound (bytes : List UInt8) (point : ChainPoint H) (chainHashes : List H) (config : OnlineForestConfig) : Prop where
  rooted : ∀ (f : PackedForest H) rest, readForest bytes = .ok (.ok (f, rest)) → ∀ leaf ∈ f.arena.leafIds, f.Rooted leaf
  positions : ∀ (f : PackedForest H) rest, readForest bytes = .ok (.ok (f, rest)) →
    ∀ hash leaf, f.index.find f.arena hash = some leaf → ∃ pos, f.positionOf leaf = .ok (.ok pos)
  same : (∃ (f : PackedForest H) (rest : List UInt8), readForest bytes = .ok (.ok (f, rest))) ↔
    ∃ out, readForestOnline bytes point chainHashes config = .ok (.ok out)
  agree : ∀ (f : PackedForest H) rest, readForest bytes = .ok (.ok (f, rest)) →
    ∀ out, readForestOnline bytes point chainHashes config = .ok (.ok out) →
      out.1.roots = f.roots ∧ out.1.toPackedForest.rootHashes = f.rootHashes ∧ out.1.numLeaves = f.numLeaves ∧
        ∀ hash, out.1.toPackedForest.contains hash = f.contains hash

/-- Whether an accepted file is also loaded into online storage. -/
theorem readForestOnline_iff (hchain : ChainMatches point chainHashes) (hconfig : ¬config.Invalid)
    (hread : readForest bytes = .ok (.ok (f, rest))) :
    (∃ out, readForestOnline bytes point chainHashes config = .ok (.ok out)) ↔
      f.arena.next ≤ 2 ^ 32 - 2 ^ 20 ∧ WellFormed f.roots.toList f.arena.next f.arena.read ∧
        ∃ capacity ∈ validatedIndexCapacity (leafCount f.arena.read f.arena.next),
          capacity ≤ maximumValidatedIndexCapacity f.arena.next := by
  obtain ⟨-, rootList, records, hholds, hroots, hsame⟩ := readForest_accepts hread
  rw [readForestOnline_ok_iff hchain hconfig hholds, chunkCapacity_lt_iff, ← leafCount_congr hsame, ← hroots]
  constructor
  · rintro ⟨hslots, hgood, hfits⟩
    exact ⟨hslots, hgood.congr hsame, hfits⟩
  · rintro ⟨hslots, hgood, hfits⟩
    exact ⟨hslots, hgood.congr fun id hid => (hsame id hid).symm, hfits⟩

def loaded (bytes : List UInt8) : PackedForest ByteHash :=
  match readForest bytes with
  | .ok (.ok (f, _)) => f
  | _ => .new

end UtreexoBridge
