import UtreexoBridge.Archive.Payload
import UtreexoBridge.Wire.Positions
import UtreexoBridge.Wire.Transaction

/-!
# Block proofs on the wire (`SerializeUtreexoProof`, `SerializeUtreexoProofWire`)

The size is measured before anything is written. `MeasureUtreexoProof` accepts
exactly what is written in the size it gives, and the full payload of a proof is
the only one that decodes to it.
-/

namespace UtreexoBridge.Wire

open Bytes Position

/-! ## Measuring and writing -/

/-- The targets that are written: as they are, or in wire form for a forest of `wireNumLeaves` leaves. -/
def layoutTargets (targets : List Nat) (wireNumLeaves : Option Nat) : Except String (List Nat) :=
  wireNumLeaves.elim (.ok targets) (wireTargets · targets)

section Measure

variable {H : Type} [ArchiveHash H] [DecidableEq H]

/-- `MeasureUtreexoProof`: the proof with the targets that are written, and the size of its payload. -/
def measureLayout (proof : CachedBlockProof H) (request : GetUtreexoProofRequest H) (limit : Nat)
    (wireNumLeaves : Option Nat) : Except String (CachedBlockProof H × Nat) :=
  if proof.point.blockHash ≠ request.blockHash then .error "getuproof block hash does not match cached proof"
  else if proof.proof.targets.length ≠ proof.leaves.length ∨ proof.leaves.length > maxInputsPerBlock then
    .error "cached proof target/leaf counts are invalid"
  else
    match layoutTargets proof.proof.targets wireNumLeaves with
    | .error message => .error message
    | .ok targets =>
      let written := { proof with proof := { proof.proof with targets } }
      (measureUtreexoProof written request limit).map fun size => (written, size)

/-- The payload that `SerializeUtreexoProofWithLayout` writes. -/
def layoutPayload (written : CachedBlockProof H) (request : GetUtreexoProofRequest H) : List UInt8 :=
  proofPayload written.point.blockHash (requestedHashes written request) (requestedTargets written request)
    (requestedLeaves written request)

/-- `SerializeUtreexoProof` without `wireNumLeaves`, `SerializeUtreexoProofWire` with it. -/
def serializeLayout (proof : CachedBlockProof H) (request : GetUtreexoProofRequest H) (limit : Nat)
    (wireNumLeaves : Option Nat) : Except String (List UInt8) :=
  match measureLayout proof request limit wireNumLeaves with
  | .error message => .error message
  | .ok (written, payloadBytes) =>
    if (layoutPayload written request).length ≠ payloadBytes then .error "internal uproof serialized-size mismatch"
    else .ok (layoutPayload written request)

/-! ## What is measured -/

theorem addBytes_iff {limit bytes total result : Nat} :
    addBytes limit bytes total = .ok result ↔ total + bytes ≤ limit ∧ result = total + bytes := by
  rw [addBytes]
  split_ifs with h
  · exact iff_of_false (by simp) (by omega)
  · rw [Except.ok.injEq]
    constructor
    · rintro rfl
      omega
    · exact fun h => h.2.symm

theorem except_bind_iff {α β : Type} {x : Except String α} {next : α → Except String β} {result : β} :
    (x >>= next) = .ok result ↔ ∃ value, x = .ok value ∧ next value = .ok result := by
  cases x with
  | error message => exact iff_of_false (by simp [bind, Except.bind]) (by simp)
  | ok value => simp [bind, Except.bind]

theorem foldlM_sizes {α : Type} {step : Nat → α → Except String Nat} {size : α → Nat} {valid : α → Prop} {limit : Nat}
    (hstep : ∀ total a result, step total a = .ok result ↔ valid a ∧ total + size a ≤ limit ∧ result = total + size a)
    {items : List α} {total result : Nat} (htotal : total ≤ limit) :
    items.foldlM step total = .ok result ↔
      (∀ a ∈ items, valid a) ∧ total + (items.map size).sum ≤ limit ∧ result = total + (items.map size).sum := by
  induction items generalizing total with
  | nil =>
    rw [List.foldlM_nil, List.map_nil, List.sum_nil]
    show Except.ok total = .ok result ↔ _
    rw [Except.ok.injEq]
    constructor
    · rintro rfl
      exact ⟨by simp, htotal, rfl⟩
    · exact fun h => h.2.2.symm
  | cons a items ih =>
    rw [List.foldlM_cons, except_bind_iff, List.map_cons, List.sum_cons, List.forall_mem_cons]
    constructor
    · rintro ⟨next, hnext, hrest⟩
      obtain ⟨hvalid, hle, rfl⟩ := (hstep _ _ _).mp hnext
      obtain ⟨hall, hsum, rfl⟩ := (ih hle).mp hrest
      exact ⟨⟨hvalid, hall⟩, by omega, by omega⟩
    · rintro ⟨⟨hvalid, hall⟩, hle, rfl⟩
      refine ⟨_, (hstep _ _ _).mpr ⟨hvalid, by omega, rfl⟩, (ih (by omega)).mpr ⟨hall, by omega, by omega⟩⟩

theorem length_appendLeaf (leaf : CompactLeafData) :
    (appendLeaf leaf).length =
      13 + if leaf.scriptType = .other then compactSizeBytes leaf.script.length + leaf.script.length else 0 := by
  unfold appendLeaf
  split_ifs
  · simp
    omega
  · simp

theorem measureLeaf_iff {limit total result : Nat} {leaf : CompactLeafData} :
    measureLeaf limit total leaf = .ok result ↔
      leaf.Known ∧ total + (appendLeaf leaf).length ≤ limit ∧ result = total + (appendLeaf leaf).length := by
  constructor
  · intro h
    refine ⟨known_of_measureLeaf h, ?_⟩
    rw [length_appendLeaf]
    unfold measureLeaf at h
    split_ifs at h with hcode hlarge hscript hother
    · rw [if_pos hother]
      obtain ⟨first, hfirst, h⟩ := except_bind_iff.mp h
      obtain ⟨second, hsecond, h⟩ := except_bind_iff.mp h
      obtain ⟨-, rfl⟩ := addBytes_iff.mp hfirst
      obtain ⟨-, rfl⟩ := addBytes_iff.mp hsecond
      obtain ⟨hle, rfl⟩ := addBytes_iff.mp h
      exact ⟨by omega, by omega⟩
    · rw [if_neg hother]
      obtain ⟨first, hfirst, h⟩ := except_bind_iff.mp h
      obtain ⟨hle, rfl⟩ := addBytes_iff.mp hfirst
      cases h
      exact ⟨by omega, by omega⟩
  · rintro ⟨⟨hcode, hscript, hnil⟩, hle, rfl⟩
    rw [length_appendLeaf] at hle ⊢
    unfold measureLeaf
    rw [if_neg (by omega), if_neg fun h => absurd (hscript h.1) (by omega), if_neg fun h => h.2 (hnil h.1)]
    refine except_bind_iff.mpr ⟨total + 13, addBytes_iff.mpr ⟨by omega, rfl⟩, ?_⟩
    split_ifs at hle ⊢ with hother
    · refine except_bind_iff.mpr ⟨_, addBytes_iff.mpr ⟨by omega, rfl⟩, addBytes_iff.mpr ⟨by omega, by omega⟩⟩
    · rfl

omit [DecidableEq H] in
theorem length_layoutPayload (written : CachedBlockProof H) (request : GetUtreexoProofRequest H) :
    (layoutPayload written request).length = 32 + compactSizeBytes (requestedHashes written request).length +
      (requestedHashes written request).length * 32 + compactSizeBytes (requestedTargets written request).length +
      ((requestedTargets written request).map compactSizeBytes).sum +
      compactSizeBytes (requestedLeaves written request).length +
      ((requestedLeaves written request).map fun leaf => (appendLeaf leaf).length).sum := by
  unfold layoutPayload proofPayload
  have htargets : ((requestedTargets written request).flatMap appendCompactSize).length =
      ((requestedTargets written request).map compactSizeBytes).sum := by
    rw [List.length_flatMap]
    simp only [length_appendCompactSize]
  simp only [List.length_append, StoredHash.length_bytes, length_appendCompactSize, Archive.length_hashes, htargets,
    List.length_flatMap (l := requestedLeaves written request)]
  omega

theorem measure_iff {proof : CachedBlockProof H} {request : GetUtreexoProofRequest H} {limit size : Nat} :
    measureUtreexoProof proof request limit = .ok size ↔
      proof.point.blockHash = request.blockHash ∧ proof.proof.targets.length = proof.leaves.length ∧
      proof.leaves.length ≤ maxInputsPerBlock ∧ (∀ leaf ∈ requestedLeaves proof request, leaf.Known) ∧
      (layoutPayload proof request).length ≤ limit ∧ size = (layoutPayload proof request).length := by
  have hsizes := length_layoutPayload proof request
  have htargets : ∀ {items : List Nat} {total result : Nat}, total ≤ limit →
      (items.foldlM (fun total target => addBytes limit (compactSizeBytes target) total) total = .ok result ↔
        (∀ target ∈ items, True) ∧ total + (items.map compactSizeBytes).sum ≤ limit ∧
          result = total + (items.map compactSizeBytes).sum) :=
    fun htotal => foldlM_sizes (fun total target result => by rw [addBytes_iff, true_and]) htotal
  have hleaves : ∀ {items : List CompactLeafData} {total result : Nat}, total ≤ limit →
      (items.foldlM (measureLeaf limit) total = .ok result ↔ (∀ leaf ∈ items, leaf.Known) ∧
        total + (items.map fun leaf => (appendLeaf leaf).length).sum ≤ limit ∧
          result = total + (items.map fun leaf => (appendLeaf leaf).length).sum) :=
    fun htotal => @foldlM_sizes _ (measureLeaf limit) _ _ limit (fun _ _ _ => measureLeaf_iff) _ _ _ htotal
  unfold measureUtreexoProof
  constructor
  · intro h
    split_ifs at h with hblock hcounts
    obtain ⟨t1, h1, h⟩ := except_bind_iff.mp h
    obtain ⟨t2, h2, h⟩ := except_bind_iff.mp h
    obtain ⟨t3, h3, h⟩ := except_bind_iff.mp h
    obtain ⟨t4, h4, h⟩ := except_bind_iff.mp h
    obtain ⟨t5, h5, h⟩ := except_bind_iff.mp h
    obtain ⟨t6, h6, h⟩ := except_bind_iff.mp h
    obtain ⟨-, rfl⟩ := addBytes_iff.mp h1
    obtain ⟨-, rfl⟩ := addBytes_iff.mp h2
    obtain ⟨-, rfl⟩ := addBytes_iff.mp h3
    obtain ⟨hle, rfl⟩ := addBytes_iff.mp h4
    obtain ⟨-, -, rfl⟩ := (htargets hle).mp h5
    obtain ⟨hle, rfl⟩ := addBytes_iff.mp h6
    obtain ⟨hknown, hle, rfl⟩ := (hleaves hle).mp h
    exact ⟨not_not.mp hblock, by omega, by omega, hknown, by omega, by omega⟩
  · rintro ⟨hblock, hcount, hmax, hknown, hle, rfl⟩
    rw [if_neg (not_not.mpr hblock), if_neg (by omega)]
    refine except_bind_iff.mpr ⟨_, addBytes_iff.mpr ⟨by omega, rfl⟩, ?_⟩
    refine except_bind_iff.mpr ⟨_, addBytes_iff.mpr ⟨by omega, rfl⟩, ?_⟩
    refine except_bind_iff.mpr ⟨_, addBytes_iff.mpr ⟨by omega, rfl⟩, ?_⟩
    refine except_bind_iff.mpr ⟨_, addBytes_iff.mpr ⟨by omega, rfl⟩, ?_⟩
    refine except_bind_iff.mpr ⟨_, (htargets (by omega)).mpr ⟨by simp, by omega, rfl⟩, ?_⟩
    refine except_bind_iff.mpr ⟨_, addBytes_iff.mpr ⟨by omega, rfl⟩, ?_⟩
    exact (hleaves (by omega)).mpr ⟨hknown, by omega, by omega⟩

end Measure

/-! ## What decodes to a proof -/

section Decode

variable {H : Type} [WireHash H]

theorem readMany_iff {α : Type} {reader : Reader α} {encode : α → List UInt8} {valid : α → Prop}
    (h : ∀ {value bytes rest}, reader bytes = some (value, rest) ↔ valid value ∧ bytes = encode value ++ rest)
    {count : Nat} {bytes rest : List UInt8} {values : List α} :
    readMany reader count bytes = some (values, rest) ↔
      values.length = count ∧ (∀ v ∈ values, valid v) ∧ bytes = values.flatMap encode ++ rest := by
  induction count generalizing bytes values with
  | zero =>
    rw [readMany, Reader.pure_eq_some, Prod.mk.injEq, List.length_eq_zero_iff]
    constructor
    · rintro ⟨rfl, rfl⟩
      exact ⟨rfl, by simp, rfl⟩
    · rintro ⟨rfl, -, rfl⟩
      exact ⟨rfl, rfl⟩
  | succ count ih =>
    rw [readMany, Reader.bind_eq_some]
    constructor
    · rintro ⟨value, back, hvalue, hrest⟩
      rw [Reader.bind_eq_some] at hrest
      obtain ⟨others, back', hothers, hpure⟩ := hrest
      cases Reader.pure_eq_some.mp hpure
      obtain ⟨hvalid, rfl⟩ := h.mp hvalue
      obtain ⟨hlen, hall, rfl⟩ := ih.mp hothers
      refine ⟨by rw [List.length_cons, hlen], ?_, by rw [List.flatMap_cons, List.append_assoc]⟩
      exact List.forall_mem_cons.mpr ⟨hvalid, hall⟩
    · rintro ⟨hlen, hall, rfl⟩
      cases values with
      | nil => cases hlen
      | cons value values =>
        obtain ⟨hvalid, hall⟩ := List.forall_mem_cons.mp hall
        rw [List.flatMap_cons, List.append_assoc]
        refine ⟨value, _, h.mpr ⟨hvalid, rfl⟩, Reader.bind_eq_some.mpr ⟨values, rest, ih.mpr ⟨?_, hall, rfl⟩, rfl⟩⟩
        simpa using hlen

theorem ofCode_eq_some {code : Nat} {type : ScriptPubkeyType} (h : ScriptPubkeyType.ofCode code = some type) :
    type.code = code := by
  unfold ScriptPubkeyType.ofCode at h
  split at h <;> cases h <;> rfl

theorem parseLeaf_eq_ok {bytes rest : List UInt8} {leaf : CompactLeafData} (h : parseLeaf bytes = .ok (leaf, rest)) :
    bytes = appendLeaf leaf ++ rest := by
  unfold parseLeaf at h
  dsimp only at h
  split at h
  · cases h
  · rename_i headerCode amount scriptType back hfields
    rw [Reader.bind_eq_some] at hfields
    obtain ⟨headerCode', back1, hheader, hfields⟩ := hfields
    rw [Reader.bind_eq_some] at hfields
    obtain ⟨amount', back2, hamount, hfields⟩ := hfields
    rw [Reader.bind_eq_some] at hfields
    obtain ⟨code, back3, hcode, hfields⟩ := hfields
    rw [Reader.bind_eq_some] at hfields
    obtain ⟨type, back4, htype, hpure⟩ := hfields
    cases Reader.pure_eq_some.mp hpure
    obtain ⟨-, rfl⟩ := readUnsigned_iff.mp hheader
    obtain ⟨-, rfl⟩ := readUnsigned_iff.mp hamount
    obtain ⟨-, rfl⟩ := readUnsigned_iff.mp hcode
    cases hof : ScriptPubkeyType.ofCode code with
    | none => rw [hof] at htype; cases htype
    | some type' =>
      rw [hof] at htype
      cases htype
      rw [← ofCode_eq_some hof]
      split_ifs at h with hother
      · split at h
        · cases h
        · rename_i scriptSize back5 hsize
          split_ifs at h
          split at h
          · cases h
          · rename_i script back6 hscript
            cases h
            obtain ⟨-, rfl⟩ := readCompactSize_iff.mp hsize
            obtain ⟨rfl, rfl⟩ := readBytes_iff.mp hscript
            simp only [appendLeaf, if_pos hother, List.append_assoc]
      · cases h
        simp only [appendLeaf, if_neg hother, List.append_nil, List.append_assoc]

theorem parseLeaves_eq_ok {count : Nat} {bytes rest : List UInt8} {leaves : List CompactLeafData}
    (h : parseLeaves count bytes = .ok (leaves, rest)) :
    leaves.length = count ∧ bytes = leaves.flatMap appendLeaf ++ rest := by
  induction count generalizing bytes leaves with
  | zero =>
    cases h
    exact ⟨rfl, rfl⟩
  | succ count ih =>
    rw [parseLeaves] at h
    split at h
    · cases h
    · rename_i leaf back hleaf
      cases hrest : parseLeaves count back with
      | error message => rw [hrest] at h; cases h
      | ok result =>
        rw [hrest] at h
        cases h
        obtain ⟨hlen, heq⟩ := ih hrest
        rw [parseLeaf_eq_ok hleaf, heq, List.flatMap_cons, List.append_assoc]
        exact ⟨by rw [List.length_cons, hlen], rfl⟩

/-- The only payload that decodes to a proof. -/
theorem parseFullUtreexoProof_eq_ok {height : Nat} {payload : List UInt8} {proof : CachedBlockProof H}
    (h : parseFullUtreexoProof height payload = .ok proof) :
    payload = proofPayload proof.point.blockHash proof.proof.hashes proof.proof.targets proof.leaves := by
  have hhash : ∀ {value : H} {bytes rest : List UInt8}, readHash bytes = some (value, rest) ↔
      True ∧ bytes = StoredHash.bytes value ++ rest := fun {value bytes rest} => by rw [readHash_iff, true_and]
  unfold parseFullUtreexoProof at h
  split at h
  · cases h
  rename_i blockHash bytes1 hblock
  split at h
  · cases h
  rename_i hashCount bytes2 hhashCount
  split_ifs at h
  split at h
  · cases h
  rename_i hashes bytes3 hhashes
  split at h
  · cases h
  rename_i targetCount bytes4 htargetCount
  split_ifs at h
  split at h
  · cases h
  rename_i targets bytes5 htargets
  split at h
  · cases h
  rename_i leafCount bytes6 hleafCount
  split_ifs at h with hcount
  split at h
  · cases h
  rename_i leaves bytes7 hleaves
  split_ifs at h with hend
  cases h
  obtain rfl := readHash_iff.mp hblock
  obtain ⟨-, rfl⟩ := readCompactSize_iff.mp hhashCount
  obtain ⟨rfl, -, rfl⟩ := (readMany_iff hhash).mp hhashes
  obtain ⟨-, rfl⟩ := readCompactSize_iff.mp htargetCount
  obtain ⟨rfl, -, rfl⟩ := (readMany_iff readCompactSize_iff).mp htargets
  obtain ⟨-, rfl⟩ := readCompactSize_iff.mp hleafCount
  obtain ⟨rfl, rfl⟩ := parseLeaves_eq_ok hleaves
  rw [not_not.mp hend, List.append_nil]
  rfl

end Decode

/-! ## Encoding and decoding -/

section Codec

variable {H : Type} [ArchiveHash H] [DecidableEq H]

/-- The fields have the widths of their types. -/
structure CachedBlockProof.Fits (proof : CachedBlockProof H) : Prop where
  targets : ∀ target ∈ proof.proof.targets, target < 2 ^ 64
  leaves : ∀ leaf ∈ proof.leaves, leaf.Fits

omit [ArchiveHash H] in
theorem measureLayout_cases {proof written : CachedBlockProof H} {request : GetUtreexoProofRequest H} {limit size : Nat}
    {wireNumLeaves : Option Nat} (h : measureLayout proof request limit wireNumLeaves = .ok (written, size)) :
    ∃ targets, layoutTargets proof.proof.targets wireNumLeaves = .ok targets ∧
      written = { proof with proof := { proof.proof with targets } } ∧
      measureUtreexoProof written request limit = .ok size := by
  unfold measureLayout at h
  split_ifs at h
  split at h
  · cases h
  · rename_i targets htargets
    dsimp only at h
    cases hmeasure : measureUtreexoProof { proof with proof := { proof.proof with targets } } request limit with
    | error message => rw [hmeasure] at h; cases h
    | ok size' =>
      rw [hmeasure] at h
      cases h
      exact ⟨targets, htargets, rfl, hmeasure⟩

theorem serializeLayout_measured {proof written : CachedBlockProof H} {request : GetUtreexoProofRequest H}
    {limit size : Nat} {wireNumLeaves : Option Nat}
    (h : measureLayout proof request limit wireNumLeaves = .ok (written, size)) :
    (layoutPayload written request).length = size ∧
      serializeLayout proof request limit wireNumLeaves = .ok (layoutPayload written request) := by
  obtain ⟨targets, -, -, hmeasure⟩ := measureLayout_cases h
  obtain ⟨-, -, -, -, -, hsize⟩ := measure_iff.mp hmeasure
  refine ⟨hsize.symm, ?_⟩
  rw [serializeLayout, h]
  dsimp only
  rw [if_neg (not_not.mpr hsize.symm)]

/-- The archive writes the targets as they are. -/
theorem serializeLayout_none (proof : CachedBlockProof H) (request : GetUtreexoProofRequest H) (limit : Nat) :
    serializeLayout proof request limit none = serializeUtreexoProof proof request limit := by
  unfold serializeLayout measureLayout serializeUtreexoProof
  by_cases hblock : proof.point.blockHash ≠ request.blockHash
  · simp only [measureUtreexoProof, if_pos hblock]
  · by_cases hcounts : proof.proof.targets.length ≠ proof.leaves.length ∨ proof.leaves.length > maxInputsPerBlock
    · simp only [measureUtreexoProof, if_neg hblock, if_pos hcounts]
    · rw [if_neg hblock, if_neg hcounts, layoutTargets, Option.elim_none]
      dsimp only
      cases measureUtreexoProof proof request limit <;> rfl

omit [ArchiveHash H] [DecidableEq H] in
theorem requested_full {proof : CachedBlockProof H} {request : GetUtreexoProofRequest H}
    (h : request.requestBitmap = 0x07) :
    requestedHashes proof request = proof.proof.hashes ∧ requestedTargets proof request = proof.proof.targets ∧
      requestedLeaves proof request = proof.leaves := by
  rw [requestedHashes, requestedTargets, requestedLeaves, h, show Nat.testBit 0x07 1 = true by decide,
    show Nat.testBit 0x07 2 = true by decide, requested_all, requested_all, if_pos (by decide)]
  exact ⟨rfl, rfl, rfl⟩

theorem parse_serialize {proof : CachedBlockProof H} {request : GetUtreexoProofRequest H} {limit : Nat}
    {payload : List UInt8} (hfits : CachedBlockProof.Fits proof) (hlimit : limit < 2 ^ 64)
    (hfull : request.requestBitmap = 0x07) (h : serializeUtreexoProof proof request limit = .ok payload) :
    parseFullUtreexoProof proof.point.height payload = .ok { proof with numLeavesBefore := none } := by
  rw [← serializeLayout_none, serializeLayout] at h
  cases hlayout : measureLayout proof request limit none with
  | error message => rw [hlayout] at h; cases h
  | ok result =>
    obtain ⟨written, size⟩ := result
    rw [hlayout] at h
    dsimp only at h
    split_ifs at h
    cases h
    obtain ⟨targets, htargets, rfl, hmeasure⟩ := measureLayout_cases hlayout
    cases htargets
    obtain ⟨-, hcount, hmax, hknown, hle, -⟩ := measure_iff.mp hmeasure
    obtain ⟨hhashes, htargets, hleaves⟩ := @requested_full H proof _ hfull
    have hsmall := length_layoutPayload proof request
    rw [hleaves] at hknown
    rw [layoutPayload, hhashes, htargets, hleaves]
    rw [hhashes] at hsmall
    refine parseFullUtreexoProof_proofPayload _ _ ?_ hfits.targets hcount hmax hknown hfits.leaves
    change (layoutPayload proof request).length ≤ limit at hle
    omega

end Codec

/-- **Block proofs.** The full payload of an accepted proof decodes to it, every accepted request is answered with the
measured number of bytes and the selected items in order, and no two payloads decode to one proof. -/
theorem uproof_codec {H : Type} [WireHash H] [DecidableEq H] :
    (∀ (proof : CachedBlockProof H) (request : GetUtreexoProofRequest H) (limit : Nat) (payload : List UInt8),
      CachedBlockProof.Fits proof → limit < 2 ^ 64 → request.requestBitmap = 0x07 →
      serializeUtreexoProof proof request limit = .ok payload →
        parseFullUtreexoProof proof.point.height payload = .ok { proof with numLeavesBefore := none }) ∧
    (∀ (proof written : CachedBlockProof H) (request : GetUtreexoProofRequest H) (limit size : Nat)
      (wireNumLeaves : Option Nat), measureLayout proof request limit wireNumLeaves = .ok (written, size) →
      ∃ targets payload, layoutTargets proof.proof.targets wireNumLeaves = .ok targets ∧
        payload = proofPayload proof.point.blockHash (requestedHashes proof request)
          (if request.requestBitmap.testBit 0 then targets else []) (requestedLeaves proof request) ∧
        payload.length = size ∧ serializeLayout proof request limit wireNumLeaves = .ok payload) ∧
    ∀ (height height' : Nat) (payload payload' : List UInt8) (proof : CachedBlockProof H),
      parseFullUtreexoProof height payload = .ok proof → parseFullUtreexoProof height' payload' = .ok proof →
        payload = payload' := by
  refine ⟨fun proof request limit payload hfits hlimit hfull h => parse_serialize hfits hlimit hfull h, ?_, ?_⟩
  · intro proof written request limit size wireNumLeaves h
    obtain ⟨targets, htargets, rfl, -⟩ := measureLayout_cases h
    obtain ⟨hlen, hok⟩ := serializeLayout_measured h
    exact ⟨targets, _, htargets, rfl, hlen, hok⟩
  · intro height height' payload payload' proof h h'
    rw [parseFullUtreexoProof_eq_ok h, parseFullUtreexoProof_eq_ok h']

end UtreexoBridge.Wire
