import UtreexoBridge.Bytes.ByteHash
import UtreexoBridge.Forest.Membership
import UtreexoBridge.Wire.Canonical

/-!
# Payloads of transactions with proofs

A decoded proof renders to one payload, and that is the only payload which
decodes to it. What `Serialize` writes is such a rendering.
-/

namespace UtreexoBridge.Wire

open Bytes Position PreparedTransactionProof

variable {H : Type} [WireHash H]

/-- The transaction with the flags of its inputs. -/
def flagged (t : Transaction H) (leaves : List (Option CompactLeafData)) : List UInt8 :=
  writeVouts t.bytes (t.voutOffsets.zip (List.zipWith flagVout t.inputs leaves))

/-- The payload of a decoded proof. -/
def render (d : DecodedTransactionProof H) : List UInt8 :=
  (appendCompactSize d.proof.targets.length ++ d.proof.targets.flatMap appendCompactSize) ++
    ((appendCompactSize d.proof.hashes.length ++ d.proof.hashes.flatMap StoredHash.bytes) ++
      (flagged d.transaction d.inputLeaves ++ d.inputLeaves.flatMap appendInputLeaf))

/-- What the decoder asks of the parts of a payload. -/
structure Accepted (d : DecodedTransactionProof H) : Prop where
  targets_le : d.proof.targets.length ≤ maxInputs
  targets : ∀ target ∈ d.proof.targets, target < 2 ^ 64 ∧ target ≠ padding
  unique : uniquePositions d.proof.targets = true
  hashes_le : d.proof.hashes.length ≤ maxHashes
  transaction : Transaction.parse d.transaction.bytes maxTxPayload = .ok d.transaction
  index : ∀ input ∈ d.transaction.inputs, input.index < 2 ^ 31
  leaves_length : d.inputLeaves.length = d.transaction.inputs.length
  leaves : ∀ leaf, some leaf ∈ d.inputLeaves → LeafValid leaf
  confirmed : (d.inputLeaves.filter Option.isSome).length = d.proof.targets.length
  hashes_nil : d.proof.targets = [] → d.proof.hashes = []

omit [WireHash H] in
theorem forall₂_leaf {inputs : List (OutPoint H)} {leaves : List (Option CompactLeafData)}
    (h : List.Forall₂ LeafFits inputs leaves) : ∀ leaf, some leaf ∈ leaves → LeafValid leaf := by
  induction h with
  | nil => simp
  | cons hfit _ ih =>
    intro leaf hleaf
    rcases List.mem_cons.mp hleaf with heq | hleaf
    · exact hfit.2 leaf heq.symm
    · exact ih leaf hleaf

theorem length_appendLeaf_ge (leaf : CompactLeafData) : 13 ≤ (appendLeaf leaf).length := by
  rw [appendLeaf]
  simp only [List.length_append, length_appendUnsigned]
  omega

theorem length_leaves_ge (leaves : List (Option CompactLeafData)) :
    (leaves.filter Option.isSome).length * 13 ≤ (leaves.flatMap appendInputLeaf).length := by
  induction leaves with
  | nil => simp
  | cons leaf leaves ih =>
    rw [List.flatMap_cons, List.length_append]
    cases leaf with
    | none => simpa [appendInputLeaf] using ih
    | some leaf =>
      have := length_appendLeaf_ge leaf
      simp only [List.filter_cons, Option.isSome_some, if_true, List.length_cons, appendInputLeaf, Option.elim_some]
      omega

/-! ## The flagged transaction -/

theorem flagged_eq {t : Transaction H} {tx : TransactionSyntax H} (h : t.Describes tx) {leaves : List (Option CompactLeafData)}
    (hlen : leaves.length = t.inputs.length) :
    flagged t leaves = (tx.withIndexes (List.zipWith flagVout t.inputs leaves)).encode := by
  rw [flagged, h.bytes, h.voutOffsets]
  apply writeVouts_encode
  rw [List.length_zipWith, hlen, Nat.min_self, h.inputs, List.length_map]

theorem restored_eq {tx : TransactionSyntax H} {s : Scanned H} (h : s.Describes tx) :
    writeVouts tx.encode (s.voutOffsets.zip (s.inputs.map fun input => input.index >>> 1)) =
      (tx.withIndexes (tx.indexes.map (· >>> 1))).encode := by
  have hvalues : s.inputs.map (fun input => input.index >>> 1) = tx.indexes.map (· >>> 1) := by
    rw [h.inputs, TransactionSyntax.indexes, List.map_map, List.map_map]
    rfl
  rw [h.voutOffsets, hvalues]
  apply writeVouts_encode
  rw [TransactionSyntax.indexes, List.length_map, List.length_map]

theorem parsePayload_cases {payload rest : List UInt8} {d : DecodedTransactionProof H}
    (h : parsePayload payload = .ok (d, rest)) : Accepted d ∧ payload = render d := by
  obtain ⟨targets, back1, htargets, h1⟩ := Parser.bind_eq_ok.mp h
  obtain ⟨hashes, back2, hhashes, h2⟩ := Parser.bind_eq_ok.mp h1
  obtain ⟨⟨bytes, collected⟩, back3, hflagged, h3⟩ := Parser.bind_eq_ok.mp h2
  obtain ⟨left, back4, hleft, h4⟩ := Parser.bind_eq_ok.mp h3
  obtain ⟨⟨⟩, back5, hcounts, h5⟩ := Parser.bind_eq_ok.mp h4
  obtain ⟨leaves, back6, hleaves, h6⟩ := Parser.bind_eq_ok.mp h5
  obtain ⟨left', back7, hleft', h7⟩ := Parser.bind_eq_ok.mp h6
  obtain ⟨⟨⟩, back8, hend, h8⟩ := Parser.bind_eq_ok.mp h7
  obtain ⟨t, back9, ht, hlast⟩ := Parser.bind_eq_ok.mp h8
  cases Parser.pure_eq_ok.mp hlast
  obtain ⟨_, hparse, heq⟩ := lookahead_eq_ok.mp ht
  cases heq
  obtain ⟨⟨hzero, hunique⟩, heq⟩ := require_eq_ok.mp hend
  cases heq
  cases remaining_eq_ok.mp hleft'
  obtain ⟨ls, hfits, rfl, rfl⟩ := (scans_inputLeaves _ _ _ _).mp hleaves
  obtain ⟨hcount, heq⟩ := require_eq_ok.mp hcounts
  cases heq
  cases remaining_eq_ok.mp hleft
  obtain ⟨tx, hvalid, rfl, rfl, hscan⟩ := parseFlagged_iff.mp hflagged
  obtain ⟨hs, hle, rfl, rfl⟩ := (scans_hashes _ _ _).mp hhashes
  obtain ⟨ts, ⟨hlen, hts⟩, rfl, rfl⟩ := (scans_targets _ _ _).mp htargets
  obtain rfl := List.eq_nil_of_length_eq_zero hzero
  -- the transaction, as flagged and as restored
  have hdescribes : collected.Describes tx := by
    obtain ⟨s, hs, hdescribes⟩ := scanTransaction_encode hvalid []
    rw [List.append_nil, hscan] at hs
    cases hs
    exact hdescribes
  rw [restored_eq hdescribes] at hparse
  have hindex : ∀ o ∈ tx.inputs.map (·.outpoint), o.index < 2 ^ 32 := by
    intro o ho
    obtain ⟨input, hinput, rfl⟩ := List.mem_map.mp ho
    exact (hvalid.inputs input hinput).index
  have hhalves : (tx.indexes.map (· >>> 1)).length = tx.inputs.length := by
    rw [TransactionSyntax.indexes, List.length_map, List.length_map]
  have hhalf : ∀ x ∈ tx.indexes.map (· >>> 1), x < 2 ^ 31 := by
    intro x hx
    obtain ⟨index, hmem, rfl⟩ := List.mem_map.mp hx
    obtain ⟨input, hinput, rfl⟩ := List.mem_map.mp hmem
    have := (hvalid.inputs input hinput).index
    rw [Nat.shiftRight_eq_div_pow]
    omega
  have hrestored := Transaction.parse_describes (hvalid.withIndexes hhalves fun x hx => by have := hhalf x hx; omega) hparse
  rw [hdescribes.inputs] at hfits hcount
  have hinputs : t.inputs = List.zipWith (fun o index => ⟨o.txid, index⟩) (tx.inputs.map (·.outpoint))
      ((tx.inputs.map (·.outpoint)).map fun o => o.index >>> 1) := by
    rw [hrestored.inputs, TransactionSyntax.outpoint_withIndexes, TransactionSyntax.indexes, List.map_map, List.map_map]
    rfl
  have hsame : leaves.length = t.inputs.length := by
    rw [hinputs, List.length_zipWith, List.length_map, List.length_map, List.length_map, Nat.min_self,
      ← hfits.length_eq, List.length_map]
  have hflags : flagged t leaves = tx.encode := by
    rw [flagged_eq hrestored hsame, TransactionSyntax.withIndexes_twice _ hhalves, hinputs, flags_of_fits hindex hfits]
    have : (tx.inputs.map (·.outpoint)).map (·.index) = tx.indexes := by
      rw [List.map_map]
      rfl
    rw [this, TransactionSyntax.withIndexes_indexes]
  refine ⟨⟨hlen, hts, hunique, hle, ?_, ?_, hsame, forall₂_leaf hfits, ?_, ?_⟩, ?_⟩
  · exact hrestored.bytes ▸ hparse
  · intro input hinput
    simp only [hinputs] at hinput
    obtain ⟨k, hk, rfl⟩ := List.getElem_of_mem hinput
    rw [List.getElem_zipWith]
    apply hhalf
    simp only [TransactionSyntax.indexes, List.map_map]
    exact List.mem_map.mpr ⟨_, List.getElem_mem (by simpa using hk), by simp⟩
  · rw [← confirmed_count hfits]
    simp only
    omega
  · intro hnil
    by_contra hne
    simp only at hnil hne
    have hnone := (not_not.mp (not_or.mp hcount).1).trans (congrArg List.length hnil)
    exact hcount (Or.inr (Or.inr ⟨hnone, hne⟩))
  · rw [render]
    simp only [hflags, List.append_assoc, List.append_nil]

theorem parsePayload_render {d : DecodedTransactionProof H} (h : Accepted d) :
    parsePayload (render d) = .ok (d, []) := by
  obtain ⟨t, ⟨targets, hashes⟩, leaves⟩ := d
  obtain ⟨hbytes, -, tx, htx⟩ := Transaction.parse_cases h.transaction
  have hlen : leaves.length = t.inputs.length := h.leaves_length
  have hindex : ∀ input ∈ t.inputs, input.index < 2 ^ 31 := h.index
  replace htx : t.Describes tx := htx
  obtain ⟨hfits, hhalves, hlt⟩ := fits_of_flags hindex hlen h.leaves
  have hflags : (List.zipWith flagVout t.inputs leaves).length = tx.inputs.length := by
    rw [List.length_zipWith, hlen, Nat.min_self, htx.inputs, List.length_map]
  have hvalid := htx.valid.withIndexes hflags hlt
  obtain ⟨s, hscan, hdescribes⟩ := scanTransaction_encode hvalid []
  rw [List.append_nil] at hscan
  have hinputs : s.inputs =
      List.zipWith (fun o index => ⟨o.txid, index⟩) t.inputs (List.zipWith flagVout t.inputs leaves) := by
    rw [hdescribes.inputs, TransactionSyntax.outpoint_withIndexes, htx.inputs]
  rw [← hinputs] at hfits
  have hrestored : writeVouts (flagged t leaves) (s.voutOffsets.zip (s.inputs.map fun input => input.index >>> 1)) = t.bytes := by
    have hindexes : ((tx.withIndexes (List.zipWith flagVout t.inputs leaves)).indexes).map (· >>> 1) = tx.indexes := by
      have hsame : (tx.withIndexes (List.zipWith flagVout t.inputs leaves)).indexes = List.zipWith flagVout t.inputs leaves :=
        map_index_zipWith _ hflags
      rw [hsame, hhalves, htx.inputs, TransactionSyntax.indexes, List.map_map]
      rfl
    rw [flagged_eq htx hlen, restored_eq hdescribes, TransactionSyntax.withIndexes_twice _ hflags, hindexes,
      TransactionSyntax.withIndexes_indexes, htx.bytes]
  have hcount : (s.inputs.filter confirmedInput).length = targets.length := (confirmed_count hfits).trans h.confirmed
  have hroom := length_leaves_ge leaves
  have hconfirmed : (leaves.filter Option.isSome).length = targets.length := h.confirmed
  rw [render, parsePayload]
  refine Parser.bind_eq_ok.mpr ⟨targets, _, (scans_targets _ _ _).mpr ⟨targets, ⟨h.targets_le, h.targets⟩, rfl, rfl⟩, ?_⟩
  refine Parser.bind_eq_ok.mpr ⟨hashes, _, (scans_hashes _ _ _).mpr ⟨hashes, h.hashes_le, rfl, rfl⟩, ?_⟩
  refine Parser.bind_eq_ok.mpr ⟨(flagged t leaves, s), leaves.flatMap appendInputLeaf, parseFlagged_iff.mpr ?_, ?_⟩
  · exact ⟨_, hvalid, by rw [flagged_eq htx hlen], flagged_eq htx hlen, hscan⟩
  refine Parser.bind_eq_ok.mpr ⟨_, _, rfl, Parser.bind_eq_ok.mpr ⟨(), _, require_eq_ok.mpr ⟨?_, rfl⟩, ?_⟩⟩
  · rintro (hne | hgt | ⟨hzero, hne⟩)
    · exact hne hcount
    · omega
    · exact hne (h.hashes_nil (List.eq_nil_of_length_eq_zero (by rw [← hcount]; exact hzero)))
  refine Parser.bind_eq_ok.mpr ⟨leaves, [], (scans_inputLeaves _ _ _ _).mpr ⟨leaves, hfits, by simp, rfl⟩, ?_⟩
  refine Parser.bind_eq_ok.mpr ⟨_, _, rfl, Parser.bind_eq_ok.mpr ⟨(), _, require_eq_ok.mpr ⟨⟨rfl, h.unique⟩, rfl⟩, ?_⟩⟩
  refine Parser.bind_eq_ok.mpr ⟨t, [], lookahead_eq_ok.mpr ⟨t, ?_, rfl⟩, rfl⟩
  rw [hrestored]
  exact h.transaction

theorem parseUtreexoTransaction_iff {payload : List UInt8} {limit : Nat} {d : DecodedTransactionProof H} :
    parseUtreexoTransaction payload limit = .ok d ↔
      payload.length ≤ min limit maxTxPayload ∧ Accepted d ∧ payload = render d := by
  rw [parseUtreexoTransaction]
  constructor
  · intro h
    by_cases hlimit : payload.length > min limit maxTxPayload
    · rw [if_pos hlimit] at h
      cases h
    rw [if_neg hlimit] at h
    cases hparse : parsePayload (H := H) payload with
    | error message =>
      rw [hparse] at h
      cases h
    | ok p =>
      rw [hparse] at h
      cases h
      exact ⟨by omega, parsePayload_cases hparse⟩
  · rintro ⟨hlen, haccepted, rfl⟩
    rw [if_neg (by omega), parsePayload_render haccepted]
    rfl

/-! ### A small payload -/

instance : WireHash ByteHash where
  sha256 bytes := ⟨(bytes ++ List.replicate 32 0).take 32, by simp⟩
  bytes_ofBytes b h := by
    show (if h : b.length = 32 then (⟨b, h⟩ : ByteHash) else .zero).bytes = b
    rw [dif_pos h]

/-- One input and one output, both without a script. -/
def smallRaw : List UInt8 :=
  [1, 0, 0, 0] ++ [1] ++ List.replicate 32 0 ++ [3, 0, 0, 0] ++ [0] ++ [255, 255, 255, 255] ++ [1] ++ List.replicate 8 0 ++
    [0] ++ [0, 0, 0, 0]

def smallTransaction : Transaction ByteHash :=
  ⟨smallRaw, [⟨.zero, 3⟩], [37], doubleSha256 smallRaw, doubleSha256 smallRaw, false⟩

def smallLeaf : CompactLeafData := ⟨1, 5, .pubkeyHash, []⟩

def smallDecoded : DecodedTransactionProof ByteHash := ⟨smallTransaction, ⟨[0], [leafHash 7]⟩, [some smallLeaf]⟩

/-- **No malleability.** Two payloads with the same decoded parts are the same payload. -/
theorem payload_not_malleable {payload₁ payload₂ : List UInt8} {limit₁ limit₂ : Nat} {d₁ d₂ : DecodedTransactionProof H}
    (h₁ : parseUtreexoTransaction payload₁ limit₁ = .ok d₁) (h₂ : parseUtreexoTransaction payload₂ limit₂ = .ok d₂)
    (hbytes : d₁.transaction.bytes = d₂.transaction.bytes) (htargets : d₁.proof.targets = d₂.proof.targets)
    (hhashes : d₁.proof.hashes = d₂.proof.hashes) (hleaves : d₁.inputLeaves = d₂.inputLeaves) : payload₁ = payload₂ := by
  obtain ⟨-, hd₁, rfl⟩ := parseUtreexoTransaction_iff.mp h₁
  obtain ⟨-, hd₂, rfl⟩ := parseUtreexoTransaction_iff.mp h₂
  -- the bytes decide the whole transaction
  have htransaction : d₁.transaction = d₂.transaction := by
    have h := hd₁.transaction
    rw [hbytes, hd₂.transaction] at h
    exact (Except.ok.inj h).symm
  rw [render, render, htransaction, htargets, hhashes, hleaves]

theorem payload_not_malleable_small :
    parseUtreexoTransaction (render smallDecoded) 200 = .ok smallDecoded ∧
      parseUtreexoTransaction (render smallDecoded) maxTxPayload = .ok smallDecoded ∧
      render smallDecoded = render smallDecoded := by
  have h₁ : parseUtreexoTransaction (render smallDecoded) 200 = .ok smallDecoded := by decide +kernel
  have h₂ : parseUtreexoTransaction (render smallDecoded) maxTxPayload = .ok smallDecoded := by decide +kernel
  exact ⟨h₁, h₂, payload_not_malleable h₁ h₂ rfl rfl rfl rfl⟩

/-! ## What the writer gives -/

omit [WireHash H] in
theorem measureInputs_eq_ok {inputs : List (OutPoint H)} {leaves : List (Option CompactLeafData)}
    (hlen : leaves.length = inputs.length) {confirmed base confirmed' base' : Nat}
    (h : measureInputs (inputs.zip leaves) confirmed base = .ok (confirmed', base')) :
    (∀ input ∈ inputs, input.index < 2 ^ 31) ∧ (∀ leaf, some leaf ∈ leaves → LeafValid leaf) ∧
      confirmed' = confirmed + (leaves.filter Option.isSome).length ∧
      base' = base + (leaves.flatMap appendInputLeaf).length := by
  induction inputs generalizing leaves confirmed base with
  | nil =>
    rw [List.length_nil, List.length_eq_zero_iff] at hlen
    subst hlen
    change Except.ok (confirmed, base) = _ at h
    cases h
    simp
  | cons input inputs ih =>
    cases leaves with
    | nil => simp at hlen
    | cons leaf leaves =>
      rw [List.length_cons, List.length_cons, Nat.succ_inj] at hlen
      rw [List.zip_cons_cons, measureInputs.eq_def] at h
      simp only at h
      by_cases hindex : input.index > (2 ^ 32 - 1) / 2
      · rw [if_pos hindex] at h
        cases h
      rw [if_neg hindex] at h
      cases leaf with
      | none =>
        obtain ⟨h1, h2, h3, h4⟩ := ih hlen h
        refine ⟨?_, ?_, by simpa using h3, by simpa [appendInputLeaf] using h4⟩
        · rw [List.forall_mem_cons]
          exact ⟨by omega, h1⟩
        · intro leaf hleaf
          exact h2 leaf (by simpa using hleaf)
      | some leaf =>
        cases hbytes : leafBytes leaf with
        | error message =>
          simp only [hbytes] at h
          cases h
        | ok n =>
          simp only [hbytes] at h
          by_cases hmax : base + n ≥ maxTxPayload
          · rw [if_pos hmax] at h
            cases h
          rw [if_neg hmax] at h
          obtain ⟨hvalid, rfl⟩ := leafBytes_eq_ok.mp hbytes
          obtain ⟨h1, h2, h3, h4⟩ := ih hlen h
          refine ⟨?_, ?_, ?_, ?_⟩
          · rw [List.forall_mem_cons]
            exact ⟨by omega, h1⟩
          · intro l hl
            rcases List.mem_cons.mp hl with heq | hl
            · cases heq
              exact hvalid
            · exact h2 l hl
          · rw [h3, List.filter_cons_of_pos rfl, List.length_cons]
            omega
          · rw [h4, List.flatMap_cons, List.length_append]
            show _ = base + ((appendLeaf leaf).length + _)
            omega

theorem writeVouts_front (front bytes : List UInt8) (offsets values : List Nat) :
    writeVouts (front ++ bytes) ((offsets.map (front.length + ·)).zip values) = front ++ writeVouts bytes (offsets.zip values) := by
  induction offsets generalizing bytes values with
  | nil => rfl
  | cons offset offsets ih =>
    cases values with
    | nil => rfl
    | cons value values =>
      have hwrite : writeVout (front ++ bytes) (front.length + offset) value = front ++ writeVout bytes offset value := by
        rw [writeVout, writeVout, List.take_length_add_append, Nat.add_assoc, List.drop_length_add_append, List.append_assoc]
      rw [List.map_cons, List.zip_cons_cons, List.zip_cons_cons, writeVouts, List.foldl_cons, hwrite]
      exact ih _ _

theorem length_zipWith_encode (inputs : List (InputSyntax H)) {a : List Nat} (ha : a.length = inputs.length) :
    ((List.zipWith InputSyntax.withIndex inputs a).flatMap InputSyntax.encode).length =
      (inputs.flatMap InputSyntax.encode).length := by
  induction inputs generalizing a with
  | nil => rfl
  | cons input inputs ih =>
    cases a with
    | nil => simp at ha
    | cons x a =>
      rw [List.zipWith_cons_cons, List.flatMap_cons, List.flatMap_cons, List.length_append, List.length_append,
        length_withIndex, ih (by simpa using ha)]

theorem length_flagged {t : Transaction H} {tx : TransactionSyntax H} (h : t.Describes tx)
    {leaves : List (Option CompactLeafData)} (hlen : leaves.length = t.inputs.length) :
    (flagged t leaves).length = t.bytes.length := by
  have hflags : (List.zipWith flagVout t.inputs leaves).length = tx.inputs.length := by
    rw [List.length_zipWith, hlen, Nat.min_self, h.inputs, List.length_map]
  rw [flagged_eq h hlen, h.bytes, TransactionSyntax.encode, TransactionSyntax.encode, TransactionSyntax.head_withIndexes _ hflags]
  simp only [List.length_append]
  rw [TransactionSyntax.withIndexes, length_zipWith_encode _ hflags]
  rfl

/-! ### Targets -/

section Targets

omit [WireHash H]

theorem forall₂_targetInterval {n rows : Nat} {targets : List Nat} {intervals : List (Nat × Nat)}
    (h : targetIntervals n rows targets = .ok intervals) :
    List.Forall₂ (fun t i => targetInterval n rows t = .ok i) targets intervals := by
  induction targets generalizing intervals with
  | nil =>
    cases h
    exact .nil
  | cons t targets ih =>
    rw [targetIntervals] at h
    cases hi : targetInterval n rows t with
    | error message =>
      rw [hi] at h
      cases h
    | ok i =>
      cases hrest : targetIntervals n rows targets with
      | error message =>
        simp only [hi, hrest] at h
        cases h
      | ok rest =>
        simp only [hi, hrest] at h
        cases h
        exact .cons hi (ih hrest)

theorem nodup_of_forall₂ {α β : Type} {R : α → β → Prop} {xs : List α} {ys : List β} (h : List.Forall₂ R xs ys)
    (hfun : ∀ x y y', R x y → R x y' → y = y') (hys : ys.Nodup) : xs.Nodup := by
  induction h with
  | nil => exact List.nodup_nil
  | @cons x y xs ys hxy hrest ih =>
    obtain ⟨hnot, hys⟩ := List.nodup_cons.mp hys
    refine List.nodup_cons.mpr ⟨fun hmem => hnot ?_, ih hys⟩
    obtain ⟨y', hy', hxy'⟩ := forall₂_exists hrest hmem
    rw [hfun x y y' hxy hxy']
    exact hy'

theorem ascending_of_noOverlap {l : List (Nat × Nat)} (hspan : ∀ i ∈ l, i.1 ≤ i.2) (h : anyOverlap l = false) :
    l.Pairwise fun a b => a.1 < b.1 := by
  induction l with
  | nil => exact .nil
  | cons a l ih =>
    cases l with
    | nil => simp
    | cons b l =>
      rw [anyOverlap, Bool.or_eq_false_iff, decide_eq_false_iff_not] at h
      have hrest := ih (fun i hi => hspan i (by simp [hi])) h.2
      have ha := hspan a (by simp)
      refine List.pairwise_cons.mpr ⟨fun c hc => ?_, hrest⟩
      rcases List.mem_cons.mp hc with rfl | hc
      · omega
      · have := (List.pairwise_cons.mp hrest).1 c hc
        omega

/-- What `NativeProofPositions` checks. -/
structure NativeTargets {H : Type} (proof : Proof H) (n : Nat) (positions : List Nat) : Prop where
  rows : treeRows n ≤ 63
  node : ∀ t ∈ proof.targets, ∃ r o, r ≤ treeRows n ∧ o < 2 ^ (treeRows n - r) ∧ t = rowPos (treeRows n) r o
  nodup : proof.targets.Nodup
  length : positions.length = proof.hashes.length
  empty : proof.targets = [] → positions = []

theorem nativeProofPositions_cases {proof : Proof H} {n : Nat} {positions : List Nat}
    (h : nativeProofPositions proof n = .ok positions) : NativeTargets proof n positions := by
  rw [nativeProofPositions] at h
  by_cases hn : n > 2 ^ 63
  · rw [if_pos hn] at h
    cases h
  rw [if_neg hn] at h
  cases hintervals : targetIntervals n (treeRows n) proof.targets with
  | error message =>
    simp only [hintervals] at h
    cases h
  | ok intervals =>
    simp only [hintervals] at h
    cases hoverlap : anyOverlap (intervals.insertionSort pairLE) with
    | true =>
      rw [hoverlap, if_pos rfl] at h
      cases h
    | false =>
      rw [hoverlap, if_neg (by simp)] at h
      cases hmerge : mergeRows n (treeRows n) (treeRows n + 1) 0 (proof.targets.insertionSort (· ≤ ·)) [] with
      | error message =>
        simp only [hmerge] at h
        cases h
      | ok needed =>
        simp only [hmerge] at h
        by_cases hcount : needed.length ≠ proof.hashes.length
        · rw [if_pos hcount] at h
          cases h
        rw [if_neg hcount, Except.ok.injEq] at h
        subst h
        have hall := forall₂_targetInterval hintervals
        have hinterval : ∀ t i, targetInterval n (treeRows n) t = .ok i → ∃ r o, r ≤ treeRows n ∧ o < n / 2 ^ r ∧
            t = rowPos (treeRows n) r o ∧ i = (o * 2 ^ r, o * 2 ^ r + (2 ^ r - 1)) :=
          fun t i => (targetInterval_eq_ok (by omega)).mp
        refine ⟨treeRows_le (by omega), fun t ht => ?_, ?_, not_not.mp hcount, fun hnil => ?_⟩
        · obtain ⟨i, -, hi⟩ := forall₂_exists hall ht
          obtain ⟨r, o, hr, ho, heq, -⟩ := hinterval t i hi
          exact ⟨r, o, hr, offset_lt_pow (le_two_pow_treeRows n) hr ho, heq⟩
        · -- a target that comes twice has its interval twice
          have hspan : ∀ i ∈ intervals.insertionSort pairLE, i.1 ≤ i.2 := by
            intro i hi
            obtain ⟨t, -, hi⟩ := forall₂_exists hall.flip ((List.perm_insertionSort _ _).mem_iff.mp hi)
            obtain ⟨r, o, -, -, -, rfl⟩ := hinterval t i hi
            exact Nat.le_add_right _ _
          have hnodup : intervals.Nodup := by
            rw [← (List.perm_insertionSort pairLE intervals).nodup_iff]
            refine (ascending_of_noOverlap hspan hoverlap).imp ?_
            rintro a b hlt rfl
            omega
          refine nodup_of_forall₂ hall (fun t i j hi hj => ?_) hnodup
          rw [hi] at hj
          exact Except.ok.inj hj
        · rw [hnil] at hmerge
          simp only [List.insertionSort_nil, mergeRows, if_true] at hmerge
          cases hmerge
          rfl

end Targets

/-! ### Prepared proofs -/

section Prepared

theorem foldl_compactSizeBytes (targets : List Nat) (base : Nat) :
    targets.foldl (fun bytes target => bytes + compactSizeBytes target) base =
      base + (targets.flatMap appendCompactSize).length := by
  induction targets generalizing base with
  | nil => rfl
  | cons t targets ih =>
    rw [List.foldl_cons, ih, List.flatMap_cons, List.length_append, length_appendCompactSize]
    omega

/-- A prepared proof, in terms of what it was made from. -/
structure Prepares (t : Transaction H) (proof : Proof H) (leaves : List (Option CompactLeafData)) (n : Nat)
    (p : PreparedTransactionProof H) : Prop where
  transaction : p.transaction = t
  targets : p.proof.targets = proof.targets.map (wirePosition · (treeRows n))
  hashes : p.proof.hashes = proof.hashes
  inputLeaves : p.inputLeaves = leaves
  leaves_length : leaves.length = t.inputs.length
  targets_le : proof.targets.length ≤ maxInputs
  hashes_le : proof.hashes.length ≤ maxHashes
  index : ∀ input ∈ t.inputs, input.index < 2 ^ 31
  leaves_valid : ∀ leaf, some leaf ∈ leaves → LeafValid leaf
  confirmed : (leaves.filter Option.isSome).length = proof.targets.length
  native : ∃ positions, NativeTargets proof n positions ∧ p.proofPositions = positions.map (wirePosition · (treeRows n))
  base : p.basePayloadBytes = t.bytes.length + compactSizeBytes proof.targets.length +
    (leaves.flatMap appendInputLeaf).length + (p.proof.targets.flatMap appendCompactSize).length

omit [WireHash H] in
theorem create_cases {t : Transaction H} {proof : Proof H} {leaves : List (Option CompactLeafData)} {n : Nat}
    {p : PreparedTransactionProof H} (h : create t proof leaves n = .ok p) : Prepares t proof leaves n p := by
  rw [create] at h
  by_cases hcounts : t.inputs = [] ∨ t.bytes = [] ∨ leaves.length ≠ t.inputs.length ∨
      proof.targets.length > maxInputs ∨ proof.hashes.length > maxHashes
  · rw [if_pos hcounts] at h
    cases h
  rw [if_neg hcounts] at h
  simp only [not_or, not_not, Nat.not_lt] at hcounts
  obtain ⟨-, -, hlen, htargets, hhashes⟩ := hcounts
  cases hmeasure : measureInputs (t.inputs.zip leaves) 0 (t.bytes.length + compactSizeBytes proof.targets.length) with
  | error message =>
    simp only [hmeasure] at h
    cases h
  | ok r =>
    obtain ⟨confirmed, base⟩ := r
    simp only [hmeasure] at h
    by_cases hconfirmed : confirmed ≠ proof.targets.length
    · rw [if_pos hconfirmed] at h
      cases h
    rw [if_neg hconfirmed] at h
    cases hnative : nativeProofPositions proof n with
    | error message =>
      simp only [hnative] at h
      cases h
    | ok positions =>
      simp only [hnative, foldl_compactSizeBytes] at h
      split_ifs at h with hmax
      cases h
      obtain ⟨hindex, hleaves, rfl, rfl⟩ := measureInputs_eq_ok hlen hmeasure
      exact ⟨rfl, rfl, rfl, rfl, hlen, htargets, hhashes, hindex, hleaves, by omega,
        ⟨positions, nativeProofPositions_cases hnative, rfl⟩, rfl⟩

section Wire

omit [WireHash H]

variable {proof : Proof H} {n : Nat} {positions : List Nat} (h : NativeTargets proof n positions)
include h

theorem NativeTargets.wire_rowPos {t : Nat} (ht : t ∈ proof.targets) : ∃ r o, r ≤ treeRows n ∧ o < 2 ^ (treeRows n - r) ∧
    t = rowPos (treeRows n) r o ∧ o < 2 ^ (63 - r) ∧ wirePosition t (treeRows n) = rowPos 63 r o := by
  have hrows := h.rows
  obtain ⟨r, o, hr, ho, rfl⟩ := h.node t ht
  exact ⟨r, o, hr, ho, rfl, lt_of_lt_of_le ho (Nat.pow_le_pow_right (by omega) (by omega)), wirePosition_rowPos hrows hr ho⟩

theorem NativeTargets.wire_lt {t : Nat} (ht : t ∈ proof.targets) : wirePosition t (treeRows n) < 2 ^ 64 - 1 := by
  have hrows := h.rows
  obtain ⟨r, o, hr, -, -, ho, heq⟩ := h.wire_rowPos ht
  rw [heq]
  exact rowPos_lt (by omega) ho

theorem NativeTargets.wire_nodup : (proof.targets.map (wirePosition · (treeRows n))).Nodup := by
  have hrows := h.rows
  refine List.Nodup.map_on (fun x hx y hy heq => ?_) h.nodup
  obtain ⟨r, o, hr, -, rfl, ho, hxw⟩ := h.wire_rowPos hx
  obtain ⟨r', o', hr', -, rfl, ho', hyw⟩ := h.wire_rowPos hy
  rw [hxw, hyw] at heq
  obtain ⟨rfl, rfl⟩ := rowPos_inj (by omega) ho (by omega) ho' heq
  rfl

theorem NativeTargets.wire_unique : uniquePositions (proof.targets.map (wirePosition · (treeRows n))) = true := by
  have hpadding : padding = 2 ^ 64 - 1 := rfl
  rw [uniquePositions, Bool.and_eq_true, decide_eq_true_eq, decide_eq_true_eq]
  refine ⟨fun hmem => ?_, h.wire_nodup⟩
  obtain ⟨t, ht, heq⟩ := List.mem_map.mp hmem
  have := h.wire_lt ht
  omega

end Wire

variable [DecidableEq H]

/-- The hashes that a request asks for, in its order. -/
def requestedProofHashes (p : PreparedTransactionProof H) (request : TransactionProofRequest H) : List H :=
  request.proofPositions.map fun pos => p.proof.hashes.getD (PreparedTransactionProof.lowerBound p.proofPositions pos) ForestHash.null

omit [WireHash H] in
theorem measure_cases {p : PreparedTransactionProof H} {request : TransactionProofRequest H} {limit size : Nat}
    (h : p.measure request limit = .ok size) :
    request.proofPositions.length ≤ p.proofPositions.length ∧
      size = p.basePayloadBytes + compactSizeBytes request.proofPositions.length + request.proofPositions.length * 32 ∧
      size ≤ min limit maxTxPayload ∧
      ∀ pos ∈ request.proofPositions, p.proofPositions[PreparedTransactionProof.lowerBound p.proofPositions pos]? = some pos := by
  rw [PreparedTransactionProof.measure] at h
  simp only at h
  split_ifs at h with h1 h2 h3 h4 h5
  cases h
  refine ⟨by omega, rfl, by omega, fun pos hpos => ?_⟩
  by_contra hne
  exact h4 ⟨pos, hpos, hne⟩

theorem serialize_eq_render {p : PreparedTransactionProof H} {request : TransactionProofRequest H} {limit size : Nat}
    (h : p.measure request limit = .ok size) :
    p.serialize request limit =
      .ok (render ⟨p.transaction, ⟨p.proof.targets, requestedProofHashes p request⟩, p.inputLeaves⟩) := by
  rw [serialize, h]
  simp only [writeVouts_front]
  simp only [render, flagged, requestedProofHashes, List.length_map, List.flatMap_map, List.append_assoc]
  rfl

/-- **Encoding and decoding.** What is written for an accepted request has the measured size and decodes to the
transaction, the wire targets, the requested hashes and the leaves. -/
theorem serialize_round_trip {raw : List UInt8} {limit₀ limit n size : Nat} {t : Transaction H} {proof : Proof H}
    {leaves : List (Option CompactLeafData)} {p : PreparedTransactionProof H} {request : TransactionProofRequest H}
    (hparse : Transaction.parse raw limit₀ = .ok t) (hcreate : create t proof leaves n = .ok p)
    (hmeasure : p.measure request limit = .ok size) :
    ∃ payload d, p.serialize request limit = .ok payload ∧ payload.length = size ∧
      parseUtreexoTransaction payload maxTxPayload = .ok d ∧ d.transaction = t ∧ d.transaction.bytes = raw ∧
      d.proof.targets = proof.targets.map (wirePosition · (treeRows n)) ∧ d.inputLeaves = leaves ∧
      List.Forall₂ (fun pos hash => ∃ i : Nat, p.proofPositions[i]? = some pos ∧ proof.hashes[i]? = some hash)
        request.proofPositions d.proof.hashes := by
  obtain ⟨hbytes, -, tx, htx⟩ := Transaction.parse_cases hparse
  have h := create_cases hcreate
  obtain ⟨positions, hnative, hpositions⟩ := h.native
  obtain ⟨hcount, hsize, hlimit, hfound⟩ := measure_cases hmeasure
  have hlength : p.proofPositions.length = proof.hashes.length := by rw [hpositions, List.length_map, hnative.length]
  have hrequested : (requestedProofHashes p request).length = request.proofPositions.length := List.length_map _
  have hd : Accepted ⟨t, ⟨p.proof.targets, requestedProofHashes p request⟩, leaves⟩ := by
    refine ⟨?_, ?_, ?_, ?_, hbytes ▸ Transaction.parse_limit hparse, h.index, h.leaves_length, h.leaves_valid, ?_, ?_⟩
    · simp only [h.targets, List.length_map]
      exact h.targets_le
    · simp only [h.targets]
      intro target htarget
      obtain ⟨t, ht, rfl⟩ := List.mem_map.mp htarget
      have hpadding : padding = 2 ^ 64 - 1 := rfl
      have := hnative.wire_lt ht
      omega
    · simp only [h.targets]
      exact hnative.wire_unique
    · simp only
      have := h.hashes_le
      omega
    · simp only [h.targets, List.length_map]
      exact h.confirmed
    · simp only [h.targets, List.map_eq_nil_iff]
      intro hnil
      rw [hpositions, hnative.empty hnil] at hcount
      exact List.eq_nil_of_length_eq_zero (by rw [hrequested]; simpa using hcount)
  have hrender : (render ⟨t, ⟨p.proof.targets, requestedProofHashes p request⟩, leaves⟩).length = size := by
    have hhashes := Archive.length_hashes (requestedProofHashes p request)
    have hflagged := length_flagged htx h.leaves_length
    have htargets : p.proof.targets.length = proof.targets.length := by rw [h.targets, List.length_map]
    rw [hsize, h.base, render]
    simp only [List.length_append, hflagged, hhashes, hrequested, length_appendCompactSize, htargets]
    omega
  refine ⟨_, _, serialize_eq_render hmeasure, ?_, parseUtreexoTransaction_iff.mpr ⟨?_, ?_, rfl⟩, h.transaction, ?_, h.targets,
    h.inputLeaves, ?_⟩
  · rw [h.transaction, h.inputLeaves, hrender]
  · rw [h.transaction, h.inputLeaves, hrender]
    omega
  · rw [h.transaction, h.inputLeaves]
    exact hd
  · rw [h.transaction, hbytes]
  · show List.Forall₂ _ _ (requestedProofHashes p request)
    rw [requestedProofHashes, List.forall₂_map_right_iff, List.forall₂_same]
    intro pos hpos
    have hi := hfound pos hpos
    obtain ⟨hlt, -⟩ := List.getElem?_eq_some_iff.mp hi
    rw [hlength] at hlt
    refine ⟨_, hi, ?_⟩
    rw [h.hashes, List.getD_eq_getElem?_getD, List.getElem?_eq_getElem hlt, Option.getD_some]

theorem serialize_round_trip_small :
    ∃ (p : PreparedTransactionProof ByteHash) (payload : List UInt8) (d : DecodedTransactionProof ByteHash),
      create smallTransaction ⟨[0], [leafHash 7]⟩ [some smallLeaf] 2 = .ok p ∧
      p.serialize ⟨smallTransaction.txid, msgUtreexoTx, [1]⟩ 200 = .ok payload ∧ payload.length = 108 ∧
      parseUtreexoTransaction payload maxTxPayload = .ok d ∧ d.transaction = smallTransaction := by
  have hparse : Transaction.parse smallRaw maxTxPayload = .ok smallTransaction := by decide +kernel
  have hcreate : create smallTransaction ⟨[0], [leafHash 7]⟩ [some smallLeaf] 2 =
      .ok ⟨smallTransaction, ⟨[0], [leafHash 7]⟩, [some smallLeaf], [1], 75⟩ := by decide +kernel
  have hmeasure : PreparedTransactionProof.measure ⟨smallTransaction, ⟨[0], [leafHash 7]⟩, [some smallLeaf], [1], 75⟩
      ⟨smallTransaction.txid, msgUtreexoTx, [1]⟩ 200 = .ok 108 := by decide +kernel
  obtain ⟨payload, d, hpayload, hlength, hd, ht, -⟩ := serialize_round_trip hparse hcreate hmeasure
  exact ⟨_, payload, d, hcreate, hpayload, hlength, hd, ht⟩

end Prepared

end UtreexoBridge.Wire
