import UtreexoBridge.Wire.Canonical

/-!
# Transaction identity

The scanner's offsets cut a transaction into its stripped form and its witness.
The stripped form is a transaction of its own, without a witness, and its hash
is the transaction's identity.
-/

namespace UtreexoBridge.Wire

open Bytes

variable {H : Type} [WireHash H]

/-! ## The parts -/

/-- The stripped serialization, cut out as in `Transaction::Parse`. -/
def strippedPart (layout : TransactionLayout) (raw : List UInt8) : List UInt8 :=
  raw.take 4 ++ ((raw.drop layout.inputStart).take (layout.outputsEnd - layout.inputStart) ++ raw.drop (raw.length - 4))

/-- What stands between the outputs and the locktime. -/
def witnessPart (layout : TransactionLayout) (raw : List UInt8) : List UInt8 :=
  (raw.drop layout.outputsEnd).take (raw.length - 4 - layout.outputsEnd)

namespace TransactionSyntax

omit [WireHash H] in
def stripped (tx : TransactionSyntax H) : TransactionSyntax H := { tx with witness := none }

/-- The inputs and outputs, with their counts. -/
def body (tx : TransactionSyntax H) : List UInt8 :=
  appendCompactSize tx.inputs.length ++ (tx.inputs.flatMap InputSyntax.encode ++ tx.outputBytes)

theorem encode_eq (tx : TransactionSyntax H) :
    tx.encode = tx.version ++ (tx.marker ++ (tx.body ++ (tx.witnessBytes ++ tx.locktime))) := by
  simp only [encode, head, foot, body, List.append_assoc]

theorem encode_stripped (tx : TransactionSyntax H) : tx.stripped.encode = tx.version ++ (tx.body ++ tx.locktime) :=
  tx.stripped.encode_eq

omit [WireHash H] in
theorem Valid.stripped {tx : TransactionSyntax H} (h : tx.Valid) : tx.stripped.Valid where
  version := h.version
  inputs := h.inputs
  inputs_pos := h.inputs_pos
  inputs_le := h.inputs_le
  outputs := h.outputs
  outputs_pos := h.outputs_pos
  outputs_lt := h.outputs_lt
  witness witnesses hsome := by cases hsome
  locktime := h.locktime

theorem length_stripped_le (tx : TransactionSyntax H) : tx.stripped.encode.length ≤ tx.encode.length := by
  rw [encode_stripped, encode_eq]
  simp only [List.length_append]
  omega

omit [WireHash H] in
/-- A witness is not empty as bytes: each input has at least its count. -/
theorem witnessBytes_eq_nil {tx : TransactionSyntax H} (h : tx.Valid) : tx.witnessBytes = [] ↔ tx.witness = none := by
  unfold witnessBytes
  constructor
  · intro hnil
    cases hsome : tx.witness with
    | none => rfl
    | some witnesses =>
      obtain ⟨-, -, items, hitems, -⟩ := h.witness witnesses hsome
      rw [hsome, Option.getD_some, List.flatMap_eq_nil_iff] at hnil
      have hcount := length_compactSize_pos items.length
      have hempty := congrArg List.length (hnil items hitems)
      rw [encodeWitness, List.length_append, List.length_nil] at hempty
      omega
  · intro hnone
    rw [hnone]
    rfl

end TransactionSyntax

/-! ## The scanner's offsets -/

/-- The layout of a transaction, as it is cut. -/
structure TransactionLayout.Cuts (layout : TransactionLayout) (tx : TransactionSyntax H) : Prop where
  stripped : strippedPart layout tx.encode = tx.stripped.encode
  witness : witnessPart layout tx.encode = tx.witnessBytes
  hasWitness : layout.witness = tx.witness.isSome

theorem cuts_of_offsets {version marker body witness locktime : List UInt8} {layout : TransactionLayout}
    (hversion : version.length = 4) (hlocktime : locktime.length = 4) (hstart : layout.inputStart = 4 + marker.length)
    (hend : layout.outputsEnd = 4 + marker.length + body.length) :
    strippedPart layout (version ++ (marker ++ (body ++ (witness ++ locktime)))) = version ++ (body ++ locktime) ∧
      witnessPart layout (version ++ (marker ++ (body ++ (witness ++ locktime)))) = witness := by
  have htake : (version ++ (marker ++ (body ++ (witness ++ locktime)))).take 4 = version := List.take_left' hversion
  have hinputs : (version ++ (marker ++ (body ++ (witness ++ locktime)))).drop layout.inputStart =
      body ++ (witness ++ locktime) := by
    rw [hstart, ← List.append_assoc]
    exact List.drop_left' (by rw [List.length_append, hversion])
  have houtputs : (version ++ (marker ++ (body ++ (witness ++ locktime)))).drop layout.outputsEnd =
      witness ++ locktime := by
    rw [hend, ← List.append_assoc, ← List.append_assoc]
    exact List.drop_left' (by simp only [List.length_append, hversion])
  have hlast : (version ++ (marker ++ (body ++ (witness ++ locktime)))).drop
      ((version ++ (marker ++ (body ++ (witness ++ locktime)))).length - 4) = locktime := by
    rw [← List.append_assoc, ← List.append_assoc, ← List.append_assoc]
    exact List.drop_left' (by simp only [List.length_append, hlocktime]; omega)
  constructor
  · rw [strippedPart, htake, hinputs, hlast, hstart, hend, Nat.add_sub_cancel_left, List.take_left' rfl]
  · rw [witnessPart, houtputs]
    refine List.take_left' ?_
    simp only [List.length_append, hversion, hlocktime, hend]
    omega

/-- The scanner cuts every valid transaction where its parts are. -/
theorem cuts_scanned {tx : TransactionSyntax H} (h : tx.Valid) : (tx.scanned tx.encode.length []).layout.Cuts tx := by
  have hend : (tx.scanned tx.encode.length []).layout.outputsEnd = 4 + tx.marker.length + tx.body.length := by
    show tx.encode.length - (tx.witnessBytes ++ (tx.locktime ++ [])).length = _
    rw [tx.encode_eq]
    simp only [List.length_append, List.length_nil, h.version]
    omega
  have hstart : (tx.scanned tx.encode.length []).layout.inputStart = 4 + tx.marker.length := by
    unfold TransactionSyntax.scanned TransactionSyntax.header TransactionSyntax.marker
    cases hsome : tx.witness.isSome with
    | false => rfl
    | true =>
      show tx.encode.length - (appendCompactSize tx.inputs.length ++
        (tx.inputs.flatMap InputSyntax.encode ++ (tx.foot ++ []))).length = _
      rw [TransactionSyntax.encode, TransactionSyntax.head, TransactionSyntax.marker, if_pos hsome, if_pos rfl]
      simp only [List.length_append, List.length_nil, h.version]
      omega
  have hwitness : (tx.scanned tx.encode.length []).layout.witness = tx.witness.isSome := by
    unfold TransactionSyntax.scanned TransactionSyntax.header
    cases tx.witness.isSome <;> rfl
  obtain ⟨hstripped, hcut⟩ := @cuts_of_offsets tx.version tx.marker tx.body tx.witnessBytes tx.locktime _
    h.version h.locktime hstart hend
  rw [← tx.encode_eq] at hstripped hcut
  exact ⟨hstripped.trans tx.encode_stripped.symm, hcut, hwitness⟩

/-! ## Identity -/

theorem parse_encode {tx : TransactionSyntax H} (h : tx.Valid) {limit : Nat} (hlimit : tx.encode.length ≤ min limit maxTxPayload) :
    ∃ t, Transaction.parse tx.encode limit = .ok t ∧ t.Describes tx ∧ t.hasWitness = tx.witness.isSome ∧
      t.txid = doubleSha256 tx.stripped.encode ∧ t.wtxid = doubleSha256 tx.encode := by
  have hcuts := cuts_scanned h
  have hscan : scanTransaction (H := H) tx.encode = .ok (tx.scanned tx.encode.length []) := by
    have hbody := scanBody_encode tx.encode.length h []
    rw [List.append_nil] at hbody
    rw [scanTransaction, hbody]
    rfl
  have hsize : (tx.scanned tx.encode.length []).layout.size = tx.encode.length := Nat.sub_zero _
  have hparse : Transaction.parse tx.encode limit = .ok ⟨tx.encode, (tx.scanned tx.encode.length []).inputs,
      (tx.scanned tx.encode.length []).voutOffsets,
      if (tx.scanned tx.encode.length []).layout.witness then
        doubleSha256 (strippedPart (tx.scanned tx.encode.length []).layout tx.encode) else doubleSha256 tx.encode,
      doubleSha256 tx.encode, (tx.scanned tx.encode.length []).layout.witness⟩ := by
    rw [Transaction.parse, if_neg (by omega), hscan]
    dsimp only
    rw [if_neg (not_not.mpr hsize)]
    rfl
  refine ⟨_, hparse, Transaction.parse_describes h hparse, hcuts.hasWitness, ?_, rfl⟩
  dsimp only
  rw [hcuts.stripped, hcuts.hasWitness]
  cases hsome : tx.witness with
  | some witnesses => rfl
  | none =>
    -- without a witness nothing is cut out
    have hsame : tx.stripped = tx := by
      rw [TransactionSyntax.stripped, ← hsome]
    rw [hsame]
    rfl

theorem parse_scanned {raw : List UInt8} {limit : Nat} {t : Transaction H} (h : Transaction.parse raw limit = .ok t) :
    ∃ tx : TransactionSyntax H, raw = tx.encode ∧ t.Describes tx ∧ raw.length ≤ min limit maxTxPayload ∧
      t.hasWitness = tx.witness.isSome ∧ t.txid = doubleSha256 tx.stripped.encode ∧
      ∃ s : Scanned H, scanTransaction raw = .ok s ∧ s.layout.Cuts tx := by
  obtain ⟨hbytes, -, tx, hdescribes⟩ := Transaction.parse_cases h
  have hraw : raw = tx.encode := hbytes.symm.trans hdescribes.bytes
  subst hraw
  have hlimit : tx.encode.length ≤ min limit maxTxPayload := by
    by_contra hlong
    rw [Transaction.parse, if_pos (by omega)] at h
    cases h
  obtain ⟨t', hparse, -, hwitness, htxid, -⟩ := parse_encode hdescribes.valid hlimit
  rw [h, Except.ok.injEq] at hparse
  subst hparse
  have hbody := scanBody_encode tx.encode.length hdescribes.valid []
  rw [List.append_nil] at hbody
  exact ⟨tx, rfl, hdescribes, hlimit, hwitness, htxid, tx.scanned tx.encode.length [],
    by rw [scanTransaction, hbody]; rfl, cuts_scanned hdescribes.valid⟩

theorem encode_of_parts {tx tx' : TransactionSyntax H} (h : tx.Valid) (h' : tx'.Valid)
    (hstripped : tx.stripped.encode = tx'.stripped.encode) (hwitness : tx.witnessBytes = tx'.witnessBytes) :
    tx.encode = tx'.encode := by
  rw [TransactionSyntax.encode_stripped, TransactionSyntax.encode_stripped] at hstripped
  obtain ⟨hversion, hrest⟩ := List.append_inj hstripped (h.version.trans h'.version.symm)
  obtain ⟨hbody, hlocktime⟩ := List.append_inj' hrest (h.locktime.trans h'.locktime.symm)
  have hnone : tx.witness = none ↔ tx'.witness = none := by
    rw [← TransactionSyntax.witnessBytes_eq_nil h, ← TransactionSyntax.witnessBytes_eq_nil h', hwitness]
  have hmarker : tx.marker = tx'.marker := by
    unfold TransactionSyntax.marker
    simp only [Option.isSome_iff_ne_none, ne_eq, hnone]
  rw [TransactionSyntax.encode_eq, TransactionSyntax.encode_eq, hversion, hmarker, hbody, hwitness, hlocktime]

/-- **Transaction identity.** Every accepted transaction has a stripped part that is accepted itself, without a
witness, with the same inputs and outputs, and both its hashes are the transaction's txid. Transactions that differ
only in their witnesses have one txid, and the stripped and the witness part together are the transaction. -/
theorem transaction_identity {H : Type} [WireHash H] :
    (∀ (raw : List UInt8) (limit : Nat) (t : Transaction H), Transaction.parse raw limit = .ok t →
      ∃ (s : Scanned H) (tx : TransactionSyntax H), scanTransaction raw = .ok s ∧ raw = tx.encode ∧ t.Describes tx ∧
        t.hasWitness = tx.witness.isSome ∧ strippedPart s.layout raw = tx.stripped.encode ∧
        witnessPart s.layout raw = tx.witnessBytes ∧
        ∃ t', Transaction.parse (strippedPart s.layout raw) limit = .ok t' ∧ t'.Describes tx.stripped ∧
          t'.hasWitness = false ∧ t'.inputs = t.inputs ∧ t'.txid = t.txid ∧ t'.wtxid = t.txid) ∧
    (∀ (raw raw' : List UInt8) (limit limit' : Nat) (t t' : Transaction H) (tx tx' : TransactionSyntax H),
      Transaction.parse raw limit = .ok t → Transaction.parse raw' limit' = .ok t' → raw = tx.encode → raw' = tx'.encode →
      tx.Valid → tx'.Valid → tx.stripped = tx'.stripped → t.txid = t'.txid) ∧
    (∀ (raw raw' : List UInt8) (limit limit' : Nat) (t t' : Transaction H) (s s' : Scanned H),
      Transaction.parse raw limit = .ok t → Transaction.parse raw' limit' = .ok t' →
      scanTransaction raw = .ok s → scanTransaction raw' = .ok s' →
      strippedPart s.layout raw = strippedPart s'.layout raw' → witnessPart s.layout raw = witnessPart s'.layout raw' →
      raw = raw') := by
  refine ⟨?_, ?_, ?_⟩
  · intro raw limit t h
    obtain ⟨tx, rfl, hdescribes, hlimit, hwitness, htxid, s, hscan, hcuts⟩ := parse_scanned h
    obtain ⟨t', hparse, hstripped, hnone, htxid', hwtxid'⟩ :=
      parse_encode hdescribes.valid.stripped (le_trans tx.length_stripped_le hlimit)
    refine ⟨s, tx, hscan, rfl, hdescribes, hwitness, hcuts.stripped, hcuts.witness, t', ?_, hstripped, hnone, ?_, ?_, ?_⟩
    · rw [hcuts.stripped, hparse]
    · rw [hstripped.inputs, hdescribes.inputs]
      rfl
    · rw [htxid', htxid]
      rfl
    · rw [hwtxid', htxid]
  · intro raw raw' limit limit' t t' tx tx' h h' hraw hraw' hvalid hvalid' hstripped
    subst hraw hraw'
    have htxid : ∀ {tx : TransactionSyntax H} {limit : Nat} {t : Transaction H}, tx.Valid →
        Transaction.parse tx.encode limit = .ok t → t.txid = doubleSha256 tx.stripped.encode := by
      intro tx limit t hvalid h
      obtain ⟨-, -, -, hlimit, -⟩ := parse_scanned h
      obtain ⟨t', hparse, -, -, htxid, -⟩ := parse_encode hvalid hlimit
      rw [h, Except.ok.injEq] at hparse
      rw [hparse, htxid]
    rw [htxid hvalid h, htxid hvalid' h', hstripped]
  · intro raw raw' limit limit' t t' s s' h h' hscan hscan' hstripped hwitness
    obtain ⟨tx, rfl, hdescribes, -, -, -, found, hfound, hcuts⟩ := parse_scanned h
    obtain ⟨tx', rfl, hdescribes', -, -, -, found', hfound', hcuts'⟩ := parse_scanned h'
    rw [hscan, Except.ok.injEq] at hfound
    rw [hscan', Except.ok.injEq] at hfound'
    subst hfound hfound'
    rw [hcuts.stripped, hcuts'.stripped] at hstripped
    rw [hcuts.witness, hcuts'.witness] at hwitness
    exact encode_of_parts hdescribes.valid hdescribes'.valid hstripped hwitness

end UtreexoBridge.Wire
