import UtreexoBridge.Wire.TransactionProof

/-!
# What the decoder accepts

A payload is accepted exactly if it is the rendering of what was decoded. The
output indexes are overwritten in place, which changes the syntax at the
indexes and nowhere else.
-/

namespace UtreexoBridge.Wire

open Bytes Position

variable {H : Type}

/-! ## Output indexes -/

def InputSyntax.withIndex (input : InputSyntax H) (index : Nat) : InputSyntax H :=
  { input with outpoint := { input.outpoint with index } }

namespace TransactionSyntax

def withIndexes (tx : TransactionSyntax H) (indexes : List Nat) : TransactionSyntax H :=
  { tx with inputs := List.zipWith InputSyntax.withIndex tx.inputs indexes }

def indexes (tx : TransactionSyntax H) : List Nat := tx.inputs.map (·.outpoint.index)

end TransactionSyntax

theorem zipWith_withIndex_self (inputs : List (InputSyntax H)) :
    List.zipWith InputSyntax.withIndex inputs (inputs.map (·.outpoint.index)) = inputs := by
  induction inputs with
  | nil => rfl
  | cons input inputs ih => rw [List.map_cons, List.zipWith_cons_cons, ih]; rfl

theorem zipWith_withIndex_twice (inputs : List (InputSyntax H)) {a b : List Nat} (ha : a.length = inputs.length) :
    List.zipWith InputSyntax.withIndex (List.zipWith InputSyntax.withIndex inputs a) b =
      List.zipWith InputSyntax.withIndex inputs b := by
  induction inputs generalizing a b with
  | nil => simp
  | cons input inputs ih =>
    cases a with
    | nil => simp at ha
    | cons x a =>
      cases b with
      | nil => simp
      | cons y b =>
        rw [List.zipWith_cons_cons, List.zipWith_cons_cons, List.zipWith_cons_cons, ih (by simpa using ha)]
        rfl

theorem map_index_zipWith (inputs : List (InputSyntax H)) {a : List Nat} (ha : a.length = inputs.length) :
    (List.zipWith InputSyntax.withIndex inputs a).map (·.outpoint.index) = a := by
  induction inputs generalizing a with
  | nil => simpa [eq_comm] using ha
  | cons input inputs ih =>
    cases a with
    | nil => simp at ha
    | cons x a => rw [List.zipWith_cons_cons, List.map_cons, ih (by simpa using ha)]; rfl

namespace TransactionSyntax

theorem withIndexes_indexes (tx : TransactionSyntax H) : tx.withIndexes tx.indexes = tx := by
  rw [withIndexes, indexes, zipWith_withIndex_self]

theorem withIndexes_twice (tx : TransactionSyntax H) {a b : List Nat} (ha : a.length = tx.inputs.length) :
    (tx.withIndexes a).withIndexes b = tx.withIndexes b := by
  rw [withIndexes, withIndexes, withIndexes, zipWith_withIndex_twice _ ha]

theorem length_withIndexes (tx : TransactionSyntax H) {a : List Nat} (ha : a.length = tx.inputs.length) :
    (tx.withIndexes a).inputs.length = tx.inputs.length := by
  rw [withIndexes, List.length_zipWith, ha, Nat.min_self]

theorem head_withIndexes (tx : TransactionSyntax H) {a : List Nat} (ha : a.length = tx.inputs.length) :
    (tx.withIndexes a).head = tx.head := by
  rw [head, head, length_withIndexes tx ha]
  rfl

theorem outpoint_withIndexes (tx : TransactionSyntax H) {a : List Nat} :
    (tx.withIndexes a).inputs.map (·.outpoint) =
      List.zipWith (fun outpoint index => ⟨outpoint.txid, index⟩) (tx.inputs.map (·.outpoint)) a := by
  rw [withIndexes, List.map_zipWith, List.zipWith_map_left]
  rfl

theorem Valid.withIndexes {tx : TransactionSyntax H} (h : tx.Valid) {a : List Nat} (ha : a.length = tx.inputs.length)
    (hlt : ∀ x ∈ a, x < 2 ^ 32) : (tx.withIndexes a).Valid := by
  have hlen := length_withIndexes tx ha
  refine ⟨h.version, fun input hinput => ?_, by rw [hlen]; exact h.inputs_pos, by rw [hlen]; exact h.inputs_le, h.outputs,
    h.outputs_pos, h.outputs_lt, fun witnesses hw => by rw [hlen]; exact h.witness witnesses hw, h.locktime⟩
  obtain ⟨k, hk, rfl⟩ := List.getElem_of_mem hinput
  have hk' := hk
  rw [hlen] at hk'
  simp only [TransactionSyntax.withIndexes, List.getElem_zipWith]
  have hvalid := h.inputs _ (List.getElem_mem hk')
  exact ⟨hlt _ (List.getElem_mem _), hvalid.script, hvalid.sequence⟩

end TransactionSyntax

section Write

variable [WireHash H]

theorem length_withIndex (input : InputSyntax H) (index : Nat) : (input.withIndex index).encode.length = input.encode.length := by
  simp [InputSyntax.encode, InputSyntax.tail, InputSyntax.withIndex, StoredHash.length_bytes]

omit [WireHash H] in
theorem writeVout_append (front middle back : List UInt8) (hmiddle : middle.length = 4) (vout : Nat) :
    writeVout (front ++ (middle ++ back)) front.length vout = front ++ (appendUnsigned 4 vout ++ back) := by
  have hdrop : (front ++ (middle ++ back)).drop (front.length + 4) = back := by
    rw [← List.append_assoc, ← hmiddle, ← List.length_append, List.drop_left]
  rw [writeVout, List.take_left, hdrop]

theorem writeVouts_inputs (front back : List UInt8) (inputs : List (InputSyntax H)) {a : List Nat}
    (ha : a.length = inputs.length) :
    writeVouts (front ++ (inputs.flatMap InputSyntax.encode ++ back))
        ((TransactionSyntax.voutOffsets front.length inputs).zip a) =
      front ++ ((List.zipWith InputSyntax.withIndex inputs a).flatMap InputSyntax.encode ++ back) := by
  induction inputs generalizing front a with
  | nil => rfl
  | cons input inputs ih =>
    cases a with
    | nil => simp at ha
    | cons x a =>
      have hhash : (StoredHash.bytes input.outpoint.txid).length = 32 := StoredHash.length_bytes _
      have hwrite : writeVout (front ++ ((input :: inputs).flatMap InputSyntax.encode ++ back)) (front.length + 32) x =
          (front ++ (input.withIndex x).encode) ++ (inputs.flatMap InputSyntax.encode ++ back) := by
        have h := writeVout_append (front ++ StoredHash.bytes input.outpoint.txid) (appendUnsigned 4 input.outpoint.index)
          (sized input.script ++ input.sequence ++ (inputs.flatMap InputSyntax.encode ++ back)) (length_appendUnsigned _ _) x
        rw [List.length_append, hhash] at h
        simpa [InputSyntax.encode, InputSyntax.tail, InputSyntax.withIndex, List.append_assoc] using h
      have hrest := ih (front ++ (input.withIndex x).encode) (a := a) (by simpa using ha)
      rw [writeVouts] at hrest
      have hlen : front.length + input.encode.length = (front ++ (input.withIndex x).encode).length := by
        rw [List.length_append, length_withIndex]
      rw [TransactionSyntax.voutOffsets, List.zip_cons_cons, writeVouts, List.foldl_cons, hwrite, List.zipWith_cons_cons,
        List.flatMap_cons, hlen, hrest]
      simp only [List.append_assoc]

theorem writeVouts_encode (tx : TransactionSyntax H) {a : List Nat} (ha : a.length = tx.inputs.length) :
    writeVouts tx.encode ((TransactionSyntax.voutOffsets tx.head.length tx.inputs).zip a) = (tx.withIndexes a).encode := by
  rw [TransactionSyntax.encode, writeVouts_inputs _ _ _ ha, TransactionSyntax.encode, TransactionSyntax.head_withIndexes tx ha]
  rfl

end Write

/-! ## Parsed transactions -/

section Parse

variable [WireHash H]

/-- A parsed transaction, in terms of its syntax. -/
structure Transaction.Describes (t : Transaction H) (tx : TransactionSyntax H) : Prop where
  valid : tx.Valid
  bytes : t.bytes = tx.encode
  inputs : t.inputs = tx.inputs.map (·.outpoint)
  voutOffsets : t.voutOffsets = TransactionSyntax.voutOffsets tx.head.length tx.inputs

theorem Transaction.parse_cases {raw : List UInt8} {limit : Nat} {t : Transaction H} (h : Transaction.parse raw limit = .ok t) :
    t.bytes = raw ∧ raw.length ≤ maxTxPayload ∧ ∃ tx, t.Describes tx := by
  rw [Transaction.parse] at h
  by_cases hlimit : raw.length > min limit maxTxPayload
  · rw [if_pos hlimit] at h
    cases h
  rw [if_neg hlimit] at h
  cases hscan : scanTransaction (H := H) raw with
  | error message =>
    rw [hscan] at h
    cases h
  | ok s =>
    obtain ⟨layout, inputs, voutOffsets⟩ := s
    simp only [hscan] at h
    by_cases hsize : layout.size ≠ raw.length
    · rw [if_pos hsize] at h
      cases h
    rw [if_neg hsize, Except.ok.injEq] at h
    obtain ⟨tx, rest, hvalid, rfl, hdescribes⟩ := scanTransaction_cases hscan
    have hrest : rest = [] := by
      have hlen := hdescribes.size
      rw [List.length_append] at hsize
      simp only at hlen
      exact List.eq_nil_of_length_eq_zero (by omega)
    subst hrest h
    rw [List.append_nil] at *
    exact ⟨rfl, by omega, tx, hvalid, rfl, hdescribes.inputs, hdescribes.voutOffsets⟩

theorem Transaction.parse_describes {tx : TransactionSyntax H} (hvalid : tx.Valid) {limit : Nat} {t : Transaction H}
    (h : Transaction.parse tx.encode limit = .ok t) : t.Describes tx := by
  obtain ⟨s, hscan, hdescribes⟩ := scanTransaction_encode hvalid []
  rw [List.append_nil] at hscan
  rw [Transaction.parse] at h
  by_cases hlimit : tx.encode.length > min limit maxTxPayload
  · rw [if_pos hlimit] at h
    cases h
  obtain ⟨layout, inputs, voutOffsets⟩ := s
  rw [if_neg hlimit, hscan] at h
  have hsize : ¬layout.size ≠ tx.encode.length := not_not.mpr hdescribes.size
  simp only [if_neg hsize, Except.ok.injEq] at h
  subst h
  exact ⟨hvalid, rfl, hdescribes.inputs, hdescribes.voutOffsets⟩

theorem Transaction.parse_limit {raw : List UInt8} {limit : Nat} {t : Transaction H} (h : Transaction.parse raw limit = .ok t) :
    Transaction.parse raw maxTxPayload = .ok t := by
  have hlen := (Transaction.parse_cases h).2.1
  rw [Transaction.parse] at h ⊢
  by_cases hlimit : raw.length > min limit maxTxPayload
  · rw [if_pos hlimit] at h
    cases h
  · rw [if_neg hlimit] at h
    rw [if_neg (by omega), h]

end Parse

/-! ## The parts of a payload -/

theorem scans_target : Scans parseTarget (fun target => target < 2 ^ 64 ∧ target ≠ padding) appendCompactSize
    fun target _ => target := by
  intro bytes v rest
  rw [parseTarget, Parser.bind_eq_ok]
  constructor
  · rintro ⟨target, back, htarget, h⟩
    obtain ⟨⟨⟩, back', hrequire, hlast⟩ := Parser.bind_eq_ok.mp h
    obtain ⟨hlt, rfl⟩ := readCompactSize_iff.mp (reading_eq_ok.mp htarget)
    obtain ⟨hne, heq⟩ := require_eq_ok.mp hrequire
    cases heq
    cases Parser.pure_eq_ok.mp hlast
    exact ⟨v, ⟨hlt, hne⟩, rfl, rfl⟩
  · rintro ⟨target, ⟨hlt, hne⟩, rfl, rfl⟩
    refine ⟨_, rest, reading_eq_ok.mpr (readCompactSize_iff.mpr ⟨hlt, rfl⟩), Parser.bind_eq_ok.mpr ?_⟩
    exact ⟨(), rest, require_eq_ok.mpr ⟨hne, rfl⟩, rfl⟩

theorem length_compactSize_pos (n : Nat) : 1 ≤ (appendCompactSize n).length := by
  rw [length_appendCompactSize]
  exact compactSizeBytes_pos n

theorem scans_targets : Scans parseTargets
    (fun targets : List Nat => targets.length ≤ maxInputs ∧ ∀ target ∈ targets, target < 2 ^ 64 ∧ target ≠ padding)
    (fun targets => appendCompactSize targets.length ++ targets.flatMap appendCompactSize) (fun targets _ => targets) := by
  have hmax : maxInputs < 2 ^ 64 := by decide
  intro bytes v rest
  rw [parseTargets, Parser.bind_eq_ok]
  constructor
  · rintro ⟨count, back, hcount, h1⟩
    obtain ⟨left, back1, hleft, h2⟩ := Parser.bind_eq_ok.mp h1
    obtain ⟨⟨⟩, back2, hrequire, hmany⟩ := Parser.bind_eq_ok.mp h2
    obtain ⟨targets, ⟨rfl, htargets⟩, rfl, rfl⟩ := (scans_target.many count _ _ _).mp hmany
    obtain ⟨hbound, heq⟩ := require_eq_ok.mp hrequire
    cases heq
    cases remaining_eq_ok.mp hleft
    obtain ⟨hlt, rfl⟩ := readCompactSize_iff.mp (reading_eq_ok.mp hcount)
    refine ⟨targets, ⟨by omega, htargets⟩, by rw [List.append_assoc], ?_⟩
    rw [valuesOf_const, List.map_id']
  · rintro ⟨targets, ⟨hle, htargets⟩, rfl, rfl⟩
    have hroom := mul_length_le_flatMap (k := 1) fun target (_ : target ∈ v) => length_compactSize_pos target
    refine ⟨v.length, v.flatMap appendCompactSize ++ rest,
      reading_eq_ok.mpr (readCompactSize_iff.mpr ⟨by omega, by rw [List.append_assoc]⟩), ?_⟩
    refine Parser.bind_eq_ok.mpr ⟨_, _, rfl, Parser.bind_eq_ok.mpr ⟨(), _, require_eq_ok.mpr ⟨?_, rfl⟩, ?_⟩⟩
    · rw [List.length_append]
      omega
    · refine (scans_target.many _ _ _ _).mpr ⟨v, ⟨rfl, htargets⟩, rfl, ?_⟩
      rw [valuesOf_const, List.map_id']

theorem lookahead_eq_ok {α : Type} {f : List UInt8 → Except String α} {bytes : List UInt8} {result : α × List UInt8} :
    lookahead f bytes = .ok result ↔ ∃ value, f bytes = .ok value ∧ result = (value, bytes) := by
  rw [lookahead]
  cases f bytes with
  | error message => simp [Except.map]
  | ok value => simp [Except.map, eq_comm]

theorem scriptTypeOf_code (code : Nat) : (scriptTypeOf code).code = code := by
  rw [scriptTypeOf]
  by_cases h : 4 < code
  · rw [dif_pos h]
    rfl
  · rw [dif_neg h]
    have hcases : code = 0 ∨ code = 1 ∨ code = 2 ∨ code = 3 ∨ code = 4 := by omega
    rcases hcases with rfl | rfl | rfl | rfl | rfl <;> rfl

theorem scriptTypeOf_of_code (type : ScriptPubkeyType) : scriptTypeOf type.code = type := by
  cases type with
  | unknown code h =>
    rw [scriptTypeOf]
    exact dif_pos h
  | _ => rfl

/-- A leaf that `LeafBytes` accepts. -/
structure LeafValid (leaf : CompactLeafData) : Prop where
  headerCode : leaf.headerCode ≤ 2 ^ 31 - 1
  amount : leaf.amount ≤ 2 ^ 63 - 1
  code : leaf.scriptType.code ≤ 4
  script : leaf.scriptType = .other → leaf.script.length ≤ maxScriptBytes
  standard : leaf.scriptType ≠ .other → leaf.script = []

theorem leafBytes_eq_ok {leaf : CompactLeafData} {n : Nat} :
    leafBytes leaf = .ok n ↔ LeafValid leaf ∧ n = (appendLeaf leaf).length := by
  have hlen : (appendLeaf leaf).length = 13 +
      if leaf.scriptType = .other then compactSizeBytes leaf.script.length + leaf.script.length else 0 := by
    rw [appendLeaf]
    split_ifs
    · simp
      omega
    · simp
  rw [leafBytes, hlen]
  by_cases hfields : leaf.headerCode > 2 ^ 31 - 1 ∨ leaf.amount > 2 ^ 63 - 1 ∨ leaf.scriptType.code > 4
  · rw [if_pos hfields]
    constructor
    · intro h
      cases h
    · rintro ⟨⟨h1, h2, h3, -, -⟩, -⟩
      omega
  rw [if_neg hfields]
  by_cases hother : leaf.scriptType = .other
  · rw [if_neg (by simpa using hother), if_pos hother]
    by_cases hsize : leaf.script.length > maxScriptBytes
    · rw [if_pos hsize]
      constructor
      · intro h
        cases h
      · rintro ⟨h, -⟩
        have := h.script hother
        omega
    · rw [if_neg hsize, Except.ok.injEq]
      constructor
      · intro h
        exact ⟨⟨by omega, by omega, by omega, fun _ => by omega, fun h => absurd hother h⟩, by omega⟩
      · rintro ⟨-, rfl⟩
        omega
  · rw [if_pos hother, if_neg hother]
    by_cases hempty : leaf.script ≠ []
    · rw [if_pos hempty]
      constructor
      · intro h
        cases h
      · rintro ⟨h, -⟩
        exact absurd (h.standard hother) hempty
    · rw [if_neg hempty, Except.ok.injEq]
      constructor
      · intro h
        exact ⟨⟨by omega, by omega, by omega, fun h => absurd h hother, fun _ => by simpa using hempty⟩, by omega⟩
      · rintro ⟨-, rfl⟩
        rfl

theorem parseScript_iff {type : ScriptPubkeyType} {bytes script rest : List UInt8} :
    parseScript type bytes = .ok (script, rest) ↔
      (type = .other → script.length ≤ maxScriptBytes) ∧ (type ≠ .other → script = []) ∧
        bytes = (if type = .other then appendCompactSize script.length ++ script else []) ++ rest := by
  have hmax : maxScriptBytes < 2 ^ 64 := by decide
  by_cases hother : type = .other
  · rw [parseScript, if_pos hother, if_pos hother, Parser.bind_eq_ok]
    constructor
    · rintro ⟨size, back, hsize, h1⟩
      obtain ⟨left, back1, hleft, h2⟩ := Parser.bind_eq_ok.mp h1
      obtain ⟨⟨⟩, back2, hrequire, hread⟩ := Parser.bind_eq_ok.mp h2
      obtain ⟨rfl, rfl⟩ := readBytes_iff.mp (reading_eq_ok.mp hread)
      obtain ⟨hbound, heq⟩ := require_eq_ok.mp hrequire
      cases heq
      cases remaining_eq_ok.mp hleft
      obtain ⟨hlt, rfl⟩ := readCompactSize_iff.mp (reading_eq_ok.mp hsize)
      exact ⟨fun _ => by omega, fun h => absurd hother h, by rw [List.append_assoc]⟩
    · rintro ⟨hle, -, rfl⟩
      have hle := hle hother
      refine ⟨script.length, script ++ rest,
        reading_eq_ok.mpr (readCompactSize_iff.mpr ⟨by omega, by rw [List.append_assoc]⟩), ?_⟩
      refine Parser.bind_eq_ok.mpr ⟨_, _, rfl, Parser.bind_eq_ok.mpr ⟨(), _, require_eq_ok.mpr ⟨?_, rfl⟩, ?_⟩⟩
      · rw [List.length_append]
        omega
      · exact reading_eq_ok.mpr (readBytes_iff.mpr ⟨rfl, rfl⟩)
  · rw [parseScript, if_neg hother, if_neg hother, Parser.pure_eq_ok, Prod.mk.injEq]
    constructor
    · rintro ⟨rfl, rfl⟩
      exact ⟨fun h => absurd h hother, fun _ => rfl, rfl⟩
    · rintro ⟨-, hnil, rfl⟩
      exact ⟨hnil hother, rfl⟩

theorem scans_leaf : Scans parseConfirmedLeaf LeafValid appendLeaf fun leaf _ => leaf := by
  intro bytes v rest
  rw [parseConfirmedLeaf, Parser.bind_eq_ok]
  constructor
  · rintro ⟨⟨headerCode, amount, code⟩, back, hfields, h1⟩
    obtain ⟨script, back1, hscript, h2⟩ := Parser.bind_eq_ok.mp h1
    obtain ⟨n, back2, hbytes, hlast⟩ := Parser.bind_eq_ok.mp h2
    obtain ⟨-, -, rfl⟩ := parseScript_iff.mp hscript
    obtain ⟨n', hok, heq⟩ := lookahead_eq_ok.mp hbytes
    cases heq
    cases Parser.pure_eq_ok.mp hlast
    obtain ⟨header, back3, hheader, h3⟩ := Reader.bind_eq_some.mp (reading_eq_ok.mp hfields)
    obtain ⟨amount', back4, hamount, h4⟩ := Reader.bind_eq_some.mp h3
    obtain ⟨code', back5, hcode, h5⟩ := Reader.bind_eq_some.mp h4
    cases Reader.pure_eq_some.mp h5
    obtain ⟨-, rfl⟩ := readUnsigned_iff.mp hcode
    obtain ⟨-, rfl⟩ := readUnsigned_iff.mp hamount
    obtain ⟨-, rfl⟩ := readUnsigned_iff.mp hheader
    refine ⟨_, (leafBytes_eq_ok.mp hok).1, ?_, rfl⟩
    simp only [appendLeaf, scriptTypeOf_code, List.append_assoc]
  · rintro ⟨leaf, hleaf, rfl, rfl⟩
    obtain ⟨headerCode, amount, type, script⟩ := v
    have h1 := hleaf.headerCode
    have h2 := hleaf.amount
    have h3 := hleaf.code
    simp only at h1 h2 h3
    simp only [appendLeaf, List.append_assoc]
    refine ⟨(headerCode, amount, type.code), (if type = .other then appendCompactSize script.length ++ script else []) ++ rest,
      reading_eq_ok.mpr (Reader.bind_eq_some.mpr ⟨headerCode, _, readUnsigned_iff.mpr ⟨by omega, rfl⟩, ?_⟩), ?_⟩
    · refine Reader.bind_eq_some.mpr ⟨amount, _, readUnsigned_iff.mpr ⟨by omega, rfl⟩, Reader.bind_eq_some.mpr ?_⟩
      exact ⟨type.code, _, readUnsigned_iff.mpr ⟨by omega, rfl⟩, rfl⟩
    · refine Parser.bind_eq_ok.mpr ⟨script, rest, ?_, Parser.bind_eq_ok.mpr
        ⟨(appendLeaf ⟨headerCode, amount, type, script⟩).length, rest, lookahead_eq_ok.mpr ⟨_, ?_, rfl⟩, ?_⟩⟩
      · simp only [scriptTypeOf_of_code]
        exact parseScript_iff.mpr ⟨hleaf.script, hleaf.standard, rfl⟩
      · simp only [scriptTypeOf_of_code]
        exact leafBytes_eq_ok.mpr ⟨hleaf, rfl⟩
      · simp only [scriptTypeOf_of_code]
        rfl

/-- The bytes of an input's leaf: none if the input is unconfirmed. -/
def appendInputLeaf (leaf : Option CompactLeafData) : List UInt8 := leaf.elim [] appendLeaf

/-- An input has a leaf exactly if it is confirmed. -/
def LeafFits (input : OutPoint H) (leaf : Option CompactLeafData) : Prop :=
  leaf.isSome = confirmedInput input ∧ ∀ l, leaf = some l → LeafValid l

theorem scans_inputLeaf (input : OutPoint H) :
    Scans (parseInputLeaf input) (LeafFits input) appendInputLeaf fun leaf _ => leaf := by
  intro bytes v rest
  rw [parseInputLeaf]
  by_cases hconfirmed : confirmedInput input
  · rw [if_pos hconfirmed, map_eq_pure_bind, Parser.bind_eq_ok]
    constructor
    · rintro ⟨leaf, back, hleaf, hlast⟩
      obtain ⟨leaf, hvalid, rfl, rfl⟩ := (scans_leaf _ _ _).mp hleaf
      cases Parser.pure_eq_ok.mp hlast
      refine ⟨some leaf, ⟨by rw [hconfirmed]; rfl, fun l hl => ?_⟩, rfl, rfl⟩
      cases hl
      exact hvalid
    · rintro ⟨leaf, ⟨hsome, hvalid⟩, rfl, rfl⟩
      rw [hconfirmed] at hsome
      obtain ⟨l, rfl⟩ := Option.isSome_iff_exists.mp hsome
      exact ⟨l, rest, (scans_leaf _ _ _).mpr ⟨l, hvalid l rfl, rfl, rfl⟩, rfl⟩
  · rw [if_neg hconfirmed, Parser.pure_eq_ok, Prod.mk.injEq]
    rw [Bool.not_eq_true] at hconfirmed
    constructor
    · rintro ⟨rfl, rfl⟩
      exact ⟨none, ⟨by rw [hconfirmed]; rfl, fun l hl => by cases hl⟩, rfl, rfl⟩
    · rintro ⟨leaf, ⟨hnone, -⟩, rfl, rfl⟩
      rw [hconfirmed, Option.isSome_eq_false_iff, Option.isNone_iff_eq_none] at hnone
      subst hnone
      exact ⟨rfl, rfl⟩

theorem scans_inputLeaves (inputs : List (OutPoint H)) : Scans (parseInputLeaves inputs) (List.Forall₂ LeafFits inputs)
    (·.flatMap appendInputLeaf) fun leaves _ => leaves := by
  induction inputs with
  | nil =>
    intro bytes v rest
    rw [parseInputLeaves, Parser.pure_eq_ok, Prod.mk.injEq]
    constructor
    · rintro ⟨rfl, rfl⟩
      exact ⟨[], .nil, rfl, rfl⟩
    · rintro ⟨leaves, h, rfl, rfl⟩
      cases h
      exact ⟨rfl, rfl⟩
  | cons input inputs ih =>
    intro bytes v rest
    rw [parseInputLeaves, Parser.bind_eq_ok]
    constructor
    · rintro ⟨leaf, back, hleaf, h1⟩
      obtain ⟨leaves, back1, hleaves, hlast⟩ := Parser.bind_eq_ok.mp h1
      cases Parser.pure_eq_ok.mp hlast
      obtain ⟨ls, hfits, rfl, rfl⟩ := (ih _ _ _).mp hleaves
      obtain ⟨l, hfit, rfl, rfl⟩ := (scans_inputLeaf input _ _ _).mp hleaf
      exact ⟨leaf :: leaves, .cons hfit hfits, by simp only [List.flatMap_cons, List.append_assoc], rfl⟩
    · rintro ⟨leaves, hfits, rfl, rfl⟩
      cases hfits with
      | @cons _ leaf _ leaves hfit hfits =>
        refine ⟨leaf, leaves.flatMap appendInputLeaf ++ rest, (scans_inputLeaf input _ _ _).mpr ⟨leaf, hfit, ?_, rfl⟩, ?_⟩
        · simp only [List.flatMap_cons, List.append_assoc]
        · exact Parser.bind_eq_ok.mpr ⟨leaves, rest, (ih _ _ _).mpr ⟨leaves, hfits, rfl, rfl⟩, rfl⟩

section Parts

variable [WireHash H]

theorem scans_hash : Scans (reading "truncated utreexotx proof hash" readHash) (fun _ : H => True) StoredHash.bytes
    fun hash _ => hash := by
  intro bytes v rest
  rw [reading_eq_ok, readHash_iff]
  constructor
  · rintro rfl
    exact ⟨v, trivial, rfl, rfl⟩
  · rintro ⟨hash, -, rfl, rfl⟩
    rfl

theorem scans_hashes : Scans parseHashes (fun hashes : List H => hashes.length ≤ maxHashes)
    (fun hashes => appendCompactSize hashes.length ++ hashes.flatMap StoredHash.bytes) (fun hashes _ => hashes) := by
  have hmax : maxHashes < 2 ^ 64 := by decide
  intro bytes v rest
  rw [parseHashes, Parser.bind_eq_ok]
  constructor
  · rintro ⟨count, back, hcount, h1⟩
    obtain ⟨left, back1, hleft, h2⟩ := Parser.bind_eq_ok.mp h1
    obtain ⟨⟨⟩, back2, hrequire, hmany⟩ := Parser.bind_eq_ok.mp h2
    obtain ⟨hashes, ⟨rfl, -⟩, rfl, rfl⟩ := (scans_hash.many count _ _ _).mp hmany
    obtain ⟨hbound, heq⟩ := require_eq_ok.mp hrequire
    cases heq
    cases remaining_eq_ok.mp hleft
    obtain ⟨hlt, rfl⟩ := readCompactSize_iff.mp (reading_eq_ok.mp hcount)
    refine ⟨hashes, by omega, by rw [List.append_assoc], ?_⟩
    rw [valuesOf_const, List.map_id']
  · rintro ⟨hashes, hle, rfl, rfl⟩
    have hroom := Archive.length_hashes v
    refine ⟨v.length, v.flatMap StoredHash.bytes ++ rest,
      reading_eq_ok.mpr (readCompactSize_iff.mpr ⟨by omega, by rw [List.append_assoc]⟩), ?_⟩
    refine Parser.bind_eq_ok.mpr ⟨_, _, rfl, Parser.bind_eq_ok.mpr ⟨(), _, require_eq_ok.mpr ⟨?_, rfl⟩, ?_⟩⟩
    · rw [List.length_append, hroom]
      omega
    · refine (scans_hash.many _ _ _ _).mpr ⟨v, ⟨rfl, fun _ _ => trivial⟩, rfl, ?_⟩
      rw [valuesOf_const, List.map_id']

theorem parseFlagged_iff {bytes flagged rest : List UInt8} {collected : Scanned H} :
    parseFlagged bytes = .ok ((flagged, collected), rest) ↔ ∃ tx : TransactionSyntax H,
      tx.Valid ∧ bytes = tx.encode ++ rest ∧ flagged = tx.encode ∧ scanTransaction tx.encode = .ok collected := by
  rw [parseFlagged, Parser.bind_eq_ok]
  constructor
  · rintro ⟨scan, back, hscan, h1⟩
    obtain ⟨flagged', back1, hflagged, h2⟩ := Parser.bind_eq_ok.mp h1
    obtain ⟨collected', back2, hcollected, h3⟩ := Parser.bind_eq_ok.mp h2
    obtain ⟨⟨⟩, back3, hskip, hlast⟩ := Parser.bind_eq_ok.mp h3
    cases Parser.pure_eq_ok.mp hlast
    obtain ⟨s, hs, heq⟩ := lookahead_eq_ok.mp hscan
    cases heq
    obtain ⟨f, hf, heq⟩ := lookahead_eq_ok.mp hflagged
    cases heq
    cases hf
    obtain ⟨c, hc, heq⟩ := lookahead_eq_ok.mp hcollected
    cases heq
    obtain ⟨tx, back, hvalid, rfl, hdescribes⟩ := scanTransaction_cases hs
    obtain ⟨front, hfront, heq⟩ := skip_iff.mp (reading_eq_ok.mp hskip)
    rw [hdescribes.size] at hfront hc ⊢
    obtain ⟨rfl, rfl⟩ := List.append_inj heq hfront.symm
    rw [List.take_left] at hc ⊢
    exact ⟨tx, hvalid, rfl, rfl, hc⟩
  · rintro ⟨tx, hvalid, rfl, rfl, hcollected⟩
    obtain ⟨s, hs, hdescribes⟩ := scanTransaction_encode hvalid rest
    refine ⟨s, tx.encode ++ rest, lookahead_eq_ok.mpr ⟨s, hs, rfl⟩, ?_⟩
    rw [hdescribes.size]
    refine Parser.bind_eq_ok.mpr ⟨tx.encode, tx.encode ++ rest, lookahead_eq_ok.mpr ⟨_, ?_, rfl⟩, ?_⟩
    · rw [List.take_left]
    · refine Parser.bind_eq_ok.mpr ⟨collected, tx.encode ++ rest, lookahead_eq_ok.mpr ⟨_, hcollected, rfl⟩, ?_⟩
      exact Parser.bind_eq_ok.mpr ⟨(), rest, reading_eq_ok.mpr (skip_iff.mpr ⟨_, rfl, rfl⟩), rfl⟩

end Parts

/-! ## Flags -/

section Flags

open PreparedTransactionProof

theorem flagVout_eq {input : OutPoint H} (h : input.index < 2 ^ 31) (leaf : Option CompactLeafData) :
    flagVout input leaf = 2 * input.index + if leaf.isSome then 0 else 1 := by
  have hshift : (input.index <<< 1) % 2 ^ 32 = 2 * input.index := by
    rw [Nat.shiftLeft_eq]
    omega
  rw [flagVout, hshift]
  by_cases hleaf : leaf.isSome
  · simp [hleaf]
  · simp only [hleaf, if_false, Bool.false_eq_true]
    exact or_one_even (by omega)

theorem flags_of_fits {outpoints : List (OutPoint H)} {leaves : List (Option CompactLeafData)}
    (hindex : ∀ o ∈ outpoints, o.index < 2 ^ 32) (h : List.Forall₂ LeafFits outpoints leaves) :
    List.zipWith flagVout (List.zipWith (fun o index => ⟨o.txid, index⟩) outpoints (outpoints.map fun o => o.index >>> 1)) leaves =
      outpoints.map (·.index) := by
  induction h with
  | nil => rfl
  | @cons o leaf outpoints leaves hfit hfits ih =>
    have hlt := hindex o (by simp)
    simp only [List.map_cons, List.zipWith_cons_cons, ih fun o ho => hindex o (by simp [ho])]
    congr 1
    have hhalf : o.index >>> 1 = o.index / 2 := by rw [Nat.shiftRight_eq_div_pow, pow_one]
    rw [flagVout_eq (by show o.index >>> 1 < _; omega), hfit.1, confirmedInput]
    by_cases heven : o.index % 2 = 0
    · simp only [heven, decide_true, if_true]
      omega
    · simp only [heven, decide_false, Bool.false_eq_true, if_false]
      omega

/-- Flagged inputs fit their leaves, and halving the flags gives the indexes back. -/
theorem fits_of_flags {outpoints : List (OutPoint H)} {leaves : List (Option CompactLeafData)}
    (hindex : ∀ o ∈ outpoints, o.index < 2 ^ 31) (hlen : leaves.length = outpoints.length)
    (hleaves : ∀ l, some l ∈ leaves → LeafValid l) :
    List.Forall₂ LeafFits (List.zipWith (fun o index => ⟨o.txid, index⟩) outpoints (List.zipWith flagVout outpoints leaves)) leaves ∧
      (List.zipWith flagVout outpoints leaves).map (· >>> 1) = outpoints.map (·.index) ∧
      ∀ x ∈ List.zipWith flagVout outpoints leaves, x < 2 ^ 32 := by
  induction outpoints generalizing leaves with
  | nil =>
    rw [List.length_nil, List.length_eq_zero_iff] at hlen
    subst hlen
    simp
  | cons o outpoints ih =>
    cases leaves with
    | nil => simp at hlen
    | cons leaf leaves =>
      have hlt := hindex o (by simp)
      obtain ⟨h1, h2, h3⟩ := ih (fun o ho => hindex o (by simp [ho])) (by simpa using hlen) fun l hl => hleaves l (by simp [hl])
      have hflag := flagVout_eq hlt leaf
      have hhalf : flagVout o leaf >>> 1 = o.index := by
        rw [hflag, Nat.shiftRight_eq_div_pow, pow_one]
        split_ifs <;> omega
      simp only [List.zipWith_cons_cons, List.map_cons]
      refine ⟨.cons ⟨?_, fun l hl => hleaves l (by simp [hl])⟩ h1, by rw [hhalf, h2], ?_⟩
      · rw [confirmedInput, hflag]
        cases leaf.isSome <;> simp
      · intro x hx
        rcases List.mem_cons.mp hx with rfl | hx
        · rw [hflag]
          split_ifs <;> omega
        · exact h3 x hx

theorem confirmed_count {outpoints : List (OutPoint H)} {leaves : List (Option CompactLeafData)}
    (h : List.Forall₂ LeafFits outpoints leaves) :
    (outpoints.filter confirmedInput).length = (leaves.filter Option.isSome).length := by
  induction h with
  | nil => rfl
  | @cons o leaf outpoints leaves hfit hfits ih =>
    rw [List.filter_cons, List.filter_cons, hfit.1]
    split_ifs <;> simp [ih]

end Flags

end UtreexoBridge.Wire
