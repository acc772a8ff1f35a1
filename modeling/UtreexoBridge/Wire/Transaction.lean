import UtreexoBridge.Archive.Format
import UtreexoBridge.Bytes.Scans
import UtreexoBridge.Wire.Groups

/-!
# Transactions (`ScanTransaction`, `Transaction::Parse`)

The scan skips what it does not need. The syntax of a transaction says what it
skipped, and the scan takes exactly the encodings of valid syntax.
-/

namespace UtreexoBridge.Wire

open Bytes

/-- A hash is its 32 bytes. -/
class WireHash (H : Type) extends ArchiveHash H where
  bytes_ofBytes : ∀ b : List UInt8, b.length = 32 → bytes (ofBytes b) = b

structure OutPoint (H : Type) where
  txid : H
  index : Nat
  deriving DecidableEq

structure TransactionLayout where
  inputStart : Nat := 4
  outputsEnd : Nat := 0
  size : Nat := 0
  witness : Bool := false
  deriving DecidableEq

/-- The layout, and what the scan collects for its caller. -/
structure Scanned (H : Type) where
  layout : TransactionLayout
  inputs : List (OutPoint H)
  voutOffsets : List Nat
  deriving DecidableEq

/-! ## The scan -/

section Scan

variable {H : Type} [WireHash H]

/-- The input count, past the witness marker if there is one. -/
def scanHeader (total : Nat) : Parser (Nat × TransactionLayout) := do
  let count ← reading "truncated transaction version or input count" (do
    skip 4
    readCompactSize)
  if count = 0 then
    let flag ← reading "invalid transaction witness flag" (readUnsigned 1)
    require (flag = 1) "invalid transaction witness flag"
    let left ← remaining
    let count ← reading "invalid witness transaction input count" readCompactSize
    return (count, { witness := true, inputStart := total - left })
  else return (count, {})

/-- What stands behind the hash of an input: the output index, a script and the sequence number. -/
def readInputTail : Reader Nat := do
  let index ← readUnsigned 4
  let scriptSize ← readCompactSize
  skip scriptSize
  skip 4
  return index

/-- An input, and the offset of its output index. -/
def scanInput (total : Nat) : Parser (OutPoint H × Nat) := do
  let txid ← reading "truncated transaction outpoint hash" readHash
  let left ← remaining
  let index ← reading "invalid transaction input script or sequence" readInputTail
  return (⟨txid, index⟩, total - left)

def scanInputs (total count : Nat) : Parser (List (OutPoint H × Nat)) := do
  let left ← remaining
  require (¬(count = 0 ∨ count > maxInputs ∨ count > left / 41)) "invalid transaction input count"
  parseMany (scanInput total) count

def scanOutput : Parser Unit :=
  reading "invalid transaction output script" (do
    skip 8
    let scriptSize ← readCompactSize
    skip scriptSize)

def scanOutputs : Parser (List Unit) := do
  let count ← reading "invalid transaction output count" readCompactSize
  let left ← remaining
  require (¬(count = 0 ∨ count > left / 9)) "invalid transaction output count"
  parseMany scanOutput count

def scanWitnessItem : Parser Unit :=
  reading "invalid transaction witness item" (do
    let itemSize ← readCompactSize
    skip itemSize)

/-- The witness of one input: whether it has an item. -/
def scanWitness : Parser Bool := do
  let count ← reading "invalid transaction witness item count" readCompactSize
  let left ← remaining
  require (¬count > left) "invalid transaction witness item count"
  let _ ← parseMany scanWitnessItem count
  return count ≠ 0

def scanWitnesses (witness : Bool) (inputCount : Nat) : Parser Unit :=
  if witness then do
    let hasItems ← parseMany scanWitness inputCount
    require (hasItems.any id = true) "superfluous witness serialization"
  else pure ()

def scanBody (total : Nat) : Parser (Scanned H) := do
  let (count, layout) ← scanHeader total
  let inputs ← scanInputs total count
  let _ ← scanOutputs
  let outputsLeft ← remaining
  scanWitnesses layout.witness count
  reading "truncated transaction locktime" (skip 4)
  let left ← remaining
  return ⟨{ layout with outputsEnd := total - outputsLeft, size := total - left }, inputs.map (·.1), inputs.map (·.2)⟩

def scanTransaction (bytes : List UInt8) : Except String (Scanned H) :=
  (scanBody bytes.length bytes).map (·.1)

end Scan

/-! ## Syntax -/

structure InputSyntax (H : Type) where
  outpoint : OutPoint H
  script : List UInt8
  sequence : List UInt8

structure OutputSyntax where
  value : List UInt8
  script : List UInt8

structure TransactionSyntax (H : Type) where
  version : List UInt8
  inputs : List (InputSyntax H)
  outputs : List OutputSyntax
  /-- The items of each input. -/
  witness : Option (List (List (List UInt8)))
  locktime : List UInt8

def sized (bytes : List UInt8) : List UInt8 := appendCompactSize bytes.length ++ bytes

section Syntax

variable {H : Type}

structure InputSyntax.Valid (input : InputSyntax H) : Prop where
  index : input.outpoint.index < 2 ^ 32
  script : input.script.length < 2 ^ 64
  sequence : input.sequence.length = 4

structure OutputSyntax.Valid (output : OutputSyntax) : Prop where
  value : output.value.length = 8
  script : output.script.length < 2 ^ 64

def WitnessValid (items : List (List UInt8)) : Prop := items.length < 2 ^ 64 ∧ ∀ item ∈ items, item.length < 2 ^ 64

structure TransactionSyntax.Valid (tx : TransactionSyntax H) : Prop where
  version : tx.version.length = 4
  inputs : ∀ input ∈ tx.inputs, input.Valid
  inputs_pos : tx.inputs.length ≠ 0
  inputs_le : tx.inputs.length ≤ maxInputs
  outputs : ∀ output ∈ tx.outputs, output.Valid
  outputs_pos : tx.outputs.length ≠ 0
  outputs_lt : tx.outputs.length < 2 ^ 64
  witness : ∀ witnesses, tx.witness = some witnesses →
    witnesses.length = tx.inputs.length ∧ (∀ items ∈ witnesses, WitnessValid items) ∧ ∃ items ∈ witnesses, items ≠ []
  locktime : tx.locktime.length = 4

def OutputSyntax.encode (output : OutputSyntax) : List UInt8 := output.value ++ sized output.script

def encodeWitness (items : List (List UInt8)) : List UInt8 := appendCompactSize items.length ++ items.flatMap sized

/-- Everything behind the hash of an input. -/
def InputSyntax.tail (input : InputSyntax H) : List UInt8 :=
  appendUnsigned 4 input.outpoint.index ++ (sized input.script ++ input.sequence)

namespace TransactionSyntax

def marker (tx : TransactionSyntax H) : List UInt8 :=
  if tx.witness.isSome then appendCompactSize 0 ++ appendUnsigned 1 1 else []

def outputBytes (tx : TransactionSyntax H) : List UInt8 :=
  appendCompactSize tx.outputs.length ++ tx.outputs.flatMap OutputSyntax.encode

def witnessBytes (tx : TransactionSyntax H) : List UInt8 := (tx.witness.getD []).flatMap encodeWitness

def head (tx : TransactionSyntax H) : List UInt8 := tx.version ++ (tx.marker ++ appendCompactSize tx.inputs.length)

def foot (tx : TransactionSyntax H) : List UInt8 := tx.outputBytes ++ (tx.witnessBytes ++ tx.locktime)

end TransactionSyntax

variable [WireHash H]

def InputSyntax.encode (input : InputSyntax H) : List UInt8 := StoredHash.bytes input.outpoint.txid ++ input.tail

namespace TransactionSyntax

def encode (tx : TransactionSyntax H) : List UInt8 := tx.head ++ (tx.inputs.flatMap InputSyntax.encode ++ tx.foot)

/-- Where the output indexes of the inputs lie, from the start of the first input. -/
def voutOffsets (start : Nat) : List (InputSyntax H) → List Nat
  | [] => []
  | input :: inputs => (start + 32) :: voutOffsets (start + input.encode.length) inputs

end TransactionSyntax

end Syntax

/-! ## The scan takes the encodings -/

section Accept

theorem sized_iff {bytes rest : List UInt8} :
    (∃ size, size < 2 ^ 64 ∧ ∃ body : List UInt8, body.length = size ∧ bytes = appendCompactSize size ++ (body ++ rest)) ↔
      ∃ body, body.length < 2 ^ 64 ∧ bytes = sized body ++ rest := by
  constructor
  · rintro ⟨size, hsize, body, rfl, rfl⟩
    exact ⟨body, hsize, by rw [sized, List.append_assoc]⟩
  · rintro ⟨body, hsize, rfl⟩
    exact ⟨body.length, hsize, body, rfl, by rw [sized, List.append_assoc]⟩

theorem skipSized_iff {bytes rest : List UInt8} :
    (do let size ← readCompactSize; skip size : Reader Unit) bytes = some ((), rest) ↔
      ∃ body, body.length < 2 ^ 64 ∧ bytes = sized body ++ rest := by
  rw [Reader.bind_eq_some, ← sized_iff]
  constructor
  · rintro ⟨size, back, hsize, hskip⟩
    obtain ⟨hlt, rfl⟩ := readCompactSize_iff.mp hsize
    obtain ⟨body, hbody, rfl⟩ := skip_iff.mp hskip
    exact ⟨size, hlt, body, hbody, rfl⟩
  · rintro ⟨size, hlt, body, hbody, rfl⟩
    exact ⟨size, body ++ rest, readCompactSize_iff.mpr ⟨hlt, rfl⟩, skip_iff.mpr ⟨body, hbody, rfl⟩⟩

theorem scans_witnessItem :
    Scans scanWitnessItem (fun item : List UInt8 => item.length < 2 ^ 64) sized fun _ _ => () := by
  intro bytes v rest
  rw [scanWitnessItem, reading_eq_ok, skipSized_iff]
  simp

theorem scans_output : Scans scanOutput OutputSyntax.Valid OutputSyntax.encode fun _ _ => () := by
  intro bytes v rest
  rw [scanOutput, reading_eq_ok, Reader.bind_eq_some]
  constructor
  · rintro ⟨⟨⟩, back, hskip, hsized⟩
    obtain ⟨value, hvalue, rfl⟩ := skip_iff.mp hskip
    obtain ⟨script, hscript, rfl⟩ := skipSized_iff.mp hsized
    exact ⟨⟨value, script⟩, ⟨hvalue, hscript⟩, by rw [OutputSyntax.encode, List.append_assoc], rfl⟩
  · rintro ⟨⟨value, script⟩, ⟨hvalue, hscript⟩, rfl, -⟩
    refine ⟨(), sized script ++ rest, skip_iff.mpr ⟨value, hvalue, ?_⟩, skipSized_iff.mpr ⟨script, hscript, rfl⟩⟩
    rw [OutputSyntax.encode, List.append_assoc]

theorem compactSizeBytes_pos (n : Nat) : 1 ≤ compactSizeBytes n := by
  unfold compactSizeBytes
  split_ifs <;> omega

theorem length_sized_pos (body : List UInt8) : 1 ≤ (sized body).length := by
  have := compactSizeBytes_pos body.length
  rw [sized, List.length_append, length_appendCompactSize]
  omega

theorem mul_length_le_flatMap {σ : Type} {encode : σ → List UInt8} {k : Nat} {xs : List σ}
    (h : ∀ x ∈ xs, k ≤ (encode x).length) : xs.length * k ≤ (xs.flatMap encode).length := by
  induction xs with
  | nil => simp
  | cons x xs ih =>
    have hx := h x (by simp)
    have hxs := ih fun y hy => h y (by simp [hy])
    rw [List.flatMap_cons, List.length_append, List.length_cons, Nat.succ_mul]
    omega

theorem scans_witness :
    Scans scanWitness WitnessValid encodeWitness fun items _ => decide (items.length ≠ 0) := by
  intro bytes v rest
  rw [scanWitness, Parser.bind_eq_ok]
  constructor
  · rintro ⟨count, back, hcount, h⟩
    obtain ⟨hlt, rfl⟩ := readCompactSize_iff.mp (reading_eq_ok.mp hcount)
    obtain ⟨left, back', hleft, h⟩ := Parser.bind_eq_ok.mp h
    cases remaining_eq_ok.mp hleft
    obtain ⟨⟨⟩, back', hrequire, h⟩ := Parser.bind_eq_ok.mp h
    cases (require_eq_ok.mp hrequire).2
    obtain ⟨units, back', hmany, hlast⟩ := Parser.bind_eq_ok.mp h
    obtain ⟨items, ⟨rfl, hitems⟩, rfl, -⟩ := (scans_witnessItem.many count _ _ _).mp hmany
    cases Parser.pure_eq_ok.mp hlast
    exact ⟨items, ⟨hlt, hitems⟩, by rw [encodeWitness, List.append_assoc], rfl⟩
  · rintro ⟨items, ⟨hlt, hitems⟩, rfl, rfl⟩
    have hroom := mul_length_le_flatMap (k := 1) fun item (_ : item ∈ items) => length_sized_pos item
    refine ⟨items.length, items.flatMap sized ++ rest, reading_eq_ok.mpr (readCompactSize_iff.mpr ⟨hlt, ?_⟩), ?_⟩
    · rw [encodeWitness, List.append_assoc]
    · refine Parser.bind_eq_ok.mpr ⟨_, _, rfl, Parser.bind_eq_ok.mpr ⟨(), _, require_eq_ok.mpr ⟨?_, rfl⟩, ?_⟩⟩
      · rw [List.length_append]
        omega
      · exact Parser.bind_eq_ok.mpr ⟨_, rest, (scans_witnessItem.many _ _ _ _).mpr ⟨items, ⟨rfl, hitems⟩, rfl, rfl⟩, rfl⟩

theorem scans_outputs : Scans scanOutputs
    (fun outputs : List OutputSyntax => outputs.length ≠ 0 ∧ outputs.length < 2 ^ 64 ∧ ∀ output ∈ outputs, output.Valid)
    (fun outputs => appendCompactSize outputs.length ++ outputs.flatMap OutputSyntax.encode)
    (fun outputs _ => outputs.map fun _ => ()) := by
  intro bytes v rest
  rw [scanOutputs, Parser.bind_eq_ok]
  constructor
  · rintro ⟨count, back, hcount, h⟩
    obtain ⟨hlt, rfl⟩ := readCompactSize_iff.mp (reading_eq_ok.mp hcount)
    obtain ⟨left, back', hleft, h⟩ := Parser.bind_eq_ok.mp h
    cases remaining_eq_ok.mp hleft
    obtain ⟨⟨⟩, back', hrequire, h⟩ := Parser.bind_eq_ok.mp h
    obtain ⟨hbound, heq⟩ := require_eq_ok.mp hrequire
    cases heq
    obtain ⟨outputs, ⟨rfl, houtputs⟩, rfl, rfl⟩ := (scans_output.many count _ _ _).mp h
    refine ⟨outputs, ⟨fun h => hbound (Or.inl h), hlt, houtputs⟩, by rw [List.append_assoc], valuesOf_const _ _ _⟩
  · rintro ⟨outputs, ⟨hpos, hlt, houtputs⟩, rfl, rfl⟩
    have hroom : outputs.length * 9 ≤ (outputs.flatMap OutputSyntax.encode).length := by
      apply mul_length_le_flatMap
      intro output houtput
      have h1 := (houtputs output houtput).value
      have h2 := length_sized_pos output.script
      rw [OutputSyntax.encode, List.length_append]
      omega
    refine ⟨outputs.length, outputs.flatMap OutputSyntax.encode ++ rest, reading_eq_ok.mpr (readCompactSize_iff.mpr ⟨hlt, ?_⟩), ?_⟩
    · rw [List.append_assoc]
    · refine Parser.bind_eq_ok.mpr ⟨_, _, rfl, Parser.bind_eq_ok.mpr ⟨(), _, require_eq_ok.mpr ⟨?_, rfl⟩, ?_⟩⟩
      · rw [List.length_append]
        omega
      · exact (scans_output.many _ _ _ _).mpr ⟨outputs, ⟨rfl, houtputs⟩, rfl, (valuesOf_const _ _ _).symm⟩

theorem any_pos_iff {witnesses : List (List (List UInt8))} :
    ((witnesses.map fun items => decide (items.length ≠ 0)).any id = true) ↔ ∃ items ∈ witnesses, items ≠ [] := by
  simp

theorem scans_witnesses (witness : Bool) (count : Nat) : Scans (scanWitnesses witness count)
    (fun witnesses : Option (List (List (List UInt8))) => witnesses.isSome = witness ∧ ∀ w, witnesses = some w →
      w.length = count ∧ (∀ items ∈ w, WitnessValid items) ∧ ∃ items ∈ w, items ≠ [])
    (fun witnesses => (witnesses.getD []).flatMap encodeWitness) (fun _ _ => ()) := by
  intro bytes v rest
  cases witness with
  | false =>
    rw [scanWitnesses, if_neg (by simp), Parser.pure_eq_ok]
    constructor
    · intro h
      cases h
      exact ⟨none, ⟨rfl, by simp⟩, rfl, rfl⟩
    · rintro ⟨witnesses, ⟨hnone, -⟩, rfl, -⟩
      rw [Option.isSome_eq_false_iff, Option.isNone_iff_eq_none] at hnone
      rw [hnone]
      rfl
  | true =>
    rw [scanWitnesses, if_pos rfl, Parser.bind_eq_ok]
    constructor
    · rintro ⟨hasItems, back, hmany, h⟩
      obtain ⟨w, ⟨hlen, hw⟩, rfl, rfl⟩ := (scans_witness.many count _ _ _).mp hmany
      obtain ⟨hany, heq⟩ := require_eq_ok.mp h
      cases heq
      rw [valuesOf_const, any_pos_iff] at hany
      refine ⟨some w, ⟨rfl, ?_⟩, rfl, rfl⟩
      rintro w' h
      cases h
      exact ⟨hlen, hw, hany⟩
    · rintro ⟨witnesses, ⟨hsome, hw⟩, rfl, -⟩
      obtain ⟨w, rfl⟩ := Option.isSome_iff_exists.mp hsome
      obtain ⟨hlen, hvalid, hany⟩ := hw w rfl
      refine ⟨_, rest, (scans_witness.many count _ _ _).mpr ⟨w, ⟨hlen, hvalid⟩, rfl, rfl⟩, require_eq_ok.mpr ⟨?_, rfl⟩⟩
      rw [valuesOf_const, any_pos_iff]
      exact hany

variable {H : Type} [WireHash H]

theorem readHash_iff {hash : H} {bytes rest : List UInt8} :
    readHash bytes = some (hash, rest) ↔ bytes = StoredHash.bytes hash ++ rest := by
  constructor
  · intro h
    rw [readHash, Reader.bind_eq_some] at h
    obtain ⟨front, back, hread, hpure⟩ := h
    obtain ⟨hlen, rfl⟩ := readBytes_iff.mp hread
    cases Reader.pure_eq_some.mp hpure
    rw [WireHash.bytes_ofBytes _ hlen]
  · rintro rfl
    exact Archive.reads_hash hash rest

omit [WireHash H] in
theorem readInputTail_iff (txid : H) {index : Nat} {bytes rest : List UInt8} :
    readInputTail bytes = some (index, rest) ↔
      ∃ input : InputSyntax H, input.Valid ∧ input.outpoint = ⟨txid, index⟩ ∧ bytes = input.tail ++ rest := by
  rw [readInputTail, Reader.bind_eq_some]
  constructor
  · rintro ⟨index', back, hindex, h1⟩
    obtain ⟨size, back1, hsize, h2⟩ := Reader.bind_eq_some.mp h1
    obtain ⟨⟨⟩, back2, hskip, h3⟩ := Reader.bind_eq_some.mp h2
    obtain ⟨⟨⟩, back3, hskip4, hlast⟩ := Reader.bind_eq_some.mp h3
    obtain ⟨hlt, rfl⟩ := readUnsigned_iff.mp hindex
    obtain ⟨hsizelt, rfl⟩ := readCompactSize_iff.mp hsize
    obtain ⟨script, rfl, rfl⟩ := skip_iff.mp hskip
    obtain ⟨sequence, hsequence, rfl⟩ := skip_iff.mp hskip4
    cases Reader.pure_eq_some.mp hlast
    refine ⟨⟨⟨txid, index⟩, script, sequence⟩, ⟨by simpa using hlt, hsizelt, hsequence⟩, rfl, ?_⟩
    simp only [InputSyntax.tail, sized, List.append_assoc]
  · rintro ⟨⟨⟨txid', index'⟩, script, sequence⟩, ⟨hlt, hscript, hsequence⟩, heq, rfl⟩
    cases heq
    simp only [InputSyntax.tail, sized, List.append_assoc]
    refine ⟨index, _, readUnsigned_iff.mpr ⟨by simpa using hlt, rfl⟩, Reader.bind_eq_some.mpr ?_⟩
    refine ⟨script.length, _, readCompactSize_iff.mpr ⟨hscript, rfl⟩, Reader.bind_eq_some.mpr ?_⟩
    refine ⟨(), _, skip_iff.mpr ⟨script, rfl, rfl⟩, Reader.bind_eq_some.mpr ?_⟩
    exact ⟨(), rest, skip_iff.mpr ⟨sequence, hsequence, rfl⟩, rfl⟩

theorem scans_input (total : Nat) : Scans (scanInput total) InputSyntax.Valid (InputSyntax.encode (H := H))
    fun input rest => (input.outpoint, total - (input.tail ++ rest).length) := by
  intro bytes v rest
  rw [scanInput, Parser.bind_eq_ok]
  constructor
  · rintro ⟨txid, back, htxid, h⟩
    rw [reading_eq_ok, readHash_iff] at htxid
    subst htxid
    obtain ⟨left, back', hleft, h⟩ := Parser.bind_eq_ok.mp h
    cases remaining_eq_ok.mp hleft
    obtain ⟨index, back', htail, hlast⟩ := Parser.bind_eq_ok.mp h
    obtain ⟨input, hinput, heq, rfl⟩ := (readInputTail_iff txid).mp (reading_eq_ok.mp htail)
    cases Parser.pure_eq_ok.mp hlast
    refine ⟨input, hinput, ?_, by simp only [heq]⟩
    rw [InputSyntax.encode, heq, List.append_assoc]
  · rintro ⟨input, hinput, rfl, rfl⟩
    refine ⟨input.outpoint.txid, input.tail ++ rest, reading_eq_ok.mpr (readHash_iff.mpr ?_), ?_⟩
    · rw [InputSyntax.encode, List.append_assoc]
    · refine Parser.bind_eq_ok.mpr ⟨_, _, rfl, Parser.bind_eq_ok.mpr ⟨input.outpoint.index, rest, ?_, rfl⟩⟩
      exact reading_eq_ok.mpr ((readInputTail_iff input.outpoint.txid).mpr ⟨input, hinput, rfl, rfl⟩)

theorem length_input_ge {input : InputSyntax H} (h : input.Valid) : 41 ≤ input.encode.length := by
  have h1 := length_sized_pos input.script
  have h2 := h.sequence
  rw [InputSyntax.encode, InputSyntax.tail]
  simp only [List.length_append, StoredHash.length_bytes, length_appendUnsigned]
  omega

theorem scans_inputs (total count : Nat) : Scans (scanInputs total count)
    (fun inputs : List (InputSyntax H) => inputs.length = count ∧ count ≠ 0 ∧ count ≤ maxInputs ∧ ∀ input ∈ inputs, input.Valid)
    (·.flatMap InputSyntax.encode)
    (valuesOf InputSyntax.encode fun input rest => (input.outpoint, total - (input.tail ++ rest).length)) := by
  intro bytes v rest
  rw [scanInputs, Parser.bind_eq_ok]
  constructor
  · rintro ⟨left, back, hleft, h⟩
    cases remaining_eq_ok.mp hleft
    obtain ⟨⟨⟩, back', hrequire, hmany⟩ := Parser.bind_eq_ok.mp h
    obtain ⟨hbound, heq⟩ := require_eq_ok.mp hrequire
    cases heq
    obtain ⟨inputs, ⟨hlen, hinputs⟩, rfl, rfl⟩ := ((scans_input total).many count _ _ _).mp hmany
    exact ⟨inputs, ⟨hlen, by omega, by omega, hinputs⟩, rfl, rfl⟩
  · rintro ⟨inputs, ⟨hlen, hpos, hle, hinputs⟩, rfl, rfl⟩
    have hroom : inputs.length * 41 ≤ (inputs.flatMap InputSyntax.encode).length :=
      mul_length_le_flatMap fun input hinput => length_input_ge (hinputs input hinput)
    refine ⟨_, _, rfl, Parser.bind_eq_ok.mpr ⟨(), _, require_eq_ok.mpr ⟨?_, rfl⟩, ?_⟩⟩
    · dsimp only
      rw [List.length_append]
      omega
    · exact ((scans_input total).many count _ _ _).mpr ⟨inputs, ⟨hlen, hinputs⟩, rfl, rfl⟩

/-- Version, witness marker and input count. -/
structure HeaderSyntax where
  version : List UInt8
  witness : Bool
  count : Nat

structure HeaderSyntax.Valid (header : HeaderSyntax) : Prop where
  version : header.version.length = 4
  count : header.count < 2 ^ 64

def HeaderSyntax.encode (header : HeaderSyntax) : List UInt8 :=
  header.version ++ ((if header.witness then appendCompactSize 0 ++ appendUnsigned 1 1 else []) ++
    appendCompactSize header.count)

theorem scanHeader_some (total : Nat) {header : HeaderSyntax} (h : header.Valid) (hpos : header.count ≠ 0) (rest : List UInt8) :
    scanHeader total (header.encode ++ rest) = .ok ((header.count, if header.witness then
      { witness := true, inputStart := total - (appendCompactSize header.count ++ rest).length } else {}), rest) := by
  obtain ⟨version, witness, count⟩ := header
  obtain ⟨hversion, hcount⟩ := h
  have hskip : ∀ back, skip 4 (version ++ back) = some ((), back) := fun back => skip_iff.mpr ⟨version, hversion, rfl⟩
  rw [scanHeader, Parser.bind_eq_ok]
  cases witness with
  | false =>
    refine ⟨count, rest, reading_eq_ok.mpr (Reader.bind_eq_some.mpr ⟨(), appendCompactSize count ++ rest, ?_, ?_⟩), ?_⟩
    · rw [← hskip]
      simp [HeaderSyntax.encode]
    · exact readCompactSize_iff.mpr ⟨hcount, rfl⟩
    · rw [if_neg hpos]
      rfl
  | true =>
    refine ⟨0, appendUnsigned 1 1 ++ (appendCompactSize count ++ rest), reading_eq_ok.mpr (Reader.bind_eq_some.mpr
      ⟨(), appendCompactSize 0 ++ (appendUnsigned 1 1 ++ (appendCompactSize count ++ rest)), ?_, ?_⟩), ?_⟩
    · rw [← hskip]
      simp [HeaderSyntax.encode]
    · exact readCompactSize_iff.mpr ⟨by omega, rfl⟩
    · rw [if_pos rfl, Parser.bind_eq_ok]
      refine ⟨1, appendCompactSize count ++ rest, reading_eq_ok.mpr (readUnsigned_iff.mpr ⟨by omega, rfl⟩), ?_⟩
      refine Parser.bind_eq_ok.mpr ⟨(), _, require_eq_ok.mpr ⟨rfl, rfl⟩, Parser.bind_eq_ok.mpr ⟨_, _, rfl, ?_⟩⟩
      exact Parser.bind_eq_ok.mpr ⟨count, rest, reading_eq_ok.mpr (readCompactSize_iff.mpr ⟨hcount, rfl⟩), rfl⟩

/-- The header that a scan found. The input count may still be zero. -/
theorem scanHeader_cases {total count : Nat} {layout : TransactionLayout} {bytes rest : List UInt8}
    (h : scanHeader total bytes = .ok ((count, layout), rest)) : ∃ header : HeaderSyntax, header.Valid ∧
      bytes = header.encode ++ rest ∧ header.count = count := by
  obtain ⟨first, back, hfirst, h1⟩ := Parser.bind_eq_ok.mp h
  obtain ⟨⟨⟩, back1, hskip, hcount⟩ := Reader.bind_eq_some.mp (reading_eq_ok.mp hfirst)
  obtain ⟨version, hversion, rfl⟩ := skip_iff.mp hskip
  obtain ⟨hlt, rfl⟩ := readCompactSize_iff.mp hcount
  by_cases hzero : first = 0
  · rw [if_pos hzero] at h1
    obtain ⟨flag, back2, hflag, h2⟩ := Parser.bind_eq_ok.mp h1
    obtain ⟨⟨⟩, back3, hrequire, h3⟩ := Parser.bind_eq_ok.mp h2
    obtain ⟨left, back4, hleft, h4⟩ := Parser.bind_eq_ok.mp h3
    obtain ⟨count', back5, hcount', hlast⟩ := Parser.bind_eq_ok.mp h4
    obtain ⟨-, rfl⟩ := readUnsigned_iff.mp (reading_eq_ok.mp hflag)
    obtain ⟨rfl, heq⟩ := require_eq_ok.mp hrequire
    cases heq
    cases remaining_eq_ok.mp hleft
    obtain ⟨hlt', rfl⟩ := readCompactSize_iff.mp (reading_eq_ok.mp hcount')
    cases Parser.pure_eq_ok.mp hlast
    refine ⟨⟨version, true, count⟩, ⟨hversion, hlt'⟩, ?_, rfl⟩
    rw [hzero]
    simp [HeaderSyntax.encode]
  · rw [if_neg hzero] at h1
    cases Parser.pure_eq_ok.mp h1
    exact ⟨⟨version, false, count⟩, ⟨hversion, hlt⟩, by simp [HeaderSyntax.encode], rfl⟩

namespace TransactionSyntax

def header (tx : TransactionSyntax H) : HeaderSyntax := ⟨tx.version, tx.witness.isSome, tx.inputs.length⟩

omit [WireHash H] in
theorem head_eq (tx : TransactionSyntax H) : tx.head = tx.header.encode := rfl

/-- The outpoints and the offsets of their indexes, with `rest` behind the inputs. -/
def inputValues (total : Nat) (inputs : List (InputSyntax H)) (rest : List UInt8) : List (OutPoint H × Nat) :=
  valuesOf InputSyntax.encode (fun input rest => (input.outpoint, total - (input.tail ++ rest).length)) inputs rest

def scanned (total : Nat) (tx : TransactionSyntax H) (rest : List UInt8) : Scanned H :=
  let layout : TransactionLayout := if tx.header.witness then
    { witness := true
      inputStart := total -
        (appendCompactSize tx.header.count ++ (tx.inputs.flatMap InputSyntax.encode ++ (tx.foot ++ rest))).length } else {}
  ⟨{ layout with outputsEnd := total - (tx.witnessBytes ++ (tx.locktime ++ rest)).length, size := total - rest.length },
    (inputValues total tx.inputs (tx.foot ++ rest)).map (·.1), (inputValues total tx.inputs (tx.foot ++ rest)).map (·.2)⟩

end TransactionSyntax

theorem scanBody_encode (total : Nat) {tx : TransactionSyntax H} (h : tx.Valid) (rest : List UInt8) :
    scanBody total (tx.encode ++ rest) = .ok (tx.scanned total rest, rest) := by
  have hinputs := h.inputs_le
  have hmax : maxInputs < 2 ^ 64 := by decide
  have hwitness : ∀ x, (if tx.header.witness then
      ({ witness := true, inputStart := x } : TransactionLayout) else {}).witness = tx.witness.isSome := by
    intro x
    cases hw : tx.witness.isSome <;> simp [TransactionSyntax.header, hw]
  rw [TransactionSyntax.encode, List.append_assoc, List.append_assoc, tx.head_eq, scanBody, Parser.bind_eq_ok]
  refine ⟨_, _, scanHeader_some total ⟨h.version, by show tx.inputs.length < _; omega⟩ h.inputs_pos _, ?_⟩
  refine Parser.bind_eq_ok.mpr ⟨TransactionSyntax.inputValues total tx.inputs (tx.foot ++ rest), tx.foot ++ rest,
    (scans_inputs _ _ _ _ _).mpr ⟨tx.inputs, ⟨rfl, h.inputs_pos, h.inputs_le, h.inputs⟩, rfl, rfl⟩, ?_⟩
  rw [TransactionSyntax.foot, List.append_assoc, List.append_assoc]
  refine Parser.bind_eq_ok.mpr ⟨_, tx.witnessBytes ++ (tx.locktime ++ rest),
    (scans_outputs _ _ _).mpr ⟨tx.outputs, ⟨h.outputs_pos, h.outputs_lt, h.outputs⟩, rfl, rfl⟩, ?_⟩
  refine Parser.bind_eq_ok.mpr ⟨_, _, rfl, Parser.bind_eq_ok.mpr ⟨(), tx.locktime ++ rest, ?_, ?_⟩⟩
  · rw [hwitness]
    exact (scans_witnesses _ _ _ _ _).mpr ⟨tx.witness, ⟨rfl, h.witness⟩, rfl, rfl⟩
  · refine Parser.bind_eq_ok.mpr ⟨(), rest, reading_eq_ok.mpr (skip_iff.mpr ⟨tx.locktime, h.locktime, rfl⟩), ?_⟩
    refine Parser.bind_eq_ok.mpr ⟨_, _, rfl, Parser.pure_eq_ok.mpr ?_⟩
    simp only [TransactionSyntax.scanned, TransactionSyntax.foot, List.append_assoc]

theorem scanBody_cases {total : Nat} {bytes rest : List UInt8} {s : Scanned H} (h : scanBody total bytes = .ok (s, rest)) :
    ∃ tx : TransactionSyntax H, tx.Valid ∧ bytes = tx.encode ++ rest := by
  obtain ⟨⟨count, layout⟩, back1, hheader, h1⟩ := Parser.bind_eq_ok.mp h
  obtain ⟨inputs, back2, hinputs, h2⟩ := Parser.bind_eq_ok.mp h1
  obtain ⟨units, back3, houtputs, h3⟩ := Parser.bind_eq_ok.mp h2
  obtain ⟨left, back4, hleft, h4⟩ := Parser.bind_eq_ok.mp h3
  obtain ⟨⟨⟩, back5, hwitness, h5⟩ := Parser.bind_eq_ok.mp h4
  obtain ⟨⟨⟩, back6, hlock, h6⟩ := Parser.bind_eq_ok.mp h5
  obtain ⟨left', back7, hleft', hlast⟩ := Parser.bind_eq_ok.mp h6
  cases Parser.pure_eq_ok.mp hlast
  cases remaining_eq_ok.mp hleft'
  obtain ⟨locktime, hlocktime, rfl⟩ := skip_iff.mp (reading_eq_ok.mp hlock)
  obtain ⟨witness, ⟨hsome, hvalid⟩, rfl, -⟩ := (scans_witnesses _ _ _ _ _).mp hwitness
  cases remaining_eq_ok.mp hleft
  obtain ⟨outputs, ⟨hpos, hlt, houts⟩, rfl, -⟩ := (scans_outputs _ _ _).mp houtputs
  obtain ⟨ins, ⟨rfl, hinspos, hinsle, hins⟩, rfl, -⟩ := (scans_inputs _ _ _ _ _).mp hinputs
  obtain ⟨header, hheadervalid, rfl, hcount⟩ := scanHeader_cases hheader
  -- the layout of the scan is that of the header, so both have the same marker
  have hsame := (scanHeader_some total hheadervalid (by omega) _).symm.trans hheader
  have hmarker : header.witness = witness.isSome := by
    simp only [Except.ok.injEq, Prod.mk.injEq] at hsame
    rw [hsome, ← hsame.1.2]
    cases header.witness <;> rfl
  refine ⟨⟨header.version, ins, outputs, witness, locktime⟩,
    ⟨hheadervalid.version, hins, hinspos, hinsle, houts, hpos, hlt, hvalid, hlocktime⟩, ?_⟩
  simp only [TransactionSyntax.encode, TransactionSyntax.head, TransactionSyntax.marker, TransactionSyntax.foot,
    TransactionSyntax.outputBytes, TransactionSyntax.witnessBytes, HeaderSyntax.encode, hmarker, hcount, List.append_assoc]

/-! ## The result of a scan -/

structure Scanned.Describes (s : Scanned H) (tx : TransactionSyntax H) : Prop where
  size : s.layout.size = tx.encode.length
  inputs : s.inputs = tx.inputs.map (·.outpoint)
  voutOffsets : s.voutOffsets = TransactionSyntax.voutOffsets tx.head.length tx.inputs

theorem inputValues_fst (total : Nat) (inputs : List (InputSyntax H)) (rest : List UInt8) :
    (TransactionSyntax.inputValues total inputs rest).map (·.1) = inputs.map (·.outpoint) := by
  induction inputs with
  | nil => rfl
  | cons input inputs ih =>
    rw [TransactionSyntax.inputValues, valuesOf, List.map_cons, List.map_cons]
    exact congrArg _ ih

theorem inputValues_snd {total start : Nat} (inputs : List (InputSyntax H)) (rest : List UInt8)
    (htotal : total = start + (inputs.flatMap InputSyntax.encode ++ rest).length) :
    (TransactionSyntax.inputValues total inputs rest).map (·.2) = TransactionSyntax.voutOffsets start inputs := by
  induction inputs generalizing start with
  | nil => rfl
  | cons input inputs ih =>
    rw [List.flatMap_cons, List.append_assoc, List.length_append] at htotal
    rw [TransactionSyntax.inputValues, valuesOf, List.map_cons, TransactionSyntax.voutOffsets]
    congr 1
    · have hlen : input.encode.length = 32 + input.tail.length := by
        rw [InputSyntax.encode, List.length_append, StoredHash.length_bytes]
      rw [List.length_append]
      omega
    · exact ih (by omega)

theorem scanTransaction_encode {tx : TransactionSyntax H} (h : tx.Valid) (rest : List UInt8) :
    ∃ s : Scanned H, scanTransaction (tx.encode ++ rest) = .ok s ∧ s.Describes tx := by
  refine ⟨tx.scanned (tx.encode ++ rest).length rest, ?_, ?_, inputValues_fst _ _ _, inputValues_snd _ _ ?_⟩
  · rw [scanTransaction, scanBody_encode _ h]
    rfl
  · show (tx.encode ++ rest).length - rest.length = _
    rw [List.length_append]
    omega
  · rw [TransactionSyntax.encode]
    simp only [List.length_append]
    omega

theorem scanTransaction_cases {bytes : List UInt8} {s : Scanned H} (h : scanTransaction bytes = .ok s) :
    ∃ (tx : TransactionSyntax H) (rest : List UInt8), tx.Valid ∧ bytes = tx.encode ++ rest ∧ s.Describes tx := by
  cases hbody : scanBody (H := H) bytes.length bytes with
  | error message =>
    rw [scanTransaction, hbody] at h
    cases h
  | ok p =>
    obtain ⟨tx, hvalid, rfl⟩ := scanBody_cases hbody
    obtain ⟨s', hs', hdescribes⟩ := scanTransaction_encode hvalid p.2
    rw [h] at hs'
    cases hs'
    exact ⟨tx, p.2, hvalid, rfl, hdescribes⟩

end Accept

end UtreexoBridge.Wire
