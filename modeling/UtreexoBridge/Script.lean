import UtreexoBridge.Bytes.ByteHash
import UtreexoBridge.Bytes.Scans
import UtreexoBridge.Leaf

/-!
# Scripts from spending inputs (`LastScriptPush`, `ReconstructScriptPubkey`)

A compact leaf leaves out a script of a standard form. The client finds the
script again from what the spending input reveals: its last push or its last
witness item hashes to the bytes that the form embeds.
-/

namespace UtreexoBridge

open Bytes Wire

/-- `Hash256` with `Hash160`. -/
class SpendHash (H : Type) extends ArchiveHash H where
  hash160 : List UInt8 → List UInt8
  length_hash160 : ∀ bytes, (hash160 bytes).length = 20

structure SpendingInput where
  scriptSig : List UInt8
  witness : List (List UInt8)
  deriving DecidableEq

/-! ## The last push -/

/-- How many bytes an opcode pushes, in front of these bytes. `none` is an opcode that pushes nothing. -/
def pushLength (opcode : UInt8) (cursor : List UInt8) : Except String (Option (Nat × List UInt8)) :=
  if opcode.toNat ≤ 75 then .ok (some (opcode.toNat, cursor))
  else if opcode = 76 then
    if cursor = [] then .error "truncated OP_PUSHDATA1" else .ok (some (valueOf (cursor.take 1), cursor.drop 1))
  else if opcode = 77 then
    if cursor.length < 2 then .error "truncated OP_PUSHDATA2" else .ok (some (valueOf (cursor.take 2), cursor.drop 2))
  else if opcode = 78 then
    if cursor.length < 4 then .error "truncated OP_PUSHDATA4" else .ok (some (valueOf (cursor.take 4), cursor.drop 4))
  else .ok none

/-- The loop over the instructions, from `last_push` and `last_was_push`. Each takes a byte, so a fuel of the script's
length is never used up. -/
def lastPushLoop : Nat → List UInt8 → Option (List UInt8) → Bool → Except String (Option (List UInt8) × Bool)
  | _, [], lastPush, lastWasPush => .ok (lastPush, lastWasPush)
  | 0, _ :: _, lastPush, lastWasPush => .ok (lastPush, lastWasPush)
  | fuel + 1, opcode :: cursor, _, _ =>
    match pushLength opcode cursor with
    | .error message => .error message
    | .ok none => lastPushLoop fuel cursor none false
    | .ok (some (length, cursor)) =>
      if length > cursor.length then .error "push extends past scriptSig"
      else lastPushLoop fuel (cursor.drop length) (some (cursor.take length)) true

def lastScriptPush (script : List UInt8) : Except String (List UInt8) :=
  if script = [] then .error "empty scriptSig stack"
  else
    match lastPushLoop script.length script none false with
    | .error message => .error message
    | .ok (some push, true) => .ok push
    | .ok _ => .error "last scriptSig instruction is not a push"

/-! ## Reconstruction -/

def p2pkh (hash : List UInt8) : List UInt8 := [0x76, 0xa9, 0x14] ++ hash ++ [0x88, 0xac]

def p2sh (hash : List UInt8) : List UInt8 := [0xa9, 0x14] ++ hash ++ [0x87]

def witnessProgram (hash : List UInt8) : List UInt8 := [0x00, UInt8.ofNat hash.length] ++ hash

/-- `ReconstructScriptPubkey`. `H` is the type of the hashes. -/
def reconstructScriptPubkey (H : Type) [SpendHash H] (leaf : CompactLeafData) (input : SpendingInput) :
    Except String (List UInt8) :=
  match leaf.scriptType with
  | .other => .ok leaf.script
  | .pubkeyHash => (lastScriptPush input.scriptSig).map fun pushed => p2pkh (SpendHash.hash160 H pushed)
  | .scriptHash => (lastScriptPush input.scriptSig).map fun pushed => p2sh (SpendHash.hash160 H pushed)
  | .witnessV0PubkeyHash =>
    match input.witness.getLast? with
    | none => .error "empty witness stack"
    | some item => .ok (witnessProgram (SpendHash.hash160 H item))
  | .witnessV0ScriptHash =>
    match input.witness.getLast? with
    | none => .error "empty witness stack"
    | some item => .ok (witnessProgram (StoredHash.bytes (ArchiveHash.sha256 item : H)))
  | .unknown _ _ => .error "unknown compact script type"

/-! ## The grammar of scripts -/

/-- The four ways in which a script pushes data. A script need not take the shortest. -/
inductive PushEncoding
  | direct
  | pushData1
  | pushData2
  | pushData4
  deriving DecidableEq

def PushEncoding.bound : PushEncoding → Nat
  | .direct => 76
  | .pushData1 => 256
  | .pushData2 => 256 ^ 2
  | .pushData4 => 256 ^ 4

/-- What stands in front of the data. -/
def PushEncoding.header (length : Nat) : PushEncoding → List UInt8
  | .direct => [UInt8.ofNat length]
  | .pushData1 => 76 :: appendUnsigned 1 length
  | .pushData2 => 77 :: appendUnsigned 2 length
  | .pushData4 => 78 :: appendUnsigned 4 length

inductive Instruction
  | opcode (code : UInt8) (h : 78 < code.toNat)
  | push (encoding : PushEncoding) (data : List UInt8) (h : data.length < encoding.bound)

def Instruction.encode : Instruction → List UInt8
  | .opcode code _ => [code]
  | .push encoding data _ => encoding.header data.length ++ data

/-- What an instruction leaves as the last push. -/
def Instruction.pushed : Instruction → Option (List UInt8)
  | .opcode _ _ => none
  | .push _ data _ => some data

/-- The script is instructions in any of their forms, the last of them a push of these data. -/
def LastPush (script data : List UInt8) : Prop :=
  ∃ (instructions : List Instruction) (encoding : PushEncoding) (h : data.length < encoding.bound),
    script = instructions.flatMap Instruction.encode ++ (Instruction.push encoding data h).encode

theorem take_append_drop_unsigned (width : Nat) {cursor : List UInt8} (h : width ≤ cursor.length) :
    cursor = appendUnsigned width (valueOf (cursor.take width)) ++ cursor.drop width := by
  have hlength : (cursor.take width).length = width := by
    rw [List.length_take]
    omega
  have hbytes := appendUnsigned_valueOf (cursor.take width)
  rw [hlength] at hbytes
  rw [hbytes, List.take_append_drop]

theorem valueOf_take_lt (width : Nat) {cursor : List UInt8} (h : width ≤ cursor.length) :
    valueOf (cursor.take width) < 256 ^ width := by
  have hlt := valueOf_lt (cursor.take width)
  rwa [List.length_take, Nat.min_eq_left h] at hlt

theorem take_unsigned (width : Nat) {length : Nat} (h : length < 256 ^ width) (rest : List UInt8) :
    valueOf ((appendUnsigned width length ++ rest).take width) = length ∧
      (appendUnsigned width length ++ rest).drop width = rest := by
  have hwidth := length_appendUnsigned width length
  constructor
  · rw [List.take_left' hwidth, valueOf_appendUnsigned width length h]
  · exact List.drop_left' hwidth

theorem pushLength_cases {opcode : UInt8} {cursor : List UInt8} {result : Option (Nat × List UInt8)}
    (h : pushLength opcode cursor = .ok result) :
    (result = none ∧ 78 < opcode.toNat) ∨
      ∃ encoding : PushEncoding, ∃ length rest, result = some (length, rest) ∧ length < encoding.bound ∧
        opcode :: cursor = encoding.header length ++ rest := by
  unfold pushLength at h
  split_ifs at h with hdirect h1 hempty h2 hshort h4 hshort
  · cases h
    exact .inr ⟨.direct, _, _, rfl, Nat.lt_succ_of_le hdirect, by simp [PushEncoding.header]⟩
  · cases h
    have hle : 1 ≤ cursor.length := List.length_pos_iff.mpr hempty
    refine .inr ⟨.pushData1, _, _, rfl, valueOf_take_lt 1 hle, ?_⟩
    rw [h1, PushEncoding.header, List.cons_append, ← take_append_drop_unsigned 1 hle]
  · cases h
    have hle : 2 ≤ cursor.length := by omega
    refine .inr ⟨.pushData2, _, _, rfl, valueOf_take_lt 2 hle, ?_⟩
    rw [h2, PushEncoding.header, List.cons_append, ← take_append_drop_unsigned 2 hle]
  · cases h
    have hle : 4 ≤ cursor.length := by omega
    refine .inr ⟨.pushData4, _, _, rfl, valueOf_take_lt 4 hle, ?_⟩
    rw [h4, PushEncoding.header, List.cons_append, ← take_append_drop_unsigned 4 hle]
  · cases h
    refine .inl ⟨rfl, ?_⟩
    have h1' : opcode.toNat ≠ 76 := fun heq => h1 (UInt8.toNat_inj.mp heq)
    have h2' : opcode.toNat ≠ 77 := fun heq => h2 (UInt8.toNat_inj.mp heq)
    have h4' : opcode.toNat ≠ 78 := fun heq => h4 (UInt8.toNat_inj.mp heq)
    omega

theorem pushLength_header {encoding : PushEncoding} {length : Nat} (h : length < encoding.bound) (rest : List UInt8) :
    ∃ opcode cursor, encoding.header length ++ rest = opcode :: cursor ∧
      pushLength opcode cursor = .ok (some (length, rest)) := by
  cases encoding with
  | direct =>
    have hbyte : (UInt8.ofNat length).toNat = length := UInt8.toNat_ofNat_of_lt' (Nat.lt_trans h (by decide))
    have hle : length ≤ 75 := Nat.le_of_lt_succ h
    exact ⟨UInt8.ofNat length, rest, rfl, by rw [pushLength, hbyte, if_pos hle]⟩
  | pushData1 =>
    obtain ⟨hvalue, hrest⟩ := take_unsigned 1 h rest
    refine ⟨76, appendUnsigned 1 length ++ rest, rfl, ?_⟩
    rw [pushLength, if_neg (by decide), if_pos rfl, if_neg (by simp [appendUnsigned]), hvalue, hrest]
  | pushData2 =>
    obtain ⟨hvalue, hrest⟩ := take_unsigned 2 h rest
    refine ⟨77, appendUnsigned 2 length ++ rest, rfl, ?_⟩
    rw [pushLength, if_neg (by decide), if_neg (by decide), if_pos rfl,
      if_neg (by rw [List.length_append, length_appendUnsigned]; omega), hvalue, hrest]
  | pushData4 =>
    obtain ⟨hvalue, hrest⟩ := take_unsigned 4 h rest
    refine ⟨78, appendUnsigned 4 length ++ rest, rfl, ?_⟩
    rw [pushLength, if_neg (by decide), if_neg (by decide), if_neg (by decide), if_pos rfl,
      if_neg (by rw [List.length_append, length_appendUnsigned]; omega), hvalue, hrest]

theorem Instruction.length_encode_pos (instruction : Instruction) : 0 < instruction.encode.length := by
  cases instruction with
  | opcode code h => exact Nat.one_pos
  | push encoding data h => cases encoding <;> simp [encode, PushEncoding.header, appendUnsigned]

theorem lastPushLoop_encode (instruction : Instruction) (rest : List UInt8) (lastPush : Option (List UInt8))
    (lastWasPush : Bool) {fuel : Nat} (hfuel : (instruction.encode ++ rest).length ≤ fuel) :
    ∃ left, rest.length ≤ left ∧ lastPushLoop fuel (instruction.encode ++ rest) lastPush lastWasPush =
      lastPushLoop left rest instruction.pushed instruction.pushed.isSome := by
  obtain ⟨fuel, rfl⟩ : ∃ left, fuel = left + 1 := by
    have hpos := instruction.length_encode_pos
    rw [List.length_append] at hfuel
    exact ⟨fuel - 1, by omega⟩
  refine ⟨fuel, ?_, ?_⟩
  · have hpos := instruction.length_encode_pos
    rw [List.length_append] at hfuel
    omega
  · cases instruction with
    | opcode code h =>
      have hnone : pushLength code rest = .ok none := by
        rw [pushLength, if_neg (by omega), if_neg (fun heq => ?_), if_neg (fun heq => ?_), if_neg (fun heq => ?_)] <;>
        · rw [heq] at h
          exact absurd h (by decide)
      show lastPushLoop (fuel + 1) (code :: rest) _ _ = _
      rw [lastPushLoop, hnone]
      rfl
    | push encoding data h =>
      obtain ⟨opcode, cursor, heq, hread⟩ := pushLength_header h (data ++ rest)
      rw [Instruction.encode, List.append_assoc, heq, lastPushLoop, hread]
      show (if data.length > (data ++ rest).length then _ else _) = _
      rw [if_neg (by rw [List.length_append]; omega), List.take_left, List.drop_left]
      rfl

def lastPushed (instructions : List Instruction) (lastPush : Option (List UInt8)) : Option (List UInt8) :=
  instructions.foldl (fun _ instruction => instruction.pushed) lastPush

theorem lastPushLoop_flatMap (instructions : List Instruction) (lastPush : Option (List UInt8)) {fuel : Nat}
    (hfuel : (instructions.flatMap Instruction.encode).length ≤ fuel) :
    lastPushLoop fuel (instructions.flatMap Instruction.encode) lastPush lastPush.isSome =
      .ok (lastPushed instructions lastPush, (lastPushed instructions lastPush).isSome) := by
  induction instructions generalizing fuel lastPush with
  | nil => cases fuel <;> rfl
  | cons instruction instructions ih =>
    obtain ⟨left, hleft, heq⟩ := lastPushLoop_encode instruction (instructions.flatMap Instruction.encode) lastPush
      lastPush.isSome hfuel
    rw [List.flatMap_cons, heq]
    exact ih instruction.pushed hleft

theorem exists_instructions {fuel : Nat} {script : List UInt8} (hfuel : script.length ≤ fuel)
    {lastPush : Option (List UInt8)} {lastWasPush : Bool} {result : Option (List UInt8) × Bool}
    (h : lastPushLoop fuel script lastPush lastWasPush = .ok result) :
    ∃ instructions : List Instruction, script = instructions.flatMap Instruction.encode := by
  induction fuel generalizing script lastPush lastWasPush with
  | zero => exact ⟨[], List.length_eq_zero_iff.mp (by omega)⟩
  | succ fuel ih =>
    cases script with
    | nil => exact ⟨[], rfl⟩
    | cons opcode cursor =>
      rw [List.length_cons] at hfuel
      rw [lastPushLoop] at h
      split at h
      · cases h
      · rename_i hread
        obtain ⟨-, hcode⟩ | ⟨encoding, length, rest, hsome, -⟩ := pushLength_cases hread
        · obtain ⟨instructions, rfl⟩ := ih (by omega) h
          exact ⟨.opcode opcode hcode :: instructions, rfl⟩
        · cases hsome
      · rename_i length behind hread
        obtain ⟨hnone, -⟩ | ⟨encoding, length, rest, hsome, hlt, heq⟩ := pushLength_cases hread
        · cases hnone
        · cases hsome
          split_ifs at h with hpast
          have hle : length ≤ behind.length := by omega
          have hdata : (behind.take length).length = length := by
            rw [List.length_take]
            omega
          have hshort : behind.length ≤ cursor.length := by
            have hlen := congrArg List.length heq
            have hpos : 0 < (encoding.header length).length := by cases encoding <;> simp [PushEncoding.header]
            rw [List.length_append, List.length_cons] at hlen
            omega
          obtain ⟨instructions, hrest⟩ := ih (by rw [List.length_drop]; omega) h
          refine ⟨.push encoding (behind.take length) (by rwa [hdata]) :: instructions, ?_⟩
          rw [List.flatMap_cons, ← hrest, heq, Instruction.encode, hdata, List.append_assoc, List.take_append_drop]

/-- `LastScriptPush` gives the data of the last instruction if that is a push, and nothing else. -/
theorem lastScriptPush_eq_ok {script data : List UInt8} : lastScriptPush script = .ok data ↔ LastPush script data := by
  constructor
  · intro h
    rw [lastScriptPush] at h
    split_ifs at h with hempty
    split at h
    · cases h
    · rename_i push hloop
      cases h
      obtain ⟨instructions, rfl⟩ := exists_instructions le_rfl hloop
      rw [show false = (none : Option (List UInt8)).isSome from rfl, lastPushLoop_flatMap instructions none le_rfl] at hloop
      induction instructions using List.reverseRecOn with
      | nil => cases hloop
      | append_singleton instructions instruction _ =>
        rw [lastPushed, List.foldl_concat] at hloop
        cases instruction with
        | opcode code hcode => cases hloop
        | push encoding data hdata =>
          cases hloop
          exact ⟨instructions, encoding, hdata, by rw [List.flatMap_append, List.flatMap_singleton]⟩
    · cases h
  · rintro ⟨instructions, encoding, h, rfl⟩
    have hscript : instructions.flatMap Instruction.encode ++ (Instruction.push encoding data h).encode =
        (instructions ++ [Instruction.push encoding data h]).flatMap Instruction.encode := by
      rw [List.flatMap_append, List.flatMap_singleton]
    have hloop := lastPushLoop_flatMap (instructions ++ [.push encoding data h]) none le_rfl
    rw [lastPushed, List.foldl_concat] at hloop
    have hpos := (Instruction.push encoding data h).length_encode_pos
    rw [lastScriptPush, if_neg (fun hnil => by rw [(List.append_eq_nil_iff.mp hnil).2] at hpos; simp at hpos), hscript]
    rw [show false = (none : Option (List UInt8)).isSome from rfl, hloop]
    rfl

/-! ## The forms of scripts -/

def bytesAt : Nat → List UInt8 → List (Nat × UInt8)
  | _, [] => []
  | start, byte :: bytes => (start, byte) :: bytesAt (start + 1) bytes

theorem prefix_of_hasBytes {script bytes : List UInt8} {start : Nat} (h : hasBytes script (bytesAt start bytes) = true) :
    bytes <+: script.drop start := by
  induction bytes generalizing start with
  | nil => exact List.nil_prefix
  | cons byte bytes ih =>
    rw [bytesAt, hasBytes, List.all_cons, Bool.and_eq_true, decide_eq_true_eq] at h
    obtain ⟨hlt, hbyte⟩ := List.getElem?_eq_some_iff.mp h.1
    rw [List.drop_eq_getElem_cons hlt, hbyte, List.cons_prefix_cons]
    exact ⟨rfl, ih h.2⟩

theorem exists_middle {script : List UInt8} (count : Nat) (front back : List UInt8)
    (hlength : script.length = front.length + count + back.length)
    (h : hasBytes script (bytesAt 0 front ++ bytesAt (front.length + count) back) = true) :
    ∃ middle : List UInt8, middle.length = count ∧ script = front ++ middle ++ back := by
  rw [hasBytes, List.all_append, Bool.and_eq_true] at h
  obtain ⟨rest, hrest⟩ := prefix_of_hasBytes h.1
  obtain ⟨behind, hback⟩ := prefix_of_hasBytes h.2
  rw [List.drop_zero] at hrest
  have hbehind : behind = [] := by
    have hlen := congrArg List.length hback
    rw [List.length_append, List.length_drop] at hlen
    exact List.length_eq_zero_iff.mp (by omega)
  rw [hbehind, List.append_nil, ← hrest, List.drop_append, List.drop_eq_nil_of_le (by omega), List.nil_append,
    Nat.add_sub_cancel_left] at hback
  refine ⟨rest.take count, ?_, ?_⟩
  · rw [← hrest, List.length_append] at hlength
    rw [List.length_take]
    omega
  · rw [← hrest, hback, List.append_assoc, List.take_append_drop]

theorem exists_of_pubkeyHash {script : List UInt8} (h : scriptPubkeyType script = .pubkeyHash) :
    ∃ hash : List UInt8, hash.length = 20 ∧ script = p2pkh hash := by
  unfold scriptPubkeyType at h
  split_ifs at h with hform
  exact exists_middle 20 [0x76, 0xa9, 0x14] [0x88, 0xac] hform.1 hform.2

theorem exists_of_scriptHash {script : List UInt8} (h : scriptPubkeyType script = .scriptHash) :
    ∃ hash : List UInt8, hash.length = 20 ∧ script = p2sh hash := by
  unfold scriptPubkeyType at h
  split_ifs at h with _ hform
  exact exists_middle 20 [0xa9, 0x14] [0x87] hform.1 hform.2

theorem exists_of_witnessV0PubkeyHash {script : List UInt8} (h : scriptPubkeyType script = .witnessV0PubkeyHash) :
    ∃ hash : List UInt8, hash.length = 20 ∧ script = witnessProgram hash := by
  unfold scriptPubkeyType at h
  split_ifs at h with _ _ hform
  obtain ⟨hash, hlength, rfl⟩ := exists_middle 20 [0x00, 0x14] [] hform.1 hform.2
  exact ⟨hash, hlength, by rw [List.append_nil, witnessProgram, hlength]; rfl⟩

theorem exists_of_witnessV0ScriptHash {script : List UInt8} (h : scriptPubkeyType script = .witnessV0ScriptHash) :
    ∃ hash : List UInt8, hash.length = 32 ∧ script = witnessProgram hash := by
  unfold scriptPubkeyType at h
  split_ifs at h with _ _ _ hform
  obtain ⟨hash, hlength, rfl⟩ := exists_middle 32 [0x00, 0x20] [] hform.1 hform.2
  exact ⟨hash, hlength, by rw [List.append_nil, witnessProgram, hlength]; rfl⟩

/-! ## Lossless compact leaves -/

section Lossless

variable {H : Type} [SpendHash H]

variable (H) in
/-- The input reveals what a script of a standard form commits to. -/
structure Reveals (script : List UInt8) (input : SpendingInput) : Prop where
  pubkeyHash : ∀ hash : List UInt8, hash.length = 20 → script = p2pkh hash →
    ∃ data, LastPush input.scriptSig data ∧ SpendHash.hash160 H data = hash
  scriptHash : ∀ hash : List UInt8, hash.length = 20 → script = p2sh hash →
    ∃ data, LastPush input.scriptSig data ∧ SpendHash.hash160 H data = hash
  witnessPubkeyHash : ∀ hash : List UInt8, hash.length = 20 → script = witnessProgram hash →
    ∃ item, input.witness.getLast? = some item ∧ SpendHash.hash160 H item = hash
  witnessScriptHash : ∀ hash : List UInt8, hash.length = 32 → script = witnessProgram hash →
    ∃ item, input.witness.getLast? = some item ∧ StoredHash.bytes (ArchiveHash.sha256 item : H) = hash

/-- The leaf that a client puts together from a compact leaf, a script, the outpoint and the block that created it. -/
def CompactLeafData.rebuild (leaf : CompactLeafData) (blockHash : H) (outpoint : OutPoint H) (script : List UInt8) :
    LeafData H where
  blockHash := blockHash
  outpoint := outpoint
  blockHeight := leaf.headerCode >>> 1
  coinbase := leaf.headerCode.testBit 0
  output := ⟨leaf.amount, script⟩

theorem headerCode_eq {height : Nat} (h : height < 2 ^ 31) (coinbase : Bool) :
    headerCode height coinbase = 2 * height + coinbase.toNat := by
  have hbit : coinbase.toNat < 2 ^ 1 := Bool.toNat_lt coinbase
  rw [headerCode, ← Nat.shiftLeft_add_eq_or_of_lt hbit, Nat.shiftLeft_eq, Nat.mod_eq_of_lt (by omega)]
  omega

theorem reconstructScriptPubkey_compactLeaf {leaf : LeafData H} {input : SpendingInput}
    (h : Reveals H leaf.output.scriptPubkey input) :
    reconstructScriptPubkey H (compactLeaf leaf) input = .ok leaf.output.scriptPubkey := by
  have htype : (compactLeaf leaf).scriptType = scriptPubkeyType leaf.output.scriptPubkey := rfl
  rw [reconstructScriptPubkey, htype]
  cases hform : scriptPubkeyType leaf.output.scriptPubkey with
  | other => rw [compactLeaf, if_pos hform]
  | pubkeyHash =>
    obtain ⟨hash, hlength, hscript⟩ := exists_of_pubkeyHash hform
    obtain ⟨data, hpush, rfl⟩ := h.pubkeyHash hash hlength hscript
    rw [lastScriptPush_eq_ok.mpr hpush, hscript]
    rfl
  | scriptHash =>
    obtain ⟨hash, hlength, hscript⟩ := exists_of_scriptHash hform
    obtain ⟨data, hpush, rfl⟩ := h.scriptHash hash hlength hscript
    rw [lastScriptPush_eq_ok.mpr hpush, hscript]
    rfl
  | witnessV0PubkeyHash =>
    obtain ⟨hash, hlength, hscript⟩ := exists_of_witnessV0PubkeyHash hform
    obtain ⟨item, hitem, rfl⟩ := h.witnessPubkeyHash hash hlength hscript
    rw [hitem, hscript]
  | witnessV0ScriptHash =>
    obtain ⟨hash, hlength, hscript⟩ := exists_of_witnessV0ScriptHash hform
    obtain ⟨item, hitem, rfl⟩ := h.witnessScriptHash hash hlength hscript
    rw [hitem, hscript]
  | unknown code hcode =>
    have hle := scriptPubkeyType_code leaf.output.scriptPubkey
    rw [hform] at hle
    exact absurd hle (by simpa [ScriptPubkeyType.code] using hcode)

omit [SpendHash H] in
theorem rebuild_compactLeaf {leaf : LeafData H} (h : leaf.blockHeight < 2 ^ 31) :
    (compactLeaf leaf).rebuild leaf.blockHash leaf.outpoint leaf.output.scriptPubkey = leaf := by
  obtain ⟨blockHash, outpoint, height, coinbase, value, script⟩ := leaf
  rw [CompactLeafData.rebuild, compactLeaf, headerCode_eq h]
  have hheight : (2 * height + coinbase.toNat) >>> 1 = height := by
    have hbit := Bool.toNat_lt coinbase
    rw [Nat.shiftRight_eq_div_pow]
    omega
  have hcoinbase : (2 * height + coinbase.toNat).testBit 0 = coinbase := by
    rw [Nat.testBit_zero]
    cases coinbase <;> simp
  simp only [hheight, hcoinbase]

/-- **A compact leaf loses nothing.** Whatever instructions come before it, the last push of a script is what
`LastScriptPush` gives. From an input that reveals what the script commits to, a client gets the script and with it
the whole leaf. -/
theorem compactLeaf_lossless :
    (∀ script data : List UInt8, lastScriptPush script = .ok data ↔ LastPush script data) ∧
      ∀ (leaf : LeafData H) (input : SpendingInput), leaf.blockHeight < 2 ^ 31 →
        Reveals H leaf.output.scriptPubkey input →
        ∃ script, reconstructScriptPubkey H (compactLeaf leaf) input = .ok script ∧ script = leaf.output.scriptPubkey ∧
          (compactLeaf leaf).rebuild leaf.blockHash leaf.outpoint script = leaf ∧
          ((compactLeaf leaf).rebuild leaf.blockHash leaf.outpoint script).leafHash = leaf.leafHash := by
  refine ⟨fun script data => lastScriptPush_eq_ok, fun leaf input hheight hreveals => ?_⟩
  refine ⟨_, reconstructScriptPubkey_compactLeaf hreveals, rfl, rebuild_compactLeaf hheight, ?_⟩
  rw [rebuild_compactLeaf hheight]

end Lossless

/-! ## A public key that is spent -/

def spentKey : List UInt8 := [
  0x03, 0x95, 0xc2, 0x23, 0xfb, 0xf9, 0x6e, 0x49, 0xe5, 0xb9, 0xe0, 0x6a, 0x23, 0x6c, 0xa7, 0xef,
  0x95, 0xb1, 0x0b, 0xf1, 0x8c, 0x07, 0x4b, 0xd9, 0x1a, 0x59, 0x42, 0xfc, 0x40, 0x36, 0x0d, 0x0b, 0x68]

def spentKeyHash : List UInt8 := [
  0xbf, 0x26, 0x46, 0xb8, 0xba, 0x8b, 0x4a, 0x14, 0x32, 0x20, 0x52, 0x8b, 0xde, 0x9c, 0x30, 0x6d, 0xac, 0x44, 0xa0, 0x1c]

instance : SpendHash ByteHash where
  sha256 _ := .zero
  hash160 _ := spentKeyHash
  length_hash160 _ := rfl

def spentLeaf : LeafData ByteHash := ⟨.zero, ⟨leafHash 1, 0⟩, 100, true, ⟨5000000000, p2pkh spentKeyHash⟩⟩

/-- An `OP_NOP` and the key behind `OP_PUSHDATA2`. -/
def spendingInput : SpendingInput := ⟨[0x61, 0x4d, 0x21, 0x00] ++ spentKey, []⟩

theorem lastPush_spendingInput : LastPush spendingInput.scriptSig spentKey :=
  ⟨[.opcode 0x61 (by decide)], .pushData2, by decide, rfl⟩

theorem reveals_spendingInput : Reveals ByteHash spentLeaf.output.scriptPubkey spendingInput where
  pubkeyHash hash _ hscript := by
    refine ⟨spentKey, lastPush_spendingInput, ?_⟩
    exact List.append_cancel_left (List.append_cancel_right hscript)
  scriptHash hash _ hscript := absurd (congrArg List.head? hscript) (by simp [spentLeaf, p2pkh, p2sh])
  witnessPubkeyHash hash _ hscript := absurd (congrArg List.head? hscript) (by simp [spentLeaf, p2pkh, witnessProgram])
  witnessScriptHash hash _ hscript := absurd (congrArg List.head? hscript) (by simp [spentLeaf, p2pkh, witnessProgram])

theorem compactLeaf_lossless_spent :
    lastScriptPush spendingInput.scriptSig = .ok spentKey ∧
      reconstructScriptPubkey ByteHash (compactLeaf spentLeaf) spendingInput = .ok (p2pkh spentKeyHash) ∧
      (compactLeaf spentLeaf).rebuild .zero ⟨leafHash 1, 0⟩ (p2pkh spentKeyHash) = spentLeaf := by
  obtain ⟨hpush, hleaf⟩ := compactLeaf_lossless (H := ByteHash)
  obtain ⟨script, hscript, rfl, hrebuild, -⟩ := hleaf spentLeaf spendingInput (by decide) reveals_spendingInput
  exact ⟨(hpush _ _).mpr lastPush_spendingInput, hscript, hrebuild⟩

end UtreexoBridge
