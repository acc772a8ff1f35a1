import UtreexoBridge.Rpc.JsonStream
import UtreexoBridge.Rpc.JsonReader

/-!
# Streaming and full parsing agree

`ParseVerboseBlock` makes the same of a value and of its projection, and what
is copied from a text of the value is a text of the projection.
-/

namespace UtreexoBridge.Rpc

open JsonCursor

/-! ## The projection of a value -/

section Values

variable {projection : JsonProjection} {field : FieldProjection}

/-- What is left of a member's value. -/
def FieldProjection.apply : FieldProjection → UniValue → UniValue
  | .scalar, value => value
  | .object child, value => value.project child
  | .array child, value => value.projectAll child

theorem projectValues_eq_map (projection : JsonProjection) (values : List UniValue) :
    projectValues projection values = values.map (UniValue.project projection) := by
  induction values with
  | nil => rw [projectValues, List.map_nil]
  | cons value values ih => rw [projectValues, List.map_cons, ih]

theorem projectEntries_cons (key : List UInt8) (value : UniValue) (members : List (List UInt8 × UniValue)) :
    projectEntries projection ((key, value) :: members) =
      match projectedField projection key with
      | none => projectEntries projection members
      | some field => (key, field.apply value) :: projectEntries projection members := by
  rw [projectEntries]
  rcases projectedField projection key with - | - | child | child <;> rfl

theorem find_projectEntries {key : List UInt8} (h : projectedField projection key = some field)
    (members : List (List UInt8 × UniValue)) :
    ((projectEntries projection members).find? fun entry => entry.1 = key).map (·.2) =
      ((members.find? fun entry => entry.1 = key).map (·.2)).map field.apply := by
  induction members with
  | nil => rw [projectEntries]; rfl
  | cons entry members ih =>
    obtain ⟨name, value⟩ := entry
    rw [projectEntries_cons]
    by_cases hname : name = key
    · subst hname
      rw [h, List.find?_cons_of_pos (by simp), List.find?_cons_of_pos (by simp)]
      rfl
    · rw [List.find?_cons_of_neg (l := members) (by simpa using hname), ← ih]
      cases projectedField projection name with
      | none => rfl
      | some other =>
        dsimp only
        rw [List.find?_cons_of_neg (by simpa using hname)]

theorem any_projectEntries {key : List UInt8} (h : projectedField projection key = some field)
    (members : List (List UInt8 × UniValue)) :
    ((projectEntries projection members).any fun entry => entry.1 = key) = members.any fun entry => entry.1 = key := by
  induction members with
  | nil => rw [projectEntries]
  | cons entry members ih =>
    obtain ⟨name, value⟩ := entry
    rw [projectEntries_cons, List.any_cons]
    cases hfield : projectedField projection name with
    | none =>
      have hname : name ≠ key := by
        rintro rfl
        rw [h] at hfield
        cases hfield
      dsimp only
      rw [ih, decide_eq_false hname, Bool.false_or]
    | some other =>
      dsimp only
      rw [List.any_cons, ih]

theorem findValue_project {key : String} (h : projectedField projection (ascii key) = some field) (value : UniValue) :
    (value.project projection).findValue key = field.apply (value.findValue key) := by
  have hnull : field.apply .null = .null := by
    cases field <;> rfl
  cases value with
  | obj members =>
    rw [UniValue.project]
    unfold UniValue.findValue
    dsimp only
    rw [find_projectEntries h]
    cases (members.find? fun entry => entry.1 = ascii key).map (·.2) with
    | none => exact hnull.symm
    | some found => rfl
  | null => exact hnull.symm
  | bool b => exact hnull.symm
  | num text => exact hnull.symm
  | str text => exact hnull.symm
  | arr values => exact hnull.symm

theorem hasKey_project {key : String} (h : projectedField projection (ascii key) = some field) (value : UniValue) :
    (value.project projection).hasKey key = value.hasKey key := by
  cases value with
  | obj members =>
    rw [UniValue.project]
    exact any_projectEntries h members
  | null => rfl
  | bool b => rfl
  | num text => rfl
  | str text => rfl
  | arr values => rfl

theorem isObject_project (value : UniValue) : (value.project projection).isObject = value.isObject := by
  cases value with
  | obj members => rw [UniValue.project]; rfl
  | null => rfl
  | bool b => rfl
  | num text => rfl
  | str text => rfl
  | arr values => rfl

/-! ## The parser reads selected members only -/

theorem jsonTxOut_project (hscript : projectedField projection (ascii "scriptPubKey") = some (.object .script))
    (hvalue : projectedField projection (ascii "value") = some .scalar) (object : UniValue) :
    jsonTxOut (object.project projection) = jsonTxOut object := by
  have hhex : projectedField .script (ascii "hex") = some .scalar := by decide
  unfold jsonTxOut
  dsimp only
  rw [isObject_project, findValue_project hscript, findValue_project hvalue]
  unfold FieldProjection.apply
  dsimp only
  rw [isObject_project, hasKey_project hhex, findValue_project hhex]
  rfl

section Parser

variable {H : Type} [StoredHash H] [DecidableEq H] (resolve : Nat → Except String H)

omit [DecidableEq H] [StoredHash H] in
theorem prevoutLeaf_project (outpoint : Wire.OutPoint H) (prevout : UniValue) :
    prevoutLeaf resolve outpoint (prevout.project .prevout) = prevoutLeaf resolve outpoint prevout := by
  have hheight : projectedField .prevout (ascii "height") = some .scalar := by decide
  have hgenerated : projectedField .prevout (ascii "generated") = some .scalar := by decide
  unfold prevoutLeaf
  rw [isObject_project, findValue_project hheight, findValue_project hgenerated,
    jsonTxOut_project (by decide) (by decide)]
  rfl

theorem spendInput_project (state : Projection H) (input : UniValue) :
    spendInput resolve state (input.project .input) = spendInput resolve state input := by
  have htxid : projectedField .input (ascii "txid") = some .scalar := by decide
  have hvout : projectedField .input (ascii "vout") = some .scalar := by decide
  have hprevout : projectedField .input (ascii "prevout") = some (.object .prevout) := by decide
  have hleaf : ∀ outpoint : Wire.OutPoint H,
      prevoutLeaf resolve outpoint (FieldProjection.apply (.object .prevout) (input.findValue "prevout")) =
        prevoutLeaf resolve outpoint (input.findValue "prevout") :=
    fun outpoint => prevoutLeaf_project resolve outpoint _
  unfold spendInput
  rw [findValue_project htxid, findValue_project hvout, findValue_project hprevout]
  simp only [hleaf]
  rfl

theorem createOutput_project (blockHash txid : H) (height : Nat) (coinbase : Bool) (state : Projection H)
    (output : UniValue) :
    createOutput blockHash txid height coinbase state (output.project .output) =
      createOutput blockHash txid height coinbase state output := by
  have hn : projectedField .output (ascii "n") = some .scalar := by decide
  unfold createOutput
  rw [findValue_project hn, jsonTxOut_project (by decide) (by decide)]
  rfl

theorem projectTransaction_project (blockHash : H) (height : Nat) (coinbase : Bool) (state : Projection H)
    (transaction : UniValue) :
    projectTransaction resolve blockHash height coinbase state (transaction.project .transaction) =
      projectTransaction resolve blockHash height coinbase state transaction := by
  have htxid : projectedField .transaction (ascii "txid") = some .scalar := by decide
  have hvin : projectedField .transaction (ascii "vin") = some (.array .input) := by decide
  have hvout : projectedField .transaction (ascii "vout") = some (.array .output) := by decide
  have hinputs : ∀ inputs, spendInputs resolve coinbase state (inputs.map (UniValue.project .input)) =
      spendInputs resolve coinbase state inputs := by
    intro inputs
    unfold spendInputs
    rw [List.foldlM_map]
    simp only [spendInput_project]
  have houtputs : ∀ (txid : H) spent (outputs : List UniValue),
      (outputs.map (UniValue.project .output)).foldlM (createOutput blockHash txid height coinbase) spent =
        outputs.foldlM (createOutput blockHash txid height coinbase) spent := by
    intro txid spent outputs
    rw [List.foldlM_map]
    simp only [createOutput_project]
  unfold projectTransaction
  rw [findValue_project htxid, findValue_project hvin, findValue_project hvout]
  unfold FieldProjection.apply
  dsimp only
  cases transaction.findValue "vin" with
  | arr inputs =>
    cases transaction.findValue "vout" with
    | arr outputs =>
      simp only [UniValue.projectAll, projectValues_eq_map, hinputs, houtputs]
    | null => rfl
    | bool b => rfl
    | num text => rfl
    | str text => rfl
    | obj members => rfl
  | null => rfl
  | bool b => rfl
  | num text => rfl
  | str text => rfl
  | obj members => rfl

theorem projectTransactions_project (blockHash : H) (height : Nat) (coinbase : Bool) (state : Projection H)
    (transactions : List UniValue) :
    projectTransactions resolve blockHash height coinbase state (transactions.map (UniValue.project .transaction)) =
      projectTransactions resolve blockHash height coinbase state transactions := by
  induction transactions generalizing coinbase state with
  | nil => rfl
  | cons transaction transactions ih =>
    rw [List.map_cons, projectTransactions, projectTransactions, projectTransaction_project]
    simp only [ih]

theorem parseVerboseBlock_project (block : UniValue) :
    parseVerboseBlock (block.project .block) resolve = parseVerboseBlock block resolve := by
  have hhash : projectedField .block (ascii "hash") = some .scalar := by decide
  have hheight : projectedField .block (ascii "height") = some .scalar := by decide
  have hprevious : projectedField .block (ascii "previousblockhash") = some .scalar := by decide
  have htx : projectedField .block (ascii "tx") = some (.array .transaction) := by decide
  have hback : ∀ height, (previousHash (block.project .block) height : Except String H) = previousHash block height := by
    intro height
    unfold previousHash
    rw [findValue_project hprevious]
    rfl
  unfold parseVerboseBlock
  rw [isObject_project, findValue_project hhash, findValue_project hheight, findValue_project htx]
  simp only [hback]
  unfold FieldProjection.apply
  dsimp only
  cases block.findValue "tx" with
  | arr transactions =>
    cases transactions with
    | nil => rfl
    | cons first rest =>
      have hcons : ∀ blockHash height coinbase (state : Projection H),
          projectTransactions resolve blockHash height coinbase state
            (first.project .transaction :: rest.map (UniValue.project .transaction)) =
          projectTransactions resolve blockHash height coinbase state (first :: rest) :=
        fun blockHash height coinbase state =>
          projectTransactions_project resolve blockHash height coinbase state (first :: rest)
      simp only [UniValue.projectAll, projectValues, projectValues_eq_map, hcons]
  | null => rfl
  | bool b => rfl
  | num text => rfl
  | str text => rfl
  | obj members => rfl

end Parser

end Values

/-! ## Texts of the projection -/

mutual

/-- What the projection of a value takes for granted: objects and arrays of objects where it looks into them, and no more
than 64 levels in what it skips or copies. -/
inductive Projectable : JsonProjection → UniValue → Prop
  | obj {projection : JsonProjection} {members : List (List UInt8 × UniValue)}
      (h : ∀ entry ∈ members, ProjectableField projection entry) : Projectable projection (.obj members)

inductive ProjectableField : JsonProjection → List UInt8 × UniValue → Prop
  | skipped {projection : JsonProjection} {key : List UInt8} {value : UniValue}
      (hfield : projectedField projection key = none) (h : NestsWithin 64 value) : ProjectableField projection (key, value)
  | scalar {projection : JsonProjection} {key : List UInt8} {value : UniValue}
      (hfield : projectedField projection key = some .scalar) (h : NestsWithin 64 value) :
      ProjectableField projection (key, value)
  | object {projection child : JsonProjection} {key : List UInt8} {value : UniValue}
      (hfield : projectedField projection key = some (.object child)) (h : Projectable child value) :
      ProjectableField projection (key, value)
  | array {projection child : JsonProjection} {key : List UInt8} {values : List UniValue}
      (hfield : projectedField projection key = some (.array child)) (h : ∀ value ∈ values, Projectable child value) :
      ProjectableField projection (key, .arr values)

end

/-! ## Nesting -/

theorem NestsWithin.mono {n m : Nat} {value : UniValue} (h : NestsWithin n value) (hle : n ≤ m) : NestsWithin m value := by
  induction h generalizing m with
  | null => exact .null m
  | bool _ value => exact .bool m value
  | num _ text => exact .num m text
  | str _ text => exact .str m text
  | arr _ ih =>
    obtain ⟨m, rfl⟩ : ∃ k, m = k + 1 := ⟨m - 1, by omega⟩
    exact .arr fun value hvalue => ih value hvalue (Nat.le_of_succ_le_succ hle)
  | obj _ ih =>
    obtain ⟨m, rfl⟩ : ∃ k, m = k + 1 := ⟨m - 1, by omega⟩
    exact .obj fun entry hentry => ih entry hentry (Nat.le_of_succ_le_succ hle)

/-- The arrays and objects that a projection selects inside each other. -/
def JsonProjection.height : JsonProjection → Nat
  | .block => 7
  | .transaction => 5
  | .input => 3
  | .prevout => 2
  | .output => 2
  | .script => 1

def FieldProjection.height : FieldProjection → Nat
  | .scalar => 0
  | .object child => child.height
  | .array child => child.height + 1

theorem projectedField_height {projection : JsonProjection} {key : List UInt8} {field : FieldProjection}
    (h : projectedField projection key = some field) : field.height + 1 ≤ projection.height := by
  unfold projectedField at h
  cases projection
  all_goals
    dsimp only at h
    split_ifs at h
  all_goals
    obtain rfl := Option.some.inj h
    decide

theorem JsonProjection.height_pos (projection : JsonProjection) : 1 ≤ projection.height := by
  cases projection <;> decide

theorem Projectable.nests {projection : JsonProjection} {value : UniValue} (h : Projectable projection value) :
    NestsWithin (projection.height + 64) value := by
  generalize hheight : projection.height = height
  induction height using Nat.strong_induction_on generalizing projection value with
  | _ height ih =>
    obtain ⟨hfields⟩ := h
    have hpos := projection.height_pos
    obtain ⟨n, rfl⟩ : ∃ k, height = k + 1 := ⟨height - 1, by omega⟩
    rw [Nat.add_right_comm]
    refine .obj fun entry hentry => ?_
    cases hfields entry hentry with
    | skipped _ hnests => exact hnests.mono (Nat.le_add_left 64 n)
    | scalar _ hnests => exact hnests.mono (Nat.le_add_left 64 n)
    | @object _ child _ value hfield hchild =>
      have hless : child.height + 1 ≤ projection.height := projectedField_height hfield
      exact (ih child.height (by omega) hchild rfl).mono (by omega)
    | @array _ child _ values hfield hvalues =>
      have hless : child.height + 1 + 1 ≤ projection.height := projectedField_height hfield
      obtain ⟨m, rfl⟩ : ∃ k, n = k + 1 := ⟨n - 1, by omega⟩
      rw [Nat.add_right_comm]
      exact .arr fun value hvalue => (ih child.height (by omega) (hvalues value hvalue) rfl).mono (by omega)

theorem mem_projectEntries {projection : JsonProjection} {members : List (List UInt8 × UniValue)}
    {entry : List UInt8 × UniValue} (h : entry ∈ projectEntries projection members) : ∃ member ∈ members,
      entry.2 = member.2 ∨ ∃ child, entry.2 = member.2.project child ∨ entry.2 = member.2.projectAll child := by
  induction members with
  | nil =>
    rw [projectEntries] at h
    cases h
  | cons member members ih =>
    obtain ⟨key, value⟩ := member
    have hlater : entry ∈ projectEntries projection members → ∃ member ∈ (key, value) :: members,
        entry.2 = member.2 ∨ ∃ child, entry.2 = member.2.project child ∨ entry.2 = member.2.projectAll child := by
      intro hentry
      obtain ⟨member, hmember, heq⟩ := ih hentry
      exact ⟨member, List.mem_cons_of_mem _ hmember, heq⟩
    rw [projectEntries] at h
    split at h
    · exact hlater h
    all_goals
      rcases List.mem_cons.mp h with rfl | h
      · refine ⟨_, List.mem_cons_self, ?_⟩
        first
          | exact Or.inl rfl
          | exact Or.inr ⟨_, Or.inl rfl⟩
          | exact Or.inr ⟨_, Or.inr rfl⟩
      · exact hlater h

theorem mem_projectValues {projection : JsonProjection} {values : List UniValue} {value : UniValue}
    (h : value ∈ projectValues projection values) : ∃ v ∈ values, value = v.project projection := by
  induction values with
  | nil =>
    rw [projectValues] at h
    cases h
  | cons v values ih =>
    rw [projectValues] at h
    rcases List.mem_cons.mp h with rfl | h
    · exact ⟨v, List.mem_cons_self, rfl⟩
    · obtain ⟨v', hv', heq⟩ := ih h
      exact ⟨v', List.mem_cons_of_mem _ hv', heq⟩

theorem NestsWithin.projected {n : Nat} {value : UniValue} (h : NestsWithin n value) (projection : JsonProjection) :
    NestsWithin n (value.project projection) ∧ NestsWithin n (value.projectAll projection) := by
  induction h generalizing projection with
  | null n =>
    rw [UniValue.project, UniValue.projectAll]
    · exact ⟨.null n, .null n⟩
    all_goals nofun
  | bool n value =>
    rw [UniValue.project, UniValue.projectAll]
    · exact ⟨.bool n value, .bool n value⟩
    all_goals nofun
  | num n text =>
    rw [UniValue.project, UniValue.projectAll]
    · exact ⟨.num n text, .num n text⟩
    all_goals nofun
  | str n text =>
    rw [UniValue.project, UniValue.projectAll]
    · exact ⟨.str n text, .str n text⟩
    all_goals nofun
  | arr hvalues ih =>
    rw [UniValue.project, UniValue.projectAll]
    · refine ⟨.arr hvalues, .arr fun value hvalue => ?_⟩
      obtain ⟨v, hv, rfl⟩ := mem_projectValues hvalue
      exact (ih v hv projection).1
    all_goals nofun
  | obj hmembers ih =>
    rw [UniValue.project, UniValue.projectAll]
    · refine ⟨.obj fun entry hentry => ?_, .obj hmembers⟩
      obtain ⟨member, hmember, heq | ⟨child, heq | heq⟩⟩ := mem_projectEntries hentry
      · rw [heq]
        exact hmembers member hmember
      · rw [heq]
        exact (ih member hmember child).1
      · rw [heq]
        exact (ih member hmember child).2
    all_goals nofun

section Texts

variable {decode : List UInt8 → Option (List UInt8)} {item : JsonItem} {projection : JsonProjection}
  {text : List UInt8} {value : UniValue}

theorem keyText_of_plain {key : List UInt8} (h : ∀ b ∈ key, ¬b < 0x20 ∧ b ≠ 34 ∧ b ≠ 92) : KeyText key key := by
  induction key with
  | nil => exact .nil
  | cons b key ih =>
    obtain ⟨hcontrol, hquote, hescape⟩ := h b List.mem_cons_self
    exact .byte hcontrol hquote hescape (ih fun c hc => h c (List.mem_cons_of_mem _ hc))

def projectedNames : List (List UInt8) :=
  ["hash", "height", "previousblockhash", "tx", "txid", "vin", "vout", "prevout", "generated", "value", "scriptPubKey", "n",
    "hex"].map ascii

theorem mem_projectedNames {key : List UInt8} {field : FieldProjection} (h : projectedField projection key = some field) :
    key ∈ projectedNames := by
  have hmem : ∀ name ∈ projectedNames, key = name → key ∈ projectedNames := by
    rintro name hname rfl
    exact hname
  unfold projectedField at h
  cases projection
  all_goals
    dsimp only at h
    split_ifs at h
  all_goals
    rename_i heq
    first
      | exact hmem _ (by decide) heq
      | (rcases heq with heq | heq | heq <;> exact hmem _ (by decide) heq)
      | (rcases heq with heq | heq <;> exact hmem _ (by decide) heq)

theorem utf8_ascii {text : String} (h : text.toList.flatMap String.utf8EncodeChar = ascii text) : Utf8 (ascii text) :=
  ⟨text.toList, h.symm⟩

theorem spelling_of_projected {key : List UInt8} {field : FieldProjection} (h : projectedField projection key = some field) :
    KeySpelling key key := by
  have hplain : ∀ name ∈ projectedNames, ∀ b ∈ name, ¬b < 0x20 ∧ b ≠ 34 ∧ b ≠ 92 := by decide +kernel
  have hutf8 : ∀ name ∈ projectedNames, Utf8 name := by
    simp only [projectedNames, List.map_cons, List.map_nil, List.forall_mem_cons]
    refine ⟨?_, ?_, ?_, ?_, ?_, ?_, ?_, ?_, ?_, ?_, ?_, ?_, ?_, nofun⟩ <;> exact utf8_ascii (by decide +kernel)
  exact ⟨keyText_of_plain (hplain key (mem_projectedNames h)), hutf8 key (mem_projectedNames h)⟩

/-- The members that were copied, behind a comma if they are not the first. -/
def CopiedMembers (decode : List UInt8 → Option (List UInt8)) (first : Bool) (members : List (List UInt8 × UniValue))
    (copy : List UInt8) : Prop :=
  members = [] ∧ copy = [] ∨
    ∃ inner, JsonText decode (.members members) inner ∧ copy = if first then inner else 44 :: inner

/-- What projecting a text does, by what the text stands for. -/
def ProjectedItem (decode : List UInt8 → Option (List UInt8)) : JsonItem → List UInt8 → Prop
  | .value value, text =>
    (∀ projection fuel, Projectable projection value → 2 * text.length ≤ fuel → ∀ blank rest output, Blank blank →
      ∃ copy, JsonText decode (.value (value.project projection)) copy ∧
        projectObject fuel projection (blank ++ (text ++ rest)) output = .ok (rest, output ++ copy)) ∧
    ∀ element fuel values, value = .arr values → (∀ v ∈ values, Projectable element v) → 2 * text.length ≤ fuel →
      ∀ blank rest output, Blank blank →
        ∃ copy, JsonText decode (.value (.arr (projectValues element values))) copy ∧
          projectArray fuel element (blank ++ (text ++ rest)) output = .ok (rest, output ++ copy)
  | .elements values, text => ∀ element fuel, (∀ v ∈ values, Projectable element v) → 2 * text.length + 1 ≤ fuel →
    ∀ rest output, ∃ copy, JsonText decode (.elements (projectValues element values)) copy ∧
      projectElements fuel element (text ++ 93 :: rest) output = .ok (rest, output ++ copy ++ [93])
  | .members members, text => ∀ projection fuel, (∀ entry ∈ members, ProjectableField projection entry) →
    2 * text.length + 1 ≤ fuel → ∀ first rest output,
      ∃ copy, CopiedMembers decode first (projectEntries projection members) copy ∧
        projectMembers fuel projection first (text ++ 125 :: rest) output = .ok (rest, output ++ copy ++ [125])

theorem copyValue_text (h : JsonText decode (.value value) text) (hnests : NestsWithin 64 value)
    {between after tail : List UInt8} (hbetween : Blank between) (hafter : Blank after)
    (htail : ∃ b rest, tail = b :: rest ∧ (b = 44 ∨ b = 125)) (output : List UInt8) :
    copyValue (between ++ (text ++ (after ++ tail))) output = .ok (tail, output ++ (text ++ after)) := by
  obtain ⟨b, rest, rfl, hb⟩ := htail
  have hspace : isSpace b = false := by
    rcases hb with rfl | rfl <;> decide
  have hdelimited : Delimited (after ++ b :: rest) :=
    delimited_blank hafter (delimited_cons (by tauto) rest)
  have hfirst : whitespace (between ++ (text ++ (after ++ b :: rest))) = text ++ (after ++ b :: rest) := by
    obtain ⟨c, more, rfl, hc, -⟩ := h.head
    rw [whitespace_blank hbetween, List.cons_append, whitespace_of_not_space hc]
  have hskip := h.skipped 0 64 (2 * (text ++ (after ++ b :: rest)).length + 2) hnests (le_refl _)
    (by rw [List.length_append]; omega) [] (after ++ b :: rest) blank_nil hdelimited
  rw [List.nil_append] at hskip
  unfold copyValue
  dsimp only
  rw [hfirst, hskip]
  dsimp only
  rw [whitespace_blank hafter, whitespace_of_not_space hspace]
  have htake : (text ++ (after ++ b :: rest)).take ((text ++ (after ++ b :: rest)).length - (b :: rest).length) =
      text ++ after := by
    rw [← List.append_assoc]
    exact List.take_left' (by simp only [List.length_append]; omega)
  rw [htake]

theorem projectField_text (h : JsonText decode (.value value) text) (ih : ProjectedItem decode (.value value) text)
    {key : List UInt8} (hfield : ProjectableField projection (key, value)) {fuel : Nat} (hfuel : 2 * text.length + 1 ≤ fuel)
    (first : Bool) {between after tail : List UInt8} (hbetween : Blank between) (hafter : Blank after)
    (htail : ∃ b rest, tail = b :: rest ∧ (b = 44 ∨ b = 125)) (output : List UInt8) :
    ∃ first' cursor copy, projectField fuel projection first key (between ++ (text ++ (after ++ tail))) output =
        .ok (first', cursor, output ++ copy) ∧ (cursor = after ++ tail ∨ cursor = tail) ∧
      (projectedField projection key = none ∧ first' = first ∧ copy = [] ∨
        ∃ field inner, projectedField projection key = some field ∧ first' = false ∧
          copy = (if first then inner else 44 :: inner) ∧ JsonText decode (.members [(key, field.apply value)]) inner ∧
            ∀ members more, JsonText decode (.members members) more →
              JsonText decode (.members ((key, field.apply value) :: members)) (inner ++ 44 :: more)) := by
  obtain ⟨fuel, rfl⟩ : ∃ k, fuel = k + 1 := ⟨fuel - 1, by omega⟩
  -- the copy of a selected member, as the last one and in front of others
  have hmember : ∀ (field : FieldProjection) copy blank, projectedField projection key = some field → Blank blank →
      JsonText decode (.value (field.apply value)) copy →
      JsonText decode (.members [(key, field.apply value)]) (34 :: (key ++ [34, 58]) ++ (copy ++ blank)) ∧
        ∀ members more, JsonText decode (.members members) more →
          JsonText decode (.members ((key, field.apply value) :: members))
            (34 :: (key ++ [34, 58]) ++ (copy ++ blank) ++ 44 :: more) := by
    intro field copy blank hselected hblank hcopy
    have hlast := JsonText.lastMember blank_nil (spelling_of_projected hselected) blank_nil blank_nil hcopy hblank
    have hmore := fun members more (hrest : JsonText decode (.members members) more) =>
      JsonText.member blank_nil (spelling_of_projected hselected) blank_nil blank_nil hcopy hblank hrest
    simp only [List.nil_append] at hlast hmore
    refine ⟨?_, fun members more hrest => ?_⟩
    · simpa using hlast
    · simpa using hmore members more hrest
  have hnamed : ∀ copy, (if first then output else output ++ [44]) ++ 34 :: (key ++ [34, 58]) ++ copy =
      output ++ if first then 34 :: (key ++ [34, 58]) ++ copy else 44 :: (34 :: (key ++ [34, 58]) ++ copy) := by
    intro copy
    cases first <;> simp
  obtain ⟨hobject, harray⟩ := ih
  rw [projectField.eq_def]
  dsimp only
  cases hfield with
  | skipped hselected hnests =>
    have hdelimited : Delimited (after ++ tail) := by
      obtain ⟨b, rest, rfl, hb⟩ := htail
      exact delimited_blank hafter (delimited_cons (by tauto) rest)
    have hskip := h.skipped 0 64 (2 * (between ++ (text ++ (after ++ tail))).length + 2) hnests (le_refl _)
      (by simp only [List.length_append]; omega) between (after ++ tail) hbetween hdelimited
    rw [hselected]
    dsimp only
    rw [hskip]
    exact ⟨first, _, [], by rw [List.append_nil], Or.inl rfl, Or.inl ⟨rfl, rfl, rfl⟩⟩
  | scalar hselected hnests =>
    rw [hselected]
    dsimp only
    rw [copyValue_text h hnests hbetween hafter htail]
    obtain ⟨hlast, hmore⟩ := hmember .scalar text after hselected hafter h
    exact ⟨false, tail, _, congrArg (fun out => Except.ok (false, tail, out)) (hnamed _), Or.inr rfl,
      Or.inr ⟨_, _, rfl, rfl, rfl, hlast, hmore⟩⟩
  | @object _ child _ _ hselected hchild =>
    obtain ⟨copy, hcopy, hrun⟩ := hobject child fuel hchild (by omega) between (after ++ tail)
      ((if first then output else output ++ [44]) ++ 34 :: (key ++ [34, 58])) hbetween
    rw [hselected]
    dsimp only
    rw [hrun]
    obtain ⟨hlast, hmore⟩ := hmember (.object child) copy [] hselected blank_nil hcopy
    rw [List.append_nil] at hlast hmore
    exact ⟨false, _, _, congrArg (fun out => Except.ok (false, after ++ tail, out)) (hnamed _), Or.inl rfl,
      Or.inr ⟨_, _, rfl, rfl, rfl, hlast, hmore⟩⟩
  | @array _ child _ values hselected hvalues =>
    obtain ⟨copy, hcopy, hrun⟩ := harray child fuel values rfl hvalues (by omega) between (after ++ tail)
      ((if first then output else output ++ [44]) ++ 34 :: (key ++ [34, 58])) hbetween
    have happly : (FieldProjection.array child).apply (.arr values) = .arr (projectValues child values) := by
      rw [FieldProjection.apply, UniValue.projectAll]
    rw [hselected]
    dsimp only
    rw [hrun]
    obtain ⟨hlast, hmore⟩ := hmember (.array child) copy [] hselected blank_nil (by rw [happly]; exact hcopy)
    rw [List.append_nil] at hlast hmore
    exact ⟨false, _, _, congrArg (fun out => Except.ok (false, after ++ tail, out)) (hnamed _), Or.inl rfl,
      Or.inr ⟨_, _, rfl, rfl, rfl, hlast, hmore⟩⟩

theorem consume_cursor {c : UInt8} {after tail cursor : List UInt8} (hafter : Blank after)
    (hcursor : cursor = after ++ tail ∨ cursor = tail) : consume c cursor = consume c tail := by
  rcases hcursor with rfl | rfl
  · rw [consume, whitespace_blank hafter]
    rfl
  · rfl

theorem projectMembers_whitespace (fuel : Nat) (projection : JsonProjection) (first : Bool) (cursor output : List UInt8) :
    projectMembers fuel projection first (whitespace cursor) output = projectMembers fuel projection first cursor output := by
  cases fuel with
  | zero => rfl
  | succ fuel =>
    rw [projectMembers.eq_def, projectMembers.eq_def]
    dsimp only
    rw [string_whitespace]

theorem projectElements_whitespace (fuel : Nat) (element : JsonProjection) (cursor output : List UInt8) :
    projectElements fuel element (whitespace cursor) output = projectElements fuel element cursor output := by
  have hobject : ∀ fuel, projectObject fuel element (whitespace cursor) output = projectObject fuel element cursor output := by
    intro fuel
    cases fuel with
    | zero => rfl
    | succ fuel =>
      rw [projectObject.eq_def, projectObject.eq_def]
      dsimp only
      rw [consume_whitespace]
  cases fuel with
  | zero => rfl
  | succ fuel =>
    rw [projectElements.eq_def, projectElements.eq_def]
    dsimp only
    rw [hobject]

theorem projectedItem_scalar (hobject : ∀ members, value ≠ .obj members) (harray : ∀ values, value ≠ .arr values) :
    ProjectedItem decode (.value value) text := by
  refine ⟨fun projection fuel h => ?_, fun element fuel values heq => absurd heq (harray values)⟩
  cases h with
  | obj h => exact absurd rfl (hobject _)

section Projected

variable {inner before colon between after raw key : List UInt8}

theorem ProjectedItem.emptyArr (hinner : Blank inner) :
    ProjectedItem decode (.value (.arr [])) (91 :: (inner ++ [93])) := by
  refine ⟨fun projection fuel h => (nomatch h), fun element fuel values heq _ hfuel blank rest output hblank => ?_⟩
  cases heq
  rw [List.length_cons] at hfuel
  obtain ⟨fuel, rfl⟩ : ∃ k, fuel = k + 1 := ⟨fuel - 1, by omega⟩
  refine ⟨[91, 93], by rw [projectValues]; exact .emptyArr blank_nil, ?_⟩
  rw [projectArray.eq_def]
  dsimp only
  rw [List.cons_append, consume_hit (by decide) hblank]
  dsimp only
  rw [List.append_assoc, List.singleton_append, consume_hit (by decide) hinner]
  dsimp only
  rw [List.append_assoc]
  rfl

theorem ProjectedItem.arr {values : List UniValue} (h : JsonText decode (.elements values) inner)
    (ih : ProjectedItem decode (.elements values) inner) :
    ProjectedItem decode (.value (.arr values)) (91 :: (inner ++ [93])) := by
  refine ⟨fun projection fuel h => (nomatch h), fun element fuel vs heq hvalues hfuel blank rest output hblank => ?_⟩
  cases heq
  simp only [List.length_cons, List.length_append, List.length_nil] at hfuel
  obtain ⟨fuel, rfl⟩ : ∃ k, fuel = k + 1 := ⟨fuel - 1, by omega⟩
  obtain ⟨copy, hcopy, hrun⟩ := ih element fuel hvalues (by omega) rest (output ++ [91])
  refine ⟨91 :: (copy ++ [93]), .arr hcopy, ?_⟩
  rw [projectArray.eq_def]
  dsimp only
  rw [List.cons_append, consume_hit (by decide) hblank]
  dsimp only
  rw [List.append_assoc, List.singleton_append, consume_other (h.elements_head _)]
  dsimp only
  rw [projectElements_whitespace, hrun]
  simp only [List.append_assoc, List.cons_append, List.nil_append]

theorem ProjectedItem.emptyObj (hinner : Blank inner) :
    ProjectedItem decode (.value (.obj [])) (123 :: (inner ++ [125])) := by
  refine ⟨fun projection fuel _ hfuel blank rest output hblank => ?_, nofun⟩
  rw [List.length_cons] at hfuel
  obtain ⟨fuel, rfl⟩ : ∃ k, fuel = k + 1 := ⟨fuel - 1, by omega⟩
  refine ⟨[123, 125], by rw [UniValue.project, projectEntries]; exact .emptyObj blank_nil, ?_⟩
  rw [projectObject.eq_def]
  dsimp only
  rw [List.cons_append, consume_hit (by decide) hblank]
  dsimp only
  rw [List.append_assoc, List.singleton_append, consume_hit (by decide) hinner]
  dsimp only
  rw [List.append_assoc]
  rfl

theorem ProjectedItem.obj {members : List (List UInt8 × UniValue)} (h : JsonText decode (.members members) inner)
    (ih : ProjectedItem decode (.members members) inner) :
    ProjectedItem decode (.value (.obj members)) (123 :: (inner ++ [125])) := by
  refine ⟨fun projection fuel hprojectable hfuel blank rest output hblank => ?_, nofun⟩
  simp only [List.length_cons, List.length_append, List.length_nil] at hfuel
  obtain ⟨fuel, rfl⟩ : ∃ k, fuel = k + 1 := ⟨fuel - 1, by omega⟩
  cases hprojectable with
  | obj hfields =>
    obtain ⟨copy, hcopy, hrun⟩ := ih projection fuel hfields (by omega) true rest (output ++ [123])
    refine ⟨123 :: (copy ++ [125]), ?_, ?_⟩
    · rw [UniValue.project]
      rcases hcopy with ⟨hempty, rfl⟩ | ⟨inner', hinner', rfl⟩
      · rw [hempty]
        exact .emptyObj blank_nil
      · exact .obj hinner'
    · rw [projectObject.eq_def]
      dsimp only
      rw [List.cons_append, consume_hit (by decide) hblank]
      dsimp only
      rw [List.append_assoc, List.singleton_append, consume_other (h.members_head _)]
      dsimp only
      rw [projectMembers_whitespace, hrun]
      simp only [List.append_assoc, List.cons_append, List.nil_append]

theorem ProjectedItem.lastElement (hbefore : Blank before) (hafter : Blank after) (ih : ProjectedItem decode (.value value) text) :
    ProjectedItem decode (.elements [value]) (before ++ (text ++ after)) := by
  intro element fuel hvalues hfuel rest output
  simp only [List.length_append] at hfuel
  obtain ⟨fuel, rfl⟩ : ∃ k, fuel = k + 1 := ⟨fuel - 1, by omega⟩
  obtain ⟨copy, hcopy, hrun⟩ := ih.1 element fuel (hvalues _ List.mem_cons_self) (by omega) before (after ++ 93 :: rest)
    output hbefore
  refine ⟨copy, ?_, ?_⟩
  · rw [projectValues, projectValues]
    have hlast := JsonText.lastElement blank_nil blank_nil hcopy
    rwa [List.nil_append, List.append_nil] at hlast
  · rw [projectElements.eq_def]
    dsimp only
    simp only [List.append_assoc]
    rw [hrun]
    dsimp only
    rw [consume_hit (by decide) hafter]
    simp only [List.append_assoc]

theorem ProjectedItem.element {values : List UniValue} {more : List UInt8} (hbefore : Blank before) (hafter : Blank after)
    (ih : ProjectedItem decode (.value value) text) (ihrest : ProjectedItem decode (.elements values) more) :
    ProjectedItem decode (.elements (value :: values)) (before ++ (text ++ (after ++ 44 :: more))) := by
  intro element fuel hvalues hfuel rest output
  simp only [List.length_append, List.length_cons] at hfuel
  obtain ⟨fuel, rfl⟩ : ∃ k, fuel = k + 1 := ⟨fuel - 1, by omega⟩
  obtain ⟨copy, hcopy, hrun⟩ := ih.1 element fuel (hvalues _ List.mem_cons_self) (by omega) before
    (after ++ 44 :: (more ++ 93 :: rest)) output hbefore
  obtain ⟨copies, hcopies, hruns⟩ := ihrest element fuel (fun v hv => hvalues v (List.mem_cons_of_mem _ hv)) (by omega)
    rest (output ++ copy ++ [44])
  refine ⟨copy ++ 44 :: copies, ?_, ?_⟩
  · rw [projectValues]
    have hmore := JsonText.element blank_nil blank_nil hcopy hcopies
    rwa [List.nil_append, List.nil_append] at hmore
  · rw [projectElements.eq_def]
    dsimp only
    simp only [List.append_assoc, List.cons_append]
    rw [hrun]
    dsimp only
    rw [consume_miss (by decide) (by decide) hafter]
    dsimp only
    rw [consume_next (by decide)]
    dsimp only
    rw [hruns]
    simp only [List.append_assoc, List.cons_append, List.nil_append]

theorem ProjectedItem.lastMember (hbefore : Blank before) (hkey : KeySpelling raw key) (hcolon : Blank colon)
    (hbetween : Blank between) (h : JsonText decode (.value value) text) (hafter : Blank after)
    (ih : ProjectedItem decode (.value value) text) :
    ProjectedItem decode (.members [(key, value)])
      (before ++ 34 :: (raw ++ 34 :: (colon ++ 58 :: (between ++ (text ++ after))))) := by
  intro projection fuel hfields hfuel first rest output
  simp only [List.length_append, List.length_cons] at hfuel
  obtain ⟨fuel, rfl⟩ : ∃ k, fuel = k + 1 := ⟨fuel - 1, by omega⟩
  obtain ⟨first', cursor, copy, hrun, hcursor, hcopied⟩ := projectField_text h ih (hfields _ List.mem_cons_self)
    (by omega : 2 * text.length + 1 ≤ fuel) first hbetween hafter ⟨125, rest, rfl, Or.inr rfl⟩ output
  refine ⟨copy, ?_, ?_⟩
  · rw [projectEntries_cons]
    rcases hcopied with ⟨hskipped, -, rfl⟩ | ⟨field, inner, hselected, -, rfl, hlast, -⟩
    · rw [hskipped]
      exact Or.inl ⟨by rw [projectEntries], rfl⟩
    · rw [hselected]
      dsimp only
      rw [projectEntries]
      exact Or.inr ⟨inner, hlast, rfl⟩
  · rw [projectMembers.eq_def]
    dsimp only
    simp only [List.append_assoc, List.cons_append]
    rw [string_key hbefore hkey.text]
    dsimp only
    rw [consume_hit (by decide) hcolon]
    dsimp only
    rw [hrun]
    dsimp only
    rw [consume_cursor hafter hcursor, consume_next (by decide)]
    simp only [List.append_assoc]

theorem ProjectedItem.member {members : List (List UInt8 × UniValue)} {more : List UInt8} (hbefore : Blank before)
    (hkey : KeySpelling raw key) (hcolon : Blank colon) (hbetween : Blank between)
    (h : JsonText decode (.value value) text) (hafter : Blank after) (ih : ProjectedItem decode (.value value) text)
    (ihrest : ProjectedItem decode (.members members) more) :
    ProjectedItem decode (.members ((key, value) :: members))
      (before ++ 34 :: (raw ++ 34 :: (colon ++ 58 :: (between ++ (text ++ (after ++ 44 :: more)))))) := by
  intro projection fuel hfields hfuel first rest output
  simp only [List.length_append, List.length_cons] at hfuel
  obtain ⟨fuel, rfl⟩ : ∃ k, fuel = k + 1 := ⟨fuel - 1, by omega⟩
  obtain ⟨first', cursor, copy, hrun, hcursor, hcopied⟩ := projectField_text h ih (hfields _ List.mem_cons_self)
    (by omega : 2 * text.length + 1 ≤ fuel) first hbetween hafter
    ⟨44, more ++ 125 :: rest, rfl, Or.inl rfl⟩ output
  obtain ⟨copies, hcopies, hruns⟩ := ihrest projection fuel (fun entry hentry => hfields entry (List.mem_cons_of_mem _ hentry))
    (by omega) first' rest (output ++ copy)
  refine ⟨copy ++ copies, ?_, ?_⟩
  · rw [projectEntries_cons]
    rcases hcopied with ⟨hskipped, rfl, rfl⟩ | ⟨field, inner, hselected, rfl, rfl, hlast, hmore⟩
    · rw [hskipped]
      exact hcopies
    · rw [hselected]
      dsimp only
      rcases hcopies with ⟨hempty, rfl⟩ | ⟨inner', hinner', rfl⟩
      · rw [hempty, List.append_nil]
        exact Or.inr ⟨inner, hlast, rfl⟩
      · refine Or.inr ⟨inner ++ 44 :: inner', hmore _ _ hinner', ?_⟩
        cases first <;> rfl
  · rw [projectMembers.eq_def]
    dsimp only
    simp only [List.append_assoc, List.cons_append]
    rw [string_key hbefore hkey.text]
    dsimp only
    rw [consume_hit (by decide) hcolon]
    dsimp only
    rw [hrun]
    dsimp only
    rw [consume_cursor hafter hcursor, consume_past (by decide) (by decide)]
    dsimp only
    rw [consume_next (by decide)]
    dsimp only
    rw [hruns]
    simp only [List.append_assoc]

end Projected

theorem JsonText.projected (h : JsonText decode item text) : ProjectedItem decode item text := by
  induction h with
  | nullText => exact projectedItem_scalar nofun nofun
  | trueText => exact projectedItem_scalar nofun nofun
  | falseText => exact projectedItem_scalar nofun nofun
  | numText h => exact projectedItem_scalar nofun nofun
  | strText h hdecode => exact projectedItem_scalar nofun nofun
  | emptyArr hinner => exact .emptyArr hinner
  | arr h ih => exact .arr h ih
  | emptyObj hinner => exact .emptyObj hinner
  | obj h ih => exact .obj h ih
  | lastElement hbefore hafter h ih => exact .lastElement hbefore hafter ih
  | element hbefore hafter h hrest ih ihrest => exact .element hbefore hafter ih ihrest
  | lastMember hbefore hkey hcolon hbetween h hafter ih => exact .lastMember hbefore hkey hcolon hbetween h hafter ih
  | member hbefore hkey hcolon hbetween h hafter hrest ih ihrest =>
    exact .member hbefore hkey hcolon hbetween h hafter ih ihrest

/-! ## The streaming parser -/

theorem projectVerboseBlock_text {before after : List UInt8} (hbefore : Blank before) (hafter : Blank after)
    (h : JsonText decode (.value value) text) (hprojectable : Projectable .block value) :
    ∃ copy, JsonText decode (.value (value.project .block)) copy ∧
      projectVerboseBlock (before ++ (text ++ after)) = .ok copy := by
  obtain ⟨copy, hcopy, hrun⟩ := h.projected.1 .block (2 * (before ++ (text ++ after)).length + 2) hprojectable
    (by simp only [List.length_append]; omega) before after [] hbefore
  have hend : whitespace after = [] := List.dropWhile_eq_nil_iff.mpr hafter
  refine ⟨copy, hcopy, ?_⟩
  rw [projectVerboseBlock, hrun]
  dsimp only
  rw [hend, if_neg (not_not.mpr rfl), List.nil_append]

theorem projectVerboseBlock_refused {before after : List UInt8} (hbefore : Blank before)
    (h : JsonText decode (.value value) text) (hvalue : value.isObject = false) :
    projectVerboseBlock (before ++ (text ++ after)) = .error "projected JSON field must be an object" := by
  obtain ⟨b, rest, rfl, hspace, -, hobject⟩ := h.head
  have hother : b ≠ 123 := by
    intro heq
    rw [hobject heq] at hvalue
    cases hvalue
  rw [projectVerboseBlock, projectObject.eq_def]
  dsimp only
  rw [List.cons_append, consume_miss hspace hother hbefore]

end Texts

/-- **Streaming.** A block is taken from the projection of its text exactly if it is taken from the whole text, with the
same delta. -/
theorem parseVerboseBlockJson_iff {H : Type} [StoredHash H] [DecidableEq H] {decode : List UInt8 → Option (List UInt8)}
    {read : List UInt8 → Option UniValue} (hread : ReadsJson decode read) {before text after : List UInt8}
    {value : UniValue} (hbefore : Blank before) (hafter : Blank after) (htext : JsonText decode (.value value) text)
    (hprojectable : value.isObject = true → Projectable .block value)
    (hnests : value.isObject = false → NestsWithin maxJsonDepth value) (resolve : Nat → Except String H)
    (delta : VerboseDelta H) :
    parseVerboseBlockJson read (before ++ (text ++ after)) resolve = .ok delta ↔
      ∃ full, read (before ++ (text ++ after)) = some full ∧ parseVerboseBlock full resolve = .ok delta := by
  have hdepth : NestsWithin maxJsonDepth value := by
    cases hobject : value.isObject with
    | true => exact (hprojectable hobject).nests.mono (by decide)
    | false => exact hnests hobject
  have hfull := hread before text after value hbefore hafter htext hdepth
  have hwhole : (∃ full, read (before ++ (text ++ after)) = some full ∧ parseVerboseBlock full resolve = .ok delta) ↔
      parseVerboseBlock value resolve = .ok delta := by
    rw [hfull]
    constructor
    · rintro ⟨full, hsome, hparse⟩
      rwa [Option.some.inj hsome]
    · exact fun hparse => ⟨value, rfl, hparse⟩
  rw [hwhole]
  cases hobject : value.isObject with
  | true =>
    obtain ⟨copy, hcopy, hrun⟩ := projectVerboseBlock_text hbefore hafter htext (hprojectable hobject)
    have hcopied := hread [] copy [] _ blank_nil blank_nil hcopy (hdepth.projected .block).1
    rw [List.nil_append, List.append_nil] at hcopied
    rw [parseVerboseBlockJson, hrun]
    dsimp only
    rw [hcopied]
    dsimp only
    rw [parseVerboseBlock_project]
  | false =>
    rw [parseVerboseBlockJson, projectVerboseBlock_refused hbefore htext hobject, parseVerboseBlock, hobject]
    constructor
    · intro h
      cases h
    · intro h
      cases h

/-- A block at height 0, with a field that is not read. -/
def smallBlock : UniValue :=
  .obj [(ascii "hash", .str (List.replicate 64 48)), (ascii "time", .arr [.num [49]]), (ascii "height", .num [48]),
    (ascii "tx", .arr [.obj [(ascii "txid", .str (List.replicate 64 48)), (ascii "vin", .arr []), (ascii "vout", .arr [])]])]

def memberText (key text : List UInt8) : List UInt8 := 34 :: (key ++ 34 :: 58 :: text)

def zeroText : List UInt8 := 34 :: (List.replicate 64 48 ++ [34])

def smallTransaction : List UInt8 :=
  123 :: (memberText (ascii "txid") zeroText ++ 44 :: (memberText (ascii "vin") [91, 93] ++
    44 :: memberText (ascii "vout") [91, 93]) ++ [125])

def smallText : List UInt8 :=
  123 :: (memberText (ascii "hash") zeroText ++ 44 :: (memberText (ascii "time") [91, 49, 93] ++
    44 :: (memberText (ascii "height") [48] ++ 44 :: memberText (ascii "tx") (91 :: (smallTransaction ++ [93])))) ++ [125])

section Small

variable {decode : List UInt8 → Option (List UInt8)} {key text : List UInt8} {value : UniValue}

theorem jsonText_lastMember (hkey : KeySpelling key key) (h : JsonText decode (.value value) text) :
    JsonText decode (.members [(key, value)]) (memberText key text) := by
  have hlast := JsonText.lastMember blank_nil hkey blank_nil blank_nil h blank_nil
  simpa only [memberText, List.nil_append, List.append_nil] using hlast

theorem jsonText_member (hkey : KeySpelling key key) (h : JsonText decode (.value value) text)
    {members : List (List UInt8 × UniValue)} {rest : List UInt8} (hrest : JsonText decode (.members members) rest) :
    JsonText decode (.members ((key, value) :: members)) (memberText key text ++ 44 :: rest) := by
  have hmember := JsonText.member blank_nil hkey blank_nil blank_nil h blank_nil hrest
  simpa only [memberText, List.nil_append, List.append_nil, List.append_assoc, List.cons_append] using hmember

theorem jsonText_singleton (h : JsonText decode (.value value) text) :
    JsonText decode (.value (.arr [value])) (91 :: (text ++ [93])) := by
  have hlast := JsonText.lastElement blank_nil blank_nil h
  rw [List.nil_append, List.append_nil] at hlast
  exact .arr hlast

theorem stringText_of_plain {raw : List UInt8} (h : ∀ b ∈ raw, ¬b < 0x20 ∧ b ≠ 34 ∧ b ≠ 92) : StringText raw := by
  induction raw with
  | nil => exact .nil
  | cons b raw ih =>
    obtain ⟨hcontrol, hquote, hescape⟩ := h b List.mem_cons_self
    exact .byte hcontrol hquote hescape (ih fun c hc => h c (List.mem_cons_of_mem _ hc))

end Small

theorem smallText_json : JsonText some (.value smallBlock) smallText := by
  have hzero : JsonText some (.value (.str (List.replicate 64 48))) zeroText :=
    .strText (stringText_of_plain (by decide +kernel)) rfl
  have hempty : JsonText some (.value (.arr [])) [91, 93] := .emptyArr blank_nil
  have hdigits : JsonText some (.value (.num [49])) [49] := by
    have hone : UnsignedText (49 :: ([] ++ [])) := .positive (by decide) (by rintro d ⟨⟩) (.none .none)
    exact .numText (.unsigned hone)
  have hheight : JsonText some (.value (.num [48])) [48] := .numText (.unsigned (.zero (.none .none)))
  have hkey : ∀ key ∈ ["hash", "time", "height", "tx", "txid", "vin", "vout"], KeySpelling (ascii key) (ascii key) := by
    intro key hkey
    have hplain : ∀ name ∈ ["hash", "time", "height", "tx", "txid", "vin", "vout"],
        (∀ b ∈ ascii name, ¬b < 0x20 ∧ b ≠ 34 ∧ b ≠ 92) ∧ name.toList.flatMap String.utf8EncodeChar = ascii name := by
      decide +kernel
    obtain ⟨hbytes, hutf8⟩ := hplain key hkey
    exact ⟨keyText_of_plain hbytes, utf8_ascii hutf8⟩
  have htransaction := JsonText.obj (jsonText_member (hkey "txid" (by decide)) hzero
    (jsonText_member (hkey "vin" (by decide)) hempty (jsonText_lastMember (hkey "vout" (by decide)) hempty)))
  exact .obj (jsonText_member (hkey "hash" (by decide)) hzero
    (jsonText_member (hkey "time" (by decide)) (jsonText_singleton hdigits)
      (jsonText_member (hkey "height" (by decide)) hheight
        (jsonText_lastMember (hkey "tx" (by decide)) (jsonText_singleton htransaction)))))

theorem smallBlock_projectable : Projectable .block smallBlock := by
  have hvin : projectedField .transaction (ascii "vin") = some (.array .input) := by decide
  have hvout : projectedField .transaction (ascii "vout") = some (.array .output) := by decide
  have htx : projectedField .block (ascii "tx") = some (.array .transaction) := by decide
  have htransaction : Projectable .transaction (.obj [(ascii "txid", .str (List.replicate 64 48)), (ascii "vin", .arr []),
      (ascii "vout", .arr [])]) := by
    refine .obj fun entry hentry => ?_
    simp only [List.mem_cons, List.not_mem_nil, or_false] at hentry
    rcases hentry with rfl | rfl | rfl
    · exact .scalar (by decide) (.str _ _)
    · exact .array hvin (by rintro v ⟨⟩)
    · exact .array hvout (by rintro v ⟨⟩)
  refine .obj fun entry hentry => ?_
  simp only [List.mem_cons, List.not_mem_nil, or_false] at hentry
  rcases hentry with rfl | rfl | rfl | rfl
  · exact .scalar (by decide) (.str _ _)
  · refine .skipped (by decide) (.arr fun v hv => ?_)
    rw [List.mem_singleton.mp hv]
    exact .num _ _
  · exact .scalar (by decide) (.num _ _)
  · refine .array htx fun v hv => ?_
    rw [List.mem_singleton.mp hv]
    exact htransaction

theorem parseVerboseBlockJson_iff_small :
    parseVerboseBlockJson (readJson some) ([] ++ (smallText ++ [])) (fun _ => .error "not asked for") =
      .ok (⟨⟨⟨0, ByteHash.zero⟩, ByteHash.zero, [], []⟩, []⟩ : VerboseDelta ByteHash) := by
  refine (parseVerboseBlockJson_iff (readsJson some) blank_nil blank_nil smallText_json (fun _ => smallBlock_projectable) nofun _
    _).mpr ⟨smallBlock, readsJson some [] smallText [] smallBlock blank_nil blank_nil smallText_json
      (smallBlock_projectable.nests.mono (by decide)), ?_⟩
  rfl

end UtreexoBridge.Rpc
