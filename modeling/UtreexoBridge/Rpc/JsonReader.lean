import UtreexoBridge.Rpc.JsonText

/-!
# A reader of JSON texts

It gives a text the value that it stands for, so no text stands for two.
-/

namespace UtreexoBridge.Rpc

open JsonCursor

def maxJsonDepth : Nat := 512

/-- A reader of standard JSON down to `MAX_JSON_DEPTH`, which takes the inside of a string for `decode`. -/
def ReadsJson (decode : List UInt8 → Option (List UInt8)) (read : List UInt8 → Option UniValue) : Prop :=
  ∀ before text after value, Blank before → Blank after → JsonText decode (.value value) text →
    NestsWithin maxJsonDepth value → read (before ++ (text ++ after)) = some value

/-! ## The reader -/

section Reader

variable (decode : List UInt8 → Option (List UInt8))

/-- A string, behind its opening quote. -/
def readString (cursor : List UInt8) : Option (UniValue × List UInt8) :=
  match skipString cursor with
  | .error _ => none
  | .ok behind => (decode (cursor.take (cursor.length - behind.length - 1))).map fun text => (.str text, behind)

def readNumber (cursor : List UInt8) : Option (UniValue × List UInt8) :=
  match skipNumber cursor with
  | .error _ => none
  | .ok behind => some (.num (cursor.take (cursor.length - behind.length)), behind)

def readLiteral (text : List UInt8) (value : UniValue) (cursor : List UInt8) : Option (UniValue × List UInt8) :=
  match literal text cursor with
  | .error _ => none
  | .ok behind => some (value, behind)

mutual

def readValue : Nat → List UInt8 → Option (UniValue × List UInt8)
  | 0, _ => none
  | fuel + 1, cursor =>
    match whitespace cursor with
    | [] => none
    | b :: rest =>
      if b = 34 then readString decode rest
      else if b = 123 then
        match consume 125 rest with
        | (true, cursor) => some (.obj [], cursor)
        | (false, cursor) => (readMembers fuel cursor).map fun found => (.obj found.1, found.2)
      else if b = 91 then
        match consume 93 rest with
        | (true, cursor) => some (.arr [], cursor)
        | (false, cursor) => (readElements fuel cursor).map fun found => (.arr found.1, found.2)
      else if b = 116 then readLiteral (ascii "true") (.bool true) (b :: rest)
      else if b = 102 then readLiteral (ascii "false") (.bool false) (b :: rest)
      else if b = 110 then readLiteral (ascii "null") .null (b :: rest)
      else readNumber (b :: rest)

def readMembers : Nat → List UInt8 → Option (List (List UInt8 × UniValue) × List UInt8)
  | 0, _ => none
  | fuel + 1, cursor =>
    match string cursor with
    | .error _ => none
    | .ok (key, cursor) =>
      match consume 58 cursor with
      | (false, _) => none
      | (true, cursor) =>
        match readValue fuel cursor with
        | none => none
        | some (value, cursor) =>
          match consume 125 cursor with
          | (true, cursor) => some ([(key, value)], cursor)
          | (false, cursor) =>
            match consume 44 cursor with
            | (false, _) => none
            | (true, cursor) => (readMembers fuel cursor).map fun found => ((key, value) :: found.1, found.2)

def readElements : Nat → List UInt8 → Option (List UniValue × List UInt8)
  | 0, _ => none
  | fuel + 1, cursor =>
    match readValue fuel cursor with
    | none => none
    | some (value, cursor) =>
      match consume 93 cursor with
      | (true, cursor) => some ([value], cursor)
      | (false, cursor) =>
        match consume 44 cursor with
        | (false, _) => none
        | (true, cursor) => (readElements fuel cursor).map fun found => (value :: found.1, found.2)

end

def readJson (text : List UInt8) : Option UniValue :=
  match readValue decode (text.length + 1) text with
  | none => none
  | some (value, cursor) => if whitespace cursor = [] then some value else none

end Reader

/-! ## It reads every text -/

section Texts

variable {decode : List UInt8 → Option (List UInt8)} {item : JsonItem} {text : List UInt8}

theorem readElements_whitespace (fuel : Nat) (cursor : List UInt8) :
    readElements decode fuel (whitespace cursor) = readElements decode fuel cursor := by
  have hvalue : ∀ fuel, readValue decode fuel (whitespace cursor) = readValue decode fuel cursor := by
    intro fuel
    cases fuel with
    | zero => rfl
    | succ fuel =>
      rw [readValue.eq_def, readValue.eq_def]
      dsimp only
      rw [whitespace_whitespace]
  cases fuel with
  | zero => rfl
  | succ fuel =>
    rw [readElements.eq_def, readElements.eq_def]
    dsimp only
    rw [hvalue]

theorem readMembers_whitespace (fuel : Nat) (cursor : List UInt8) :
    readMembers decode fuel (whitespace cursor) = readMembers decode fuel cursor := by
  cases fuel with
  | zero => rfl
  | succ fuel =>
    rw [readMembers.eq_def, readMembers.eq_def]
    dsimp only
    rw [string_whitespace]

/-- What reading a text gives, by what the text stands for. -/
def ReadItem (decode : List UInt8 → Option (List UInt8)) : JsonItem → List UInt8 → Prop
  | .value value, text => ∀ fuel, text.length ≤ fuel → ∀ blank rest, Blank blank → Delimited rest →
    readValue decode fuel (blank ++ (text ++ rest)) = some (value, rest)
  | .elements values, text => ∀ fuel, text.length < fuel → ∀ rest,
    readElements decode fuel (text ++ 93 :: rest) = some (values, rest)
  | .members members, text => ∀ fuel, text.length < fuel → ∀ rest,
    readMembers decode fuel (text ++ 125 :: rest) = some (members, rest)

theorem JsonText.read (h : JsonText decode item text) : ReadItem decode item text := by
  induction h with
  | nullText =>
    intro fuel hfuel blank rest hblank _
    obtain ⟨fuel, rfl⟩ : ∃ k, fuel = k + 1 := ⟨fuel - 1, by have : (ascii "null").length = 4 := rfl; omega⟩
    rw [readValue.eq_def]
    dsimp only
    rw [whitespace_blank hblank]
    rfl
  | trueText =>
    intro fuel hfuel blank rest hblank _
    obtain ⟨fuel, rfl⟩ : ∃ k, fuel = k + 1 := ⟨fuel - 1, by have : (ascii "true").length = 4 := rfl; omega⟩
    rw [readValue.eq_def]
    dsimp only
    rw [whitespace_blank hblank]
    rfl
  | falseText =>
    intro fuel hfuel blank rest hblank _
    obtain ⟨fuel, rfl⟩ : ∃ k, fuel = k + 1 := ⟨fuel - 1, by have : (ascii "false").length = 5 := rfl; omega⟩
    rw [readValue.eq_def]
    dsimp only
    rw [whitespace_blank hblank]
    rfl
  | @numText text h =>
    intro fuel hfuel blank rest hblank hrest
    have hnumber := skipNumber_text h hrest
    have htake : (text ++ rest).take ((text ++ rest).length - rest.length) = text :=
      List.take_left' (by simp only [List.length_append]; omega)
    obtain ⟨b, tail, htext, hb⟩ := h.head
    obtain ⟨hspace, -, -, hquote, hobject, harray, ht, hf, hn⟩ := number_head hb
    obtain ⟨fuel, rfl⟩ : ∃ k, fuel = k + 1 := ⟨fuel - 1, by rw [htext, List.length_cons] at hfuel; omega⟩
    have hread : readNumber (text ++ rest) = some (.num text, rest) := by
      rw [readNumber, hnumber]
      dsimp only
      rw [htake]
    rw [readValue.eq_def]
    dsimp only
    rw [whitespace_blank hblank, htext, List.cons_append, whitespace_of_not_space hspace]
    dsimp only
    rw [if_neg hquote, if_neg hobject, if_neg harray, if_neg ht, if_neg hf, if_neg hn, ← List.cons_append, ← htext]
    exact hread
  | @strText raw text h hdecode =>
    intro fuel hfuel blank rest hblank _
    obtain ⟨fuel, rfl⟩ : ∃ k, fuel = k + 1 := ⟨fuel - 1, by rw [List.length_cons] at hfuel; omega⟩
    have htake : (raw ++ 34 :: rest).take ((raw ++ 34 :: rest).length - rest.length - 1) = raw :=
      List.take_left' (by simp only [List.length_append, List.length_cons]; omega)
    rw [readValue.eq_def]
    dsimp only
    rw [whitespace_blank hblank, List.cons_append, whitespace_of_not_space (by decide)]
    dsimp only
    rw [if_pos rfl, List.append_assoc, List.singleton_append, readString, skipString_text h]
    dsimp only
    rw [htake, hdecode]
    rfl
  | emptyArr hinner =>
    intro fuel hfuel blank rest hblank _
    obtain ⟨fuel, rfl⟩ : ∃ k, fuel = k + 1 := ⟨fuel - 1, by rw [List.length_cons] at hfuel; omega⟩
    rw [readValue.eq_def]
    dsimp only
    rw [whitespace_blank hblank, List.cons_append, whitespace_of_not_space (by decide)]
    dsimp only
    rw [if_neg (by decide), if_neg (by decide), if_pos rfl, List.append_assoc, List.singleton_append,
      consume_hit (by decide) hinner]
  | arr h ih =>
    intro fuel hfuel blank rest hblank _
    simp only [List.length_cons, List.length_append, List.length_nil] at hfuel
    obtain ⟨fuel, rfl⟩ : ∃ k, fuel = k + 1 := ⟨fuel - 1, by omega⟩
    have hinner := ih fuel (by omega) rest
    rw [readValue.eq_def]
    dsimp only
    rw [whitespace_blank hblank, List.cons_append, whitespace_of_not_space (by decide)]
    dsimp only
    rw [if_neg (by decide), if_neg (by decide), if_pos rfl, List.append_assoc, List.singleton_append,
      consume_other (h.elements_head _)]
    dsimp only
    rw [readElements_whitespace, hinner]
    rfl
  | emptyObj hinner =>
    intro fuel hfuel blank rest hblank _
    obtain ⟨fuel, rfl⟩ : ∃ k, fuel = k + 1 := ⟨fuel - 1, by rw [List.length_cons] at hfuel; omega⟩
    rw [readValue.eq_def]
    dsimp only
    rw [whitespace_blank hblank, List.cons_append, whitespace_of_not_space (by decide)]
    dsimp only
    rw [if_neg (by decide), if_pos rfl, List.append_assoc, List.singleton_append, consume_hit (by decide) hinner]
  | obj h ih =>
    intro fuel hfuel blank rest hblank _
    simp only [List.length_cons, List.length_append, List.length_nil] at hfuel
    obtain ⟨fuel, rfl⟩ : ∃ k, fuel = k + 1 := ⟨fuel - 1, by omega⟩
    have hinner := ih fuel (by omega) rest
    rw [readValue.eq_def]
    dsimp only
    rw [whitespace_blank hblank, List.cons_append, whitespace_of_not_space (by decide)]
    dsimp only
    rw [if_neg (by decide), if_pos rfl, List.append_assoc, List.singleton_append, consume_other (h.members_head _)]
    dsimp only
    rw [readMembers_whitespace, hinner]
    rfl
  | @lastElement value before text after hbefore hafter h ih =>
    intro fuel hfuel rest
    simp only [List.length_append] at hfuel
    obtain ⟨fuel, rfl⟩ : ∃ k, fuel = k + 1 := ⟨fuel - 1, by omega⟩
    have hvalue := ih fuel (by omega) _ (after ++ 93 :: rest) hbefore
      (delimited_blank hafter (delimited_cons (by decide) rest))
    rw [readElements.eq_def]
    dsimp only
    rw [List.append_assoc, List.append_assoc, hvalue]
    dsimp only
    rw [consume_hit (by decide) hafter]
  | @element value values before text after more hbefore hafter h hrest ih ihrest =>
    intro fuel hfuel rest
    simp only [List.length_append, List.length_cons] at hfuel
    obtain ⟨fuel, rfl⟩ : ∃ k, fuel = k + 1 := ⟨fuel - 1, by omega⟩
    have hvalue := ih fuel (by omega) _ (after ++ 44 :: (more ++ 93 :: rest)) hbefore
      (delimited_blank hafter (delimited_cons (by decide) _))
    have htail := ihrest fuel (by omega) rest
    rw [readElements.eq_def]
    dsimp only
    simp only [List.append_assoc, List.cons_append]
    rw [hvalue]
    dsimp only
    rw [consume_miss (by decide) (by decide) hafter]
    dsimp only
    rw [consume_next (by decide)]
    dsimp only
    rw [htail]
    rfl
  | @lastMember key raw value before colon between text after hbefore hkey hcolon hbetween h hafter ih =>
    intro fuel hfuel rest
    simp only [List.length_append, List.length_cons] at hfuel
    obtain ⟨fuel, rfl⟩ : ∃ k, fuel = k + 1 := ⟨fuel - 1, by omega⟩
    have hvalue := ih fuel (by omega) _ (after ++ 125 :: rest) hbetween
      (delimited_blank hafter (delimited_cons (by decide) rest))
    rw [readMembers.eq_def]
    dsimp only
    simp only [List.append_assoc, List.cons_append]
    rw [string_key hbefore hkey.text]
    dsimp only
    rw [consume_hit (by decide) hcolon]
    dsimp only
    rw [hvalue]
    dsimp only
    rw [consume_hit (by decide) hafter]
  | @member key raw value members before colon between text after more hbefore hkey hcolon hbetween h hafter hrest ih
      ihrest =>
    intro fuel hfuel rest
    simp only [List.length_append, List.length_cons] at hfuel
    obtain ⟨fuel, rfl⟩ : ∃ k, fuel = k + 1 := ⟨fuel - 1, by omega⟩
    have hvalue := ih fuel (by omega) _ (after ++ 44 :: (more ++ 125 :: rest)) hbetween
      (delimited_blank hafter (delimited_cons (by decide) _))
    have htail := ihrest fuel (by omega) rest
    rw [readMembers.eq_def]
    dsimp only
    simp only [List.append_assoc, List.cons_append]
    rw [string_key hbefore hkey.text]
    dsimp only
    rw [consume_hit (by decide) hcolon]
    dsimp only
    rw [hvalue]
    dsimp only
    rw [consume_miss (by decide) (by decide) hafter]
    dsimp only
    rw [consume_next (by decide)]
    dsimp only
    rw [htail]
    rfl

/-- The reader reads standard JSON. -/
theorem readsJson (decode : List UInt8 → Option (List UInt8)) : ReadsJson decode (readJson decode) := by
  intro before text after value hbefore hafter h _
  have hdelimited : Delimited after := by
    rw [← List.append_nil after]
    exact delimited_blank hafter fun b hb => nomatch hb
  have hread := h.read ((before ++ (text ++ after)).length + 1) (by simp only [List.length_append]; omega) before after
    hbefore hdelimited
  have hend : whitespace after = [] := List.dropWhile_eq_nil_iff.mpr hafter
  rw [readJson, hread]
  dsimp only
  rw [if_pos hend]

end Texts

end UtreexoBridge.Rpc
