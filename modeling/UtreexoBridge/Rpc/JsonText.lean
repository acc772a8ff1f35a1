import UtreexoBridge.Rpc.JsonCursor

/-!
# JSON texts

The texts of a value, and what the cursor makes of them. What stands between
the quotes of a string value is a matter of the reader.
-/

namespace UtreexoBridge.Rpc

open JsonCursor

/-! ## Tokens -/

def Blank (text : List UInt8) : Prop := ∀ b ∈ text, isSpace b = true

theorem blank_nil : Blank [] := by
  rintro b ⟨⟩

/-- What may stand between the quotes of a string. -/
inductive StringText : List UInt8 → Prop
  | nil : StringText []
  | byte {b : UInt8} {raw : List UInt8} (hcontrol : ¬b < 0x20) (hquote : b ≠ 34) (hescape : b ≠ 92)
      (h : StringText raw) : StringText (b :: raw)
  | escape {b : UInt8} {raw : List UInt8} (hb : (simpleEscape b).isSome) (h : StringText raw) :
      StringText (92 :: b :: raw)
  | unicode {a b c d : UInt8} {raw : List UInt8}
      (hdigits : ([a, b, c, d].all fun digit => (hexDigit digit).isSome) = true) (h : StringText raw) :
      StringText (92 :: 117 :: a :: b :: c :: d :: raw)

/-- A key between its quotes, with no escape of a character beyond ASCII. -/
inductive KeyText : List UInt8 → List UInt8 → Prop
  | nil : KeyText [] []
  | byte {b : UInt8} {raw key : List UInt8} (hcontrol : ¬b < 0x20) (hquote : b ≠ 34) (hescape : b ≠ 92)
      (h : KeyText raw key) : KeyText (b :: raw) (b :: key)
  | escape {b c : UInt8} {raw key : List UInt8} (hb : simpleEscape b = some c) (h : KeyText raw key) :
      KeyText (92 :: b :: raw) (c :: key)
  | unicode {a b c d : UInt8} {code : Nat} {raw key : List UInt8} (hcode : codepoint [a, b, c, d] = some code)
      (hascii : code ≤ 0x7f) (h : KeyText raw key) :
      KeyText (92 :: 117 :: a :: b :: c :: d :: raw) (UInt8.ofNat code :: key)

def Utf8 (text : List UInt8) : Prop := ∃ chars : List Char, text = chars.flatMap String.utf8EncodeChar

/-- What may stand for a key in a text. -/
structure KeySpelling (raw key : List UInt8) : Prop where
  text : KeyText raw key
  utf8 : Utf8 key

def Digits (text : List UInt8) : Prop := text ≠ [] ∧ ∀ b ∈ text, isDigit b = true

inductive ExponentText : List UInt8 → Prop
  | none : ExponentText []
  | plain {e : UInt8} {digits : List UInt8} (he : e = 101 ∨ e = 69) (h : Digits digits) : ExponentText (e :: digits)
  | signed {e sign : UInt8} {digits : List UInt8} (he : e = 101 ∨ e = 69) (hsign : sign = 43 ∨ sign = 45)
      (h : Digits digits) : ExponentText (e :: sign :: digits)

inductive FractionText : List UInt8 → Prop
  | none {exponent : List UInt8} (h : ExponentText exponent) : FractionText exponent
  | some {digits exponent : List UInt8} (hdigits : Digits digits) (h : ExponentText exponent) :
      FractionText (46 :: (digits ++ exponent))

inductive UnsignedText : List UInt8 → Prop
  | zero {fraction : List UInt8} (h : FractionText fraction) : UnsignedText (48 :: fraction)
  | positive {b : UInt8} {digits fraction : List UInt8} (hfirst : 49 ≤ b ∧ b ≤ 57)
      (hdigits : ∀ d ∈ digits, isDigit d = true) (h : FractionText fraction) : UnsignedText (b :: (digits ++ fraction))

inductive NumberText : List UInt8 → Prop
  | unsigned {text : List UInt8} (h : UnsignedText text) : NumberText text
  | negative {text : List UInt8} (h : UnsignedText text) : NumberText (45 :: text)

/-! ## Values -/

/-- What a text can stand for: a value, or the inside of an array or of an object. -/
inductive JsonItem
  | value (value : UniValue)
  | elements (values : List UniValue)
  | members (members : List (List UInt8 × UniValue))

/-- The texts of standard JSON. `decode` is what the reader takes the inside of a string for. -/
inductive JsonText (decode : List UInt8 → Option (List UInt8)) : JsonItem → List UInt8 → Prop
  | nullText : JsonText decode (.value .null) (ascii "null")
  | trueText : JsonText decode (.value (.bool true)) (ascii "true")
  | falseText : JsonText decode (.value (.bool false)) (ascii "false")
  | numText {text : List UInt8} (h : NumberText text) : JsonText decode (.value (.num text)) text
  | strText {raw text : List UInt8} (h : StringText raw) (hdecode : decode raw = some text) :
      JsonText decode (.value (.str text)) (34 :: (raw ++ [34]))
  | emptyArr {blank : List UInt8} (hblank : Blank blank) : JsonText decode (.value (.arr [])) (91 :: (blank ++ [93]))
  | arr {values : List UniValue} {text : List UInt8} (h : JsonText decode (.elements values) text) :
      JsonText decode (.value (.arr values)) (91 :: (text ++ [93]))
  | emptyObj {blank : List UInt8} (hblank : Blank blank) :
      JsonText decode (.value (.obj [])) (123 :: (blank ++ [125]))
  | obj {members : List (List UInt8 × UniValue)} {text : List UInt8} (h : JsonText decode (.members members) text) :
      JsonText decode (.value (.obj members)) (123 :: (text ++ [125]))
  | lastElement {value : UniValue} {before text after : List UInt8} (hbefore : Blank before) (hafter : Blank after)
      (h : JsonText decode (.value value) text) : JsonText decode (.elements [value]) (before ++ (text ++ after))
  | element {value : UniValue} {values : List UniValue} {before text after rest : List UInt8} (hbefore : Blank before)
      (hafter : Blank after) (h : JsonText decode (.value value) text) (hrest : JsonText decode (.elements values) rest) :
      JsonText decode (.elements (value :: values)) (before ++ (text ++ (after ++ 44 :: rest)))
  | lastMember {key raw : List UInt8} {value : UniValue} {before colon between text after : List UInt8}
      (hbefore : Blank before) (hkey : KeySpelling raw key) (hcolon : Blank colon) (hbetween : Blank between)
      (h : JsonText decode (.value value) text) (hafter : Blank after) :
      JsonText decode (.members [(key, value)])
        (before ++ 34 :: (raw ++ 34 :: (colon ++ 58 :: (between ++ (text ++ after)))))
  | member {key raw : List UInt8} {value : UniValue} {members : List (List UInt8 × UniValue)}
      {before colon between text after rest : List UInt8} (hbefore : Blank before) (hkey : KeySpelling raw key)
      (hcolon : Blank colon) (hbetween : Blank between) (h : JsonText decode (.value value) text) (hafter : Blank after)
      (hrest : JsonText decode (.members members) rest) :
      JsonText decode (.members ((key, value) :: members))
        (before ++ 34 :: (raw ++ 34 :: (colon ++ 58 :: (between ++ (text ++ (after ++ 44 :: rest))))))

/-- At most `n` arrays and objects inside each other. -/
inductive NestsWithin : Nat → UniValue → Prop
  | null (n : Nat) : NestsWithin n .null
  | bool (n : Nat) (value : Bool) : NestsWithin n (.bool value)
  | num (n : Nat) (text : List UInt8) : NestsWithin n (.num text)
  | str (n : Nat) (text : List UInt8) : NestsWithin n (.str text)
  | arr {n : Nat} {values : List UniValue} (h : ∀ value ∈ values, NestsWithin n value) : NestsWithin (n + 1) (.arr values)
  | obj {n : Nat} {members : List (List UInt8 × UniValue)} (h : ∀ entry ∈ members, NestsWithin n entry.2) :
      NestsWithin (n + 1) (.obj members)

/-! ## Whitespace -/

/-- What may come behind a value. -/
def Delimited (rest : List UInt8) : Prop := ∀ b ∈ rest.head?, isSpace b = true ∨ b = 44 ∨ b = 93 ∨ b = 125

theorem whitespace_blank {blank : List UInt8} (h : Blank blank) (rest : List UInt8) :
    whitespace (blank ++ rest) = whitespace rest := by
  unfold whitespace
  rw [List.dropWhile_append_of_pos h]

theorem whitespace_of_not_space {b : UInt8} (h : isSpace b = false) (rest : List UInt8) :
    whitespace (b :: rest) = b :: rest := by
  rw [whitespace, List.dropWhile_cons_of_neg (by rw [h]; decide)]

theorem whitespace_whitespace (cursor : List UInt8) : whitespace (whitespace cursor) = whitespace cursor := by
  induction cursor with
  | nil => rfl
  | cons b cursor ih =>
    cases hb : isSpace b with
    | true =>
      have hskip : whitespace (b :: cursor) = whitespace cursor := List.dropWhile_cons_of_pos hb
      rw [hskip]
      exact ih
    | false => rw [whitespace_of_not_space hb, whitespace_of_not_space hb]

theorem consume_hit {c : UInt8} (hc : isSpace c = false) {blank : List UInt8} (h : Blank blank) (rest : List UInt8) :
    consume c (blank ++ c :: rest) = (true, rest) := by
  rw [consume, whitespace_blank h, whitespace_of_not_space hc]
  exact if_pos rfl

theorem consume_miss {b c : UInt8} (hb : isSpace b = false) (hne : b ≠ c) {blank : List UInt8} (h : Blank blank)
    (rest : List UInt8) : consume c (blank ++ b :: rest) = (false, b :: rest) := by
  rw [consume, whitespace_blank h, whitespace_of_not_space hb]
  exact if_neg hne

theorem consume_next {c : UInt8} (hc : isSpace c = false) (rest : List UInt8) : consume c (c :: rest) = (true, rest) := by
  exact consume_hit hc blank_nil rest

theorem consume_past {b c : UInt8} (hb : isSpace b = false) (hne : b ≠ c) (rest : List UInt8) :
    consume c (b :: rest) = (false, b :: rest) := by
  exact consume_miss hb hne blank_nil rest

theorem consume_whitespace (c : UInt8) (cursor : List UInt8) : consume c (whitespace cursor) = consume c cursor := by
  rw [consume, consume, whitespace_whitespace]

theorem delimited_blank {blank rest : List UInt8} (h : Blank blank) (hrest : Delimited rest) : Delimited (blank ++ rest) := by
  cases blank with
  | nil => exact hrest
  | cons b blank =>
    intro c hc
    rw [List.cons_append, List.head?_cons, Option.mem_some_iff] at hc
    exact Or.inl (h c (hc ▸ List.mem_cons_self))

theorem delimited_cons {b : UInt8} (h : b = 44 ∨ b = 93 ∨ b = 125) (rest : List UInt8) : Delimited (b :: rest) := by
  intro c hc
  rw [List.head?_cons, Option.mem_some_iff] at hc
  exact Or.inr (hc ▸ h)

/-! ## Strings -/

theorem stringBody_key {raw key : List UInt8} (h : KeyText raw key) (output rest : List UInt8) :
    stringBody output (raw ++ 34 :: rest) = .ok (output ++ key, rest) := by
  induction h generalizing output with
  | nil =>
    rw [stringBody.eq_def]
    dsimp only [List.nil_append]
    rw [if_pos rfl, List.append_nil]
  | byte hcontrol hquote hescape h ih =>
    rw [stringBody.eq_def]
    dsimp only [List.cons_append]
    rw [if_neg hquote, if_neg hcontrol, if_pos hescape, ih, List.append_assoc]
    rfl
  | @escape b c raw key hb h ih =>
    have hu : b ≠ 117 := by
      rintro rfl
      cases hb
    rw [stringBody.eq_def]
    dsimp only [List.cons_append]
    rw [if_neg (by decide), if_neg (by decide), if_neg (by decide), if_neg hu, hb]
    dsimp only
    rw [ih, List.append_assoc]
    rfl
  | unicode hcode hascii h ih =>
    rw [stringBody.eq_def]
    dsimp only [List.cons_append]
    rw [if_neg (by decide), if_neg (by decide), if_neg (by decide), if_pos rfl, hcode]
    dsimp only
    rw [if_neg (not_lt.mpr hascii), ih, List.append_assoc]
    rfl

theorem string_key {before raw key : List UInt8} (hbefore : Blank before) (h : KeyText raw key) (rest : List UInt8) :
    string (before ++ 34 :: (raw ++ 34 :: rest)) = .ok (key, rest) := by
  rw [string, whitespace_blank hbefore, whitespace_of_not_space (by decide)]
  dsimp only
  rw [if_pos rfl, stringBody_key h]
  rfl

theorem string_whitespace (cursor : List UInt8) : string (whitespace cursor) = string cursor := by
  rw [string, string, whitespace_whitespace]

theorem skipString_text {raw : List UInt8} (h : StringText raw) (rest : List UInt8) :
    skipString (raw ++ 34 :: rest) = .ok rest := by
  induction h with
  | nil =>
    rw [skipString.eq_def]
    dsimp only [List.nil_append]
    rw [if_pos rfl]
  | byte hcontrol hquote hescape h ih =>
    rw [skipString.eq_def]
    dsimp only [List.cons_append]
    rw [if_neg hquote, if_neg hcontrol, if_pos hescape, ih]
  | @escape b raw hb h ih =>
    have hu : b ≠ 117 := by
      rintro rfl
      exact absurd hb (by decide)
    rw [skipString.eq_def]
    dsimp only [List.cons_append]
    rw [if_neg (by decide), if_neg (by decide), if_neg (by decide), if_neg hu, if_pos hb, ih]
  | unicode hdigits h ih =>
    rw [skipString.eq_def]
    dsimp only [List.cons_append]
    rw [if_neg (by decide), if_neg (by decide), if_neg (by decide), if_pos rfl, if_pos hdigits, ih]

/-! ## Numbers -/

theorem Delimited.dropWhile_digits {digits rest : List UInt8} (hdigits : ∀ d ∈ digits, isDigit d = true)
    (hrest : ∀ b ∈ rest.head?, isDigit b = false) : (digits ++ rest).dropWhile isDigit = rest := by
  rw [List.dropWhile_append_of_pos hdigits]
  cases rest with
  | nil => rfl
  | cons b rest =>
    have hb := hrest b rfl
    rw [List.dropWhile_cons_of_neg (by rw [hb]; decide)]

theorem skipDigits_text {digits rest : List UInt8} (h : Digits digits) (hrest : ∀ b ∈ rest.head?, isDigit b = false)
    (message : String) : skipDigits message (digits ++ rest) = .ok rest := by
  obtain ⟨hne, hdigits⟩ := h
  cases digits with
  | nil => exact absurd rfl hne
  | cons d digits =>
    rw [skipDigits, Delimited.dropWhile_digits hdigits hrest, List.cons_append,
      List.takeWhile_cons_of_pos (hdigits d List.mem_cons_self), List.isEmpty_cons, if_neg Bool.false_ne_true]

theorem Delimited.head {rest : List UInt8} (h : Delimited rest) :
    ∀ b ∈ rest.head?, isDigit b = false ∧ b ≠ 101 ∧ b ≠ 69 ∧ b ≠ 46 := by
  intro b hb
  have hcases : b = 32 ∨ b = 10 ∨ b = 13 ∨ b = 9 ∨ b = 44 ∨ b = 93 ∨ b = 125 := by
    rcases h b hb with hspace | hmark
    · have hspaces := of_decide_eq_true hspace
      tauto
    · tauto
  rcases hcases with rfl | rfl | rfl | rfl | rfl | rfl | rfl <;> decide

theorem skipExponent_text {text rest : List UInt8} (h : ExponentText text) (hrest : Delimited rest) :
    skipExponent (text ++ rest) = .ok rest := by
  have hdigit : ∀ b ∈ rest.head?, isDigit b = false := fun b hb => (hrest.head b hb).1
  cases h with
  | none =>
    cases rest with
    | nil => rfl
    | cons b rest =>
      obtain ⟨-, he, hE, -⟩ := hrest.head b rfl
      rw [List.nil_append, skipExponent.eq_def]
      exact if_neg (not_or.mpr ⟨he, hE⟩)
  | @plain e digits he h =>
    rw [skipExponent.eq_def]
    dsimp only [List.cons_append]
    rw [if_pos he]
    cases digits with
    | nil => exact absurd rfl h.1
    | cons d digits =>
      have hd := h.2 d List.mem_cons_self
      have hsign : ¬(d = 43 ∨ d = 45) := by
        rintro (rfl | rfl)
        · exact absurd hd (by decide)
        · exact absurd hd (by decide)
      dsimp only [List.cons_append]
      rw [if_neg hsign, ← List.cons_append]
      exact skipDigits_text h hdigit _
  | signed he hsign h =>
    rw [skipExponent.eq_def]
    dsimp only [List.cons_append]
    rw [if_pos he, if_pos hsign]
    exact skipDigits_text h hdigit _

theorem ExponentText.head {text rest : List UInt8} (h : ExponentText text) (hrest : Delimited rest) :
    ∀ b ∈ (text ++ rest).head?, isDigit b = false ∧ b ≠ 46 := by
  cases h with
  | none => exact fun b hb => ⟨(hrest.head b hb).1, (hrest.head b hb).2.2.2⟩
  | plain he _ =>
    intro b hb
    rw [List.cons_append, List.head?_cons, Option.mem_some_iff] at hb
    subst hb
    rcases he with rfl | rfl <;> decide
  | signed he _ _ =>
    intro b hb
    rw [List.cons_append, List.head?_cons, Option.mem_some_iff] at hb
    subst hb
    rcases he with rfl | rfl <;> decide

theorem skipFraction_text {text rest : List UInt8} (h : FractionText text) (hrest : Delimited rest) :
    skipFraction (text ++ rest) = .ok rest := by
  cases h with
  | none h =>
    have hhead := h.head hrest
    have hexponent := skipExponent_text h hrest
    generalize text ++ rest = cursor at hhead hexponent
    cases cursor with
    | nil => exact hexponent
    | cons b cursor => rw [skipFraction, if_neg (hhead b rfl).2, hexponent]
  | @some digits exponent hdigits h =>
    rw [List.cons_append, skipFraction, if_pos rfl, List.append_assoc,
      skipDigits_text hdigits fun b hb => (h.head hrest b hb).1]
    exact skipExponent_text h hrest

theorem FractionText.head {text rest : List UInt8} (h : FractionText text) (hrest : Delimited rest) :
    ∀ b ∈ (text ++ rest).head?, isDigit b = false := by
  cases h with
  | none h => exact fun b hb => (h.head hrest b hb).1
  | some _ _ =>
    intro b hb
    rw [List.cons_append, List.head?_cons, Option.mem_some_iff] at hb
    subst hb
    decide

theorem skipUnsigned_text {text rest : List UInt8} (h : UnsignedText text) (hrest : Delimited rest) :
    skipUnsigned (text ++ rest) = .ok rest := by
  cases h with
  | zero h =>
    rw [List.cons_append, skipUnsigned, if_pos rfl]
    exact skipFraction_text h hrest
  | @positive b digits fraction hfirst hdigits h =>
    obtain ⟨hlow, hhigh⟩ := hfirst
    have hzero : b ≠ 48 := by
      rintro rfl
      exact absurd hlow (by decide)
    rw [List.cons_append, skipUnsigned, if_neg hzero, if_neg (not_or.mpr ⟨UInt8.not_lt.mpr hlow, UInt8.not_lt.mpr hhigh⟩),
      List.append_assoc, Delimited.dropWhile_digits hdigits (h.head hrest)]
    exact skipFraction_text h hrest

theorem UnsignedText.head {text : List UInt8} (h : UnsignedText text) :
    ∃ b rest, text = b :: rest ∧ isDigit b = true := by
  cases h with
  | zero h => exact ⟨48, _, rfl, rfl⟩
  | @positive b digits fraction hfirst hdigits h =>
    refine ⟨b, _, rfl, decide_eq_true ⟨UInt8.le_trans (by decide : (48 : UInt8) ≤ 49) hfirst.1, hfirst.2⟩⟩

theorem skipNumber_text {text rest : List UInt8} (h : NumberText text) (hrest : Delimited rest) :
    skipNumber (text ++ rest) = .ok rest := by
  cases h with
  | unsigned h =>
    have hskip := skipUnsigned_text h hrest
    obtain ⟨b, tail, rfl, hb⟩ := h.head
    have hsign : b ≠ 45 := by
      rintro rfl
      exact absurd hb (by decide)
    rw [List.cons_append] at hskip ⊢
    rw [skipNumber, if_neg hsign, hskip]
  | negative h =>
    rw [List.cons_append, skipNumber, if_pos rfl]
    exact skipUnsigned_text h hrest

/-! ## Skipping -/

section Skip

variable {decode : List UInt8 → Option (List UInt8)} {item : JsonItem} {text : List UInt8} {value : UniValue}

theorem NumberText.head (h : NumberText text) : ∃ b rest, text = b :: rest ∧ (isDigit b = true ∨ b = 45) := by
  cases h with
  | unsigned h =>
    obtain ⟨b, rest, hb, hdigit⟩ := h.head
    exact ⟨b, rest, hb, Or.inl hdigit⟩
  | negative h => exact ⟨45, _, rfl, Or.inr rfl⟩

theorem number_head {b : UInt8} (h : isDigit b = true ∨ b = 45) :
    isSpace b = false ∧ b ≠ 93 ∧ b ≠ 125 ∧ b ≠ 34 ∧ b ≠ 123 ∧ b ≠ 91 ∧ b ≠ 116 ∧ b ≠ 102 ∧ b ≠ 110 := by
  rcases h with h | rfl
  · obtain ⟨hlow, hhigh⟩ := of_decide_eq_true h
    have hle : b.toNat ≤ 57 := UInt8.le_iff_toNat_le.mp hhigh
    have hge : 48 ≤ b.toNat := UInt8.le_iff_toNat_le.mp hlow
    have hne : ∀ c : UInt8, c.toNat < 48 ∨ 57 < c.toNat → b ≠ c := by
      rintro c hc rfl
      omega
    refine ⟨decide_eq_false ?_, hne _ (by decide), hne _ (by decide), hne _ (by decide), hne _ (by decide),
      hne _ (by decide), hne _ (by decide), hne _ (by decide), hne _ (by decide)⟩
    rintro (heq | heq | heq | heq)
    all_goals exact hne _ (by decide) heq
  · decide

theorem JsonText.head (h : JsonText decode (.value value) text) :
    ∃ b rest, text = b :: rest ∧ isSpace b = false ∧ b ≠ 93 ∧ (b = 123 → value.isObject = true) := by
  cases h with
  | nullText => exact ⟨110, _, rfl, by decide, by decide, by decide⟩
  | trueText => exact ⟨116, _, rfl, by decide, by decide, by decide⟩
  | falseText => exact ⟨102, _, rfl, by decide, by decide, by decide⟩
  | numText h =>
    obtain ⟨b, rest, rfl, hb⟩ := h.head
    obtain ⟨hspace, hclose, -, -, hobject, -⟩ := number_head hb
    exact ⟨b, rest, rfl, hspace, hclose, fun heq => absurd heq hobject⟩
  | strText h hdecode => exact ⟨34, _, rfl, by decide, by decide, fun heq => absurd heq (by decide)⟩
  | emptyArr hblank => exact ⟨91, _, rfl, by decide, by decide, by decide⟩
  | arr h => exact ⟨91, _, rfl, by decide, by decide, fun heq => absurd heq (by decide)⟩
  | emptyObj hblank => exact ⟨123, _, rfl, by decide, by decide, fun _ => rfl⟩
  | obj h => exact ⟨123, _, rfl, by decide, by decide, fun _ => rfl⟩

theorem consume_other {c : UInt8} {cursor : List UInt8} (h : ∀ b ∈ (whitespace cursor).head?, b ≠ c) :
    consume c cursor = (false, whitespace cursor) := by
  unfold consume
  cases hcursor : whitespace cursor with
  | nil => rfl
  | cons b rest =>
    rw [hcursor] at h
    exact if_neg (h b rfl)

theorem JsonText.elements_head {values : List UniValue} (h : JsonText decode (.elements values) text) (rest : List UInt8) :
    ∀ b ∈ (whitespace (text ++ rest)).head?, b ≠ 93 := by
  cases h with
  | lastElement hbefore hafter h =>
    obtain ⟨c, tail, rfl, hspace, hclose, -⟩ := h.head
    rw [List.append_assoc, whitespace_blank hbefore, List.cons_append, List.cons_append, whitespace_of_not_space hspace]
    intro b hb
    rw [List.head?_cons, Option.mem_some_iff] at hb
    exact hb ▸ hclose
  | element hbefore hafter h hrest =>
    obtain ⟨c, tail, rfl, hspace, hclose, -⟩ := h.head
    rw [List.append_assoc, whitespace_blank hbefore, List.cons_append, List.cons_append, whitespace_of_not_space hspace]
    intro b hb
    rw [List.head?_cons, Option.mem_some_iff] at hb
    exact hb ▸ hclose

theorem JsonText.members_head {members : List (List UInt8 × UniValue)} (h : JsonText decode (.members members) text)
    (rest : List UInt8) : ∀ b ∈ (whitespace (text ++ rest)).head?, b ≠ 125 := by
  cases h with
  | lastMember hbefore hkey hcolon hbetween h hafter =>
    rw [List.append_assoc, whitespace_blank hbefore, List.cons_append, whitespace_of_not_space (by decide)]
    intro b hb
    rw [List.head?_cons, Option.mem_some_iff] at hb
    exact hb ▸ by decide
  | member hbefore hkey hcolon hbetween h hafter hrest =>
    rw [List.append_assoc, whitespace_blank hbefore, List.cons_append, whitespace_of_not_space (by decide)]
    intro b hb
    rw [List.head?_cons, Option.mem_some_iff] at hb
    exact hb ▸ by decide

theorem skipValue_whitespace (fuel depth : Nat) (cursor : List UInt8) :
    skipValue fuel depth (whitespace cursor) = skipValue fuel depth cursor := by
  cases fuel with
  | zero => rfl
  | succ fuel =>
    rw [skipValue.eq_def, skipValue.eq_def]
    dsimp only
    rw [whitespace_whitespace]

theorem skipElements_whitespace (fuel depth : Nat) (cursor : List UInt8) :
    skipElements fuel depth (whitespace cursor) = skipElements fuel depth cursor := by
  cases fuel with
  | zero => rfl
  | succ fuel =>
    rw [skipElements.eq_def, skipElements.eq_def]
    dsimp only
    rw [skipValue_whitespace]

theorem skipMembers_whitespace (fuel depth : Nat) (cursor : List UInt8) :
    skipMembers fuel depth (whitespace cursor) = skipMembers fuel depth cursor := by
  cases fuel with
  | zero => rfl
  | succ fuel =>
    rw [skipMembers.eq_def, skipMembers.eq_def]
    dsimp only
    rw [string_whitespace]

/-- What skipping a text does, by what the text stands for. -/
def SkippedItem : JsonItem → List UInt8 → Prop
  | .value value, text => ∀ depth n fuel, NestsWithin n value → depth + n ≤ 64 → text.length ≤ fuel →
    ∀ blank rest, Blank blank → Delimited rest → skipValue fuel depth (blank ++ (text ++ rest)) = .ok rest
  | .elements values, text => ∀ depth n fuel, (∀ value ∈ values, NestsWithin n value) → depth + 1 + n ≤ 64 →
    text.length < fuel → ∀ rest, skipElements fuel depth (text ++ 93 :: rest) = .ok rest
  | .members members, text => ∀ depth n fuel, (∀ entry ∈ members, NestsWithin n entry.2) → depth + 1 + n ≤ 64 →
    text.length < fuel → ∀ rest, skipMembers fuel depth (text ++ 125 :: rest) = .ok rest

theorem JsonText.skipped (h : JsonText decode item text) : SkippedItem item text := by
  induction h with
  | nullText =>
    intro depth n fuel _ hdepth hfuel blank rest hblank _
    obtain ⟨fuel, rfl⟩ : ∃ k, fuel = k + 1 := ⟨fuel - 1, by have : (ascii "null").length = 4 := rfl; omega⟩
    rw [skipValue.eq_def]
    dsimp only
    rw [if_neg (by omega), whitespace_blank hblank]
    rfl
  | trueText =>
    intro depth n fuel _ hdepth hfuel blank rest hblank _
    obtain ⟨fuel, rfl⟩ : ∃ k, fuel = k + 1 := ⟨fuel - 1, by have : (ascii "true").length = 4 := rfl; omega⟩
    rw [skipValue.eq_def]
    dsimp only
    rw [if_neg (by omega), whitespace_blank hblank]
    rfl
  | falseText =>
    intro depth n fuel _ hdepth hfuel blank rest hblank _
    obtain ⟨fuel, rfl⟩ : ∃ k, fuel = k + 1 := ⟨fuel - 1, by have : (ascii "false").length = 5 := rfl; omega⟩
    rw [skipValue.eq_def]
    dsimp only
    rw [if_neg (by omega), whitespace_blank hblank]
    rfl
  | numText h =>
    intro depth n fuel _ hdepth hfuel blank rest hblank hrest
    have hnumber := skipNumber_text h hrest
    obtain ⟨b, tail, rfl, hb⟩ := h.head
    obtain ⟨hspace, -, -, hquote, hobject, harray, ht, hf, hn⟩ := number_head hb
    obtain ⟨fuel, rfl⟩ : ∃ k, fuel = k + 1 := ⟨fuel - 1, by rw [List.length_cons] at hfuel; omega⟩
    rw [skipValue.eq_def]
    dsimp only
    rw [if_neg (by omega), whitespace_blank hblank, List.cons_append, whitespace_of_not_space hspace]
    dsimp only
    rw [if_neg hquote, if_neg hobject, if_neg harray, if_neg ht, if_neg hf, if_neg hn]
    exact hnumber
  | strText h hdecode =>
    intro depth n fuel _ hdepth hfuel blank rest hblank _
    obtain ⟨fuel, rfl⟩ : ∃ k, fuel = k + 1 := ⟨fuel - 1, by rw [List.length_cons] at hfuel; omega⟩
    rw [skipValue.eq_def]
    dsimp only
    rw [if_neg (by omega), whitespace_blank hblank, List.cons_append, whitespace_of_not_space (by decide)]
    dsimp only
    rw [if_pos rfl, List.append_assoc]
    exact skipString_text h rest
  | emptyArr hinner =>
    intro depth n fuel _ hdepth hfuel blank rest hblank _
    obtain ⟨fuel, rfl⟩ : ∃ k, fuel = k + 1 := ⟨fuel - 1, by rw [List.length_cons] at hfuel; omega⟩
    rw [skipValue.eq_def]
    dsimp only
    rw [if_neg (by omega), whitespace_blank hblank, List.cons_append, whitespace_of_not_space (by decide)]
    dsimp only
    rw [if_neg (by decide), if_neg (by decide), if_pos rfl, List.append_assoc]
    have hend := consume_hit (by decide : isSpace 93 = false) hinner rest
    rw [List.singleton_append, hend]
  | arr h ih =>
    intro depth n fuel hnests hdepth hfuel blank rest hblank _
    cases hnests with
    | arr hnests =>
      rw [List.length_cons, List.length_append, List.length_singleton] at hfuel
      obtain ⟨fuel, rfl⟩ : ∃ k, fuel = k + 1 := ⟨fuel - 1, by omega⟩
      have hinner := ih depth _ fuel hnests (by omega) (by omega) rest
      rw [skipValue.eq_def]
      dsimp only
      rw [if_neg (by omega), whitespace_blank hblank, List.cons_append, whitespace_of_not_space (by decide)]
      dsimp only
      rw [if_neg (by decide), if_neg (by decide), if_pos rfl, List.append_assoc, List.singleton_append,
        consume_other (h.elements_head _)]
      dsimp only
      rw [skipElements_whitespace, hinner]
  | emptyObj hinner =>
    intro depth n fuel _ hdepth hfuel blank rest hblank _
    obtain ⟨fuel, rfl⟩ : ∃ k, fuel = k + 1 := ⟨fuel - 1, by rw [List.length_cons] at hfuel; omega⟩
    rw [skipValue.eq_def]
    dsimp only
    rw [if_neg (by omega), whitespace_blank hblank, List.cons_append, whitespace_of_not_space (by decide)]
    dsimp only
    rw [if_neg (by decide), if_pos rfl, List.append_assoc]
    have hend := consume_hit (by decide : isSpace 125 = false) hinner rest
    rw [List.singleton_append, hend]
  | obj h ih =>
    intro depth n fuel hnests hdepth hfuel blank rest hblank _
    cases hnests with
    | obj hnests =>
      rw [List.length_cons, List.length_append, List.length_singleton] at hfuel
      obtain ⟨fuel, rfl⟩ : ∃ k, fuel = k + 1 := ⟨fuel - 1, by omega⟩
      have hinner := ih depth _ fuel hnests (by omega) (by omega) rest
      rw [skipValue.eq_def]
      dsimp only
      rw [if_neg (by omega), whitespace_blank hblank, List.cons_append, whitespace_of_not_space (by decide)]
      dsimp only
      rw [if_neg (by decide), if_pos rfl, List.append_assoc, List.singleton_append, consume_other (h.members_head _)]
      dsimp only
      rw [skipMembers_whitespace, hinner]
  | @lastElement value before text after hbefore hafter h ih =>
    intro depth n fuel hnests hdepth hfuel rest
    simp only [List.length_append] at hfuel
    obtain ⟨fuel, rfl⟩ : ∃ k, fuel = k + 1 := ⟨fuel - 1, by omega⟩
    have hvalue := ih (depth + 1) n fuel (hnests _ List.mem_cons_self) hdepth (by omega) _ (after ++ 93 :: rest) hbefore
      (delimited_blank hafter (delimited_cons (by decide) rest))
    rw [skipElements.eq_def]
    dsimp only
    rw [List.append_assoc, List.append_assoc, hvalue]
    dsimp only
    rw [consume_hit (by decide) hafter]
  | @element value values before text after more hbefore hafter h hrest ih ihrest =>
    intro depth n fuel hnests hdepth hfuel rest
    simp only [List.length_append, List.length_cons] at hfuel
    obtain ⟨fuel, rfl⟩ : ∃ k, fuel = k + 1 := ⟨fuel - 1, by omega⟩
    have hvalue := ih (depth + 1) n fuel (hnests _ List.mem_cons_self) hdepth (by omega) _
      (after ++ 44 :: (more ++ 93 :: rest)) hbefore (delimited_blank hafter (delimited_cons (by decide) _))
    have htail := ihrest depth n fuel (fun v hv => hnests v (List.mem_cons_of_mem _ hv)) hdepth (by omega) rest
    rw [skipElements.eq_def]
    dsimp only
    simp only [List.append_assoc, List.cons_append]
    rw [hvalue]
    dsimp only
    rw [consume_miss (by decide) (by decide) hafter]
    dsimp only
    rw [consume_next (by decide)]
    exact htail
  | @lastMember key raw value before colon between text after hbefore hkey hcolon hbetween h hafter ih =>
    intro depth n fuel hnests hdepth hfuel rest
    simp only [List.length_append, List.length_cons] at hfuel
    obtain ⟨fuel, rfl⟩ : ∃ k, fuel = k + 1 := ⟨fuel - 1, by omega⟩
    have hvalue := ih (depth + 1) n fuel (hnests _ List.mem_cons_self) hdepth (by omega) _ (after ++ 125 :: rest) hbetween
      (delimited_blank hafter (delimited_cons (by decide) rest))
    rw [skipMembers.eq_def]
    dsimp only
    simp only [List.append_assoc, List.cons_append]
    rw [string_key hbefore hkey.text]
    dsimp only
    rw [consume_hit (by decide) hcolon]
    dsimp only
    rw [hvalue]
    dsimp only
    rw [consume_hit (by decide) hafter]
  | @member key raw value members before colon between text after more hbefore hkey hcolon hbetween h hafter hrest ih ihrest =>
    intro depth n fuel hnests hdepth hfuel rest
    simp only [List.length_append, List.length_cons] at hfuel
    obtain ⟨fuel, rfl⟩ : ∃ k, fuel = k + 1 := ⟨fuel - 1, by omega⟩
    have hvalue := ih (depth + 1) n fuel (hnests _ List.mem_cons_self) hdepth (by omega) _
      (after ++ 44 :: (more ++ 125 :: rest)) hbetween (delimited_blank hafter (delimited_cons (by decide) _))
    have htail := ihrest depth n fuel (fun v hv => hnests v (List.mem_cons_of_mem _ hv)) hdepth (by omega) rest
    rw [skipMembers.eq_def]
    dsimp only
    simp only [List.append_assoc, List.cons_append]
    rw [string_key hbefore hkey.text]
    dsimp only
    rw [consume_hit (by decide) hcolon]
    dsimp only
    rw [hvalue]
    dsimp only
    rw [consume_miss (by decide) (by decide) hafter]
    dsimp only
    rw [consume_next (by decide)]
    exact htail

end Skip

end UtreexoBridge.Rpc
