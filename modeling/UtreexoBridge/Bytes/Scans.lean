import UtreexoBridge.Bytes.CompactSize
import UtreexoBridge.Bytes.Parser

/-!
# What a parser accepts

`Scans` says exactly which bytes a parser takes and what it gives for them. The
parser may give less than the bytes hold, so they are described by a syntax.
The value may depend on how many bytes follow.
-/

namespace UtreexoBridge.Bytes

variable {α β σ : Type}

/-! ## Readers -/

theorem Reader.bind_eq_some {reader : Reader α} {next : α → Reader β} {bytes : List UInt8} {result : β × List UInt8} :
    (reader >>= next) bytes = some result ↔ ∃ value rest, reader bytes = some (value, rest) ∧ next value rest = some result := by
  show (reader bytes).bind (fun p => next p.1 p.2) = some result ↔ _
  rw [Option.bind_eq_some_iff]
  constructor
  · rintro ⟨⟨value, rest⟩, h, hnext⟩
    exact ⟨value, rest, h, hnext⟩
  · rintro ⟨value, rest, h, hnext⟩
    exact ⟨⟨value, rest⟩, h, hnext⟩

theorem Reader.pure_eq_some {value : α} {bytes : List UInt8} {result : α × List UInt8} :
    (pure value : Reader α) bytes = some result ↔ result = (value, bytes) := by
  show some (value, bytes) = some result ↔ _
  rw [Option.some.injEq, eq_comm]

theorem readBytes_iff {count : Nat} {bytes value rest : List UInt8} :
    readBytes count bytes = some (value, rest) ↔ value.length = count ∧ bytes = value ++ rest := by
  constructor
  · intro h
    obtain ⟨rfl, rfl, hle⟩ := readBytes_eq_some h
    exact ⟨by rw [List.length_take]; omega, (List.take_append_drop count bytes).symm⟩
  · rintro ⟨rfl, rfl⟩
    exact reads_bytes value rest

theorem appendUnsigned_valueOf (bytes : List UInt8) : appendUnsigned bytes.length (valueOf bytes) = bytes := by
  induction bytes with
  | nil => rfl
  | cons byte bytes ih =>
    have hlow := UInt8.toNat_lt byte
    rw [List.length_cons, appendUnsigned, valueOf]
    rw [show (byte.toNat + 256 * valueOf bytes) % 256 = byte.toNat by omega,
      show (byte.toNat + 256 * valueOf bytes) / 256 = valueOf bytes by omega, ih, UInt8.ofNat_toNat]

theorem valueOf_lt (bytes : List UInt8) : valueOf bytes < 256 ^ bytes.length := by
  induction bytes with
  | nil => simp [valueOf]
  | cons byte bytes ih =>
    have hlow := UInt8.toNat_lt byte
    rw [valueOf, List.length_cons, Nat.pow_succ]
    omega

theorem readUnsigned_iff {width value : Nat} {bytes rest : List UInt8} :
    readUnsigned width bytes = some (value, rest) ↔ value < 256 ^ width ∧ bytes = appendUnsigned width value ++ rest := by
  constructor
  · intro h
    rw [readUnsigned, Reader.bind_eq_some] at h
    obtain ⟨front, back, hread, hvalue⟩ := h
    obtain ⟨rfl, rfl⟩ := readBytes_iff.mp hread
    obtain ⟨rfl, rfl⟩ := Prod.mk.injEq .. ▸ Reader.pure_eq_some.mp hvalue
    exact ⟨valueOf_lt front, by rw [appendUnsigned_valueOf]⟩
  · rintro ⟨hvalue, rfl⟩
    exact reads_unsigned hvalue rest

theorem guard_eq_some {p : Prop} [Decidable p] {bytes : List UInt8} {result : Unit × List UInt8} :
    (guard p : Reader Unit) bytes = some result ↔ p ∧ result = ((), bytes) := by
  by_cases h : p
  · rw [guard, if_pos h]
    exact Reader.pure_eq_some.trans ⟨fun hr => ⟨h, hr⟩, fun hr => hr.2⟩
  · rw [guard, if_neg h]
    constructor
    · intro hr
      cases hr
    · exact fun hr => absurd hr.1 h

theorem readCompactSize_iff {value : Nat} {bytes rest : List UInt8} :
    readCompactSize bytes = some (value, rest) ↔ value < 2 ^ 64 ∧ bytes = appendCompactSize value ++ rest := by
  constructor
  · intro h
    rw [readCompactSize, Reader.bind_eq_some] at h
    obtain ⟨first, back, hread, h⟩ := h
    obtain ⟨hfirst, rfl⟩ := readUnsigned_iff.mp hread
    by_cases hshort : first < 253
    · rw [if_pos hshort] at h
      obtain ⟨rfl, rfl⟩ := Prod.mk.injEq .. ▸ Reader.pure_eq_some.mp h
      refine ⟨by omega, ?_⟩
      rw [appendCompactSize, if_pos hshort]
    · rw [if_neg hshort, Reader.bind_eq_some] at h
      obtain ⟨long, back, hread, h⟩ := h
      rw [Reader.bind_eq_some] at h
      obtain ⟨⟨⟩, back', hguard, h⟩ := h
      obtain ⟨hlong, heq⟩ := guard_eq_some.mp hguard
      obtain ⟨-, rfl⟩ := Prod.mk.injEq .. ▸ heq
      obtain ⟨rfl, rfl⟩ := Prod.mk.injEq .. ▸ Reader.pure_eq_some.mp h
      obtain ⟨hlt, rfl⟩ := readUnsigned_iff.mp hread
      rw [appendCompactSize, ← List.append_assoc]
      have hcases : first = 253 ∨ first = 254 ∨ first = 255 := by omega
      rcases hcases with rfl | rfl | rfl
      · rw [if_pos rfl] at hlong
        simp only [if_true] at hlt ⊢
        rw [if_neg (by omega), if_pos (by omega)]
        exact ⟨by omega, rfl⟩
      · rw [if_neg (by omega), if_pos rfl] at hlong
        simp only [show (254 : Nat) ≠ 253 by omega, if_true, if_false] at hlt ⊢
        rw [if_neg (by omega), if_neg (by omega), if_pos (by omega)]
        exact ⟨by omega, rfl⟩
      · rw [if_neg (by omega), if_neg (by omega)] at hlong
        simp only [show (255 : Nat) ≠ 253 by omega, show (255 : Nat) ≠ 254 by omega, if_false] at hlt ⊢
        rw [if_neg (by omega), if_neg (by omega), if_neg (by omega)]
        exact ⟨by omega, rfl⟩
  · rintro ⟨hvalue, rfl⟩
    exact reads_compactSize hvalue rest

def skip (count : Nat) : Reader Unit := do
  let _ ← readBytes count
  return ()

theorem skip_iff {count : Nat} {bytes rest : List UInt8} :
    skip count bytes = some ((), rest) ↔ ∃ front, front.length = count ∧ bytes = front ++ rest := by
  rw [skip, Reader.bind_eq_some]
  constructor
  · rintro ⟨front, back, hread, h⟩
    obtain ⟨-, rfl⟩ := Prod.mk.injEq .. ▸ Reader.pure_eq_some.mp h
    exact ⟨front, readBytes_iff.mp hread⟩
  · rintro ⟨front, h⟩
    exact ⟨front, rest, readBytes_iff.mpr h, rfl⟩

/-! ## Parsers -/

theorem Parser.bind_eq_ok {parser : Parser α} {next : α → Parser β} {bytes : List UInt8} {result : β × List UInt8} :
    (parser >>= next) bytes = .ok result ↔ ∃ value rest, parser bytes = .ok (value, rest) ∧ next value rest = .ok result := by
  show (parser bytes).bind (fun p => next p.1 p.2) = .ok result ↔ _
  cases h : parser bytes with
  | error message =>
    constructor
    · intro h
      cases h
    · rintro ⟨value, rest, h, -⟩
      cases h
  | ok p =>
    obtain ⟨value, rest⟩ := p
    constructor
    · exact fun hnext => ⟨value, rest, rfl, hnext⟩
    · rintro ⟨value', rest', heq, hnext⟩
      cases heq
      exact hnext

theorem Parser.pure_eq_ok {value : α} {bytes : List UInt8} {result : α × List UInt8} :
    (pure value : Parser α) bytes = .ok result ↔ result = (value, bytes) := by
  show Except.ok (value, bytes) = .ok result ↔ _
  rw [Except.ok.injEq, eq_comm]

theorem reading_eq_ok {message : String} {reader : Reader α} {bytes : List UInt8} {result : α × List UInt8} :
    reading message reader bytes = .ok result ↔ reader bytes = some result := by
  rw [reading]
  cases reader bytes <;> simp

theorem require_eq_ok {p : Prop} [Decidable p] {message : String} {bytes : List UInt8} {result : Unit × List UInt8} :
    require p message bytes = .ok result ↔ p ∧ result = ((), bytes) := by
  by_cases h : p
  · rw [require, if_pos h, Except.ok.injEq, eq_comm]
    exact ⟨fun hr => ⟨h, hr⟩, fun hr => hr.2⟩
  · rw [require, if_neg h]
    constructor
    · intro hr
      cases hr
    · exact fun hr => absurd hr.1 h

def remaining : Parser Nat := fun bytes => .ok (bytes.length, bytes)

theorem remaining_eq_ok {bytes : List UInt8} {result : Nat × List UInt8} :
    remaining bytes = .ok result ↔ result = (bytes.length, bytes) := by
  rw [remaining, Except.ok.injEq, eq_comm]

def parseMany (parser : Parser α) : Nat → Parser (List α)
  | 0 => pure []
  | count + 1 => do
    let value ← parser
    let values ← parseMany parser count
    return value :: values

theorem parses_many {parser : Parser α} {encode : α → List UInt8} (values : List α)
    (h : ∀ v ∈ values, Parses parser (encode v) v) : Parses (parseMany parser values.length) (values.flatMap encode) values := by
  induction values with
  | nil => exact parses_pure _
  | cons v values ih =>
    rw [List.flatMap_cons]
    exact (h v (by simp)).bind ((ih fun w hw => h w (by simp [hw])).bind_last (parses_pure _))

theorem parseMany_add {parser : Parser α} {bytes : List UInt8} {values : List α} {rest : List UInt8} (m n : Nat) :
    parseMany parser (m + n) bytes = .ok (values, rest) ↔ ∃ front middle back,
      parseMany parser m bytes = .ok (front, middle) ∧ parseMany parser n middle = .ok (back, rest) ∧ values = front ++ back := by
  induction m generalizing bytes values with
  | zero =>
    rw [Nat.zero_add]
    constructor
    · exact fun h => ⟨[], bytes, values, rfl, h, rfl⟩
    · rintro ⟨front, middle, back, hfront, hback, rfl⟩
      cases Parser.pure_eq_ok.mp hfront
      exact hback
  | succ m ih =>
    rw [Nat.succ_add, parseMany, Parser.bind_eq_ok]
    constructor
    · rintro ⟨value, more, hvalue, h⟩
      obtain ⟨others, end', hothers, hpure⟩ := Parser.bind_eq_ok.mp h
      cases Parser.pure_eq_ok.mp hpure
      obtain ⟨front, middle, back, hfront, hback, rfl⟩ := ih.mp hothers
      refine ⟨value :: front, middle, back, ?_, hback, rfl⟩
      rw [parseMany, Parser.bind_eq_ok]
      exact ⟨value, more, hvalue, Parser.bind_eq_ok.mpr ⟨front, middle, hfront, rfl⟩⟩
    · rintro ⟨front, middle, back, hfront, hback, rfl⟩
      rw [parseMany, Parser.bind_eq_ok] at hfront
      obtain ⟨value, more, hvalue, h⟩ := hfront
      obtain ⟨others, end', hothers, hpure⟩ := Parser.bind_eq_ok.mp h
      cases Parser.pure_eq_ok.mp hpure
      exact ⟨value, more, hvalue, Parser.bind_eq_ok.mpr ⟨others ++ back, rest, ih.mpr ⟨others, middle, back, hothers, hback, rfl⟩, rfl⟩⟩

/-! ## Parsers of a fixed size -/

/-- The parser takes `size` bytes, and looks at no others. -/
def FixedSize (parser : Parser α) (size : Nat) : Prop :=
  ∀ bytes value rest, parser bytes = .ok (value, rest) →
    ∃ front, front.length = size ∧ bytes = front ++ rest ∧ Parses parser front value

theorem FixedSize.many {parser : Parser α} {size : Nat} (h : FixedSize parser size) (count : Nat) :
    FixedSize (parseMany parser count) (count * size) := by
  induction count with
  | zero =>
    intro bytes values rest hrun
    cases Parser.pure_eq_ok.mp hrun
    exact ⟨[], (Nat.zero_mul size).symm, rfl, parses_pure _⟩
  | succ count ih =>
    intro bytes values rest hrun
    rw [parseMany, Parser.bind_eq_ok] at hrun
    obtain ⟨value, more, hvalue, hrun⟩ := hrun
    obtain ⟨others, end', hothers, hpure⟩ := Parser.bind_eq_ok.mp hrun
    cases Parser.pure_eq_ok.mp hpure
    obtain ⟨first, hfirst, rfl, hparses⟩ := h _ _ _ hvalue
    obtain ⟨back, hback, rfl, hmany⟩ := ih _ _ _ hothers
    refine ⟨first ++ back, ?_, (List.append_assoc _ _ _).symm, hparses.bind (hmany.bind_last (parses_pure _))⟩
    rw [List.length_append, hfirst, hback, Nat.succ_mul, Nat.add_comm]

/-! ## What is taken -/

/-- The parser takes the encodings of the valid syntax and nothing else. -/
def Scans (parser : Parser α) (valid : σ → Prop) (encode : σ → List UInt8) (value : σ → List UInt8 → α) : Prop :=
  ∀ bytes v rest, parser bytes = .ok (v, rest) ↔ ∃ x, valid x ∧ bytes = encode x ++ rest ∧ v = value x rest

section Scans

variable {parser : Parser α} {valid : σ → Prop} {encode : σ → List UInt8} {value : σ → List UInt8 → α}

def valuesOf (encode : σ → List UInt8) (value : σ → List UInt8 → α) : List σ → List UInt8 → List α
  | [], _ => []
  | x :: xs, rest => value x (xs.flatMap encode ++ rest) :: valuesOf encode value xs rest

theorem valuesOf_const (value : σ → α) (xs : List σ) (rest : List UInt8) :
    valuesOf encode (fun x _ => value x) xs rest = xs.map value := by
  induction xs with
  | nil => rfl
  | cons x xs ih => rw [valuesOf, ih, List.map_cons]

theorem Scans.many (h : Scans parser valid encode value) (count : Nat) :
    Scans (parseMany parser count) (fun xs => xs.length = count ∧ ∀ x ∈ xs, valid x) (·.flatMap encode)
      (valuesOf encode value) := by
  induction count with
  | zero =>
    intro bytes v rest
    rw [parseMany, Parser.pure_eq_ok, Prod.mk.injEq]
    constructor
    · rintro ⟨rfl, rfl⟩
      exact ⟨[], by simp, rfl, rfl⟩
    · rintro ⟨xs, ⟨hlen, -⟩, rfl, rfl⟩
      rw [List.length_eq_zero_iff.mp hlen]
      exact ⟨rfl, rfl⟩
  | succ count ih =>
    intro bytes v rest
    rw [parseMany, Parser.bind_eq_ok]
    constructor
    · rintro ⟨a, back, hfirst, hrest⟩
      obtain ⟨x, hx, rfl, rfl⟩ := (h _ _ _).mp hfirst
      obtain ⟨vs, back', hmany, hpure⟩ := Parser.bind_eq_ok.mp hrest
      obtain ⟨xs, ⟨hlen, hxs⟩, rfl, rfl⟩ := (ih _ _ _).mp hmany
      obtain ⟨rfl, rfl⟩ := Prod.mk.injEq .. ▸ Parser.pure_eq_ok.mp hpure
      refine ⟨x :: xs, ⟨by simp [hlen], by simpa using ⟨hx, hxs⟩⟩, ?_, rfl⟩
      simp only [List.flatMap_cons, List.append_assoc]
    · rintro ⟨xs, ⟨hlen, hxs⟩, rfl, rfl⟩
      cases xs with
      | nil => simp at hlen
      | cons x xs =>
        have hx := hxs x (by simp)
        refine ⟨_, xs.flatMap encode ++ rest, (h _ _ _).mpr ⟨x, hx, ?_, rfl⟩, Parser.bind_eq_ok.mpr ?_⟩
        · simp only [List.flatMap_cons, List.append_assoc]
        · exact ⟨_, rest, (ih _ _ _).mpr ⟨xs, ⟨by simpa using hlen, fun y hy => hxs y (by simp [hy])⟩, rfl, rfl⟩, rfl⟩

end Scans

end UtreexoBridge.Bytes
