import UtreexoBridge.Bytes.Reader

/-!
# Readers with an error text

A parser of a stream gives a value and the bytes after it, or the text of its
error. As for readers, the facts about parts compose.
-/

namespace UtreexoBridge.Bytes

abbrev Parser (α : Type) := StateT (List UInt8) (Except String) α

def reading {α : Type} (message : String) (reader : Reader α) : Parser α := fun bytes =>
  match reader bytes with
  | none => .error message
  | some result => .ok result

def require (p : Prop) [Decidable p] (message : String) : Parser Unit := fun bytes =>
  if p then .ok ((), bytes) else .error message

/-- On the bytes of `value`, whatever follows them, the reader gives `value` back. -/
def Parses {α : Type} (reader : Parser α) (bytes : List UInt8) (value : α) : Prop :=
  ∀ rest, reader (bytes ++ rest) = .ok (value, rest)

variable {α β : Type}

theorem parses_pure (value : α) : Parses (pure value) [] value := fun _ => rfl

theorem Parses.bind {reader : Parser α} {next : α → Parser β} {front back : List UInt8} {value : α}
    {result : β} (h : Parses reader front value) (hnext : Parses (next value) back result) :
    Parses (reader >>= next) (front ++ back) result := by
  intro rest
  show (reader (front ++ back ++ rest)).bind (fun p => next p.1 p.2) = _
  rw [List.append_assoc, h]
  exact hnext rest

theorem Parses.bind_nil {reader : Parser α} {next : α → Parser β} {bytes : List UInt8} {value : α}
    {result : β} (h : Parses reader [] value) (hnext : Parses (next value) bytes result) :
    Parses (reader >>= next) bytes result := h.bind hnext

theorem Parses.bind_last {reader : Parser α} {next : α → Parser β} {bytes : List UInt8} {value : α}
    {result : β} (h : Parses reader bytes value) (hnext : Parses (next value) [] result) :
    Parses (reader >>= next) bytes result := by
  rw [← List.append_nil bytes]
  exact h.bind hnext

theorem parses_reading {message : String} {reader : Reader α} {bytes : List UInt8} {value : α}
    (h : Reads reader bytes value) : Parses (reading message reader) bytes value := by
  intro rest
  rw [reading, h]

theorem parses_require {p : Prop} [Decidable p] {message : String} (h : p) :
    Parses (require p message) [] () := by
  intro rest
  rw [require, if_pos h]
  rfl

/-! ## Bytes that are refused -/

/-- Whatever follows these bytes, the parser ends in an error. -/
def Fails (parser : Parser α) (bytes : List UInt8) : Prop := ∀ rest, ∃ message, parser (bytes ++ rest) = .error message

theorem Fails.bind {parser : Parser α} {next : α → Parser β} {bytes : List UInt8} (h : Fails parser bytes) :
    Fails (parser >>= next) bytes := by
  intro rest
  obtain ⟨message, hrun⟩ := h rest
  refine ⟨message, ?_⟩
  show (parser (bytes ++ rest)).bind (fun p => next p.1 p.2) = _
  rw [hrun]
  rfl

theorem Parses.bind_fails {parser : Parser α} {next : α → Parser β} {front back : List UInt8} {value : α}
    (h : Parses parser front value) (hnext : Fails (next value) back) : Fails (parser >>= next) (front ++ back) := by
  intro rest
  obtain ⟨message, hrun⟩ := hnext rest
  refine ⟨message, ?_⟩
  show (parser (front ++ back ++ rest)).bind (fun p => next p.1 p.2) = _
  rw [List.append_assoc, h]
  exact hrun

theorem Parses.bind_nil_fails {parser : Parser α} {next : α → Parser β} {bytes : List UInt8} {value : α}
    (h : Parses parser [] value) (hnext : Fails (next value) bytes) : Fails (parser >>= next) bytes := h.bind_fails hnext

theorem fails_require {p : Prop} [Decidable p] {message : String} {bytes : List UInt8} (h : ¬p) :
    Fails (require p message) bytes := by
  intro rest
  exact ⟨message, by rw [require, if_neg h]⟩

end UtreexoBridge.Bytes
