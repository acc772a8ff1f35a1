import Mathlib.Algebra.Group.Nat.Defs
import Mathlib.Data.List.Basic
import Mathlib.Data.Nat.Basic

/-!
# Little-endian fields and a reader over bytes

A reader takes a value off the front of a byte list or fails. What a reader
gives back on what the matching writer wrote is a `Reads` fact, and the facts
of the parts compose to that of a whole record.
-/

namespace UtreexoBridge.Bytes

/-! ## Writing -/

def appendUnsigned : Nat → Nat → List UInt8
  | 0, _ => []
  | width + 1, value => UInt8.ofNat (value % 256) :: appendUnsigned width (value / 256)

def valueOf : List UInt8 → Nat
  | [] => 0
  | byte :: bytes => byte.toNat + 256 * valueOf bytes

@[simp] theorem length_appendUnsigned (width value : Nat) : (appendUnsigned width value).length = width := by
  induction width generalizing value with
  | zero => rfl
  | succ width ih => rw [appendUnsigned, List.length_cons, ih]

theorem valueOf_appendUnsigned (width value : Nat) (h : value < 256 ^ width) :
    valueOf (appendUnsigned width value) = value := by
  induction width generalizing value with
  | zero =>
    have : value = 0 := by simpa using h
    rw [this]
    rfl
  | succ width ih =>
    rw [appendUnsigned, valueOf, ih]
    · have hbyte : (UInt8.ofNat (value % 256)).toNat = value % 256 := by
        rw [UInt8.toNat_ofNat']
        omega
      rw [hbyte]
      omega
    · rw [Nat.pow_succ] at h
      omega

/-! ## Reading -/

abbrev Reader (α : Type) := StateT (List UInt8) Option α

def readBytes (count : Nat) : Reader (List UInt8) := fun bytes =>
  if count ≤ bytes.length then some (bytes.take count, bytes.drop count) else none

def readUnsigned (width : Nat) : Reader Nat := do
  let bytes ← readBytes width
  return valueOf bytes

def readMany {α : Type} (reader : Reader α) : Nat → Reader (List α)
  | 0 => pure []
  | count + 1 => do
    let value ← reader
    let values ← readMany reader count
    return value :: values

/-- On the bytes of `value`, whatever follows them, the reader gives `value` back. -/
def Reads {α : Type} (reader : Reader α) (bytes : List UInt8) (value : α) : Prop :=
  ∀ rest, reader (bytes ++ rest) = some (value, rest)

variable {α β : Type}

theorem reads_pure (value : α) : Reads (pure value) [] value := fun _ => rfl

theorem Reads.bind {reader : Reader α} {next : α → Reader β} {front back : List UInt8} {value : α} {result : β}
    (h : Reads reader front value) (hnext : Reads (next value) back result) :
    Reads (reader >>= next) (front ++ back) result := by
  intro rest
  show (reader (front ++ back ++ rest)).bind (fun p => next p.1 p.2) = _
  rw [List.append_assoc, h, Option.bind_some]
  exact hnext rest

theorem Reads.bind_nil {reader : Reader α} {next : α → Reader β} {bytes : List UInt8} {value : α} {result : β}
    (h : Reads reader [] value) (hnext : Reads (next value) bytes result) : Reads (reader >>= next) bytes result :=
  h.bind hnext

theorem Reads.bind_last {reader : Reader α} {next : α → Reader β} {bytes : List UInt8} {value : α} {result : β}
    (h : Reads reader bytes value) (hnext : Reads (next value) [] result) : Reads (reader >>= next) bytes result := by
  rw [← List.append_nil bytes]
  exact h.bind hnext

theorem reads_guard {p : Prop} [Decidable p] (h : p) : Reads (guard p) [] () := by
  intro rest
  rw [guard, if_pos h]
  rfl

theorem reads_lift {option : Option α} {value : α} (h : option = some value) : Reads (liftM option) [] value := by
  intro rest
  rw [h]
  rfl

theorem reads_bytes (bytes : List UInt8) : Reads (readBytes bytes.length) bytes bytes := by
  intro rest
  rw [readBytes, if_pos (by rw [List.length_append]; omega), List.take_left, List.drop_left]

theorem reads_unsigned {width value : Nat} (h : value < 256 ^ width) :
    Reads (readUnsigned width) (appendUnsigned width value) value := by
  have hbytes := reads_bytes (appendUnsigned width value)
  rw [length_appendUnsigned] at hbytes
  have hread : Reads (readUnsigned width) (appendUnsigned width value ++ []) (valueOf (appendUnsigned width value)) :=
    hbytes.bind (reads_pure _)
  rwa [List.append_nil, valueOf_appendUnsigned _ _ h] at hread

theorem reads_many {reader : Reader α} {write : α → List UInt8} {values : List α}
    (h : ∀ v ∈ values, Reads reader (write v) v) :
    Reads (readMany reader values.length) (values.flatMap write) values := by
  induction values with
  | nil => exact reads_pure _
  | cons v values ih =>
    rw [List.flatMap_cons]
    refine (h v (by simp)).bind ?_
    have hrest := ih fun w hw => h w (by simp [hw])
    rw [← List.append_nil (values.flatMap write)]
    exact hrest.bind (reads_pure _)

/-! ## What a reader leaves -/

theorem readBytes_eq_some {count : Nat} {bytes value rest : List UInt8}
    (h : readBytes count bytes = some (value, rest)) :
    value = bytes.take count ∧ rest = bytes.drop count ∧ count ≤ bytes.length := by
  unfold readBytes at h
  split_ifs at h with hle
  cases h
  exact ⟨rfl, rfl, hle⟩

end UtreexoBridge.Bytes
