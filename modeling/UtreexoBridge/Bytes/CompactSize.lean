import UtreexoBridge.Bytes.Reader

/-! # Bitcoin's variable-length integers -/

namespace UtreexoBridge.Bytes

def appendCompactSize (size : Nat) : List UInt8 :=
  if size < 253 then appendUnsigned 1 size
  else if size ≤ 0xffff then appendUnsigned 1 253 ++ appendUnsigned 2 size
  else if size ≤ 0xffffffff then appendUnsigned 1 254 ++ appendUnsigned 4 size
  else appendUnsigned 1 255 ++ appendUnsigned 8 size

def compactSizeBytes (value : Nat) : Nat :=
  if value < 253 then 1 else if value ≤ 0xffff then 3 else if value ≤ 0xffffffff then 5 else 9

/-- A longer form is refused where a shorter one exists. -/
def readCompactSize : Reader Nat := do
  let first ← readUnsigned 1
  if first < 253 then return first
  let value ← readUnsigned (if first = 253 then 2 else if first = 254 then 4 else 8)
  guard (if first = 253 then 253 ≤ value else if first = 254 then 0xffff < value else 0xffffffff < value)
  return value

@[simp] theorem length_appendCompactSize (size : Nat) : (appendCompactSize size).length = compactSizeBytes size := by
  unfold appendCompactSize compactSizeBytes
  split_ifs <;> simp

theorem reads_longSize (first width : Nat) {size : Nat} (hfirst : 253 ≤ first) (hbyte : first < 256)
    (hwidth : (if first = 253 then 2 else if first = 254 then 4 else 8) = width) (hsize : size < 256 ^ width)
    (hshort : if first = 253 then 253 ≤ size else if first = 254 then 0xffff < size else 0xffffffff < size) :
    Reads readCompactSize (appendUnsigned 1 first ++ appendUnsigned width size) size := by
  refine (reads_unsigned (by simpa using hbyte)).bind ?_
  rw [if_neg (by omega), hwidth]
  exact (reads_unsigned hsize).bind_last ((reads_guard hshort).bind_nil (reads_pure size))

theorem reads_compactSize {size : Nat} (h : size < 2 ^ 64) : Reads readCompactSize (appendCompactSize size) size := by
  unfold appendCompactSize
  split_ifs with h1 h2 h3
  · refine (reads_unsigned (by omega)).bind_last ?_
    rw [if_pos h1]
    exact reads_pure size
  · exact reads_longSize 253 2 (by omega) (by omega) rfl (by omega) (by simpa using h1)
  · exact reads_longSize 254 4 (by omega) (by omega) rfl (by omega) (by simpa using h2)
  · exact reads_longSize 255 8 (by omega) (by omega) rfl (by omega) (by simpa using h3)

end UtreexoBridge.Bytes
