import UtreexoBridge.Wal.Spec

/-! # A hash type for runs on concrete inputs -/

namespace UtreexoBridge

open Bytes

/-- A hash as its bytes, with a sum of bytes for SHA512/256. -/
structure ByteHash where
  bytes : List UInt8
  length_eq : bytes.length = 32
  deriving DecidableEq

def ByteHash.zero : ByteHash := ⟨List.replicate 32 0, rfl⟩

instance : StoredHash ByteHash where
  parentHash l r := ⟨List.zipWith (fun x y => x + 2 * y + 1) l.bytes r.bytes, by simp [l.length_eq, r.length_eq]⟩
  lowWord h := valueOf (h.bytes.take 8)
  null := .zero
  bytes h := h.bytes
  ofBytes bytes := if h : bytes.length = 32 then ⟨bytes, h⟩ else .zero
  sha512_256 _ := .zero
  length_bytes h := h.length_eq
  ofBytes_bytes h := dif_pos h.length_eq

def leafHash (n : Nat) : ByteHash := ⟨UInt8.ofNat n :: List.replicate 31 0, by simp⟩

end UtreexoBridge
